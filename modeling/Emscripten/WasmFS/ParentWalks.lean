-- SUMMARY: Threads that climb the parent pointers while others change the tree: where a null parent is dereferenced, and where every climb ends.
import Emscripten.WasmFS.Ancestry

/-!
# Climbing among threads

A rename, an unmount and `getcwd` climb from directory to directory and lock only the one
they are at, and `open` reads the parent of the directory whose listing it takes. Other
threads change the tree between two of these steps. Renames, unmounts and changes of the
working directory exclude each other by the lock of the `CWDTransition`; the directory
locks that a rename holds meanwhile are left out here, which allows more interleavings.
-/

namespace WasmFS

open Chain Prog

/-! ## Threads -/

/-- A rename that has looked up its file. -/
structure RenameWork where
  oldParent : FileId
  oldName : Name
  oldFile : FileId
  newParent : FileId
  newName : Name

/-- An unmount that has looked up its mount. -/
structure UnmountWork where
  parent : FileId
  childName : Name
  mount : FileId

/-- Where a thread is. -/
inductive Phase
  | idle
  /-- `__syscall_renameat`, at the head of its loop over the ancestors. -/
  | ancestors (w : RenameWork) (curr : Option FileId)
  /-- The loop has come to the root. -/
  | checked (w : RenameWork)
  /-- `cwdIsAtOrBelow` in `wasmfs_unmount`. -/
  | containment (w : UnmountWork) (current : FileId)
  /-- The working directory is elsewhere. -/
  | detach (w : UnmountWork)
  /-- The loop of `__syscall_getcwd`. -/
  | path (curr : FileId)
  /-- `OpenFileState::create`, before it reads the parent of the directory. -/
  | snapshot (d : FileId)
  /-- A null pointer has been dereferenced. -/
  | fault

/-- The phases that follow a parent pointer next. -/
def Phase.Climbing : Phase → Prop
  | .ancestors _ _ | .containment _ _ | .path _ | .snapshot _ => True
  | _ => False

/-- The phases that hold the lock of the `CWDTransition`. -/
def Phase.HoldsTransition : Phase → Prop
  | .ancestors _ _ | .checked _ | .containment _ _ | .detach _ => True
  | _ => False

/-- One locked step of a climb. -/
def Phase.next (s : FS) : Phase → Phase
  | .ancestors _ none => .fault
  | .ancestors w (some curr) =>
    if curr = s.rootDirectory then .checked w
    else if curr = w.oldFile then .idle
    else .ancestors w (s.file curr).parent
  | .containment w current =>
    if current = w.mount then .idle
    else match (s.file current).parent with
      | none => .detach w
      | some parent => if parent = current then .detach w else .containment w parent
  | .path curr =>
    if curr = s.rootDirectory then .idle
    else match admitFile curr s with
      | some (_, .ok _) =>
        match (s.file curr).parent with
        | none => .idle
        | some parent => .path parent
      | _ => .idle
  | .snapshot d =>
    match (s.file d).parent with
    | none => .fault
    | some _ => .idle
  | phase => phase

section Next

variable (s : FS) (w : RenameWork) (u : UnmountWork) (x : FileId)

theorem Phase.next_ancestors : (Phase.ancestors w (some x)).next s =
    if x = s.rootDirectory then .checked w else if x = w.oldFile then .idle
      else .ancestors w (s.file x).parent := rfl

theorem Phase.next_containment : (Phase.containment u x).next s =
    if x = u.mount then .idle else match (s.file x).parent with
      | none => .detach u
      | some parent => if parent = x then .detach u else .containment u parent := rfl

theorem Phase.next_path : (Phase.path x).next s =
    if x = s.rootDirectory then .idle else match admitFile x s with
      | some (_, .ok _) =>
        match (s.file x).parent with
        | none => .idle
        | some parent => .path parent
      | _ => .idle := rfl

theorem Phase.next_snapshot : (Phase.snapshot x).next s =
    match (s.file x).parent with
    | none => .fault
    | some _ => .idle := rfl

/-- `getcwd` goes on at the parent, or is done. -/
theorem Phase.next_path_cases : (Phase.path x).next s = .idle ∨
    x ≠ s.rootDirectory ∧ ∃ y, s.tree.parent x = some y ∧ (Phase.path x).next s = .path y := by
  rw [next_path]
  split
  · exact .inl rfl
  · next hroot =>
      split
      · split
        · exact .inl rfl
        · next y hy => exact .inr ⟨hroot, y, hy, rfl⟩
      · exact .inl rfl

theorem Phase.next_snapshot_cases :
    s.tree.parent x = none ∧ (Phase.snapshot x).next s = .fault ∨ (Phase.snapshot x).next s = .idle := by
  rw [next_snapshot]
  split
  · next hnone => exact .inl ⟨hnone, rfl⟩
  · exact .inr rfl

end Next

/-- Threads on one instance. -/
structure Climbers (T : Type) where
  fs : FS
  phase : T → Phase

namespace Climbers

variable {T : Type} [DecidableEq T]

def start (fs : FS) : Climbers T := ⟨fs, fun _ => .idle⟩

def setPhase (c : Climbers T) (t : T) (p : Phase) : Climbers T :=
  { c with phase := Function.update c.phase t p }

/-- Nobody holds the lock of the `CWDTransition`. -/
def Free (c : Climbers T) : Prop := ∀ t, ¬ (c.phase t).HoldsTransition

end Climbers

/-- A locked step of a call that moves nothing: it makes or mounts a file, or removes a
name; or a directory that nobody holds is destroyed, or something happens that leaves the
tree as it is. The directory and the name may have been found long ago. -/
inductive FS.Locked (s : FS) : FS → Prop
  | insert (d : FileId) (n : Name) (x : File) (s' : FS) (hd : s.IsDir d)
      (hp : s.tree.parent d ≠ none) (hfree : s.tree.child d n = none) (hx : x.Blank)
      (h : Directory.insertNew d n x s = some (s', .ok s.nextFile)) : FS.Locked s s'
  | mount (d : FileId) (n : Name) (x : File) (s' : FS) (hd : s.IsDir d)
      (hp : s.tree.parent d ≠ none) (hfree : s.tree.child d n = none) (hx : x.Blank)
      (h : Directory.mountChild d n s.nextFile (s.addFile x) = some (s', .ok true)) : FS.Locked s s'
  | remove (d : FileId) (n : Name) (f : FileId) (s' : FS) (hfound : s.tree.child d n = some f)
      (h : Directory.removeChild d n s = some (s', .ok ())) : FS.Locked s s'
  | expire (d : FileId) (h : ¬ s.Held d) : FS.Locked s (s.expire d)
  | kept (s' : FS) (h : s.KeepsTree s') : FS.Locked s s'

namespace Climbers

variable {T : Type} [DecidableEq T]

/-- The steps of the threads, in any order. -/
inductive Step (c : Climbers T) : Climbers T → Prop
  | climb (t : T) (h : (c.phase t).Climbing) : Step c (c.setPhase t ((c.phase t).next c.fs))
  | getcwd (t : T) (h : c.phase t = .idle) : Step c (c.setPhase t (.path c.fs.cwd))
  | openDirectory (t : T) (d : FileId) (h : c.phase t = .idle) (hd : c.fs.IsDir d) :
      Step c (c.setPhase t (.snapshot d))
  | rename (t : T) (w : RenameWork) (h : c.phase t = .idle) (hfree : c.Free)
      (hP : c.fs.IsDir w.oldParent) (hQ : c.fs.IsDir w.newParent)
      (hfound : c.fs.tree.child w.oldParent w.oldName = some w.oldFile)
      (hnew : c.fs.tree.child w.newParent w.newName ≠ some w.oldFile)
      (hroot : w.oldFile ≠ c.fs.rootDirectory) :
      Step c (c.setPhase t (.ancestors w (some w.newParent)))
  /-- The file that would be replaced is in the way. -/
  | refuse (t : T) (w : RenameWork) (h : c.phase t = .checked w) : Step c (c.setPhase t .idle)
  | move (t : T) (w : RenameWork) (fs' : FS) (r : Except Errno Unit) (h : c.phase t = .checked w)
      (hmove : Directory.insertMove w.newParent w.newName w.oldFile c.fs = some (fs', r)) :
      Step c ({ c with fs := fs' }.setPhase t .idle)
  | moveFault (t : T) (w : RenameWork) (h : c.phase t = .checked w)
      (hmove : Directory.insertMove w.newParent w.newName w.oldFile c.fs = none) :
      Step c (c.setPhase t .fault)
  | unmount (t : T) (w : UnmountWork) (h : c.phase t = .idle) (hfree : c.Free)
      (hfound : c.fs.tree.child w.parent w.childName = some w.mount) :
      Step c (c.setPhase t (.containment w c.fs.cwd))
  | detach (t : T) (w : UnmountWork) (fs' : FS) (h : c.phase t = .detach w)
      (hfound : c.fs.tree.child w.parent w.childName = some w.mount)
      (hremove : Directory.removeChild w.parent w.childName c.fs = some (fs', .ok ())) :
      Step c ({ c with fs := fs' }.setPhase t .idle)
  /-- Another file has come under the name. -/
  | again (t : T) (w : UnmountWork) (mount : FileId) (h : c.phase t = .detach w)
      (hfound : c.fs.tree.child w.parent w.childName = some mount) :
      Step c (c.setPhase t (.containment { w with mount := mount } c.fs.cwd))
  | gone (t : T) (w : UnmountWork) (h : c.phase t = .detach w) : Step c (c.setPhase t .idle)
  | chdir (t : T) (f : FileId) (h : c.phase t = .idle) (hfree : c.Free) (hf : c.fs.IsDir f) :
      Step c { c with fs := { c.fs with cwd := f } }
  /-- A step of an idle thread, or of none. -/
  | locked (fs' : FS) (h : c.fs.Locked fs') : Step c { c with fs := fs' }

/-- What threads reach that start on a reachable instance. -/
def Reached (c : Climbers T) : Prop :=
  ∃ s, Reachable s ∧ Relation.ReflTransGen Step (start s) c

end Climbers

/-! ## What the other threads do -/

section Locked

variable {s s' : FS}

/-- Files stay, and no pointer is turned. -/
structure FS.Drifts (s s' : FS) : Prop where
  nextFile : s.nextFile ≤ s'.nextFile
  kind : ∀ f, f < s.nextFile → (s'.file f).kind = (s.file f).kind
  root : s'.rootDirectory = s.rootDirectory
  parent : ∀ x y, s.tree.parent x = some y →
    s'.tree.parent x = some y ∨ s'.tree.parent x = none
  below : ∀ m f, f < s.nextFile → s'.tree.Below m f → s.tree.Below m f
  chainsEnd : s.ChainsEnd → s'.ChainsEnd

theorem FS.Drifts.of_clears (hnext : s.nextFile ≤ s'.nextFile)
    (hkind : ∀ f, f < s.nextFile → (s'.file f).kind = (s.file f).kind)
    (hroot : s'.rootDirectory = s.rootDirectory) (h : Clears s.tree.parent s'.tree.parent) :
    s.Drifts s' where
  nextFile := hnext
  kind := hkind
  root := hroot
  parent x y hx := (h x).imp (fun hsame => hsame.trans hx) id
  below m f _ hbelow := h.reaches hbelow
  chainsEnd hends f := by
    rw [hroot]
    exact h.ends (hends f)

theorem FS.Grown.drifts {d f : FileId} {n : Name} (h : s.Grown s' d n f) (hs : s.TreeSound) :
    s.Drifts s' := by
  have hattaches := h.attaches hs
  have hroot : s'.rootDirectory = s.rootDirectory := by
    rcases h.tree with htree | htree
    · exact congrArg Tree.root htree
    · exact congrArg Tree.root htree
  refine ⟨h.nextFile, h.kind, hroot, fun x y hx => ?_, fun m g hg hbelow => ?_, fun hends g => ?_⟩
  · rcases hattaches.cases x with hsame | hnone | ⟨rfl, _⟩
    · exact .inl (hsame.trans hx)
    · exact .inr hnone
    · rw [hs.within.blank_parent x h.fresh] at hx
      cases hx
  · rcases hattaches.reaches hbelow with hold | ⟨hgf, _⟩
    · exact hold
    · exact absurd (hs.within.eq_of_below h.fresh hgf) (Nat.ne_of_lt (Nat.lt_of_lt_of_le hg h.fresh))
  · rw [hroot]
    exact hattaches.ends hends g

theorem FS.Locked.spec (h : s.Locked s') (hs : s.TreeSound) : s'.TreeSound ∧ s.Drifts s' := by
  cases h with
  | insert d n x _ hd hp hfree hx h =>
    obtain ⟨s₁, hrun, _, hsound, hgrown⟩ := insertNew_spec hs hd hp hfree hx
    rw [hrun] at h
    cases h
    exact ⟨hsound, hgrown.drifts hs⟩
  | mount d n x _ hd hp hfree hx h =>
    obtain ⟨s₁, hrun, _, hsound, hgrown⟩ := mountNew_spec hs hd hp hfree hx
    rw [hrun] at h
    cases h
    exact ⟨hsound, hgrown.drifts hs⟩
  | remove d n f _ hfound h =>
    obtain ⟨s₁, hrun, hedit, hsound, hnext, htree⟩ := hs.removeChild d n
    rw [hrun] at h
    cases h
    refine ⟨hsound, .of_clears hedit.table.nextFile hedit.table.kind hedit.root ?_⟩
    rw [htree]
    exact s.tree.clears_removeChild d n
  | expire d hd =>
    refine ⟨hs.expire ?_, .of_clears (Nat.le_refl _) (fun _ _ => rfl) rfl (s.clears_expire d)⟩
    rintro rfl
    exact hd .root
  | kept _ hkept =>
    refine ⟨hs.keep hkept, .of_clears hkept.nextFile hkept.kind (congrArg Tree.root hkept.tree) ?_⟩
    rw [hkept.tree]
    exact fun _ => .inl rfl

end Locked

/-! ## The way of a rename's check -/

namespace Tree

variable {t t' : Tree} {f x y z : FileId}

/-- The chain from `x` comes to the root or to `f`. -/
inductive Arrives (t : Tree) (f : FileId) : FileId → Prop
  | root : Arrives t f t.root
  | found : Arrives t f f
  | up {x y : FileId} (hp : t.parent x = some y) (h : Arrives t f y) : Arrives t f x

/-- A check at `x` still has to follow the parent pointer of `z`. -/
inductive Awaits (t : Tree) (f : FileId) : FileId → FileId → Prop
  | here {x : FileId} (hroot : x ≠ t.root) (hf : x ≠ f) : Awaits t f x x
  | up {x y z : FileId} (hroot : x ≠ t.root) (hf : x ≠ f) (hp : t.parent x = some y)
      (h : Awaits t f y z) : Awaits t f x z

/-- The chain from `x` comes to `z`, and not to `f` before. -/
inductive Passes (t : Tree) (f : FileId) : FileId → FileId → Prop
  | refl (x : FileId) : Passes t f x x
  | head {x y z : FileId} (hf : x ≠ f) (hp : t.parent x = some y) (h : Passes t f y z) : Passes t f x z

theorem Arrives.keep (h : t.Arrives f x) (hroot : t'.root = t.root)
    (hkeep : ∀ x y, t.parent x = some y → t'.parent x = some y ∨ t'.parent x = none)
    (hawaits : ∀ z, t.Awaits f x z → t.parent z ≠ none → t'.parent z ≠ none) : t'.Arrives f x := by
  induction h with
  | root => exact hroot ▸ .root
  | found => exact .found
  | @up x y hp _ ih =>
    by_cases hx : x = t.root
    · rw [hx, ← hroot]
      exact .root
    by_cases hf : x = f
    · exact hf ▸ .found
    rcases hkeep x y hp with hsame | hnone
    · exact .up hsame (ih fun z hz => hawaits z (.up hx hf hp hz))
    · exact absurd hnone (hawaits x (.here hx hf) (by rw [hp]; simp))

theorem Passes.snoc (h : t.Passes f x y) (hf : y ≠ f) (hp : t.parent y = some z) : t.Passes f x z := by
  induction h with
  | refl x => exact .head hf hp (.refl z)
  | head hx hpx _ ih => exact .head hx hpx (ih hf hp)

/-- What lies above the start and is not passed lies above the end. -/
theorem Passes.comes (h : t.Passes f x z) (hbelow : t.Below f x) : t.Below f z := by
  induction h with
  | refl x => exact hbelow
  | head hx hp _ ih =>
    refine ih (below_of_parent (.inl hp) hx hbelow)

/-- When pointers are cleared the chain is as it was, or it ends before it comes to `f`. -/
theorem Passes.keep (h : t.Passes f x z)
    (hkeep : ∀ x y, t.parent x = some y → t'.parent x = some y ∨ t'.parent x = none) :
    t'.Passes f x z ∨ ¬ t'.Below f x := by
  induction h with
  | refl x => exact .inl (.refl x)
  | head hx hp _ ih =>
    rcases hkeep _ _ hp with hsame | hnone
    · refine ih.imp (fun hpass => .head hx hsame hpass) fun hno hbelow => hno ?_
      exact below_of_parent (.inl hsame) hx hbelow
    · exact .inr fun hbelow => hx (Reaches.eq_of_none hbelow hnone)

end Tree

/-! ## What holds of all threads -/

/-- The renamed file and the directory it moves to exist. -/
structure RenameWork.Valid (s : FS) (w : RenameWork) : Prop where
  lt : w.oldFile < s.nextFile
  not_root : w.oldFile ≠ s.rootDirectory
  dir : s.IsDir w.newParent

/-- A check that has come far has passed all below, and a check that is done has found the
new parent elsewhere. -/
def Phase.Valid (s : FS) : Phase → Prop
  | .ancestors w curr => w.Valid s ∧
      ((∃ x, curr = some x ∧ s.tree.Passes w.oldFile w.newParent x) ∨
        ¬ s.tree.Below w.oldFile w.newParent)
  | .checked w => w.Valid s ∧ ¬ s.tree.Below w.oldFile w.newParent
  | _ => True

section Valid

variable {s s' : FS} {p : Phase} {w : RenameWork}

theorem RenameWork.Valid.drift (h : w.Valid s) (hs : s.Drifts s') : w.Valid s' where
  lt := Nat.lt_of_lt_of_le h.lt hs.nextFile
  not_root := hs.root ▸ h.not_root
  dir := h.dir.keep hs.nextFile hs.kind

theorem Phase.Valid.drift (h : p.Valid s) (hs : s.Drifts s') : p.Valid s' := by
  cases p with
  | ancestors w curr =>
    obtain ⟨hw, hway⟩ := h
    refine ⟨hw.drift hs, ?_⟩
    rcases hway with ⟨x, rfl, hpass⟩ | hno
    · exact (hpass.keep hs.parent).imp (fun hpass => ⟨x, rfl, hpass⟩) id
    · exact .inr fun hbelow => hno (hs.below _ _ hw.dir.1 hbelow)
  | checked w =>
    obtain ⟨hw, hno⟩ := h
    exact ⟨hw.drift hs, fun hbelow => hno (hs.below _ _ hw.dir.1 hbelow)⟩
  | _ => trivial

theorem Phase.valid_of_not_holds (h : ¬ p.HoldsTransition) : p.Valid s := by
  cases p with
  | ancestors w curr => exact absurd trivial h
  | checked w => exact absurd trivial h
  | _ => trivial

theorem Phase.holds_of_next (h : (p.next s).HoldsTransition) (hp : p.Climbing) : p.HoldsTransition := by
  cases p with
  | ancestors w curr => trivial
  | containment w current => trivial
  | path curr =>
    rcases Phase.next_path_cases s curr with heq | ⟨_, y, _, heq⟩
    · rw [heq] at h
      exact h
    · rw [heq] at h
      exact h
  | snapshot d =>
    rcases Phase.next_snapshot_cases s d with ⟨_, heq⟩ | heq
    · rw [heq] at h
      exact h
    · rw [heq] at h
      exact h
  | _ => exact hp.elim

theorem Phase.Valid.next (h : p.Valid s) (hs : s.TreeSound) (hp : p.Climbing) : (p.next s).Valid s := by
  by_cases hholds : (p.next s).HoldsTransition
  swap
  · exact Phase.valid_of_not_holds hholds
  cases p with
  | ancestors w curr =>
    obtain ⟨hw, hway⟩ := h
    cases curr with
    | none => exact hholds.elim
    | some curr =>
      rw [Phase.next_ancestors]
      split
      · next hroot =>
          refine ⟨hw, fun hbelow => ?_⟩
          rcases hway with ⟨x, hx, hpass⟩ | hno
          · obtain rfl := Option.some.inj hx
            have hcome := hpass.comes hbelow
            rw [hroot] at hcome
            exact hw.not_root (hs.linked.eq_root_of_below hcome)
          · exact hno hbelow
      · split
        · trivial
        · next hne =>
            refine ⟨hw, ?_⟩
            rcases hway with ⟨x, hx, hpass⟩ | hno
            · obtain rfl := Option.some.inj hx
              cases hparent : (s.file curr).parent with
              | none =>
                refine .inr fun hbelow => hne ?_
                exact Reaches.eq_of_none (hpass.comes hbelow) hparent
              | some y => exact .inl ⟨y, rfl, hpass.snoc hne hparent⟩
            · exact .inr hno
  | containment w current =>
    rw [Phase.next_containment]
    split
    · trivial
    · split
      · trivial
      · split
        · trivial
        · trivial
  | path curr => exact absurd (Phase.holds_of_next hholds hp) id
  | snapshot d => exact absurd (Phase.holds_of_next hholds hp) id
  | _ => exact hp.elim

end Valid

namespace Climbers

variable {T : Type} [DecidableEq T] {c c' : Climbers T}

structure Valid (c : Climbers T) : Prop where
  sound : c.fs.TreeSound
  chainsEnd : c.fs.ChainsEnd
  exclusive : ∀ t u, (c.phase t).HoldsTransition → (c.phase u).HoldsTransition → t = u
  phase : ∀ t, (c.phase t).Valid c.fs

/-- A thread goes on to a phase that is in order, and takes the lock only when it is free. -/
theorem Valid.setPhase (h : c.Valid) {t : T} {p : Phase} (hp : p.Valid c.fs)
    (hlock : p.HoldsTransition → (c.phase t).HoldsTransition ∨ c.Free) : (c.setPhase t p).Valid := by
  refine ⟨h.sound, h.chainsEnd, fun u v hu hv => ?_, fun u => ?_⟩
  · have hother : ∀ v, v ≠ t → p.HoldsTransition → ¬ (c.phase v).HoldsTransition := by
      intro v hv hholds hv'
      rcases hlock hholds with ht | hfree
      · exact hv (h.exclusive v t hv' ht)
      · exact hfree v hv'
    change (Function.update c.phase t p u).HoldsTransition at hu
    change (Function.update c.phase t p v).HoldsTransition at hv
    rw [Function.update_apply] at hu hv
    by_cases hut : u = t
    · rw [if_pos hut] at hu
      by_cases hvt : v = t
      · exact hut.trans hvt.symm
      · rw [if_neg hvt] at hv
        exact absurd hv (hother v hvt hu)
    · rw [if_neg hut] at hu
      by_cases hvt : v = t
      · rw [if_pos hvt] at hv
        exact absurd hu (hother u hut hv)
      · rw [if_neg hvt] at hv
        exact h.exclusive u v hu hv
  · change (Function.update c.phase t p u).Valid c.fs
    rw [Function.update_apply]
    split
    · exact hp
    · exact h.phase u

omit [DecidableEq T] in
/-- The tree changes without a move. -/
theorem Valid.drift (h : c.Valid) {fs' : FS} (hsound : fs'.TreeSound) (hdrift : c.fs.Drifts fs') :
    Valid { c with fs := fs' } :=
  ⟨hsound, hdrift.chainsEnd h.chainsEnd, h.exclusive, fun t => (h.phase t).drift hdrift⟩

/-- What a move does to the state: nothing, in an unlinked directory. -/
theorem insertMove_cases {s s' : FS} {r : Except Errno Unit} {w : RenameWork} (hs : s.TreeSound)
    (hw : w.Valid s) (hno : ¬ s.tree.Below w.oldFile w.newParent)
    (h : Directory.insertMove w.newParent w.newName w.oldFile s = some (s', r)) :
    s' = s ∨ s'.TreeSound ∧ s'.rootDirectory = s.rootDirectory ∧
      Attaches s.tree.parent s'.tree.parent w.oldFile w.newParent := by
  cases hp : (s.file w.newParent).parent with
  | none =>
    unfold Directory.insertMove at h
    rw [if_pos hp] at h
    cases h
    exact .inl rfl
  | some p =>
    have hpne : (s.file w.newParent).parent ≠ none := by
      rw [hp]
      simp
    cases hf : (s.file w.oldFile).parent with
    | none =>
      unfold Directory.insertMove at h
      rw [if_neg hpne, hf] at h
      cases h
    | some R =>
      have hne : w.oldFile ≠ w.newParent := fun heq => hno (heq ▸ .refl _)
      obtain ⟨s₁, hrun, hedit, hsound, _, hmoved⟩ :=
        hs.insertMove (b := w.newName) hw.dir hpne hf hw.lt hw.not_root hne
      rw [hrun] at h
      cases h
      exact .inr ⟨hsound, hedit.root, hmoved.attaches hno⟩

theorem Valid.step (h : c.Valid) (hstep : Step c c') : c'.Valid := by
  cases hstep with
  | climb t hclimb =>
    exact h.setPhase ((h.phase t).next h.sound hclimb) fun hholds =>
      .inl (Phase.holds_of_next hholds hclimb)
  | getcwd t _ => exact h.setPhase trivial fun hholds => hholds.elim
  | openDirectory t d _ _ => exact h.setPhase trivial fun hholds => hholds.elim
  | rename t w _ hfree hP hQ hfound _ hroot =>
    have hlt := h.sound.linked.child_lt h.sound.within hP.1 hfound
    exact h.setPhase ⟨⟨hlt, hroot, hQ⟩, .inl ⟨w.newParent, rfl, .refl _⟩⟩ fun _ => .inr hfree
  | refuse t w _ => exact h.setPhase trivial fun hholds => hholds.elim
  | move t w fs' r hphase hmove =>
    have ht := h.phase t
    rw [hphase] at ht
    rcases insertMove_cases h.sound ht.1 ht.2 hmove with rfl | ⟨hsound, hroot, hattaches⟩
    · exact h.setPhase trivial fun hholds => hholds.elim
    · have hothers : ∀ u, ¬ ((c.setPhase t .idle).phase u).HoldsTransition := by
        intro u hu
        change (Function.update c.phase t .idle u).HoldsTransition at hu
        rw [Function.update_apply] at hu
        split at hu
        · exact hu
        · next hne =>
            have hholds : (c.phase t).HoldsTransition := by
              rw [hphase]
              trivial
            exact hne (h.exclusive u t hu hholds)
      refine ⟨hsound, fun f => ?_, fun u v hu _ => absurd hu (hothers u), fun u =>
        Phase.valid_of_not_holds (hothers u)⟩
      change Ends fs'.tree.parent fs'.rootDirectory f
      rw [hroot]
      exact hattaches.ends h.chainsEnd f
  | moveFault t w _ _ => exact h.setPhase trivial fun hholds => hholds.elim
  | unmount t w _ hfree _ => exact h.setPhase trivial fun _ => .inr hfree
  | detach t w fs' hphase hfound hremove =>
    obtain ⟨hsound, hdrift⟩ := FS.Locked.spec (.remove _ _ _ _ hfound hremove) h.sound
    exact (h.drift hsound hdrift).setPhase trivial fun hholds => hholds.elim
  | again t w mount hphase _ =>
    refine h.setPhase trivial fun _ => .inl ?_
    rw [hphase]
    trivial
  | gone t w _ => exact h.setPhase trivial fun hholds => hholds.elim
  | chdir t f _ hfree hf =>
    refine ⟨⟨h.sound.linked, h.sound.within, h.sound.leaf, h.sound.root_dir, hf⟩, h.chainsEnd,
      h.exclusive, fun u => Phase.valid_of_not_holds (hfree u)⟩
  | locked fs' hlocked =>
    obtain ⟨hsound, hdrift⟩ := hlocked.spec h.sound
    exact h.drift hsound hdrift

theorem Reached.valid (h : Reached c) : c.Valid := by
  obtain ⟨s, hs, hrun⟩ := h
  induction hrun with
  | refl => exact ⟨hs.sound.tree, hs.chainsEnd, fun _ _ ht => ht.elim, fun _ => trivial⟩
  | tail _ hstep ih => exact ih.step hstep

end Climbers

/-! ## Every climb ends -/

section Ends

variable {s : FS} {k : Nat} {x : FileId}

/-- Left alone, the check of a rename does what `checkNotAncestor` does. -/
theorem ancestors_alone (h : EndsIn s.tree.parent s.rootDirectory k x) (w : RenameWork) :
    ∃ j ≤ k + 2, (Phase.next s)^[j] (.ancestors w (some x)) =
      match checkNotAncestor w.oldFile (k + 1) x s with
      | none => .fault
      | some (_, .ok _) => .checked w
      | some (_, .error _) => .idle := by
  induction h with
  | top k =>
    refine ⟨1, Nat.succ_le_succ (Nat.zero_le _), ?_⟩
    unfold checkNotAncestor
    rw [Function.iterate_one, Phase.next_ancestors, if_pos rfl, if_pos rfl]
  | @stop k x hx =>
    have hp : (s.file x).parent = none := hx
    unfold checkNotAncestor
    by_cases hroot : x = s.rootDirectory
    · refine ⟨1, Nat.succ_le_succ (Nat.zero_le _), ?_⟩
      rw [Function.iterate_one, Phase.next_ancestors, if_pos hroot, if_pos hroot]
    by_cases hf : x = w.oldFile
    · refine ⟨1, Nat.succ_le_succ (Nat.zero_le _), ?_⟩
      rw [Function.iterate_one, Phase.next_ancestors, if_neg hroot, if_neg hroot, if_pos hf, if_pos hf]
    · refine ⟨2, Nat.le_add_left 2 k, ?_⟩
      rw [Function.iterate_succ_apply, Function.iterate_one, Phase.next_ancestors, if_neg hroot,
        if_neg hroot, if_neg hf, if_neg hf, hp]
      rfl
  | @step k x y hx _ ih =>
    have hp : (s.file x).parent = some y := hx
    unfold checkNotAncestor
    by_cases hroot : x = s.rootDirectory
    · refine ⟨1, Nat.succ_le_succ (Nat.zero_le _), ?_⟩
      rw [Function.iterate_one, Phase.next_ancestors, if_pos hroot, if_pos hroot]
    by_cases hf : x = w.oldFile
    · refine ⟨1, Nat.succ_le_succ (Nat.zero_le _), ?_⟩
      rw [Function.iterate_one, Phase.next_ancestors, if_neg hroot, if_neg hroot, if_pos hf, if_pos hf]
    · obtain ⟨j, hj, heq⟩ := ih
      refine ⟨j + 1, Nat.succ_le_succ hj, ?_⟩
      rw [Function.iterate_succ_apply, Phase.next_ancestors, if_neg hroot, if_neg hroot, if_neg hf,
        if_neg hf, hp]
      exact heq

/-- Left alone, the check of an unmount does what `cwdIsAtOrBelow` does. -/
theorem containment_alone (hs : s.TreeSound) (h : EndsIn s.tree.parent s.rootDirectory k x) (w : UnmountWork) :
    ∃ j ≤ k + 2, (Phase.next s)^[j] (.containment w x) =
      if s.cwdIsAtOrBelow w.mount (k + 1) x = some true then .idle else .detach w := by
  have hround : ∀ {p : Option FileId} {k : Nat} {x : FileId}, (s.file x).parent = p →
      (x ≠ w.mount → ∀ y, p = some y → y ≠ x → ∃ j ≤ k + 1, (Phase.next s)^[j] (.containment w y) =
        if s.cwdIsAtOrBelow w.mount k y = some true then .idle else .detach w) →
      ∃ j ≤ k + 2, (Phase.next s)^[j] (.containment w x) =
        if s.cwdIsAtOrBelow w.mount (k + 1) x = some true then .idle else .detach w := by
    intro p k x hp hrest
    unfold FS.cwdIsAtOrBelow
    by_cases hm : x = w.mount
    · refine ⟨1, Nat.succ_le_succ (Nat.zero_le _), ?_⟩
      rw [Function.iterate_one, Phase.next_containment, if_pos hm, if_pos hm, if_pos rfl]
    rw [if_neg hm, hp]
    cases p with
    | none =>
      refine ⟨1, Nat.succ_le_succ (Nat.zero_le _), ?_⟩
      rw [Function.iterate_one, Phase.next_containment, if_neg hm, hp]
      rfl
    | some y =>
      by_cases hyx : y = x
      · refine ⟨1, Nat.succ_le_succ (Nat.zero_le _), ?_⟩
        rw [Function.iterate_one, Phase.next_containment, if_neg hm, hp]
        simp [hyx]
      · obtain ⟨j, hj, heq⟩ := hrest hm y rfl hyx
        refine ⟨j + 1, Nat.succ_le_succ hj, ?_⟩
        rw [Function.iterate_succ_apply, Phase.next_containment, if_neg hm, hp]
        simp only [if_neg hyx]
        exact heq
  induction h with
  | top k =>
    refine hround hs.linked.root_parent fun _ y hy hne => ?_
    exact absurd (Option.some.inj hy).symm hne
  | @stop k x hx => exact hround hx fun _ y hy => by cases hy
  | @step k x y hx _ ih =>
    refine hround hx fun _ z hz _ => ?_
    cases hz
    exact ih

theorem path_alone (h : EndsIn s.tree.parent s.rootDirectory k x) :
    ∃ j ≤ k + 1, (Phase.next s)^[j] (.path x) = .idle := by
  have hround : ∀ {k : Nat} {x : FileId}, (x ≠ s.rootDirectory → ∀ y, s.tree.parent x = some y →
      ∃ j ≤ k, (Phase.next s)^[j] (.path y) = .idle) →
        ∃ j ≤ k + 1, (Phase.next s)^[j] (.path x) = .idle := by
    intro k x hrest
    rcases Phase.next_path_cases s x with heq | ⟨hroot, y, hy, heq⟩
    · exact ⟨1, Nat.succ_le_succ (Nat.zero_le _), heq⟩
    · obtain ⟨j, hj, hend⟩ := hrest hroot y hy
      refine ⟨j + 1, Nat.succ_le_succ hj, ?_⟩
      rw [Function.iterate_succ_apply, heq]
      exact hend
  induction h with
  | top k => exact hround fun hroot => absurd rfl hroot
  | @stop k x hx =>
    refine hround fun _ y hy => ?_
    rw [hx] at hy
    cases hy
  | @step k x y hx _ ih =>
    refine hround fun _ z hz => ?_
    obtain rfl := Option.some.inj (hx.symm.trans hz)
    exact ih

/-- Every climb ends after no more steps than there are files, and two. -/
theorem Phase.climb_ends (hs : s.TreeSound) (hends : s.ChainsEnd) (p : Phase) :
    ∃ j ≤ s.nextFile + 2, ¬ ((Phase.next s)^[j] p).Climbing := by
  have hbound : 1 ≤ s.nextFile + 2 := Nat.succ_le_succ (Nat.zero_le _)
  cases p with
  | ancestors w curr =>
    cases curr with
    | none => exact ⟨1, hbound, id⟩
    | some x =>
      obtain ⟨j, hj, heq⟩ := ancestors_alone (hends.endsIn hs x) w
      refine ⟨j, hj, ?_⟩
      rw [heq]
      split
      · exact id
      · exact id
      · exact id
  | containment w x =>
    obtain ⟨j, hj, heq⟩ := containment_alone hs (hends.endsIn hs x) w
    refine ⟨j, hj, ?_⟩
    rw [heq]
    split
    · exact id
    · exact id
  | path x =>
    obtain ⟨j, hj, heq⟩ := path_alone (hends.endsIn hs x)
    refine ⟨j, Nat.le_succ_of_le hj, ?_⟩
    rw [heq]
    exact id
  | snapshot d =>
    refine ⟨1, hbound, ?_⟩
    rw [Function.iterate_one]
    rcases Phase.next_snapshot_cases s d with ⟨_, heq⟩ | heq
    · rw [heq]
      exact id
    · rw [heq]
      exact id
  | idle | checked _ | detach _ | fault => exact ⟨0, Nat.zero_le _, id⟩

end Ends

/-! ## Null parents -/

/-- A thread at this phase still has to follow the parent pointer of `x` without testing
it: a rename on its way up and then that of the file it moves, an open that of its
directory. -/
def Phase.Needs (s : FS) (x : FileId) : Phase → Prop
  | .ancestors w (some curr) => s.tree.Awaits w.oldFile curr x ∨ x = w.oldFile
  | .checked w => x = w.oldFile
  | .snapshot d => x = d
  | _ => False

/-- The pointers that the thread needs are there. -/
def Phase.Safe (s : FS) : Phase → Prop
  | .ancestors w curr => s.tree.parent w.oldFile ≠ none ∧
      ∃ x, curr = some x ∧ s.tree.Arrives w.oldFile x
  | .checked w => s.tree.parent w.oldFile ≠ none
  | .snapshot d => s.tree.parent d ≠ none
  | .fault => False
  | _ => True

namespace Climbers

variable {T : Type} [DecidableEq T] {c c' : Climbers T}

/-- What keeps a step from a null pointer. A rename starts where the chain from its new
parent comes to the root or to the file it moves, and an open at a directory that has a
parent; and no step clears a pointer that some thread still has to follow. -/
structure Spares (c c' : Climbers T) : Prop where
  renames : ∀ t w, c.phase t = .idle → c'.phase t = .ancestors w (some w.newParent) →
    c.fs.tree.parent w.oldFile ≠ none ∧ c.fs.tree.Arrives w.oldFile w.newParent
  opens : ∀ t d, c.phase t = .idle → c'.phase t = .snapshot d → c.fs.tree.parent d ≠ none
  clears : ∀ t x, (c.phase t).Needs c.fs x → c.fs.tree.parent x ≠ none → c'.fs.tree.parent x ≠ none

end Climbers

section Safe

variable {s s' : FS} {p : Phase}

theorem Phase.Safe.next (h : p.Safe s) (hp : p.Climbing) : (p.next s).Safe s := by
  cases p with
  | ancestors w curr =>
    obtain ⟨hfile, x, rfl, harrives⟩ := h
    rw [Phase.next_ancestors]
    split
    · exact hfile
    · next hroot =>
        split
        · trivial
        · next hf =>
            refine ⟨hfile, ?_⟩
            cases harrives with
            | root => exact absurd rfl hroot
            | found => exact absurd rfl hf
            | @up _ y hy hrest => exact ⟨y, hy, hrest⟩
  | containment w x =>
    rw [Phase.next_containment]
    split
    · trivial
    · split
      · trivial
      · split
        · trivial
        · trivial
  | path x =>
    rcases Phase.next_path_cases s x with heq | ⟨_, y, _, heq⟩
    · rw [heq]
      trivial
    · rw [heq]
      trivial
  | snapshot d =>
    rcases Phase.next_snapshot_cases s d with ⟨hnone, _⟩ | heq
    · exact absurd hnone h
    · rw [heq]
      trivial
  | _ => exact hp.elim

/-- A phase stays safe while the pointers it needs stay. -/
theorem Phase.Safe.keep (h : p.Safe s) (hroot : s'.rootDirectory = s.rootDirectory)
    (hparent : p.HoldsTransition → ∀ x y, s.tree.parent x = some y →
      s'.tree.parent x = some y ∨ s'.tree.parent x = none)
    (hclears : ∀ x, p.Needs s x → s.tree.parent x ≠ none → s'.tree.parent x ≠ none) : p.Safe s' := by
  cases p with
  | ancestors w curr =>
    obtain ⟨hfile, x, rfl, harrives⟩ := h
    refine ⟨hclears _ (.inr rfl) hfile, x, rfl, ?_⟩
    exact harrives.keep hroot (hparent trivial) fun z hz => hclears z (.inl hz)
  | checked w => exact hclears _ rfl h
  | snapshot d => exact hclears _ rfl h
  | fault => exact h
  | _ => trivial

end Safe

namespace Climbers

variable {T : Type} [DecidableEq T] {c c' : Climbers T}

/-- A thread goes on to a safe phase. -/
theorem safe_setPhase {t : T} {p : Phase} (hp : p.Safe c.fs) (h : ∀ u, (c.phase u).Safe c.fs) :
    ∀ u, ((c.setPhase t p).phase u).Safe (c.setPhase t p).fs := by
  intro u
  change (Function.update c.phase t p u).Safe c.fs
  rw [Function.update_apply]
  split
  · exact hp
  · exact h u

omit [DecidableEq T] in
/-- The state changes under phases that keep their pointers. -/
theorem safe_fs {fs' : FS} (h : ∀ u, (c.phase u).Safe c.fs)
    (hroot : fs'.rootDirectory = c.fs.rootDirectory)
    (hparent : ∀ u, (c.phase u).HoldsTransition → ∀ x y, c.fs.tree.parent x = some y →
      fs'.tree.parent x = some y ∨ fs'.tree.parent x = none)
    (hclears : ∀ t x, (c.phase t).Needs c.fs x → c.fs.tree.parent x ≠ none →
      fs'.tree.parent x ≠ none) : ∀ u, (c.phase u).Safe fs' :=
  fun u => (h u).keep hroot (hparent u) (hclears u)

/-- A step that spares the pointers in need dereferences no null pointer. -/
theorem Valid.safe_step (h : c.Valid) (hsafe : ∀ u, (c.phase u).Safe c.fs) (hstep : Step c c')
    (hspares : c.Spares c') : ∀ u, (c'.phase u).Safe c'.fs := by
  have hself : ∀ (t : T) (p : Phase), (c.setPhase t p).phase t = p := fun t p => Function.update_self ..
  cases hstep with
  | climb t hclimb => exact safe_setPhase ((hsafe t).next hclimb) hsafe
  | getcwd t _ => exact safe_setPhase trivial hsafe
  | openDirectory t d hidle _ => exact safe_setPhase (hspares.opens t d hidle (hself t _)) hsafe
  | rename t w hidle _ _ _ _ _ _ =>
    obtain ⟨hfile, harrives⟩ := hspares.renames t w hidle (hself t _)
    exact safe_setPhase ⟨hfile, w.newParent, rfl, harrives⟩ hsafe
  | refuse t w _ => exact safe_setPhase trivial hsafe
  | move t w fs' r hphase hmove =>
    have ht := h.phase t
    rw [hphase] at ht
    rcases insertMove_cases h.sound ht.1 ht.2 hmove with rfl | ⟨_, hroot, _⟩
    · exact safe_setPhase trivial hsafe
    · intro u
      change (Function.update c.phase t .idle u).Safe fs'
      rw [Function.update_apply]
      split
      · trivial
      · next hne =>
          -- Nobody else is on the way up: the mover holds the lock.
          refine (hsafe u).keep hroot (fun hholds => absurd (h.exclusive u t hholds ?_) hne)
            (hspares.clears u)
          rw [hphase]
          trivial
  | moveFault t w hphase hmove =>
    have ht := hsafe t
    rw [hphase] at ht
    unfold Directory.insertMove at hmove
    split at hmove
    · cases hmove
    · split at hmove
      · next hnone => exact absurd hnone ht
      · cases hmove
  | unmount t w _ _ _ => exact safe_setPhase trivial hsafe
  | detach t w fs' hphase hfound hremove =>
    obtain ⟨_, hdrift⟩ := FS.Locked.spec (.remove _ _ _ _ hfound hremove) h.sound
    have hkept : ∀ u, (c.phase u).Safe fs' :=
      safe_fs hsafe hdrift.root (fun _ _ => hdrift.parent) hspares.clears
    exact safe_setPhase (c := { c with fs := fs' }) trivial hkept
  | again t w mount _ _ => exact safe_setPhase trivial hsafe
  | gone t w _ => exact safe_setPhase trivial hsafe
  | chdir t f _ _ _ =>
    exact safe_fs (c := c) hsafe rfl (fun _ _ _ _ hx => .inl hx) hspares.clears
  | locked fs' hlocked =>
    obtain ⟨_, hdrift⟩ := hlocked.spec h.sound
    exact safe_fs (c := c) hsafe hdrift.root (fun _ _ => hdrift.parent) hspares.clears

/-- What threads reach whose steps all spare the pointers in need. -/
def ReachedSparing (c : Climbers T) : Prop :=
  ∃ s, Reachable s ∧ Relation.ReflTransGen (fun c c' => Step c c' ∧ c.Spares c') (start s) c

theorem ReachedSparing.safe (h : c.ReachedSparing) : c.Valid ∧ ∀ t, (c.phase t).Safe c.fs := by
  obtain ⟨s, hs, hrun⟩ := h
  induction hrun with
  | refl =>
    exact ⟨⟨hs.sound.tree, hs.chainsEnd, fun _ _ ht => ht.elim, fun _ => trivial⟩, fun _ => trivial⟩
  | tail _ hstep ih =>
    exact ⟨ih.1.step hstep.1, ih.1.safe_step ih.2 hstep.1 hstep.2⟩

end Climbers

section Results

variable {T : Type} [DecidableEq T] {c : Climbers T}

/-- Every climb ends. -/
theorem Climbers.Reached.climb_ends (h : c.Reached) (t : T) :
    ∃ k ≤ c.fs.nextFile + 2, ¬ ((Phase.next c.fs)^[k] (c.phase t)).Climbing :=
  (c.phase t).climb_ends h.valid.sound h.valid.chainsEnd

theorem Climbers.ReachedSparing.reached (h : c.ReachedSparing) : c.Reached := by
  obtain ⟨s, hs, hrun⟩ := h
  exact ⟨s, hs, hrun.lift id fun _ _ hstep => hstep.1⟩

end Results

/-! ### A rename -/

/-- "/tmp" is renamed to "/x". -/
def renameTmp : RenameWork := ⟨3, "tmp".toList, 8, 3, "x".toList⟩

/-- One of two threads is about to climb from the new parent of "/tmp". -/
def renamingTmp : Climbers Bool :=
  (Climbers.start (FS.init 0 Env.quiet)).setPhase true (.ancestors renameTmp (some 3))

/-- A directory that has been removed while it is open as descriptor 3. -/
def unlinkedDirectory : FS :=
  (((FS.init 0 Env.quiet).after (.mkdirat AT_FDCWD "/a".toList 0o777)).after
    (.openat AT_FDCWD "/a".toList O_RDONLY 0)).after (.unlinkat AT_FDCWD "/a".toList AT_REMOVEDIR)

theorem reachable_unlinkedDirectory : Reachable unlinkedDirectory :=
  (((Reachable.init 0 Env.quiet).after 1 _ rfl (by decide)).after 2 _ rfl (by decide)).after 2 _ rfl
    (by decide)

end WasmFS
