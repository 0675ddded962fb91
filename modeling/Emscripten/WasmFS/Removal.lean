-- SUMMARY: What unlink and rmdir remove: the binding of the path's name, the parent of the file, and nothing else.
import Emscripten.WasmFS.CaseRuns
import Emscripten.WasmFS.Resolution

/-!
# Removal

`unlinkat` finds a file under a name of a directory, checks it, and has the directory remove the
name. The directory removes what it stores under the name: a mount from the dcache, or a child from
the backend. Neither is there for "." and "..", which pass the checks all the same when they lead to
an empty directory, and the mount keeps its parent pointer.
-/

namespace WasmFS

open Assoc Costed Prog

/-! ## Bindings -/

/-- From `t` to `t'` the file `f` has lost the name `n` in `d` and its parent, and there is no other
change. -/
structure Tree.Unbinds (t t' : Tree) (d : FileId) (n : Name) (f : FileId) : Prop where
  gone : t'.child d n = none
  orphan : t'.parent f = none
  parent : ∀ g, g ≠ f → t'.parent g = t.parent g
  mount : ∀ d' n', ¬ (d' = d ∧ n' = n) → t'.mount d' n' = t.mount d' n'
  entry : ∀ d' n', ¬ (d' = d ∧ n' = n) → (t'.entries d').lookup n' = (t.entries d').lookup n'

/-- The directory stores what is under the name as a child of the backend, or as a mount that has
lost its parent already and hides no child. -/
def Tree.Plain (t : Tree) (d : FileId) (n : Name) : Prop :=
  n ≠ dot ∧ n ≠ dotDot ∧ ∀ e, t.mount d n = some e → t.parent e.file = none ∧ (t.entries d).lookup n = none

section Bindings

variable {t : Tree} {d f : FileId} {n : Name}

/-- The directory keeps its own parent: it is not a child of itself. -/
theorem Tree.Linked.removeChild_parent_self (h : t.Linked) : (t.removeChild d n).parent d = t.parent d := by
  unfold Tree.removeChild Tree.removeEntry
  split
  · rfl
  · split
    · rfl
    · next c hc =>
        have hmem := h.lookup_iff.mp hc
        have hne : d ≠ c := by
          rintro rfl
          have hroot := h.only_root d (h.entry_parent d n d hmem)
          subst hroot
          exact h.root_entry _ n hmem
        rw [Tree.setEntries_parent, Tree.setParent_parent, if_neg hne]

/-- The removal of a name that is stored plainly unbinds it, and no other removal does. -/
theorem Tree.Linked.unbinds_iff (h : t.Linked) (hf : t.child d n = some f) :
    t.Unbinds (t.removeChild d n) d n f ↔ t.Plain d n := by
  have hp : t.parent d ≠ none := by
    intro hnone
    unfold Tree.child at hf
    rw [hnone] at hf
    cases hf
  have hp' : (t.removeChild d n).parent d ≠ none := h.removeChild_parent_self ▸ hp
  constructor
  · intro hunbinds
    obtain ⟨hdot, hdots, hmount, hentry⟩ := (Tree.child_eq_none hp').mp hunbinds.gone
    refine ⟨hdot, hdots, fun e he => ?_⟩
    have hremoved : t.removeChild d n = t.setMount d n none := by
      unfold Tree.removeChild
      rw [he]
    obtain ⟨-, ⟨e', he', rfl⟩ | ⟨hnone, -⟩⟩ := (Tree.child_eq_some hdot hdots).mp hf
    · cases he.symm.trans he'
      have horphan := hunbinds.orphan
      rw [hremoved] at horphan hentry
      exact ⟨horphan, hentry⟩
    · cases he.symm.trans hnone
  · rintro ⟨hdot, hdots, hplain⟩
    obtain ⟨-, ⟨e, he, rfl⟩ | ⟨hnone, hentry⟩⟩ := (Tree.child_eq_some hdot hdots).mp hf
    · have hremoved : t.removeChild d n = t.setMount d n none := by
        unfold Tree.removeChild
        rw [he]
      obtain ⟨horphan, hhidden⟩ := hplain e he
      rw [hremoved] at hp' ⊢
      refine ⟨?_, horphan, fun _ _ => rfl, fun d' n' hne => ?_, fun _ _ _ => rfl⟩
      · apply (Tree.child_eq_none hp').mpr
        exact ⟨hdot, hdots, by rw [Tree.setMount_mount, if_pos ⟨rfl, rfl⟩], hhidden⟩
      · rw [Tree.setMount_mount, if_neg hne]
    · have hremoved : t.removeChild d n =
          (t.setParent f none).setEntries d (dropFirst Prod.fst n (t.entries d)) := by
        unfold Tree.removeChild Tree.removeEntry
        rw [hnone, hentry]
      have hlook : ∀ m, ((t.removeChild d n).entries d).lookup m =
          if m = n then none else (t.entries d).lookup m := by
        intro m
        rw [hremoved, Tree.setEntries_entries, if_pos rfl]
        exact lookup_dropFirst (h.names_nodup d) n
      refine ⟨?_, ?_, fun g hg => ?_, fun d' n' _ => ?_, fun d' n' hne => ?_⟩
      · apply (Tree.child_eq_none hp').mpr
        exact ⟨hdot, hdots, by rw [hremoved]; exact hnone, by rw [hlook, if_pos rfl]⟩
      · rw [hremoved, Tree.setEntries_parent, Tree.setParent_parent, if_pos rfl]
      · rw [hremoved, Tree.setEntries_parent, Tree.setParent_parent, if_neg hg]
      · rw [hremoved]
        rfl
      · by_cases hd : d' = d
        · subst hd
          rw [hlook, if_neg fun hn => hne ⟨rfl, hn⟩]
        · rw [hremoved, Tree.setEntries_entries, if_neg hd]
          rfl

end Bindings

/-! ## The files themselves -/

/-- Apart from the tree, a resolution finds what it found before. -/
structure FS.SameFiles (s s' : FS) : Prop where
  kind : ∀ f, (s'.file f).kind = (s.file f).kind
  target : ∀ f, (s'.file f).target = (s.file f).target
  backend : ∀ f, (s'.file f).backend = (s.file f).backend
  root : s'.rootDirectory = s.rootDirectory
  cwd : s'.cwd = s.cwd
  fileTable : s'.fileTable = s.fileTable
  openFile : s'.openFile = s.openFile
  env : s'.env = s.env

theorem FS.SameFiles.trans {s s' s'' : FS} (h : s.SameFiles s') (h' : s'.SameFiles s'') :
    s.SameFiles s'' where
  kind f := (h'.kind f).trans (h.kind f)
  target f := (h'.target f).trans (h.target f)
  backend f := (h'.backend f).trans (h.backend f)
  root := h'.root.trans h.root
  cwd := h'.cwd.trans h.cwd
  fileTable := h'.fileTable.trans h.fileTable
  openFile := h'.openFile.trans h.openFile
  env := h'.env.trans h.env

theorem FS.sameFiles_modifyFile (s : FS) (f : FileId) {g : File → File}
    (hk : (g (s.file f)).kind = (s.file f).kind) (ht : (g (s.file f)).target = (s.file f).target)
    (hb : (g (s.file f)).backend = (s.file f).backend) : s.SameFiles (s.modifyFile f g) where
  kind x := by
    rw [modifyFile_file]
    split
    · next heq => rw [heq, hk]
    · rfl
  target x := by
    rw [modifyFile_file]
    split
    · next heq => rw [heq, ht]
    · rfl
  backend x := by
    rw [modifyFile_file]
    split
    · next heq => rw [heq, hb]
    · rfl
  root := rfl
  cwd := rfl
  fileTable := rfl
  openFile := rfl
  env := rfl

theorem FS.sameFiles_memoryRemoveChild (s : FS) (d : FileId) (n : Name) :
    s.SameFiles (s.memoryRemoveChild d n) := by
  unfold memoryRemoveChild
  split
  · exact ⟨fun _ => rfl, fun _ => rfl, fun _ => rfl, rfl, rfl, rfl, rfl, rfl⟩
  · exact (s.sameFiles_modifyFile _ rfl rfl rfl).trans (FS.sameFiles_modifyFile _ d rfl rfl rfl)

theorem sameFiles_removeChild {s s' : FS} {d : FileId} {n : Name}
    (h : Directory.removeChild d n s = some (s', .ok ())) : s.SameFiles s' := by
  have hremoved := s.sameFiles_memoryRemoveChild d n
  unfold Directory.removeChild at h
  split at h
  · cases h
    exact s.sameFiles_modifyFile d rfl rfl rfl
  · next child _ =>
      cases h
      have horphan := hremoved.trans
        (FS.sameFiles_modifyFile _ child (g := fun x => { x with parent := none }) rfl rfl rfl)
      have herased := horphan.trans
        (FS.sameFiles_modifyFile _ d (g := fun x => { x with dcache := x.dcache.erase n }) rfl rfl rfl)
      exact herased.trans (FS.sameFiles_modifyFile _ d rfl rfl rfl)
  · cases h
    exact hremoved.trans (FS.sameFiles_modifyFile _ d rfl rfl rfl)

/-! ## A name that has gone -/

namespace NameSpace

variable {F : Type} {v v' : NameSpace F} {mode : Mode}

/-- Names are ahead of what has been found. -/
def Config.Ahead : Config F → Prop
  | .met _ _ ahead => ahead ≠ []
  | _ => True

/-- The other name space has the same files, but some names find nothing in it. -/
structure Less (v v' : NameSpace F) : Prop where
  root : v'.root = v.root
  target : v'.target = v.target
  isDir : v'.isDir = v.isDir
  mayUse : v'.mayUse = v.mayUse
  find : ∀ d n, v'.find d n = v.find d n ∨ v'.find d n = none

/-- Each move names one thing that the resolution does. -/
inductive Goes (v : NameSpace F) (mode : Mode) : Config F → Config F → Prop
  | start {dir : F} {path : Path} {ahead : List Name} (hpath : path ≠ []) :
      Goes v mode (.read dir path ahead)
        (.look (if path.head? = some '/' then v.root else dir) (path.names ++ ahead))
  | found {dir child : F} {name : Name} {ahead : List Name} (hdir : v.mayUse dir = .ok ())
      (hahead : ¬ (mode = .parent ∧ ahead = [])) (hfind : v.find dir name = some child)
      (hchild : v.mayUse child = .ok ()) : Goes v mode (.look dir (name :: ahead)) (.met dir child ahead)
  | enter {dir child : F} {ahead : List Name} (htarget : v.target child = none) (hahead : ahead ≠ [])
      (hisDir : v.isDir child = true) : Goes v mode (.met dir child ahead) (.look child ahead)

variable {c c' : Config F}

theorem goes_of_free (h : v.next mode c = .free c') : v.Goes mode c c' := by
  cases c with
  | read dir path ahead =>
    simp only [next] at h
    split at h
    · cases h
    · next hpath =>
        cases h
        exact .start hpath
  | look dir ahead =>
    cases ahead with
    | nil => cases h
    | cons name ahead =>
      simp only [next] at h
      split at h
      · cases h
      · next hdir =>
          split at h
          · cases h
          · next hahead =>
              split at h
              · cases h
              · next child hfind =>
                  split at h
                  · cases h
                  · next hchild =>
                      cases h
                      exact .found hdir hahead hfind hchild
  | met dir child ahead =>
    simp only [next] at h
    split at h
    · split at h <;> cases h
    · next htarget =>
        split at h
        · cases h
        · next hahead =>
            split at h
            · next hisDir =>
                cases h
                exact .enter htarget hahead hisDir
            · cases h

/-- A link is all that a resolution pays for. -/
theorem link_of_pay (h : v.next mode c = .pay c') :
    ∃ dir child target ahead, c = .met dir child ahead ∧ v.target child = some target ∧
      c' = .read dir target ahead := by
  cases c with
  | read dir path ahead =>
    simp only [next] at h
    split at h <;> cases h
  | look dir ahead =>
    cases ahead with
    | nil => cases h
    | cons name ahead =>
      simp only [next] at h
      split at h
      · cases h
      · split at h
        · cases h
        · split at h
          · cases h
          · split at h <;> cases h
  | met dir child ahead =>
    simp only [next] at h
    split at h
    · next target htarget =>
        split at h
        · cases h
        · cases h
          exact ⟨dir, child, target, ahead, rfl, htarget, rfl⟩
    · split at h
      · cases h
      · split at h <;> cases h

/-- The place of a name is where the name is looked up. -/
theorem look_of_slot {dir : F} {leaf : Name} (h : v.next mode c = .halt (.ok (.slot dir leaf))) :
    c = .look dir [leaf] ∧ v.mayUse dir = .ok () := by
  cases c with
  | read d path ahead =>
    simp only [next] at h
    split at h <;> cases h
  | look d ahead =>
    cases ahead with
    | nil => cases h
    | cons name ahead =>
      simp only [next] at h
      split at h
      · cases h
      · next hdir =>
          split at h
          · next hahead =>
              cases h
              rw [hahead.2]
              exact ⟨rfl, hdir⟩
          · split at h
            · cases h
            · split at h <;> cases h
  | met d child ahead =>
    simp only [next] at h
    split at h
    · split at h <;> cases h
    · split at h
      · cases h
      · split at h <;> cases h

/-- On its way to the place of a name, a resolution does the same in the other name space, whatever
it would do with the last name; or a name on the way finds nothing. -/
theorem Less.free (h : v.Less v') (hmode : mode ≠ .parent) (hn : v.next .parent c = .free c') :
    (v'.next mode c = .free c' ∧ c'.Ahead) ∨ v'.next mode c = .halt (.error .ENOENT) := by
  cases goes_of_free hn with
  | start hpath => exact .inl ⟨by simp [next, hpath, h.root], trivial⟩
  | @found dir child name ahead hdir hahead hfind hchild =>
    obtain hsame | hgone := h.find dir name
    · refine .inl ⟨?_, fun hnil => hahead ⟨rfl, hnil⟩⟩
      simp [next, h.mayUse, hdir, hmode, hsame, hfind, hchild]
    · exact .inr (by simp [next, h.mayUse, hdir, hmode, hgone])
  | enter htarget hahead hisDir =>
    exact .inl ⟨by simp [next, h.target, htarget, hahead, h.isDir, hisDir], trivial⟩

theorem Less.pay (h : v.Less v') (hc : c.Ahead) (hn : v.next .parent c = .pay c') :
    v'.next mode c = .pay c' ∧ c'.Ahead := by
  obtain ⟨dir, child, target, ahead, rfl, htarget, rfl⟩ := link_of_pay hn
  have hahead : ahead ≠ [] := hc
  exact ⟨by simp [next, h.target, htarget, hahead], trivial⟩

theorem Less.reaches (h : v.Less v') (hmode : mode ≠ .parent) {k : Nat} (hr : Reaches (v.next .parent) c k c')
    (hc : c.Ahead) : Reaches (v'.next mode) c k c' ∨ ∃ j, Halts (v'.next mode) c j (.error .ENOENT) := by
  induction hr with
  | refl c => exact .inl (.refl c)
  | free hn _ ih =>
    obtain ⟨hn', hc'⟩ | hhalt := h.free hmode hn
    · obtain hr' | ⟨j, hj⟩ := ih hc'
      · exact .inl (.free hn' hr')
      · exact .inr ⟨0 + j, (Reaches.one_free hn').halts hj⟩
    · exact .inr ⟨0, halts_now hhalt⟩
  | pay hn _ ih =>
    obtain ⟨hn', hc'⟩ := Less.pay h hc hn
    obtain hr' | ⟨j, hj⟩ := ih hc'
    · exact .inl (.pay hn' hr')
    · exact .inr ⟨1 + j, (Reaches.one_pay hn').halts hj⟩

/-- Where the name at a place finds nothing any more, its path leads nowhere. -/
theorem Less.halts (h : v.Less v') (hmode : mode ≠ .parent) {k : Nat} {dir : F} {leaf : Name} (hc : c.Ahead)
    (hh : Halts (v.next .parent) c k (.ok (.slot dir leaf))) (hgone : v'.find dir leaf = none) :
    ∃ j, Halts (v'.next mode) c j (.error .ENOENT) := by
  obtain ⟨last, hr, hn⟩ := hh
  obtain ⟨rfl, hdir⟩ := look_of_slot hn
  obtain hr' | hj := h.reaches hmode hr hc
  · refine ⟨k, _, hr', ?_⟩
    simp [next, h.mayUse, hdir, hmode, hgone]
  · exact hj

end NameSpace

section Gone

variable {s s' : FS} {path : Path} {dirfd : Int} {d f : FileId} {n : Name}

theorem FS.find_eq_child (h : s.ParentsAgree) (d : FileId) (n : Name) :
    (s.nameSpace h).find d n = s.tree.child d n := by
  have habove : (s.nameSpace h).above d = s.tree.parent d := rfl
  unfold NameSpace.find Tree.child
  rw [habove]
  cases s.tree.parent d with
  | none => rfl
  | some p => rfl

theorem FS.SameFiles.less (hsame : s.SameFiles s') (h : s.ParentsAgree) (h' : s'.ParentsAgree)
    (hu : s.tree.Unbinds s'.tree d n f) : (s.nameSpace h).Less (s'.nameSpace h') where
  root := hsame.root
  target := by
    funext g
    have hkind := hsame.kind g
    have htarget := hsame.target g
    simp only [FS.nameSpace, hkind, htarget]
  isDir := by
    funext g
    have hkind := hsame.kind g
    simp only [FS.nameSpace, hkind]
  mayUse := by
    funext g
    have hbackend := hsame.backend g
    simp only [FS.nameSpace, FS.admits, hbackend, hsame.env]
  find d' n' := by
    rw [FS.find_eq_child, FS.find_eq_child]
    by_cases hplace : d' = d ∧ n' = n
    · obtain ⟨rfl, rfl⟩ := hplace
      exact .inr hu.gone
    by_cases hf : d' = f
    · refine .inr ?_
      unfold Tree.child
      rw [hf, hu.orphan]
    · refine .inl ?_
      unfold Tree.child
      rw [hu.parent d' hf, hu.mount d' n' hplace, hu.entry d' n' hplace]

theorem FS.SameFiles.start_eq (hsame : s.SameFiles s') (path : Path) (dirfd : Int) :
    s'.start path dirfd = s.start path dirfd := by
  have huse : s'.admits = s.admits := by
    funext g
    unfold FS.admits
    rw [hsame.backend g, hsame.env]
  have hentry : s'.getEntry dirfd = s.getEntry dirfd := by
    unfold FS.getEntry
    rw [hsame.fileTable]
  unfold FS.start
  simp only [huse, hentry, hsame.root, hsame.cwd, hsame.openFile, hsame.kind]

/-- A path that leads to a name does so in the reference. -/
theorem FS.Leads.halts (hlead : s.Leads path dirfd d n) (h : s.ParentsAgree) :
    ∃ dir k, s.start path dirfd = .ok dir ∧
      Halts ((s.nameSpace h).next .parent) (.read dir path []) k (.ok (.slot d n)) := by
  have hresolve : PathText.resolve .parent path dirfd s = some (s, .ok (.slot d n)) := by
    have hparse : PathText.parseParent path dirfd s = some (s, .ok (d, n)) :=
      (congrFun (PathText.parseParent_eq path dirfd) s).trans hlead
    exact bind_of_ok hparse
  obtain ⟨r, hr, hagrees, hnever⟩ := PathText.resolve_agrees h .parent path dirfd
  rw [hresolve] at hr
  cases hr
  have hex : ∃ k r', s.Resolves h .parent path dirfd k r' := by
    by_contra hnone
    have hloop := hnever fun k r' hk => hnone ⟨k, r', hk⟩
    cases hloop
  obtain ⟨k, r', hk⟩ := hex
  have heq := hagrees k r' hk
  split at heq
  · subst heq
    unfold FS.Resolves at hk
    split at hk
    · cases hk.2
    · next dir hstart => exact ⟨dir, k, hstart, hk⟩
  · cases heq

/-- Once its name is unbound, the path leads nowhere. -/
theorem FS.Leads.gone (hlead : s.Leads path dirfd d n) (h : s.ParentsAgree) (h' : s'.ParentsAgree)
    (hsame : s.SameFiles s') (hu : s.tree.Unbinds s'.tree d n f) {mode : Mode} (hmode : mode ≠ .parent) :
    ∃ e, PathText.resolve mode path dirfd s' = some (s', .error e) := by
  obtain ⟨dir, k, hstart, hhalts⟩ := hlead.halts h
  have hgone : (s'.nameSpace h').find d n = none := (FS.find_eq_child h' d n).trans hu.gone
  have hahead : (NameSpace.Config.read dir path [] : NameSpace.Config FileId).Ahead := trivial
  obtain ⟨j, hj⟩ := (hsame.less h h' hu).halts hmode hahead hhalts hgone
  obtain ⟨r, hr, hagrees, -⟩ := PathText.resolve_agrees h' mode path dirfd
  have hresolves : s'.Resolves h' mode path dirfd j (.error .ENOENT) := by
    unfold FS.Resolves
    rw [hsame.start_eq, hstart]
    exact hj
  have heq := hagrees j _ hresolves
  split at heq
  · exact ⟨.ENOENT, heq ▸ hr⟩
  · exact ⟨.ELOOP, heq ▸ hr⟩

end Gone

/-! ## unlinkat -/

section Unlinkat

variable {s : FS} {path : Path} {dirfd : Int} {flags : Nat}

/-- What a removal is to do: an error leaves everything as it is; a success unbinds the name that the
path leads to, and nothing else, so that the path does not resolve any more. -/
def FS.Unlinks (s : FS) (dirfd : Int) (path : Path) (flags : Nat) : Prop :=
  ∃ s' r, unlinkat dirfd path flags s = some (s', r) ∧
    match r with
    | .error _ => s' = s
    | .ok () =>
      (∃ d n f, s.Leads path dirfd d n ∧ s.tree.child d n = some f ∧ s.tree.Unbinds s'.tree d n f) ∧
      ∀ mode, mode ≠ .parent → ∃ e, PathText.resolve mode path dirfd s' = some (s', .error e)

/-- The flags are those of `unlink` or of `rmdir`, and the path is not refused for its end. -/
def Admissible (path : Path) (flags : Nat) : Prop :=
  without flags AT_REMOVEDIR = 0 ∧ ¬ (flags = AT_REMOVEDIR ∧ endsInDot path)

/-- A name that passes the checks is stored plainly. -/
def FS.RemovesPlain (s : FS) (dirfd : Int) (path : Path) (flags : Nat) : Prop :=
  Admissible path flags → ∀ d n f, (Call.unlinkat dirfd path flags).Removes s d n f → s.tree.Plain d n

/-- A parse ends. -/
theorem parseParent_cases (h : s.TreeSound) (path : Path) (dirfd : Int) :
    (∃ e, Path.parseParent path dirfd s = some (s, .error e)) ∨ ∃ d n, s.Leads path dirfd d n := by
  obtain ⟨r, hr, -⟩ := PathText.resolve_agrees h.parentsAgree .parent path dirfd
  have hparse : PathText.resolve .parent path dirfd =
      (Path.parseParent path dirfd >>= fun p => pure (.slot p.1 p.2)) := by
    unfold PathText.resolve
    rw [PathText.parseParent_eq]
  rw [hparse] at hr
  cases r with
  | error e =>
    obtain hfail | ⟨p, s₁, _, hlast⟩ := bind_error_iff.mp hr
    · exact .inl ⟨e, hfail⟩
    · cases hlast
  | ok found =>
    obtain ⟨⟨d, n⟩, s₁, hfound, hlast⟩ := bind_ok_iff.mp hr
    cases hlast
    exact .inr ⟨d, n, hfound⟩

theorem answers_admitFile (s : FS) (f : FileId) : Answers s (admitFile f) := by
  have huse : Answers s (admitBackend (s.file f).backend) := by
    unfold admitBackend Answers
    split
    · exact ⟨_, rfl⟩
    · exact ⟨_, rfl⟩
    · exact ⟨_, rfl⟩
  exact huse

theorem answers_unlinkKindCheck (s : FS) (parent file : FileId) (flags : Nat) :
    Answers s (unlinkKindCheck parent file flags) := by
  refine .bind .gets fun kind => .ite (.bind .failIf fun _ => ?_) .failIf
  exact .bind .gets fun _ => .bind .gets fun _ => .bind .failIf fun _ => .bind .gets fun _ => .failIf

theorem answers_unlinkCheck (s : FS) (parent file : FileId) (flags : Nat) :
    Answers s (unlinkCheck parent file flags) := by
  refine .bind (answers_admitFile s file) fun _ => .bind .gets fun root => .bind .failIf fun _ => ?_
  exact .bind (answers_unlinkKindCheck s parent file flags) fun _ => .bind .gets fun mode => .failIf

/-- Up to the removal, `unlinkat` reads: it fails, or it has found a file that passes the checks. -/
theorem unlinkat_cases (h : s.TreeSound) (dirfd : Int) (path : Path) (flags : Nat) :
    ((∃ e, unlinkat dirfd path flags s = some (s, .error e)) ∧
      ¬ (Admissible path flags ∧ ∃ d n f, (Call.unlinkat dirfd path flags).Removes s d n f)) ∨
    ∃ d n f, Admissible path flags ∧ (Call.unlinkat dirfd path flags).Removes s d n f ∧
      unlinkat dirfd path flags s = Directory.removeChild d n s := by
  have hfail : ∀ {e}, unlinkat dirfd path flags s = some (s, .error e) →
      (Admissible path flags → ∀ d n f, ¬ (Call.unlinkat dirfd path flags).Removes s d n f) →
      (∃ e, unlinkat dirfd path flags s = some (s, .error e)) ∧
        ¬ (Admissible path flags ∧ ∃ d n f, (Call.unlinkat dirfd path flags).Removes s d n f) := by
    intro e hrun hnot
    refine ⟨⟨e, hrun⟩, ?_⟩
    rintro ⟨hadm, d, n, f, hrem⟩
    exact hnot hadm d n f hrem
  by_cases hflags : without flags AT_REMOVEDIR ≠ 0
  · exact .inl (hfail ((failIf_bind_apply s).trans (if_pos hflags)) fun hadm => absurd hadm.1 hflags)
  by_cases hend : flags = AT_REMOVEDIR ∧ endsInDot path
  · have hrun : unlinkat dirfd path flags s = some (s, .error .EINVAL) :=
      (failIf_bind_apply s).trans ((if_neg hflags).trans ((failIf_bind_apply s).trans (if_pos hend)))
    exact .inl (hfail hrun fun hadm => absurd hend hadm.2)
  have hadm : Admissible path flags := ⟨not_not.mp hflags, hend⟩
  obtain ⟨e, he⟩ | ⟨d, n, hlead⟩ := parseParent_cases h path dirfd
  · have hrun : unlinkat dirfd path flags s = some (s, .error e) := by
      refine (failIf_bind_apply s).trans ((if_neg hflags).trans ?_)
      exact (failIf_bind_apply s).trans ((if_neg hend).trans (bind_of_error he))
    refine .inl (hfail hrun fun _ d n f hrem => ?_)
    cases he.symm.trans hrem.1
  have hgo {r : Option (FS × Except Errno Unit)} (hr : (Directory.getChild d n >>= fun found =>
      found.elim (fail .ENOENT) fun file => unlinkCheck d file flags >>= fun _ => Directory.removeChild d n) s = r) :
      unlinkat dirfd path flags s = r := by
    refine (failIf_bind_apply s).trans ((if_neg hflags).trans ?_)
    refine (failIf_bind_apply s).trans ((if_neg hend).trans ((bind_of_ok hlead).trans ?_))
    have hget := getChild_eq h d n
    rw [bind_of_ok hget] at hr
    apply (bind_of_ok hget).trans
    cases hf : s.tree.child d n with
    | none => rwa [hf] at hr
    | some f => rwa [hf] at hr
  have hplace : ∀ d' n' f, (Call.unlinkat dirfd path flags).Removes s d' n' f → d' = d ∧ n' = n := by
    intro d' n' f hrem
    cases hlead.symm.trans hrem.1
    exact ⟨rfl, rfl⟩
  cases hf : s.tree.child d n with
  | none =>
    have hrest := hgo (bind_of_ok (getChild_eq h d n))
    rw [hf] at hrest
    refine .inl (hfail hrest fun _ d' n' f hrem => ?_)
    obtain ⟨rfl, rfl⟩ := hplace d' n' f hrem
    cases hf.symm.trans hrem.2.1
  | some f =>
    have hrest := hgo (bind_of_ok (getChild_eq h d n))
    rw [hf] at hrest
    obtain ⟨r, hcheck⟩ := answers_unlinkCheck s d f flags
    cases r with
    | error e =>
      refine .inl (hfail (hrest.trans (bind_of_error hcheck)) fun _ d' n' f' hrem => ?_)
      obtain ⟨rfl, rfl⟩ := hplace d' n' f' hrem
      cases hf.symm.trans hrem.2.1
      cases hcheck.symm.trans hrem.2.2
    | ok _ => exact .inr ⟨d, n, f, hadm, ⟨hlead, hf, hcheck⟩, hrest.trans (bind_of_ok hcheck)⟩

/-- In a sound state `unlinkat` does what it is to do exactly if what it removes is stored plainly. -/
theorem unlinks_iff (h : s.TreeSound) (dirfd : Int) (path : Path) (flags : Nat) :
    s.Unlinks dirfd path flags ↔ s.RemovesPlain dirfd path flags := by
  obtain ⟨⟨e, hrun⟩, hnone⟩ | ⟨d, n, f, hadm, hrem, hrun⟩ := unlinkat_cases h dirfd path flags
  · constructor
    · intro _ hadm d n f hrem
      exact absurd ⟨hadm, d, n, f, hrem⟩ hnone
    · intro _
      exact ⟨s, .error e, hrun, rfl⟩
  obtain ⟨s', hremove, -, hsound, -, htree⟩ := h.removeChild d n
  have hplace : ∀ d' n', s.Leads path dirfd d' n' → d' = d ∧ n' = n := by
    intro d' n' hlead
    cases hrem.1.symm.trans hlead
    exact ⟨rfl, rfl⟩
  constructor
  · rintro ⟨s₁, r, hr, hdone⟩ _ d' n' f' hrem'
    obtain ⟨rfl, rfl⟩ := hplace d' n' hrem'.1
    cases hrem.2.1.symm.trans hrem'.2.1
    rw [hrun, hremove] at hr
    cases hr
    obtain ⟨⟨d', n', f', hlead, hf', hunbinds⟩, -⟩ := hdone
    obtain ⟨rfl, rfl⟩ := hplace d' n' hlead
    cases hrem.2.1.symm.trans hf'
    rw [htree] at hunbinds
    exact (h.linked.unbinds_iff hf').mp hunbinds
  · intro hplain
    have hunbinds := (h.linked.unbinds_iff hrem.2.1).mpr (hplain hadm d n f hrem)
    rw [← htree] at hunbinds
    refine ⟨s', .ok (), hrun.trans hremove, ⟨d, n, f, hrem.1, hrem.2.1, hunbinds⟩, fun mode hmode => ?_⟩
    exact FS.Leads.gone hrem.1 h.parentsAgree hsound.parentsAgree (sameFiles_removeChild hremove) hunbinds hmode

end Unlinkat

/-! ## Case-insensitive directories -/

/-- `getNumEntries`: what the wrapped directory has, and the mounts. -/
def CaseFS.getNumEntries (s : CaseFS) (d : FileId) : Nat :=
  match s.virtual d with
  | none => s.fs.getNumEntries d
  | some this => s.fs.getNumEntries this.real + (s.fs.mounts d).length

namespace CaseDirectory

/-- The checks of `__syscall_unlinkat` that depend on the kind of the file. -/
def unlinkKindCheck (parent file : FileId) (flags : Nat) : Case Unit := do
  if (← gets fun s => (s.fs.file file).kind) = .directory then
    failIf (flags ≠ AT_REMOVEDIR) .EISDIR
    failIf ((← gets fun s => (s.fs.file parent).backend) ≠ (← gets fun s => (s.fs.file file).backend)) .EBUSY
    failIf ((← gets fun s => s.getNumEntries file) > 0) .ENOTEMPTY
  else failIf (flags = AT_REMOVEDIR) .ENOTDIR

/-- What `__syscall_unlinkat` checks, where `root` is the root of the file system. -/
def unlinkCheck (root parent file : FileId) (flags : Nat) : Case Unit := do
  onFiles (admitFile file)
  failIf (file = root) .EBUSY
  unlinkKindCheck parent file flags
  failIf (¬ has (← gets fun s => (s.fs.file parent).mode) WASMFS_PERM_WRITE) .EACCES

/-- `__syscall_unlinkat` on a path whose parse has the given answer. -/
def unlinkat (root : FileId) (parsed : Except Errno (FileId × Name)) (path : Path) (flags : Nat) :
    Case Unit := do
  failIf (without flags AT_REMOVEDIR ≠ 0) .EINVAL
  failIf (flags = AT_REMOVEDIR ∧ endsInDot path) .EINVAL
  let (parent, childName) ← Prog.ofExcept parsed
  match ← getChild parent childName with
  | none => fail .ENOENT
  | some file =>
    unlinkCheck root parent file flags
    removeChild parent childName

end CaseDirectory

namespace CaseFS

/-- From `s` to `s'` the name has gone from the directory `d`, whatever its spelling was, with the
entry of the wrapped directory; the file and the file it wraps have lost their parents, and there is
no other change. -/
structure Unbinds (s s' : CaseFS) (d : FileId) (name : Name) (f : FileId) : Prop where
  gone : CaseDirectory.getChild d name s' = some (s', .ok none)
  orphan : (s'.fs.file f).parent = none
  parent : ∀ g, g ≠ f → s.real f ≠ some g → (s'.fs.file g).parent = (s.fs.file g).parent
  mount : ∀ d' n, s'.fs.tree.mount d' n = s.fs.tree.mount d' n
  child : ∀ d' n, ¬ (d' = d ∧ n = normalize name) → s'.child d' n = s.child d' n
  entry : ∀ D n, ¬ (s.real d = some D ∧ n = normalize name) →
    (s'.fs.tree.entries D).lookup n = (s.fs.tree.entries D).lookup n

/-- What a removal is to do. -/
def Unlinks (s : CaseFS) (root : FileId) (parsed : Except Errno (FileId × Name)) (path : Path) (flags : Nat) :
    Prop :=
  ∃ s' r, CaseDirectory.unlinkat root parsed path flags s = some (s', r) ∧
    match r with
    | .error _ => s' = s
    | .ok () => ∃ d name f, parsed = .ok (d, name) ∧ s.layers.find d name = some f ∧ s.Unbinds s' d name f

/-- The name is stored as a child of the directory. -/
def Plain (s : CaseFS) (d : FileId) (name : Name) : Prop :=
  name ≠ dot ∧ name ≠ dotDot ∧ s.fs.tree.mount d name = none

/-- A name that passes the checks is stored as a child. -/
def RemovesPlain (s : CaseFS) (root : FileId) (parsed : Except Errno (FileId × Name)) (path : Path)
    (flags : Nat) : Prop :=
  Admissible path flags → ∀ d name f, parsed = .ok (d, name) → s.layers.find d name = some f →
    CaseDirectory.unlinkCheck root d f flags s = some (s, .ok ()) → s.Plain d name

end CaseFS

section CaseUnlinkat

variable {s : CaseFS} {sp : FileId → Name} {d : FileId} {name : Name} {path : Path} {flags : Nat}
  {root : FileId}

theorem answers_caseUnlinkCheck (s : CaseFS) (root parent file : FileId) (flags : Nat) :
    Answers s (CaseDirectory.unlinkCheck root parent file flags) := by
  have huse : Answers s (onFiles (admitFile file)) := by
    obtain ⟨r, hr⟩ := answers_admitFile s.fs file
    exact ⟨r, onFiles_apply hr⟩
  have hkind : Answers s (CaseDirectory.unlinkKindCheck parent file flags) := by
    refine .bind .gets fun kind => .ite (.bind .failIf fun _ => ?_) .failIf
    exact .bind .gets fun _ => .bind .gets fun _ => .bind .failIf fun _ => .bind .gets fun _ => .failIf
  refine .bind huse fun _ => .bind .failIf fun _ => ?_
  exact .bind hkind fun _ => .bind .gets fun mode => .failIf

/-- The removal of a child unbinds it. -/
theorem CaseFS.Sound.unbinds (h : s.Sound sp) {D : FileId} (hd : s.real d = some D)
    (hplain : s.Plain d name) {f : FileId} (hf : s.layers.find d name = some f) :
    ∃ s', CaseDirectory.removeChild d name s = some (s', .ok ()) ∧ s.Unbinds s' d name f := by
  obtain ⟨hdot, hdots, hmount⟩ := hplain
  have hmount : s.layers.tree.mount d name = none := hmount
  obtain ⟨p, hp⟩ : ∃ p, s.layers.tree.parent d = some p := by
    cases hp : s.layers.tree.parent d with
    | some p => exact ⟨p, rfl⟩
    | none =>
      unfold Layers.find at hf
      rw [hp] at hf
      cases hf
  obtain ⟨i, hi, rfl⟩ : ∃ i, s.layers.child d (normalize name) = some i ∧ i.child = f := by
    unfold Layers.find at hf
    simp only [hp, if_neg hdot, if_neg hdots, hmount] at hf
    exact Option.map_eq_some_iff.mp hf
  obtain ⟨s', r, hrun, hr, hlayers, -⟩ := CaseDirectory.removeChild_apply h hd hmount hi
  have hpaired : s'.layers.Paired sp := by
    rw [hlayers]
    exact (h.paired.removed hd hi hr).1
  have hparent : ∀ g, s'.layers.tree.parent g =
      if g = i.child then none else if g = r then none else s.layers.tree.parent g := by
    intro g
    rw [hlayers]
    change ((((s.layers.tree.setParent r none).setEntries D _).setParent i.child none).parent g) = _
    rw [Tree.setParent_parent, Tree.setEntries_parent, Tree.setParent_parent]
  have hentries : ∀ D', s'.layers.tree.entries D' =
      if D' = D then dropFirst Prod.fst (normalize name) (s.layers.tree.entries D)
      else s.layers.tree.entries D' := by
    intro D'
    rw [hlayers]
    change ((((s.layers.tree.setParent r none).setEntries D _).setParent i.child none).entries D') = _
    rw [Tree.setParent_entries, Tree.setEntries_entries]
    rfl
  have hmounts : ∀ d' n, s'.layers.tree.mount d' n = s.layers.tree.mount d' n := by
    intro d' n
    rw [hlayers]
    rfl
  have hchild : ∀ d' n, s'.layers.child d' n =
      if d' = d ∧ n = normalize name then none else s.layers.child d' n := by
    intro d' n
    rw [hlayers]
    exact Layers.setChild_child ..
  have hd' : s'.real d = some D := by
    have hreal : s'.layers.real d = s.layers.real d := by
      rw [hlayers]
      rfl
    exact hreal.trans hd
  refine ⟨s', hrun, ?_, ?_, fun g hg hgr => ?_, hmounts, fun d' n hne => ?_, fun D' n hne => ?_⟩
  · refine (CaseDirectory.getChild_apply hpaired hd' name).trans ?_
    have hgone : s'.layers.find d name = none := by
      unfold Layers.find
      cases s'.layers.tree.parent d with
      | none => rfl
      | some q => simp [hdot, hdots, hmounts, hmount, hchild]
    rw [hgone]
  · exact (hparent i.child).trans (if_pos rfl)
  · have hne : g ≠ r := fun heq => hgr (heq ▸ hr)
    exact (hparent g).trans (by rw [if_neg hg, if_neg hne]; rfl)
  · exact (hchild d' n).trans (if_neg hne)
  · change (s'.layers.tree.entries D').lookup n = (s.layers.tree.entries D').lookup n
    rw [hentries]
    split
    · next heq =>
        subst heq
        rw [lookup_dropFirst (h.paired.names_nodup D'), if_neg fun hn => hne ⟨hd, hn⟩]
    · rfl

/-- In a sound state `unlinkat` does what it is to do if what it removes is stored as a child. -/
theorem CaseFS.Sound.unlinks (h : s.Sound sp) {parsed : Except Errno (FileId × Name)}
    (hdir : ∀ d name, parsed = .ok (d, name) → s.IsDirectory d)
    (hplain : s.RemovesPlain root parsed path flags) : s.Unlinks root parsed path flags := by
  have hbody : CaseDirectory.unlinkat root parsed path flags s =
      if without flags AT_REMOVEDIR ≠ 0 then some (s, .error .EINVAL)
      else if flags = AT_REMOVEDIR ∧ endsInDot path then some (s, .error .EINVAL)
      else (Prog.ofExcept parsed >>= fun p =>
        CaseDirectory.getChild p.1 p.2 >>= fun found =>
          match found with
          | none => fail .ENOENT
          | some file => do
            CaseDirectory.unlinkCheck root p.1 file flags
            CaseDirectory.removeChild p.1 p.2 : Case Unit) s := by
    refine (failIf_bind_apply s).trans ?_
    split
    · rfl
    · exact failIf_bind_apply s
  by_cases hflags : without flags AT_REMOVEDIR ≠ 0
  · exact ⟨s, _, hbody.trans (if_pos hflags), rfl⟩
  by_cases hend : flags = AT_REMOVEDIR ∧ endsInDot path
  · exact ⟨s, _, hbody.trans ((if_neg hflags).trans (if_pos hend)), rfl⟩
  have hadm : Admissible path flags := ⟨not_not.mp hflags, hend⟩
  rw [if_neg hflags, if_neg hend] at hbody
  cases parsed with
  | error e => exact ⟨s, .error e, hbody, rfl⟩
  | ok p =>
    obtain ⟨d, name⟩ := p
    obtain ⟨D, hD⟩ := CaseFS.real_of_virtual (hdir d name rfl).1
    have hparsed : Prog.ofExcept (.ok (d, name) : Except Errno _) s = some (s, .ok (d, name)) := rfl
    have hget := CaseDirectory.getChild_apply h.paired hD name
    have hrest := hbody.trans ((bind_of_ok hparsed).trans (bind_of_ok hget))
    cases hf : s.layers.find d name with
    | none =>
      rw [hf] at hrest
      exact ⟨s, .error .ENOENT, hrest, rfl⟩
    | some f =>
      rw [hf] at hrest
      obtain ⟨r, hcheck⟩ := answers_caseUnlinkCheck s root d f flags
      cases r with
      | error e => exact ⟨s, .error e, hrest.trans (bind_of_error hcheck), rfl⟩
      | ok _ =>
        obtain ⟨s', hremove, hunbinds⟩ := h.unbinds hD (hplain hadm d name f rfl hf hcheck) hf
        exact ⟨s', .ok (), (hrest.trans (bind_of_ok hcheck)).trans hremove, d, name, f, rfl, hf, hunbinds⟩

end CaseUnlinkat

/-! ## Removals in runs -/

/-- In every reachable state `unlinkat` unbinds the name that its path leads to and nothing else, or
fails and leaves everything as it is, exactly if what passes its checks is stored plainly. In
case-insensitive directories, from which no mount has been moved, it does so if what passes its checks
is stored as a child. -/
theorem unlinkat_unbinds {t : FS} (h : Reachable t) (dirfd : Int) (rel : Path) (how : Nat) :
    (t.Unlinks dirfd rel how ↔ t.RemovesPlain dirfd rel how) ∧
    ∀ s sp, CaseReached CaseCall.MovesPlain s sp → ∀ (env : Env) (root : FileId)
      (parsed : Except Errno (FileId × Name)) (path : Path) (flags : Nat),
      (∀ d name, parsed = .ok (d, name) → s.IsDirectory d) →
      (s.inEnv env).RemovesPlain root parsed path flags → (s.inEnv env).Unlinks root parsed path flags := by
  refine ⟨unlinks_iff h.sound.tree dirfd rel how, ?_⟩
  intro s sp h env root parsed path flags hdir hplain
  exact (h.sound_of_movesPlain.inEnv env).unlinks hdir hplain

/-- `unlinkat` removes the empty directory "/tmp"; and "fOO", which was created as "Foo". -/
theorem unlinkat_unbinds_tmp_and_foo :
    (FS.init 0 .quiet).Unlinks AT_FDCWD "/tmp".toList AT_REMOVEDIR ∧
    ∃ s sp, CaseReached CaseCall.MovesPlain s sp ∧
      (s.inEnv .quiet).Unlinks 0 (.ok (2, ['f', 'O', 'O'])) "fOO".toList 0 := by
  refine ⟨(unlinkat_unbinds (.init 0 .quiet) _ _ _).1.mpr fun _ d n f hrem => ?_, ?_⟩
  · have hlead : (FS.init 0 .quiet).Leads "/tmp".toList AT_FDCWD 3 "tmp".toList :=
      (Reachable.init 0 .quiet).sound.leads (by decide)
    cases hlead.symm.trans hrem.1
    refine ⟨by decide, by decide, fun e he => ?_⟩
    have hnone : (FS.init 0 .quiet).tree.mount 3 "tmp".toList = none := by decide
    cases hnone.symm.trans he
  · have hrun : CaseReached CaseCall.MovesPlain _ _ :=
      .call (.start 0 (.external 0) 0o777 Env.quiet true) (.insert 2 ['F', 'o', 'o'] (.dataFile 0o644))
        Env.quiet _ _ ⟨Option.some_ne_none _, rfl⟩ trivial rfl
    refine ⟨_, _, hrun, (unlinkat_unbinds (.init 0 .quiet) 0 [] 0).2 _ _ hrun _ _ _ _ _ ?_ ?_⟩
    · rintro d name ⟨⟩
      exact ⟨Option.some_ne_none _, rfl⟩
    · rintro - d name f ⟨⟩ - -
      exact ⟨by decide, by decide, rfl⟩

/-- "/tmp" holds a mounted file. -/
def mountedFile : FS :=
  (FS.init 0 .quiet).after (.wasmfsCreateFile "/tmp/f".toList 0o666 (some (.memory 1)))

theorem reachable_mountedFile : Reachable mountedFile := by
  refine Reachable.after (.init 0 .quiet) 3 _ ?_ ?_
  · decide
  · decide

/-- The working directory is "/tmp", which is empty. -/
def emptyWorking : FS := (FS.init 0 .quiet).after (.chdir "/tmp".toList)

theorem reachable_emptyWorking : Reachable emptyWorking := by
  refine Reachable.after (.init 0 .quiet) 3 _ ?_ ?_
  · decide
  · decide

theorem not_unlinks {s : FS} (h : Reachable s) {dirfd : Int} {path : Path} {flags : Nat} {d f : FileId} {n : Name}
    (hadm : Admissible path flags) (hlead : (Path.parseParent path dirfd s).map Prod.snd = some (.ok (d, n)))
    (hf : s.tree.child d n = some f) (hcheck : (unlinkCheck d f flags s).map Prod.snd = some (.ok ()))
    (hplain : ¬ s.tree.Plain d n) : ¬ s.Unlinks dirfd path flags := by
  intro hunlinks
  have hlead := h.sound.leads hlead
  obtain ⟨r, hr⟩ := answers_unlinkCheck s d f flags
  rw [hr] at hcheck
  cases Option.some.inj hcheck
  exact hplain ((unlinks_iff h.sound.tree dirfd path flags).mp hunlinks hadm d n f ⟨hlead, hf, hr⟩)

/-- A mounted file keeps its parent, and the removal of "." removes nothing, but both succeed. -/
theorem unlinkat_keeps_mount_and_dot :
    (¬ ∀ s, Reachable s → ∀ path, s.Unlinks AT_FDCWD path 0) ∧
      ¬ ∀ s, Reachable s → ∀ path, s.Unlinks AT_FDCWD path AT_REMOVEDIR := by
  constructor
  · intro hall
    refine not_unlinks (d := 8) (f := 9) (n := ['f']) reachable_mountedFile ⟨by decide, by decide⟩
      (by decide) (by decide) (by decide) ?_ (hall _ reachable_mountedFile "/tmp/f".toList)
    rintro ⟨-, -, hparent⟩
    have hmount : mountedFile.tree.mount 8 ['f'] = some ⟨.mount, 9⟩ := by decide
    have hsome : mountedFile.tree.parent 9 = some 8 := by decide
    cases (hparent _ hmount).1.symm.trans hsome
  · intro hall
    refine not_unlinks (d := 8) (f := 8) (n := dot) reachable_emptyWorking ⟨by decide, by decide⟩
      (by decide) (by decide) (by decide) ?_ (hall _ reachable_emptyWorking dot)
    rintro ⟨hdot, -, -⟩
    exact hdot rfl

end WasmFS
