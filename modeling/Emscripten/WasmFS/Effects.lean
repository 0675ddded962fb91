-- SUMMARY: What each call does to the tree of a sound state, and that soundness survives every step of a run.
import Emscripten.WasmFS.Syscalls

/-!
# Effects of the calls

`Call.Effect c s s'` lists what the call `c` may have done to the tree when it takes the
state `s` to `s'`: nothing, one new child, one removal, one move, or a new working
directory. Each case says which path led to the place and which checks were passed, so
that an invariant of the tree is proved by going through these cases.
-/

namespace WasmFS

open Prog

/-! ## What the checks establish -/

section Checks

variable {s : FS}

theorem reads_getKind (f : FileId) : Reads s (getKind f) (fun k => k = (s.file f).kind) := .gets rfl

theorem reads_getMode (f : FileId) : Reads s (getMode f) (fun k => k = (s.file f).mode) := .gets rfl

theorem reads_getBackend (f : FileId) : Reads s (getBackend f) (fun b => b = (s.file f).backend) :=
  .gets rfl

theorem FS.getNumEntries_eq_zero {f : FileId} (h : s.getNumEntries f = 0)
    (hl : s.tree.Linked) : s.tree.Empty f := by
  unfold getNumEntries at h
  have hentries : (s.file f).entries = [] := List.eq_nil_of_length_eq_zero (by omega)
  have hmounts : s.mounts f = [] := List.eq_nil_of_length_eq_zero (by omega)
  refine ⟨hentries, ?_⟩
  intro n
  cases he : s.tree.mount f n with
  | none => rfl
  | some e =>
    have hmem : ⟨n, e⟩ ∈ (s.file f).dcache.entries := AList.mem_lookup_iff.mp he
    have hkind := hl.mount_kind f n e he
    have hin : (n, e.file) ∈ s.mounts f :=
      List.mem_map.mpr ⟨⟨n, e⟩, List.mem_filter.mpr ⟨hmem, by simpa using hkind⟩, rfl⟩
    rw [hmounts] at hin
    cases hin

/-- What `__syscall_unlinkat` knows of the file it removes. -/
structure FS.Removable (s : FS) (f : FileId) : Prop where
  not_root : f ≠ s.rootDirectory
  no_entries : (s.file f).kind = .directory → s.getNumEntries f = 0

theorem reads_unlinkKindCheck (parent file : FileId) (flags : Nat) :
    Reads s (unlinkKindCheck parent file flags)
      (fun _ => (s.file file).kind = .directory → s.getNumEntries file = 0) := by
  refine .bind (reads_getKind file) fun kind hkind => .ite (fun _ => ?_) fun hdir => ?_
  · refine .bind .failIf fun _ _ => .bind (reads_getBackend parent) fun _ _ =>
      .bind (reads_getBackend file) fun _ _ => .bind .failIf fun _ _ => ?_
    refine .bind (Q := fun n => n = s.getNumEntries file) (.gets rfl) fun n hn => ?_
    refine Reads.failIf.conseq fun _ hempty _ => ?_
    rw [hn] at hempty
    exact Nat.eq_zero_of_not_pos hempty
  · exact Reads.failIf.conseq fun _ _ hd => absurd (hkind.trans hd) hdir

theorem reads_unlinkCheck (parent file : FileId) (flags : Nat) :
    Reads s (unlinkCheck parent file flags) (fun _ => s.Removable file) := by
  refine .bind (reads_admitFile file) fun _ _ => ?_
  refine .bind (Q := fun root => root = s.rootDirectory) (.gets rfl) fun root hroot => ?_
  refine .bind .failIf fun _ hnot => .bind (reads_unlinkKindCheck parent file flags) fun _ hempty => ?_
  refine .bind (reads_getMode parent) fun _ _ => Reads.failIf.conseq fun _ _ => ?_
  exact ⟨hroot ▸ hnot, hempty⟩

theorem reads_unmountCheck (parent file : FileId) :
    Reads s (unmountCheck parent file) (fun _ => file ≠ s.rootDirectory) := by
  refine .bind (reads_admitFile file) fun _ _ => ?_
  refine .bind (Q := fun root => root = s.rootDirectory) (.gets rfl) fun root hroot => ?_
  refine .bind .failIf fun _ hnot => .bind (reads_getKind file) fun _ _ => ?_
  refine .bind .failIf fun _ _ => .bind (reads_getBackend parent) fun _ _ =>
    .bind (reads_getBackend file) fun _ _ => .bind .failIf fun _ _ => ?_
  refine .bind (Q := fun _ => True) (.gets trivial) fun below _ => ?_
  cases below with
  | none => exact .crash
  | some below => exact Reads.failIf.conseq fun _ _ => hroot ▸ hnot

/-- The parent pointers lead from a file to the root, and do not come past `f`. -/
inductive Tree.Climbs (t : Tree) (f : FileId) : FileId → Prop
  | root : Climbs t f t.root
  | step {d p : FileId} (hne : d ≠ f) (hp : t.parent d = some p) (h : Climbs t f p) : Climbs t f d

theorem reads_checkNotAncestor (oldFile : FileId) (fuel : Nat) : ∀ d : FileId,
    Reads s (checkNotAncestor oldFile fuel d) (fun _ => s.tree.Climbs oldFile d) := by
  induction fuel with
  | zero => exact fun d => .crash
  | succ fuel ih =>
    intro d s' r hr
    unfold checkNotAncestor at hr
    split at hr
    · next hroot =>
        cases hr
        refine ⟨rfl, fun _ _ => ?_⟩
        rw [hroot]
        exact .root
    · split at hr
      · cases hr
        exact ⟨rfl, fun _ h => by cases h⟩
      · next hne =>
          split at hr
          · cases hr
          · next p hp =>
              obtain ⟨hs, hclimb⟩ := ih p s' r hr
              exact ⟨hs, fun a ha => .step hne hp (hclimb a ha)⟩

/-- What `__syscall_renameat` knows of a file that it replaces. -/
def FS.Replaceable (s : FS) (oldFile newFile : FileId) : Prop :=
  (s.file newFile).kind = .directory → (s.file oldFile).kind = .directory ∧ s.getNumEntries newFile = 0

theorem reads_checkReplaced (oldFile newFile : FileId) :
    Reads s (checkReplaced oldFile newFile) (fun _ => s.Replaceable oldFile newFile) := by
  refine .bind (reads_getKind newFile) fun kind hkind => .ite (fun hdir => ?_) fun hdir => ?_
  · refine .bind (reads_getKind oldFile) fun k hk => .bind .failIf fun _ hold => ?_
    refine .bind (Q := fun n => n = s.getNumEntries newFile) (.gets rfl) fun n hn => ?_
    refine Reads.failIf.conseq fun _ hempty _ => ⟨hk ▸ not_not.mp hold, ?_⟩
    rw [hn] at hempty
    exact Nat.eq_zero_of_not_pos hempty
  · refine .bind (reads_getKind oldFile) fun _ _ => Reads.failIf.conseq fun _ _ hd => ?_
    exact absurd (hkind.trans hd) hdir

theorem reads_admitFound (f : Option FileId) : Reads s (admitFound f) (fun _ => True) := by
  cases f with
  | none => exact .pure trivial
  | some f => exact reads_admitFile f

/-- What `__syscall_renameat` has checked when it moves `oldFile`. -/
structure FS.Movable (s : FS) (newParent oldFile : FileId) (newFile : Option FileId) : Prop where
  not_root : oldFile ≠ s.rootDirectory
  new_not_root : newFile ≠ some s.rootDirectory
  climbs : s.tree.Climbs oldFile newParent
  replaceable : ∀ g, newFile = some g → s.Replaceable oldFile g

theorem reads_renameCheck (oldParent newParent oldFile : FileId) (newFile : Option FileId) :
    Reads s (renameCheck oldParent newParent oldFile newFile)
      (fun _ => s.Movable newParent oldFile newFile) := by
  refine .bind (Q := fun root => root = s.rootDirectory) (.gets rfl) fun root hroot => ?_
  refine .bind .failIf fun _ hnot => .bind (reads_getMode oldParent) fun _ _ =>
    .bind (reads_getMode newParent) fun _ _ => .bind .failIf fun _ _ =>
    .bind (reads_getBackend oldParent) fun _ _ => .bind (reads_getBackend newParent) fun _ _ =>
    .bind .failIf fun _ _ => .bind (Q := fun _ => True) (.gets trivial) fun next _ => ?_
  rw [hroot] at hnot
  refine .bind (reads_checkNotAncestor oldFile (next + 1) newParent) fun _ hclimb => ?_
  cases newFile with
  | none =>
    refine .pure ⟨fun h => hnot (.inl h), fun h => hnot (.inr h), hclimb, fun g hg => by cases hg⟩
  | some g =>
    refine (reads_checkReplaced oldFile g).conseq fun _ hrep => ?_
    exact ⟨fun h => hnot (.inl h), fun h => hnot (.inr h), hclimb, fun g' hg => Option.some.inj hg ▸ hrep⟩

theorem FS.Movable.ne {Q f : FileId} {g : Option FileId} (h : s.Movable Q f g) : f ≠ Q := by
  cases h.climbs with
  | root => exact h.not_root
  | step hne _ _ => exact hne.symm

end Checks

/-! ## Effects -/

/-- A path and the descriptor it starts from lead to the name `n` in `d`. -/
def FS.Leads (s : FS) (path : Path) (dirfd : Int) (d : FileId) (n : Name) : Prop :=
  Path.parseParent path dirfd s = some (s, .ok (d, n))

/-- The call removes the name `n` of `d`: it finds a file there, and its checks pass. -/
def Call.Removes (c : Call) (s : FS) (d : FileId) (n : Name) (f : FileId) : Prop :=
  match c with
  | .unlinkat dirfd path flags => s.Leads path dirfd d n ∧ s.tree.child d n = some f ∧
      unlinkCheck d f flags s = some (s, .ok ())
  | .wasmfsUnmount path => s.Leads path AT_FDCWD d n ∧ s.tree.child d n = some f ∧
      unmountCheck d f s = some (s, .ok ())
  | _ => False

/-- The call moves `f` from the name `a` of `P` to the name `b` of `Q`. -/
def Call.Renames (c : Call) (s : FS) (P : FileId) (a : Name) (f Q : FileId) (b : Name) : Prop :=
  match c with
  | .renameat olddirfd oldpath newdirfd newpath =>
    s.Leads oldpath olddirfd P a ∧ s.Leads newpath newdirfd Q b ∧ s.tree.child P a = some f ∧
      s.tree.child Q b ≠ some f ∧ s.tree.parent Q ≠ none ∧
      renameCheck P Q f (s.tree.child Q b) s = some (s, .ok ())
  | _ => False

/-- The child `c` has come into `d`, from outside of the tree. -/
structure FS.Grown (s s' : FS) (d : FileId) (n : Name) (c : FileId) : Prop where
  parent : s.tree.parent d ≠ none
  free : s.tree.child d n = none
  fresh : s.nextFile ≤ c
  lt : c < s'.nextFile
  nextFile : s.nextFile ≤ s'.nextFile
  kind : ∀ f, f < s.nextFile → (s'.file f).kind = (s.file f).kind
  backend : ∀ f, f < s.nextFile → (s'.file f).backend = (s.file f).backend
  cwd : s'.cwd = s.cwd
  tree : s'.tree = s.tree.insertChild d n c ∨ s'.tree = s.tree.mountChild d n c

/-- The new working directory of a call. -/
def Call.Enters (c : Call) (s : FS) (f : FileId) : Prop :=
  match c with
  | .chdir path => Path.parseFile path AT_FDCWD Path.followLinks s = some (s, .ok f)
  | .fchdir fd => ∃ o, s.getEntry fd = some o ∧ (s.openFile o).file = f
  | _ => False

inductive Call.Effect (c : Call) (s s' : FS) : Prop
  | kept (h : s.KeepsTree s')
  | grown (path : Path) (dirfd : Int) (d : FileId) (n : Name) (f : FileId)
      (hlead : s.Leads path dirfd d n) (h : s.Grown s' d n f)
  | removed (d : FileId) (n : Name) (f : FileId) (h : c.Removes s d n f) (hedit : s.Edits s')
      (hnext : s'.nextFile = s.nextFile) (htree : s'.tree = s.tree.removeChild d n)
  | renamed (P : FileId) (a : Name) (f Q : FileId) (b : Name) (R : FileId)
      (h : c.Renames s P a f Q b) (hR : s.tree.parent f = some R) (hedit : s.Edits s')
      (hnext : s'.nextFile = s.nextFile) (hmoved : s.tree.Moved s'.tree R Q b f)
  | entered (f : FileId) (h : c.Enters s f) (hdir : (s.file f).kind = .directory)
      (hs : s' = { s with cwd := f })

/-! ## New nodes -/

section New

variable {s : FS} {d : FileId} {n : Name}

theorem FS.Grown.keep {s₁ s' : FS} {f : FileId} (h : s.Grown s₁ d n f) (hk : s₁.KeepsTree s') :
    s.Grown s' d n f where
  parent := h.parent
  free := h.free
  fresh := h.fresh
  lt := Nat.lt_of_lt_of_le h.lt hk.nextFile
  nextFile := Nat.le_trans h.nextFile hk.nextFile
  kind g hg := (hk.kind g (Nat.lt_of_lt_of_le hg h.nextFile)).trans (h.kind g hg)
  backend g hg := (hk.backend g (Nat.lt_of_lt_of_le hg h.nextFile)).trans (h.backend g hg)
  cwd := hk.cwd.trans h.cwd
  tree := by
    rw [hk.tree]
    exact h.tree

/-- What the creation of a node may leave: the tree with a new child at most. -/
def FS.MayGrow (s : FS) (d : FileId) (n : Name) (s' : FS) : Prop :=
  s'.TreeSound ∧ (s.KeepsTree s' ∨ ∃ f, s.Grown s' d n f)

theorem stable_mayGrow (s : FS) (d : FileId) (n : Name) : Stable (s.MayGrow d n) := by
  rintro s₁ s' ⟨hsound, hgrow⟩ hk
  refine ⟨hsound.keep hk, ?_⟩
  rcases hgrow with hkept | ⟨f, hgrown⟩
  · exact .inl (hkept.trans hk)
  · exact .inr ⟨f, hgrown.keep hk⟩

theorem FS.TreeSound.mayGrow (h : s.TreeSound) (d : FileId) (n : Name) : s.MayGrow d n s :=
  ⟨h, .inl (.refl s)⟩

theorem FS.TreeSound.mayGrow_addFile (h : s.TreeSound) {x : File} (hx : x.Blank) (d : FileId)
    (n : Name) : s.MayGrow d n (s.addFile x) :=
  ⟨h.keep (h.addFile hx), .inl (h.addFile hx)⟩

/-- The backend makes a child. -/
theorem insertNew_spec (h : s.TreeSound) (hd : s.IsDir d) (hp : s.tree.parent d ≠ none)
    (hfree : s.tree.child d n = none) {x : File} (hx : x.Blank) :
    ∃ s', Directory.insertNew d n x s = some (s', .ok s.nextFile) ∧ s.KeepsTable s' ∧
      s'.TreeSound ∧ s.Grown s' d n s.nextFile := by
  have hadd := h.addFile hx
  have hloose := h.loose_addFile hx
  have hd' := hd.keep hadd.nextFile hadd.kind
  rw [← hadd.tree] at hp hfree
  obtain ⟨s', hs', hedit, hsound, hnext, htree⟩ := (h.keep hadd).insertChild hloose hd' hp hfree
  refine ⟨s', by rw [← hs']; rfl, (s.edits_addFile x).table.trans hedit.table, hsound, ?_⟩
  rw [hadd.tree] at hp hfree htree
  exact {
    parent := hp
    free := hfree
    fresh := Nat.le_refl _
    lt := hnext ▸ hloose.lt
    nextFile := Nat.le_trans hadd.nextFile hedit.table.nextFile
    kind := ((s.edits_addFile x).table.trans hedit.table).kind
    backend := ((s.edits_addFile x).table.trans hedit.table).backend
    cwd := hedit.cwd
    tree := .inl htree }

/-- A file that has just been made is mounted. -/
theorem mountNew_spec (h : s.TreeSound) (hd : s.IsDir d) (hp : s.tree.parent d ≠ none)
    (hfree : s.tree.child d n = none) {x : File} (hx : x.Blank) :
    ∃ s', Directory.mountChild d n s.nextFile (s.addFile x) = some (s', .ok true) ∧
      (s.addFile x).KeepsTable s' ∧ s'.TreeSound ∧ s.Grown s' d n s.nextFile := by
  have hadd := h.addFile hx
  have hloose := h.loose_addFile hx
  have hd' := hd.keep hadd.nextFile hadd.kind
  rw [← hadd.tree] at hp hfree
  obtain ⟨hedit, hsound, hnext, htree⟩ := (h.keep hadd).mountChild hloose hd' hp hfree
  refine ⟨_, if_neg hp, hedit.table, hsound, ?_⟩
  rw [hadd.tree] at hp hfree htree
  exact {
    parent := hp
    free := hfree
    fresh := Nat.le_refl _
    lt := hnext ▸ hloose.lt
    nextFile := Nat.le_trans hadd.nextFile hedit.table.nextFile
    kind := ((s.edits_addFile x).table.trans hedit.table).kind
    backend := ((s.edits_addFile x).table.trans hedit.table).backend
    cwd := hedit.cwd
    tree := .inr htree }

/-- A backend makes a file, or refuses. -/
theorem createFile_cases {b : Option Backend} {mode : Nat} {s' : FS}
    {r : Except Errno (Option FileId)} (hr : createFile b mode s = some (s', r)) :
    (s' = s ∧ r = .ok none) ∨ ∃ x : File, x.Blank ∧ s' = s.addFile x ∧ r = .ok (some s.nextFile) := by
  unfold createFile at hr
  split at hr
  · cases hr
    exact .inr ⟨_, blank_newDataFile _ _ _, rfl, rfl⟩
  · split at hr
    · cases hr
      exact .inr ⟨_, blank_newDataFile _ _ _, rfl, rfl⟩
    · cases hr
      exact .inl ⟨rfl, rfl⟩
  · cases hr

theorem createDirectory_cases {b : Option Backend} {mode : Nat} {s' : FS}
    {r : Except Errno (Option FileId)} (hr : createDirectory b mode s = some (s', r)) :
    (s' = s ∧ r = .ok none) ∨ ∃ x : File, x.Blank ∧ s' = s.addFile x ∧ r = .ok (some s.nextFile) := by
  unfold createDirectory at hr
  split at hr
  · cases hr
    exact .inr ⟨_, blank_newDirectory _ _ _, rfl, rfl⟩
  · split at hr
    · cases hr
      exact .inr ⟨_, blank_newDirectory _ _ _, rfl, rfl⟩
    · cases hr
      exact .inl ⟨rfl, rfl⟩
  · cases hr

/-- One of the `insert…` methods, on a name that is free: a child, or nothing in an
unlinked directory. -/
theorem insertBlank_cases (h : s.TreeSound) (hd : s.IsDir d) (hfree : s.tree.child d n = none)
    {x : File} (hx : x.Blank) {insert : Sys (Option FileId)} {s' : FS}
    {r : Except Errno (Option FileId)}
    (hinsert : insert s = if (s.file d).parent = none then some (s, .ok none)
      else (Directory.insertNew d n x >>= fun c => pure (some c)) s)
    (hr : insert s = some (s', r)) :
    s.KeepsTable s' ∧ s.MayGrow d n s' ∧
      (r = .ok none ∨ r = .ok (some s.nextFile) ∧ s.nextFile < s'.nextFile) := by
  rw [hinsert] at hr
  split at hr
  · cases hr
    exact ⟨.refl s, h.mayGrow d n, .inl rfl⟩
  · next hp =>
      obtain ⟨s₁, hrun, htable, hsound, hgrown⟩ := insertNew_spec h hd hp hfree hx
      change Prog.seq _ _ s = _ at hr
      unfold Prog.seq at hr
      rw [hrun] at hr
      cases hr
      exact ⟨htable, ⟨hsound, .inr ⟨_, hgrown⟩⟩, .inr ⟨rfl, hgrown.lt⟩⟩

end New

end WasmFS
