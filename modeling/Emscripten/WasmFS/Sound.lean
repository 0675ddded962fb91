-- SUMMARY: Sound states: a linked tree over the files that exist; on them lookups and path resolution only read.
import Emscripten.WasmFS.Move
import Emscripten.WasmFS.Tree

/-!
# Sound states

In a sound state the tree is linked, its addresses are those of existing files, and
only directories list anything. `getChild` then finds what `Tree.child` says and
changes nothing, so that resolving a path only reads.
-/

namespace WasmFS

open Assoc

/-- An existing directory. -/
def FS.IsDir (s : FS) (d : FileId) : Prop := d < s.nextFile ∧ (s.file d).kind = .directory

/-- The file lists nothing. -/
def Tree.Empty (t : Tree) (f : FileId) : Prop := t.entries f = [] ∧ ∀ n, t.mount f n = none

structure FS.TreeSound (s : FS) : Prop where
  linked : s.tree.Linked
  within : s.tree.Within s.nextFile
  leaf : ∀ f, (s.file f).kind ≠ .directory → s.tree.Empty f
  root_dir : (s.file s.rootDirectory).kind = .directory
  cwd_dir : s.IsDir s.cwd

/-- Descriptors are of existing files. -/
def FS.TableWithin (s : FS) : Prop :=
  ∀ o, some o ∈ s.fileTable → (s.openFile o).file < s.nextFile

variable {s : FS} {d : FileId}

theorem FS.TreeSound.root_isDir (h : s.TreeSound) : s.IsDir s.rootDirectory :=
  ⟨h.within.root_lt, h.root_dir⟩

theorem FS.mem_of_getEntry {fd : Int} {o : OpenId} (h : s.getEntry fd = some o) : some o ∈ s.fileTable := by
  unfold FS.getEntry at h
  split at h
  · cases h
  · rw [Option.join_eq_some_iff] at h
    exact List.mem_of_getElem? h

/-- Nothing has happened to the tree; new files are outside of it. -/
structure FS.KeepsTree (s s' : FS) : Prop where
  nextFile : s.nextFile ≤ s'.nextFile
  kind : ∀ f, f < s.nextFile → (s'.file f).kind = (s.file f).kind
  backend : ∀ f, f < s.nextFile → (s'.file f).backend = (s.file f).backend
  tree : s'.tree = s.tree
  cwd : s'.cwd = s.cwd

theorem FS.KeepsTree.refl (s : FS) : s.KeepsTree s :=
  ⟨Nat.le_refl _, fun _ _ => rfl, fun _ _ => rfl, rfl, rfl⟩

theorem FS.KeepsTree.trans {s' s'' : FS} (h : s.KeepsTree s') (h' : s'.KeepsTree s'') :
    s.KeepsTree s'' where
  nextFile := Nat.le_trans h.nextFile h'.nextFile
  kind f hf := (h'.kind f (Nat.lt_of_lt_of_le hf h.nextFile)).trans (h.kind f hf)
  backend f hf := (h'.backend f (Nat.lt_of_lt_of_le hf h.nextFile)).trans (h.backend f hf)
  tree := h'.tree.trans h.tree
  cwd := h'.cwd.trans h.cwd

theorem Tree.Within.mono {t : Tree} {n n' : FileId} (h : t.Within n) (hn : n ≤ n') : t.Within n' where
  root_lt := Nat.lt_of_lt_of_le h.root_lt hn
  parent_lt f p hp := Nat.lt_of_lt_of_le (h.parent_lt f p hp) hn
  mount_lt d m e he := Nat.lt_of_lt_of_le (h.mount_lt d m e he) hn
  blank_parent f hf := h.blank_parent f (Nat.le_trans hn hf)
  blank_entries f hf := h.blank_entries f (Nat.le_trans hn hf)
  blank_mount f m hf := h.blank_mount f m (Nat.le_trans hn hf)

theorem FS.IsDir.keep {s' : FS} (h : s.IsDir d) (hn : s.nextFile ≤ s'.nextFile)
    (hk : ∀ f, f < s.nextFile → (s'.file f).kind = (s.file f).kind) : s'.IsDir d :=
  ⟨Nat.lt_of_lt_of_le h.1 hn, (hk d h.1).trans h.2⟩

theorem FS.TreeSound.keep {s' : FS} (h : s.TreeSound) (hk : s.KeepsTree s') : s'.TreeSound := by
  have hroot : s'.rootDirectory = s.rootDirectory := congrArg Tree.root hk.tree
  refine ⟨?_, ?_, ?_, ?_, ?_⟩
  · rw [hk.tree]
    exact h.linked
  · rw [hk.tree]
    exact h.within.mono hk.nextFile
  · intro f hf
    rw [hk.tree]
    rcases Nat.lt_or_ge f s.nextFile with hlt | hge
    · exact h.leaf f (hk.kind f hlt ▸ hf)
    · exact ⟨h.within.blank_entries f hge, fun n => h.within.blank_mount f n hge⟩
  · rw [hroot]
    exact (h.root_isDir.keep hk.nextFile hk.kind).2
  · rw [hk.cwd]
    exact h.cwd_dir.keep hk.nextFile hk.kind

/-! ## Lookup -/

theorem getChild_eq (h : s.TreeSound) (d : FileId) (n : Name) :
    Directory.getChild d n s = some (s, .ok (s.tree.child d n)) := by
  unfold Directory.getChild Tree.child
  have hparent : s.tree.parent d = (s.file d).parent := rfl
  rw [hparent]
  cases hp : (s.file d).parent with
  | none => rfl
  | some p =>
    simp only []
    by_cases hdot : n = dot
    · simp only [if_pos hdot]
    · simp only [if_neg hdot]
      by_cases hdots : n = dotDot
      · simp only [if_pos hdots]
      · simp only [if_neg hdots]
        have hmount : s.tree.mount d n = (s.file d).dcache.lookup n := rfl
        rw [hmount]
        cases (s.file d).dcache.lookup n with
        | some e => rfl
        | none =>
          simp only []
          have hget : s.memoryGetChild d n = (s.tree.entries d).lookup n := rfl
          rw [hget]
          cases hc : (s.tree.entries d).lookup n with
          | none => rfl
          | some c =>
            -- The child names `d` as its parent already.
            have hsame : s.cacheChild d n c .normal = s := by
              have hnot : ¬ (DCacheKind.normal = .mount ∨
                  (s.file d).maintainsFileIdentity = false) := by
                unfold File.maintainsFileIdentity
                decide
              unfold FS.cacheChild
              rw [if_neg hnot]
              exact s.setParent_eq_self c
                (h.linked.entry_parent d n c (h.linked.lookup_iff.mp hc))
            simp only [hsame]

theorem reads_getChild (h : s.TreeSound) (d : FileId) (n : Name) :
    Prog.Reads s (Directory.getChild d n) (fun c => c = s.tree.child d n) := by
  intro s' r hr
  rw [getChild_eq h] at hr
  cases hr
  refine ⟨rfl, ?_⟩
  intro c hc
  cases hc
  rfl

/-! ## Reading programs -/

section Reading

variable {s : FS}

theorem reads_admitBackend (b : Option Backend) : Prog.Reads s (admitBackend b) (fun _ => True) := by
  intro s' r hr
  unfold admitBackend at hr
  split at hr
  · cases hr; exact ⟨rfl, fun _ _ => trivial⟩
  · cases hr; exact ⟨rfl, fun _ _ => trivial⟩
  · cases hr; exact ⟨rfl, fun _ _ => trivial⟩

theorem reads_admit (f : FileId) :
    Prog.Reads s (getBackend f >>= admitBackend) (fun _ => True) :=
  .bind (Q := fun _ => True) (.gets trivial) (fun b _ => reads_admitBackend b)

theorem reads_admitFile (f : FileId) : Prog.Reads s (admitFile f) (fun _ => True) := reads_admit f

theorem reads_admitOpenFile (o : OpenId) : Prog.Reads s (admitOpenFile o) (fun _ => True) :=
  .bind (Q := fun _ => True) (.gets trivial) (fun f _ => reads_admitFile f)

theorem reads_wasiAdmitOpenFile (o : OpenId) :
    Prog.Reads s (wasiAdmitOpenFile o) (fun _ => True) := by
  refine Prog.Reads.attempt (reads_admitOpenFile o) fun r => ?_
  cases r with
  | ok _ => exact .pure trivial
  | error _ => exact .fail

theorem reads_getEntry (fd : Int) :
    Prog.Reads s (getEntry fd) (fun o => o = s.getEntry fd) :=
  .gets rfl

end Reading

/-! ## Path resolution -/

/-- No lookup leads out of `K`, and every resolution starts in it. -/
structure FS.Closed (s : FS) (K : FileId → Prop) : Prop where
  root : K s.rootDirectory
  cwd : K s.cwd
  opened : ∀ o, some o ∈ s.fileTable → K (s.openFile o).file
  child : ∀ d n c, K d → s.tree.child d n = some c → K c

/-- No lookup leads out of `K`, and the root is in it. -/
structure FS.Stays (s : FS) (K : FileId → Prop) : Prop where
  root : K s.rootDirectory
  child : ∀ d n c, K d → s.tree.child d n = some c → K c

theorem FS.Closed.stays {K : FileId → Prop} (h : s.Closed K) : s.Stays K := ⟨h.root, h.child⟩

/-- The files that exist are closed under lookup. -/
theorem FS.TreeSound.closed (h : s.TreeSound) (ht : s.TableWithin) :
    s.Closed (fun f => f < s.nextFile) where
  root := h.within.root_lt
  cwd := h.cwd_dir.1
  opened := ht
  child _ _ _ hd hc := h.linked.child_lt h.within hd hc

namespace Path

variable {s : FS} {K : FileId → Prop}

/-- A directory in `K`. -/
def DirIn (s : FS) (K : FileId → Prop) (d : FileId) : Prop := K d ∧ (s.file d).kind = .directory

/-- A way of following links that only reads, and does not leave `K`. -/
def Sensible (s : FS) (K : FileId → Prop) (follow : Follow) : Prop :=
  ∀ dir child recursions, DirIn s K dir → K child →
    Prog.Reads s (follow dir child recursions) (fun p => K p.1)

theorem reads_getChild {follow : Follow} (h : s.TreeSound) (hK : s.Stays K)
    (hf : Sensible s K follow) {dir : FileId} (hdir : DirIn s K dir) (name : Name)
    (recursions : Nat) :
    Prog.Reads s (getChild follow dir name recursions) (fun p => K p.1) := by
  refine .bind (Q := fun _ => True) (.gets trivial) fun b _ => ?_
  refine .bind (reads_admitBackend b) fun _ _ => ?_
  refine .bind (WasmFS.reads_getChild h dir name) fun c hc => ?_
  cases c with
  | none => exact .fail
  | some c =>
    refine .bind (Q := fun _ => True) (.gets trivial) fun b _ => ?_
    refine .bind (reads_admitBackend b) fun _ _ => ?_
    exact hf dir c recursions hdir (hK.child dir name c hdir.1 hc.symm)

theorem reads_walk {follow : Follow} (h : s.TreeSound) (hK : s.Stays K)
    (hf : Sensible s K follow) (path : List Name) :
    ∀ {curr : FileId} (recursions : Nat), DirIn s K curr →
      Prog.Reads s (walk follow path curr recursions) (fun p => DirIn s K p.1) := by
  induction path with
  | nil =>
    intro curr recursions hcurr
    exact .pure hcurr
  | cons segment rest ih =>
    intro curr recursions hcurr
    cases rest with
    | nil =>
      refine .bind (Q := fun _ => True) (.gets trivial) fun b _ => ?_
      refine .bind (reads_admitBackend b) fun _ _ => ?_
      exact .pure hcurr
    | cons next rest =>
      refine .bind (reads_getChild h hK hf hcurr segment recursions) fun p hp => ?_
      obtain ⟨child, recursions⟩ := p
      refine .bind (Q := fun k => k = (s.file child).kind) (.gets rfl) fun k hk => ?_
      refine .bind (Prog.Reads.failIf) fun _ hdir => ?_
      exact ih recursions ⟨hp, hk ▸ not_not.mp hdir⟩

theorem reads_doParseParent {follow : Follow} (h : s.TreeSound) (hK : s.Stays K)
    (hf : Sensible s K follow) (path : Path) {curr : FileId} (hcurr : DirIn s K curr)
    (recursions : Nat) :
    Prog.Reads s (doParseParent follow path curr recursions) (fun p => DirIn s K p.1) := by
  refine .bind .failIf fun _ _ => ?_
  refine .ite (fun _ => ?_) (fun _ => reads_walk h hK hf _ recursions hcurr)
  refine .bind (Q := fun root => root = s.rootDirectory) (.gets rfl) fun root hroot => ?_
  refine .bind (Q := fun _ => True) (.gets trivial) fun b _ => ?_
  refine .bind (reads_admitBackend b) fun _ _ => ?_
  exact reads_walk h hK hf _ recursions (hroot ▸ ⟨hK.root, h.root_dir⟩)

theorem sensible_follow (h : s.TreeSound) (hK : s.Stays K) (fuel : Nat) :
    Sensible s K (follow fuel) := by
  induction fuel with
  | zero =>
    intro dir child recursions _ _
    exact .crash
  | succ fuel ih =>
    intro dir child recursions hdir hchild
    refine .bind (Q := fun _ => True) (.gets trivial) fun _ _ => ?_
    refine .ite (fun _ => .pure hchild) (fun _ => ?_)
    refine .bind .failIf fun _ _ => ?_
    refine .bind (Q := fun _ => True) (.gets trivial) fun target _ => ?_
    refine .bind .failIf fun _ _ => ?_
    refine .bind (reads_doParseParent h hK ih target hdir _) fun p hp => ?_
    obtain ⟨parent, leaf, recursions⟩ := p
    refine .bind (reads_getChild h hK ih hp leaf recursions) fun q hq => ?_
    obtain ⟨next, recursions⟩ := q
    exact ih dir next recursions hdir hq

theorem sensible_followLinks (h : s.TreeSound) (hK : s.Stays K) : Sensible s K followLinks :=
  sensible_follow h hK _

theorem reads_getBaseDir (h : s.TreeSound) (hK : s.Closed K) (basefd : Int) :
    Prog.Reads s (getBaseDir basefd) (fun d => DirIn s K d) := by
  refine .ite (fun _ => ?_) (fun _ => ?_)
  · refine .bind (Q := fun cwd => cwd = s.cwd) (.gets rfl) fun cwd hcwd => ?_
    refine .bind (Q := fun _ => True) (.gets trivial) fun b _ => ?_
    refine .bind (reads_admitBackend b) fun _ _ => ?_
    exact .pure (hcwd ▸ ⟨hK.cwd, h.cwd_dir.2⟩)
  · refine .bind (reads_getEntry basefd) fun o ho => ?_
    cases o with
    | none => exact .fail
    | some o =>
      refine .bind (Q := fun f => f = (s.openFile o).file) (.gets rfl) fun f hf => ?_
      refine .bind (Q := fun _ => True) (.gets trivial) fun b _ => ?_
      refine .bind (reads_admitBackend b) fun _ _ => ?_
      refine .bind (Q := fun k => k = (s.file f).kind) (.gets rfl) fun k hk => ?_
      refine .bind .failIf fun _ hdir => ?_
      refine .pure ⟨?_, hk ▸ not_not.mp hdir⟩
      rw [hf]
      exact hK.opened o (FS.mem_of_getEntry ho.symm)

theorem reads_base (h : s.TreeSound) (hK : s.Closed K) (path : Path) (basefd : Int) :
    Prog.Reads s (base path basefd) (fun d => DirIn s K d) := by
  refine .ite (fun _ => ?_) (fun _ => reads_getBaseDir h hK basefd)
  refine .bind (Q := fun root => root = s.rootDirectory) (.gets rfl) fun root hroot => ?_
  refine .bind (Q := fun _ => True) (.gets trivial) fun b _ => ?_
  refine .bind (reads_admitBackend b) fun _ _ => ?_
  exact .pure (hroot ▸ ⟨hK.root, h.root_dir⟩)

/-- Parsing a path reads, and finds a directory in `K`. -/
theorem reads_parseParent (h : s.TreeSound) (hK : s.Closed K) (path : Path) (basefd : Int) :
    Prog.Reads s (parseParent path basefd) (fun p => DirIn s K p.1) := by
  refine .bind (reads_base h hK path basefd) fun d hd => ?_
  refine .bind (reads_doParseParent h hK.stays (sensible_followLinks h hK.stays) path hd 0) fun p hp => ?_
  exact .pure hp

theorem reads_doParseFile (h : s.TreeSound) (hK : s.Stays K) {links : Follow} (hl : Sensible s K links)
    (path : Path) (hd : DirIn s K d) : Prog.Reads s (doParseFile links path d) (fun f => K f) := by
  refine .bind (reads_doParseParent h hK (sensible_followLinks h hK) path hd 0) fun p hp => ?_
  obtain ⟨parent, leaf, recursions⟩ := p
  refine .bind (reads_getChild h hK hl hp leaf recursions) fun q hq => ?_
  exact .pure hq

theorem reads_parseFile (h : s.TreeSound) (hK : s.Closed K) {links : Follow}
    (hl : Sensible s K links) (path : Path) (basefd : Int) :
    Prog.Reads s (parseFile path basefd links) (fun f => K f) :=
  .bind (reads_base h hK path basefd) fun _ hd => reads_doParseFile h hK.stays hl path hd

theorem reads_getFileFrom (h : s.TreeSound) (hK : s.Closed K) (hd : DirIn s K d) (path : Path) :
    Prog.Reads s (getFileFrom d path) (fun f => K f) := by
  refine .bind (Q := fun _ => True) (.gets trivial) fun b _ => ?_
  refine .bind (reads_admitBackend b) fun _ _ => ?_
  exact reads_doParseFile h hK.stays (sensible_followLinks h hK.stays) path hd

end Path

end WasmFS
