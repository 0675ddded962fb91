-- SUMMARY: What a failing openat leaves behind: exactly when it has created or truncated a file first.
import Emscripten.WasmFS.Runs

/-!
# Failing opens

`openat` works in the order of `doOpen`: it may create an entry, it opens the file, it
may truncate it, and it looks for a free descriptor last. Nothing is taken back when a
later step fails, except that the file is closed again. `FS.Spoils` is the condition
under which a step that changes something is followed by one that fails.
-/

namespace WasmFS

open Prog

/-! ## States that look the same -/

/-- Resizing `f` to nothing would change its content. The content of an external file
is what its backend says: it changes where the backend resizes it from another size. -/
def FS.Truncatable (s : FS) (f : FileId) : Prop :=
  match (s.file f).data with
  | .memory buffer => buffer ≠ []
  | .pipe _ => False
  | .external => s.env.setSize f 0 = .ok () ∧ s.env.getSize f ≠ .ok 0

/-- A request that leaves the content of an external file as it is. -/
def FS.Harmless (s : FS) : DataRequest → Prop
  | .setSize f _ => (s.file f).data = .external → ¬ s.Truncatable f
  | _ => True

/-- The tree, the files with their contents, sizes and timestamps, and the descriptor
table are what they were in `s`; so is what lies outside. Objects that were made since
are referred to from nowhere. -/
structure FS.Untouched (s s' : FS) : Prop where
  nextFile : s.nextFile ≤ s'.nextFile
  nextOpen : s.nextOpen ≤ s'.nextOpen
  file : ∀ f, f < s.nextFile → s'.file f = s.file f
  rootDirectory : s'.rootDirectory = s.rootDirectory
  cwd : s'.cwd = s.cwd
  fileTable : s'.fileTable = s.fileTable
  openFile : ∀ o, o < s.nextOpen → s'.openFile o = s.openFile o
  pipe : s'.pipe = s.pipe
  env : s'.env = s.env
  outside : ∃ made, s'.requests = made ++ s.requests ∧ ∀ q ∈ made, s.Harmless q

section Untouched

variable {s s' : FS}

theorem FS.Untouched.refl (s : FS) : s.Untouched s :=
  ⟨Nat.le_refl _, Nat.le_refl _, fun _ _ => rfl, rfl, rfl, rfl, fun _ _ => rfl, rfl, rfl,
    [], rfl, fun _ h => absurd h List.not_mem_nil⟩

theorem FS.Untouched.addOpen (h : s.Untouched s') (x : OpenFileState) : s.Untouched (s'.addOpen x) :=
  { h with
    nextOpen := Nat.le_succ_of_le h.nextOpen
    openFile := fun o ho => by
      have hne : o ≠ s'.nextOpen := Nat.ne_of_lt (Nat.lt_of_lt_of_le ho h.nextOpen)
      exact (Function.update_of_ne hne _ _).trans (h.openFile o ho) }

theorem FS.Untouched.logged (h : s.Untouched s') (log : List FileEvent) :
    s.Untouched (s'.logged log) :=
  ⟨h.nextFile, h.nextOpen, h.file, h.rootDirectory, h.cwd, h.fileTable, h.openFile, h.pipe, h.env,
    h.outside⟩

theorem FS.Untouched.requested (h : s.Untouched s') {q : DataRequest} (hq : s.Harmless q) :
    s.Untouched (s'.requested q) := by
  obtain ⟨made, hmade, hharmless⟩ := h.outside
  refine ⟨h.nextFile, h.nextOpen, h.file, h.rootDirectory, h.cwd, h.fileTable, h.openFile, h.pipe,
    h.env, q :: made, congrArg (q :: ·) hmade, fun p hp => ?_⟩
  rcases List.mem_cons.mp hp with rfl | hp
  · exact hq
  · exact hharmless p hp

end Untouched

/-! ## Installing -/

/-- No descriptor is free. -/
def FS.Full (s : FS) : Prop := s.freeEntry 0 = none

instance (s : FS) : Decidable s.Full := inferInstanceAs (Decidable (_ = _))

variable {e : Errno} {r : Except Errno Unit} {s : FS} {f : FileId}

theorem FS.full_congr {s' : FS} (h : s'.fileTable = s.fileTable) : s'.Full ↔ s.Full := by
  unfold Full freeEntry getEntry
  rw [h]

section Installing

variable {s s₀ s' : FS} {o : OpenId}

/-- An abandoned description leaves a trace in the log alone, and an error is returned. -/
theorem abandon_run {α : Type} (o : OpenId) (e : Errno) (s : FS) :
    ∃ s' e', (abandonOpenFile o >>= fun _ => (Prog.fail e : Sys α)) s = some (s', .error e') ∧
      ∀ s₀ : FS, s₀.Untouched s → s₀.Untouched s' := by
  unfold abandonOpenFile
  rw [bind_assoc, gets_bind_apply]
  split
  · have hclose : ∃ r', DataFile.close o s = some (s.logged (.closed o :: s.log), r') := ⟨_, rfl⟩
    obtain ⟨r', hclose⟩ := hclose
    cases r' with
    | ok _ => exact ⟨_, _, bind_of_ok hclose, fun s₀ hs => hs.logged _⟩
    | error _ => exact ⟨_, _, bind_of_error hclose, fun s₀ hs => hs.logged _⟩
  · exact ⟨_, _, rfl, fun s₀ hs => hs⟩

theorem abandon_fail {α : Type} {r : Except Errno α} (hs : s₀.Untouched s)
    (hr : (abandonOpenFile o >>= fun _ => (Prog.fail e : Sys α)) s = some (s', r)) : s₀.Untouched s' := by
  obtain ⟨s₁, e', hrun, hsame⟩ := abandon_run (α := α) o e s
  rw [hrun] at hr
  cases hr
  exact hsame s₀ hs

/-- Installing fails exactly where no descriptor is free. -/
theorem installOpenFile_run (hfull : s.Full) (o : OpenId) :
    ∃ s' e, installOpenFile o s = some (s', .error e) ∧ ∀ s₀ : FS, s₀.Untouched s → s₀.Untouched s' := by
  have hadd : addEntry o s = some (s, .error .EMFILE) := by
    unfold addEntry takeEntry
    rw [show s.freeEntry 0 = none from hfull]
  obtain ⟨s', e, hrun, hsame⟩ := abandon_run (α := Nat) o .EMFILE s
  exact ⟨s', e, (attempt_of hadd).trans hrun, hsame⟩

theorem installOpenFile_full (hfull : s.Full) (hs : s₀.Untouched s) {r : Except Errno Nat}
    (hr : installOpenFile o s = some (s', r)) : s₀.Untouched s' := by
  obtain ⟨s₁, e, hrun, hsame⟩ := installOpenFile_run hfull o
  rw [hrun] at hr
  cases hr
  exact hsame s₀ hs

theorem installOpenFile_error (hr : installOpenFile o s = some (s', .error e)) : s.Full := by
  unfold installOpenFile Prog.attempt addEntry takeEntry at hr
  cases hfree : s.freeEntry 0 with
  | none => exact hfree
  | some fd =>
    rw [hfree] at hr
    cases hr

theorem create_cases {file : FileId} {flags : Nat} {r : Except Errno OpenId} (hs : s₀.Untouched s)
    (hr : OpenFileState.create file flags s = some (s', r)) :
    s₀.Untouched s' ∧ s'.fileTable = s.fileTable ∧ s'.file = s.file ∧ s'.env = s.env ∧
      ((∃ e, r = .error e) ↔ (s.file file).kind = .dataFile ∧
        ∃ e, DataFile.tryOpen s file (flags &&& O_ACCMODE) = .error e) := by
  unfold OpenFileState.create at hr
  split at hr
  · next hkind =>
      split at hr
      · next e hopen =>
          cases hr
          exact ⟨hs, rfl, rfl, rfl, fun _ => ⟨hkind, e, hopen⟩, fun _ => ⟨e, rfl⟩⟩
      · next hopen =>
          cases hr
          refine ⟨(hs.addOpen _).logged _, rfl, rfl, rfl, fun ⟨_, h⟩ => (by cases h), ?_⟩
          rintro ⟨_, e, h⟩
          rw [hopen] at h
          cases h
  · next hkind =>
      cases hr
      refine ⟨hs.addOpen _, rfl, rfl, rfl, fun ⟨_, h⟩ => (by cases h), fun ⟨h, _⟩ => ?_⟩
      rw [hkind] at h
      cases h
  · next hkind =>
      cases hr
      refine ⟨hs.addOpen _, rfl, rfl, rfl, fun ⟨_, h⟩ => (by cases h), fun ⟨h, _⟩ => ?_⟩
      rw [hkind] at h
      cases h

theorem create_run (file : FileId) (flags : Nat) (s : FS) :
    ∃ s' r, OpenFileState.create file flags s = some (s', r) := by
  unfold OpenFileState.create
  split
  · split
    · exact ⟨_, _, rfl⟩
    · exact ⟨_, _, rfl⟩
  · exact ⟨_, _, rfl⟩
  · exact ⟨_, _, rfl⟩

end Installing

/-! ## The checks -/

/-- The checks of `doOpen` before it creates a file. -/
def createChecks (parent : FileId) (flags : Nat) : Sys Unit := do
  Prog.failIf (¬ has flags O_CREAT) .ENOENT
  Prog.failIf ((← getParent parent) = none) .ENOENT
  Prog.failIf (¬ has (← getMode parent) WASMFS_PERM_WRITE) .EACCES
  admitBackend (← getBackend parent)

/-- The checks of `doOpen` before it opens a file that exists. -/
def openChecks (child : FileId) (flags : Nat) : Sys Unit := do
  let accessMode := flags &&& O_ACCMODE
  let kind ← getKind child
  Prog.failIf (has flags O_EXCL ∧ has flags O_CREAT) .EEXIST
  Prog.failIf (kind = .directory ∧ (accessMode ≠ O_RDONLY ∨ has flags O_CREAT)) .EISDIR
  let fileMode ← getMode child
  Prog.failIf ((accessMode = O_RDONLY ∨ accessMode = O_RDWR) ∧ ¬ has fileMode WASMFS_PERM_READ)
    .EACCES
  Prog.failIf ((accessMode = O_WRONLY ∨ accessMode = O_RDWR) ∧ ¬ has fileMode WASMFS_PERM_WRITE)
    .EACCES
  Prog.failIf (has flags O_DIRECTORY ∧ kind ≠ .directory) .ENOTDIR

/-- What `doOpen` does to a file that exists, after its checks. -/
def openChecked (child : FileId) (flags : Nat) : Sys Nat := do
  let kind ← getKind child
  let fileMode ← getMode child
  let o ← OpenFileState.create child flags
  if has flags O_TRUNC then
    if kind ≠ .dataFile then
      abandonOpenFile o
      Prog.fail .EISDIR
    else if ¬ has fileMode WASMFS_PERM_WRITE then
      abandonOpenFile o
      Prog.fail .EACCES
    else
      Prog.attempt (DataFile.setSize child 0) fun
        | .ok _ => installOpenFile o
        | .error e =>
          if flags &&& O_ACCMODE ≠ O_RDONLY then do
            abandonOpenFile o
            Prog.fail e
          else installOpenFile o
  else installOpenFile o

theorem openExisting_eq (child : FileId) (flags : Nat) :
    openExisting child flags = openChecks child flags >>= fun _ => openChecked child flags := by
  funext s
  unfold openExisting openChecks openChecked getKind getMode
  simp only [bind_assoc, gets_bind_apply, failIf_bind_apply] <;> rfl

/-- `openat` gives no backend: the parent's makes the file. -/
theorem openNew_eq (parent : FileId) (childName : Name) (flags mode : Nat) :
    openNew parent childName flags mode none .fd = createChecks parent flags >>= fun _ =>
      Directory.insertDataFile parent childName (mode &&& S_IALLUGO) >>= fun created =>
        openNode created flags .fd := by
  funext s
  unfold openNew createChecks getParent getMode getBackend makeNode
  simp only [bind_assoc, gets_bind_apply, failIf_bind_apply, if_true]

/-! ## The condition -/

/-- `openat` creates the name `n` in `d`. -/
structure FS.Creates (s : FS) (flags : Nat) (d : FileId) (n : Name) : Prop where
  valid : validateOpenFlags flags s = some (s, .ok ())
  short : n.length ≤ WASMFS_NAME_MAX
  absent : s.tree.child d n = none
  checks : createChecks d flags s = some (s, .ok ())

/-- What a name of `d` stands for when it is opened: a symbolic link for its target. -/
def FS.Finds (s : FS) (flags : Nat) (d c f : FileId) : Prop :=
  if (s.file c).kind = .symlink then
    ¬ has flags O_NOFOLLOW ∧ Path.getFileFrom d (s.file c).target s = some (s, .ok f)
  else f = c

/-- `openat` truncates the file `f`, which it has found under the name `n` of `d`. -/
structure FS.Truncates (s : FS) (flags : Nat) (d : FileId) (n : Name) (f : FileId) : Prop where
  valid : validateOpenFlags flags s = some (s, .ok ())
  short : n.length ≤ WASMFS_NAME_MAX
  finds : ∃ c, s.tree.child d n = some c ∧ admitFile c s = some (s, .ok ()) ∧ s.Finds flags d c f
  checks : openChecks f flags s = some (s, .ok ())
  opens : DataFile.tryOpen s f (flags &&& O_ACCMODE) = .ok ()
  trunc : has flags O_TRUNC
  kind : (s.file f).kind = .dataFile
  writable : has (s.file f).mode WASMFS_PERM_WRITE
  changes : s.Truncatable f

/-- The backend of `d` makes a file that it does not open. -/
def FS.OpenFails (s : FS) (flags : Nat) (d : FileId) : Prop :=
  (newDataFile (s.file d).backend 0 s.env.now).data = .external ∧
    ∃ e, s.env.open_ s.nextFile (flags &&& O_ACCMODE) = .error e

/-- The call would change something and then fail: it creates a file that it cannot
open, or for which there is no descriptor, or truncates one for which there is none. -/
inductive FS.Spoils (s : FS) (dirfd : Int) (path : Path) (flags : Nat) : Prop
  | created (d : FileId) (n : Name) (hlead : s.Leads path dirfd d n) (h : s.Creates flags d n)
      (hfail : s.Full ∨ s.OpenFails flags d)
  | truncated (d : FileId) (n : Name) (f : FileId) (hlead : s.Leads path dirfd d n)
      (h : s.Truncates flags d n f) (hfull : s.Full)

/-! ## Files that exist -/

section Existing

variable {s₀ s s' : FS} {f : FileId} {flags : Nat}

theorem setSize_external (hdata : (s.file f).data = .external) (hr : DataFile.setSize f 0 s = some (s', r)) :
    s' = s.requested (.setSize f 0) ∧ r = s.env.setSize f 0 := by
  unfold DataFile.setSize at hr
  have hdata' : ((s.requested (.setSize f 0)).file f).data = .external := hdata
  simp only [hdata'] at hr
  cases hr
  exact ⟨rfl, rfl⟩

theorem FS.truncatable_congr (hfile : s'.file f = s.file f) (henv : s'.env = s.env) :
    s'.Truncatable f ↔ s.Truncatable f := by
  unfold Truncatable
  rw [hfile, henv]

theorem setSize_run (f : FileId) (size : Int) (s : FS) :
    ∃ s' r, DataFile.setSize f size s = some (s', r) ∧ s'.fileTable = s.fileTable := by
  have hrun : ∃ p, DataFile.setSize f size s = some p := by
    unfold DataFile.setSize
    dsimp only
    split
    · split
      · exact ⟨_, rfl⟩
      · exact ⟨_, rfl⟩
    · exact ⟨_, rfl⟩
    · exact ⟨_, rfl⟩
  obtain ⟨⟨s', r⟩, hrun⟩ := hrun
  refine ⟨s', r, hrun, ?_⟩
  rcases DataFile.setSize_cases hrun with rfl | ⟨_, _, _, rfl⟩
  · rfl
  · rfl

/-- Where there is nothing to truncate, the truncation is not seen. -/
theorem setSize_untouched (hs : s₀.Untouched s) (hf : f < s₀.nextFile) (hnot : ¬ s₀.Truncatable f)
    (hr : DataFile.setSize f 0 s = some (s', r)) : s₀.Untouched s' := by
  have hreq : s₀.Untouched (s.requested (.setSize f 0)) := hs.requested fun _ => hnot
  rcases DataFile.setSize_cases hr with rfl | ⟨buffer, hdata, _, rfl⟩
  · exact hreq
  · have hempty : buffer = [] := by
      by_contra hne
      refine hnot ((FS.truncatable_congr (hs.file f hf) hs.env).mp ?_)
      unfold FS.Truncatable
      rw [hdata]
      exact hne
    subst hempty
    rw [FS.modifyFile_eq_self]
    · exact hreq
    · change { s.file f with data := .memory (ByteSeq.resize 0 0 []) } = s.file f
      rw [show ByteSeq.resize (0 : UInt8) 0 [] = [] from rfl, ← hdata]

/-- A truncation that fails is not seen. -/
theorem setSize_error_untouched (hs : s₀.Untouched s) (hf : f < s₀.nextFile)
    (hr : DataFile.setSize f 0 s = some (s', .error e)) : s₀.Untouched s' := by
  have hreq : s₀.Harmless (.setSize f 0) := by
    intro hdata htrunc
    obtain ⟨_, hanswer⟩ := setSize_external ((congrArg File.data (hs.file f hf)).trans hdata) hr
    unfold FS.Truncatable at htrunc
    rw [hdata] at htrunc
    rw [hs.env, htrunc.1] at hanswer
    cases hanswer
  rcases DataFile.setSize_cases hr with rfl | ⟨_, _, hok, _⟩
  · exact hs.requested hreq
  · cases hok

/-- A truncation that changes something succeeds, and stays seen whatever follows. -/
theorem setSize_touches (hs : s₀.Untouched s) (hf : f < s₀.nextFile) (htrunc : s₀.Truncatable f)
    (hr : DataFile.setSize f 0 s = some (s', r)) :
    r = .ok () ∧ ∀ s'', s'.Untouched s'' → ¬ s₀.Untouched s'' := by
  have hfile := hs.file f hf
  unfold FS.Truncatable at htrunc
  split at htrunc
  · next buffer hdata =>
      have hbuf : (s.file f).data = .memory buffer := (congrArg File.data hfile).trans hdata
      have hrun : DataFile.setSize f 0 s = some ((s.requested (.setSize f 0)).modifyFile f fun x =>
          { x with data := .memory (ByteSeq.resize 0 0 buffer) }, .ok ()) := by
        unfold DataFile.setSize
        have hbuf' : ((s.requested (.setSize f 0)).file f).data = .memory buffer := hbuf
        simp only [hbuf']
        rw [if_neg (by decide)]
        rfl
      rw [hrun] at hr
      cases hr
      refine ⟨rfl, fun s'' hs'' hsame => htrunc ?_⟩
      have hnew := hs''.file f (Nat.lt_of_lt_of_le hf hs.nextFile)
      rw [FS.modifyFile_file_self, hsame.file f hf] at hnew
      have hnewdata := congrArg File.data hnew
      rw [hdata] at hnewdata
      exact (DataImpl.memory.inj hnewdata).trans (by simp [ByteSeq.resize])
  · exact htrunc.elim
  · next hdata =>
      obtain ⟨rfl, rfl⟩ := setSize_external ((congrArg File.data hfile).trans hdata) hr
      refine ⟨hs.env ▸ htrunc.1, fun s'' hs'' hsame => ?_⟩
      obtain ⟨made, hmade, _⟩ := hs.outside
      obtain ⟨later, hlater, _⟩ := hs''.outside
      obtain ⟨all, hall, hharmless⟩ := hsame.outside
      have hlist : all = later ++ .setSize f 0 :: made := by
        have hboth : all ++ s₀.requests = (later ++ .setSize f 0 :: made) ++ s₀.requests := by
          rw [← hall, hlater]
          change later ++ .setSize f 0 :: s.requests = _
          rw [hmade]
          simp
        exact List.append_cancel_right hboth
      have hmem : DataRequest.setSize f 0 ∈ all := by
        rw [hlist]
        exact List.mem_append_right _ List.mem_cons_self
      refine hharmless _ hmem hdata ?_
      unfold FS.Truncatable
      rw [hdata]
      exact htrunc

/-- The truncation of an open description, and what follows: an error that changes
something comes after a truncation, from a full table. -/
theorem truncate_error (hs : s₀.Untouched s) (hf : f < s₀.nextFile) {o : OpenId}
    (hr : Prog.attempt (DataFile.setSize f 0) (fun r => match r with
      | .ok _ => installOpenFile o
      | .error e =>
        if flags &&& O_ACCMODE ≠ O_RDONLY then abandonOpenFile o >>= fun _ => Prog.fail e
        else installOpenFile o) s = some (s', .error e)) : s₀.Untouched s' ∨ s₀.Truncatable f ∧ s.Full := by
  obtain ⟨s₁, r₁, hset, htable⟩ := setSize_run f 0 s
  rw [attempt_of hset] at hr
  have hinstall : s₀.Untouched s₁ → installOpenFile o s₁ = some (s', .error e) → s₀.Untouched s' :=
    fun hs₁ hrun => installOpenFile_full (installOpenFile_error hrun) hs₁ hrun
  cases r₁ with
  | error e₁ =>
    have hs₁ := setSize_error_untouched hs hf hset
    simp only [] at hr
    split at hr
    · exact .inl (abandon_fail hs₁ hr)
    · exact .inl (hinstall hs₁ hr)
  | ok _ =>
    by_cases htruncatable : s₀.Truncatable f
    · exact .inr ⟨htruncatable, (FS.full_congr htable).mp (installOpenFile_error hr)⟩
    · exact .inl (hinstall (setSize_untouched hs hf htruncatable hset) hr)

/-- What is left of `openat` after the file it found has passed its checks. -/
theorem openChecked_error (hf : f < s.nextFile) (hr : openChecked f flags s = some (s', .error e)) :
    s.Untouched s' ∨ (DataFile.tryOpen s f (flags &&& O_ACCMODE) = .ok () ∧ has flags O_TRUNC ∧
      (s.file f).kind = .dataFile ∧ has (s.file f).mode WASMFS_PERM_WRITE ∧ s.Truncatable f ∧
      s.Full) := by
  unfold openChecked getKind getMode at hr
  rw [gets_bind_apply, gets_bind_apply] at hr
  obtain ⟨s₁, r₁, hc⟩ := create_run f flags s
  obtain ⟨hs₁, htable, _, _, hfails⟩ := create_cases (.refl s) hc
  cases r₁ with
  | error e₁ =>
    rw [bind_of_error hc] at hr
    cases hr
    exact .inl hs₁
  | ok o =>
    rw [bind_of_ok hc] at hr
    split at hr
    · next htrunc =>
        split at hr
        · exact .inl (abandon_fail hs₁ hr)
        · next hkind =>
            split at hr
            · exact .inl (abandon_fail hs₁ hr)
            · next hmode =>
                rcases truncate_error hs₁ hf hr with hsame | ⟨htruncatable, hfull⟩
                · exact .inl hsame
                · have hkind' : (s.file f).kind = .dataFile := not_not.mp hkind
                  refine .inr ⟨?_, htrunc, hkind', not_not.mp hmode, htruncatable,
                    (FS.full_congr htable).mp hfull⟩
                  cases hopen : DataFile.tryOpen s f (flags &&& O_ACCMODE) with
                  | ok _ => rfl
                  | error e₁ =>
                    obtain ⟨_, he₂⟩ := hfails.mpr ⟨hkind', e₁, hopen⟩
                    cases he₂
    · exact .inl (installOpenFile_full (installOpenFile_error hr) hs₁ hr)

/-- A truncation that changes something and finds no descriptor. -/
theorem openChecked_spoils (hf : f < s.nextFile)
    (hopen : DataFile.tryOpen s f (flags &&& O_ACCMODE) = .ok ()) (htrunc : has flags O_TRUNC)
    (hkind : (s.file f).kind = .dataFile) (hmode : has (s.file f).mode WASMFS_PERM_WRITE)
    (hchanges : s.Truncatable f) (hfull : s.Full) {r : Except Errno Nat}
    (hr : openChecked f flags s = some (s', r)) : ¬ s.Untouched s' := by
  unfold openChecked getKind getMode at hr
  rw [gets_bind_apply, gets_bind_apply] at hr
  have hc : OpenFileState.create f flags s = some ((s.addOpen ⟨f, 0, flags, 0, []⟩).logged
      (.opened s.nextOpen :: s.log), .ok s.nextOpen) := by
    unfold OpenFileState.create
    rw [hkind]
    simp only [hopen]
  obtain ⟨hs₁, htable, _, _, _⟩ := create_cases (.refl s) hc
  rw [bind_of_ok hc, if_pos htrunc, if_neg (not_not.mpr hkind), if_neg (not_not.mpr hmode)] at hr
  obtain ⟨s₂, r₂, hset, htable₂⟩ := setSize_run f 0 ((s.addOpen ⟨f, 0, flags, 0, []⟩).logged
    (.opened s.nextOpen :: s.log))
  obtain ⟨rfl, htouched⟩ := setSize_touches hs₁ hf hchanges hset
  rw [attempt_of hset] at hr
  have hfull₂ := (FS.full_congr (htable₂.trans htable)).mpr hfull
  exact htouched s' (installOpenFile_full hfull₂ (.refl s₂) hr)

end Existing

/-! ## New files -/

section New

variable {s s' : FS} {d : FileId} {n : Name} {flags : Nat}

theorem reads_createChecks (d : FileId) (flags : Nat) (s : FS) :
    Reads s (createChecks d flags) (fun _ => s.tree.parent d ≠ none) := by
  refine .bind .failIf fun _ _ => ?_
  refine .bind (Q := fun p => p = s.tree.parent d) (.gets rfl) fun p hp => ?_
  refine .bind .failIf fun _ hparent => ?_
  refine .bind (reads_getMode d) fun _ _ => .bind .failIf fun _ _ => ?_
  refine .bind (reads_getBackend d) fun b _ => (reads_admitBackend b).conseq fun _ _ => ?_
  exact hp ▸ hparent

/-- A new data file in a directory that has no such name. -/
theorem insertDataFile_spec (h : s.TreeSound) (hd : s.IsDir d) (hp : s.tree.parent d ≠ none)
    (hfree : s.tree.child d n = none) (mode : Nat) :
    ∃ s₁, Directory.insertDataFile d n mode s = some (s₁, .ok (some s.nextFile)) ∧
      s.KeepsTable s₁ ∧ s₁.env = s.env ∧
      (s₁.file d).entries = (s.file d).entries ++ [(n, s.nextFile)] ∧
      (s₁.file s.nextFile).kind = .dataFile ∧
      (s₁.file s.nextFile).data = (newDataFile (s.file d).backend mode s.env.now).data := by
  let x := newDataFile (s.file d).backend mode s.env.now
  obtain ⟨s₁, hrun, htable, _, _⟩ := insertNew_spec h hd hp hfree (blank_newDataFile _ _ _ : x.Blank)
  have hne : s.nextFile ≠ d := Nat.ne_of_gt hd.1
  have hmade : s₁ = (((s.addFile x).memoryInsertChild d n s.nextFile).cacheChild d n s.nextFile
      .normal).updateMTime d := by
    cases hrun
    rfl
  have hfile : s₁.file s.nextFile = { x with parent := some d } := by
    rw [hmade, FS.updateMTime_file, if_neg hne]
    unfold FS.cacheChild
    rw [if_neg (by simp [File.maintainsFileIdentity]), FS.setParent_file, if_pos rfl]
    unfold FS.memoryInsertChild
    rw [FS.modifyFile_file, if_neg hne, FS.addFile_file, if_pos rfl]
  have hdir : (s₁.file d).entries = (s.file d).entries ++ [(n, s.nextFile)] := by
    rw [hmade, FS.updateMTime_file, if_pos rfl]
    unfold FS.cacheChild
    rw [if_neg (by simp [File.maintainsFileIdentity]), FS.setParent_file, if_neg hne.symm]
    unfold FS.memoryInsertChild
    rw [FS.modifyFile_file, if_pos rfl, FS.addFile_file, if_neg hne.symm]
  refine ⟨s₁, ?_, htable, by rw [hmade]; rfl, hdir, by rw [hfile]; rfl, by rw [hfile]⟩
  unfold Directory.insertDataFile
  rw [if_neg (show ¬ (s.file d).parent = none from hp), bind_of_ok hrun]
  rfl

/-- A file that has just been made is opened and installed. -/
theorem openCreated_error
    (hr : (OpenFileState.create f flags >>= fun o => installOpenFile o) s = some (s', .error e)) :
    s.Untouched s' ∧ (s.Full ∨
      (s.file f).kind = .dataFile ∧ ∃ e, DataFile.tryOpen s f (flags &&& O_ACCMODE) = .error e) := by
  obtain ⟨s₁, r₁, hc⟩ := create_run f flags s
  obtain ⟨hs₁, htable, _, _, hfails⟩ := create_cases (.refl s) hc
  cases r₁ with
  | error e₁ =>
    rw [bind_of_error hc] at hr
    cases hr
    exact ⟨hs₁, .inr (hfails.mp ⟨e, rfl⟩)⟩
  | ok o =>
    rw [bind_of_ok hc] at hr
    have hfull := installOpenFile_error hr
    exact ⟨installOpenFile_full hfull hs₁ hr, .inl ((FS.full_congr htable).mp hfull)⟩

/-- Without a free descriptor, the creation of a file is an error. -/
theorem openNew_full (h : s.TreeSound) (hd : s.IsDir d) (hfree : s.tree.child d n = none)
    (hchecks : createChecks d flags s = some (s, .ok ())) (hfull : s.Full) (mode : Nat) :
    ∃ s' e, openNew d n flags mode none .fd s = some (s', .error e) := by
  have hp := (reads_createChecks d flags s _ _ hchecks).2 () rfl
  obtain ⟨s₁, hrun, htable, _⟩ := insertDataFile_spec h hd hp hfree (mode &&& S_IALLUGO)
  obtain ⟨s₂, r₂, hc⟩ := create_run s.nextFile flags s₁
  obtain ⟨_, hkept, _⟩ := create_cases (.refl s₁) hc
  rw [openNew_eq, bind_of_ok hchecks, bind_of_ok hrun]
  change ∃ s' e, (OpenFileState.create s.nextFile flags >>= fun o => installOpenFile o) s₁ = _
  cases r₂ with
  | error e => exact ⟨s₂, e, bind_of_error hc⟩
  | ok o =>
    have hfull₂ := (FS.full_congr (hkept.trans htable.fileTable)).mpr hfull
    obtain ⟨s', e, hinstall, _⟩ := installOpenFile_run hfull₂ o
    exact ⟨s', e, (bind_of_ok hc).trans hinstall⟩

/-- A file that was created stays, whatever keeps it from being opened. -/
theorem openNew_error (h : s.TreeSound) (hd : s.IsDir d) (hfree : s.tree.child d n = none) {mode : Nat}
    (hr : openNew d n flags mode none .fd s = some (s', .error e)) :
    (s' = s ∧ createChecks d flags s ≠ some (s, .ok ())) ∨
      (¬ s.Untouched s' ∧ createChecks d flags s = some (s, .ok ()) ∧
        (s.Full ∨ s.OpenFails flags d)) := by
  rw [openNew_eq] at hr
  rcases Reads.bind_error_cases (reads_createChecks d flags s) hr with
    ⟨rfl, hfails⟩ | ⟨_, hp, hchecks, hr⟩
  · refine .inl ⟨rfl, fun hchecks => ?_⟩
    rw [hchecks] at hfails
    cases hfails
  obtain ⟨s₁, hrun, htable, henv, hentries, hkind, hdata⟩ := insertDataFile_spec h hd hp hfree
    (mode &&& S_IALLUGO)
  rw [bind_of_ok hrun] at hr
  change (OpenFileState.create s.nextFile flags >>= fun o => installOpenFile o) s₁ = _ at hr
  obtain ⟨hsame, hwhy⟩ := openCreated_error hr
  refine .inr ⟨fun huntouched => ?_, hchecks, ?_⟩
  · have hafter := congrArg File.entries (hsame.file d (Nat.lt_of_lt_of_le hd.1 htable.nextFile))
    rw [huntouched.file d hd.1, hentries] at hafter
    exact absurd hafter (by simp)
  · rcases hwhy with hfull | ⟨_, e₁, hopen⟩
    · exact .inl ((FS.full_congr htable.fileTable).mp hfull)
    · refine .inr ?_
      unfold DataFile.tryOpen at hopen
      rw [henv] at hopen
      split at hopen
      · next hexternal => exact ⟨hdata.symm.trans hexternal, e₁, hopen⟩
      · cases hopen

end New

/-! ## openat -/

section Openat

variable {s s' : FS} {dirfd : Int} {path : Path} {flags mode : Nat}

theorem reads_validateOpenFlags (flags : Nat) (s : FS) :
    Reads s (validateOpenFlags flags) (fun _ => True) := by
  refine .bind .failIf fun _ _ => .bind .failIf fun _ _ => .bind .failIf fun _ _ => ?_
  exact .bind .failIf fun _ _ => Reads.failIf.conseq fun _ _ => trivial

theorem reads_openChecks (f : FileId) (flags : Nat) (s : FS) :
    Reads s (openChecks f flags) (fun _ => True) := by
  refine .bind (reads_getKind f) fun _ _ => .bind .failIf fun _ _ => .bind .failIf fun _ _ => ?_
  refine .bind (reads_getMode f) fun _ _ => .bind .failIf fun _ _ => .bind .failIf fun _ _ => ?_
  exact Reads.failIf.conseq fun _ _ => trivial

/-- The branch of `doOpen` for a name that is there. -/
def openFound (parent child : FileId) (flags : Nat) : Sys Nat := do
  admitFile child
  if (← getKind child) = .symlink then
    Prog.failIf (has flags O_NOFOLLOW) .ELOOP
    let target ← Prog.gets fun s => (s.file child).target
    let child ← Path.getFileFrom parent target
    openExisting child flags
  else openExisting child flags

theorem openExisting_error (hf : f < s.nextFile) (hr : openExisting f flags s = some (s', .error e)) :
    s.Untouched s' ∨ openChecks f flags s = some (s, .ok ()) ∧
      (DataFile.tryOpen s f (flags &&& O_ACCMODE) = .ok () ∧ has flags O_TRUNC ∧
      (s.file f).kind = .dataFile ∧ has (s.file f).mode WASMFS_PERM_WRITE ∧ s.Truncatable f ∧
      s.Full) := by
  rw [openExisting_eq] at hr
  rcases Reads.bind_error_cases (reads_openChecks f flags s) hr with
    ⟨rfl, _⟩ | ⟨_, _, hchecks, hr⟩
  · exact .inl (.refl _)
  · exact (openChecked_error hf hr).imp_right fun h => ⟨hchecks, h⟩

/-- An error of `openat` on a name that is there. -/
theorem openFound_error (h : s.TreeSound) (hK : s.Closed fun f => f < s.nextFile) {d c : FileId}
    (hd : Path.DirIn s (fun f => f < s.nextFile) d) (hc : c < s.nextFile)
    (hr : openFound d c flags s = some (s', .error e)) :
    s.Untouched s' ∨ ∃ f, admitFile c s = some (s, .ok ()) ∧ s.Finds flags d c f ∧
      openChecks f flags s = some (s, .ok ()) ∧
      (DataFile.tryOpen s f (flags &&& O_ACCMODE) = .ok () ∧ has flags O_TRUNC ∧
      (s.file f).kind = .dataFile ∧ has (s.file f).mode WASMFS_PERM_WRITE ∧ s.Truncatable f ∧
      s.Full) := by
  unfold openFound getKind at hr
  rcases Reads.bind_error_cases (reads_admitFile c) hr with ⟨rfl, _⟩ | ⟨_, _, hadmit, hr⟩
  · exact .inl (.refl _)
  rw [gets_bind_apply] at hr
  split at hr
  · next hlink =>
      rcases Reads.bind_error_cases Reads.failIf hr with ⟨rfl, _⟩ | ⟨_, hfollow, _, hr⟩
      · exact .inl (.refl _)
      rw [gets_bind_apply] at hr
      rcases Reads.bind_error_cases (Path.reads_getFileFrom h hK hd _) hr with
        ⟨rfl, _⟩ | ⟨f, hf, hget, hr⟩
      · exact .inl (.refl _)
      rcases openExisting_error hf hr with hsame | hwhy
      · exact .inl hsame
      · refine .inr ⟨f, hadmit, ?_, hwhy⟩
        unfold FS.Finds
        rw [if_pos hlink]
        exact ⟨hfollow, hget⟩
  · next hlink =>
      rcases openExisting_error hc hr with hsame | hwhy
      · exact .inl hsame
      · refine .inr ⟨c, hadmit, ?_, hwhy⟩
        unfold FS.Finds
        rw [if_neg hlink]

/-- On a name that is there, what the condition says is what happens. -/
theorem openFound_spoils (h : s.TreeSound) (hK : s.Closed fun f => f < s.nextFile) {d n : _}
    (hd : Path.DirIn s (fun f => f < s.nextFile) d) (ht : s.Truncates flags d n f) (hfull : s.Full)
    {r : Except Errno Nat} {c : FileId} (hchild : s.tree.child d n = some c)
    (hr : openFound d c flags s = some (s', r)) : ¬ s.Untouched s' := by
  obtain ⟨c', hc', hadmit, hfinds⟩ := ht.finds
  rw [hchild] at hc'
  cases hc'
  have hexisting : f < s.nextFile → openExisting f flags s = some (s', r) → ¬ s.Untouched s' := by
    intro hf hrun
    rw [openExisting_eq, bind_of_ok ht.checks] at hrun
    exact openChecked_spoils hf ht.opens ht.trunc ht.kind ht.writable ht.changes hfull hrun
  unfold openFound getKind at hr
  rw [bind_of_ok hadmit, gets_bind_apply] at hr
  unfold FS.Finds at hfinds
  split at hr
  · next hlink =>
      rw [if_pos hlink] at hfinds
      rw [failIf_bind_apply, if_neg hfinds.1, gets_bind_apply, bind_of_ok hfinds.2] at hr
      obtain ⟨_, hf⟩ := Path.reads_getFileFrom h hK hd _ _ _ hfinds.2
      exact hexisting (hf f rfl) hr
  · next hlink =>
      rw [if_neg hlink] at hfinds
      subst hfinds
      exact hexisting (hK.child d n f hd.1 hchild) hr

theorem openat_error (h : s.Sound) (hr : openat dirfd path flags mode s = some (s', .error e)) :
    s.Untouched s' ∨ s.Spoils dirfd path flags := by
  have hK := h.existing
  unfold openat at hr
  rcases Reads.bind_error_cases (reads_validateOpenFlags flags s) hr with
    ⟨rfl, _⟩ | ⟨_, _, hvalid, hr⟩
  · exact .inl (.refl _)
  rcases Reads.bind_error_cases (Path.reads_parseParent h.tree hK path dirfd) hr with
    ⟨rfl, _⟩ | ⟨⟨d, n⟩, hd, hlead, hr⟩
  · exact .inl (.refl _)
  unfold doOpen at hr
  rcases Reads.bind_error_cases Reads.failIf hr with ⟨rfl, _⟩ | ⟨_, hshort, _, hr⟩
  · exact .inl (.refl _)
  rw [bind_of_ok (getChild_eq h.tree d n)] at hr
  cases hchild : s.tree.child d n with
  | none =>
    rw [hchild] at hr
    rcases openNew_error h.tree hd hchild hr with ⟨rfl, _⟩ | ⟨_, hchecks, hwhy⟩
    · exact .inl (.refl _)
    · exact .inr (.created d n hlead ⟨hvalid, Nat.le_of_not_lt hshort, hchild, hchecks⟩ hwhy)
  | some c =>
    rw [hchild] at hr
    rcases openFound_error h.tree hK hd (hK.child d n c hd.1 hchild) hr with
      hsame | ⟨f, hadmit, hfinds, hchecks, hopens, htrunc, hkind, hmode, hchanges, hfull⟩
    · exact .inl hsame
    · exact .inr (.truncated d n f hlead ⟨hvalid, Nat.le_of_not_lt hshort,
        ⟨c, hchild, hadmit, hfinds⟩, hchecks, hopens, htrunc, hkind, hmode, hchanges⟩ hfull)

theorem openat_spoils (h : s.Sound) (hspoils : s.Spoils dirfd path flags)
    (hr : openat dirfd path flags mode s = some (s', .error e)) : ¬ s.Untouched s' := by
  have hK := h.existing
  have hlands : ∀ {d : FileId} {n : Name}, s.Leads path dirfd d n →
      Path.DirIn s (fun f => f < s.nextFile) d := fun hlead =>
    (Path.reads_parseParent h.tree hK path dirfd _ _ hlead).2 _ rfl
  unfold openat at hr
  cases hspoils with
  | created d n hlead hcreates hfail =>
    rw [bind_of_ok hcreates.valid, bind_of_ok hlead] at hr
    change doOpen d n flags mode none .fd s = _ at hr
    unfold doOpen at hr
    rw [failIf_bind_apply, if_neg (Nat.not_lt.mpr hcreates.short),
      bind_of_ok (getChild_eq h.tree d n), hcreates.absent] at hr
    rcases openNew_error h.tree (hlands hlead) hcreates.absent hr with ⟨_, hchecks⟩ | ⟨hseen, _⟩
    · exact absurd hcreates.checks hchecks
    · exact hseen
  | truncated d n f hlead htruncates hfull =>
    obtain ⟨c, hchild, _⟩ := htruncates.finds
    rw [bind_of_ok htruncates.valid, bind_of_ok hlead] at hr
    change doOpen d n flags mode none .fd s = _ at hr
    unfold doOpen at hr
    rw [failIf_bind_apply, if_neg (Nat.not_lt.mpr htruncates.short),
      bind_of_ok (getChild_eq h.tree d n), hchild] at hr
    exact openFound_spoils h.tree hK (hlands hlead) htruncates hfull hchild hr

/-- In every reachable state, a call of `openat` that fails leaves everything as it was
exactly when it neither creates a file that it cannot open, or for which no descriptor is
free, nor truncates one for which no descriptor is free. -/
theorem openat_error_iff (hreach : Reachable s) (dirfd : Int) (path : Path) (flags mode : Nat)
    (s' : FS) (e : Errno) (hr : openat dirfd path flags mode s = some (s', .error e)) :
    s.Untouched s' ↔ ¬ s.Spoils dirfd path flags := by
  have h := hreach.sound
  refine ⟨fun hsame hspoils => openat_spoils h hspoils hr hsame, fun hnot => ?_⟩
  rcases openat_error h hr with hsame | hspoils
  · exact hsame
  · exact absurd hspoils hnot

/-- A missing file that is not to be created. -/
theorem openat_error_iff_missing : (FS.init 0 Env.quiet).Untouched (FS.init 0 Env.quiet) ↔
    ¬ (FS.init 0 Env.quiet).Spoils AT_FDCWD "/x".toList O_RDONLY :=
  openat_error_iff (Reachable.init 0 Env.quiet) AT_FDCWD "/x".toList O_RDONLY 0 _ .ENOENT rfl

end Openat

/-! ## An instance without free descriptors -/

/-- A new instance whose first `k` descriptors are in use, all of them of the standard
streams. -/
structure FS.Crowded (s : FS) (k : Nat) : Prop where
  reach : Reachable s
  same : ∃ table descriptions,
    s = { FS.init 0 Env.quiet with fileTable := table, openFile := descriptions }
  stdin : s.getEntry 0 = some 0 ∧ (s.openFile 0).file = 0
  used : ∀ fd : Nat, fd < k → s.getEntry fd ≠ none

theorem FS.Crowded.settled {k : Nat} (h : s.Crowded k) : s.Settled := by
  obtain ⟨table, descriptions, rfl⟩ := h.same
  intro f d hd
  change (FS.init 0 Env.quiet).tree.parent f = some d at hd
  rw [init_parent] at hd
  have hroot := FS.Held.root (s := { FS.init 0 Env.quiet with
    fileTable := table, openFile := descriptions })
  have hdev := hroot.entry 3 4 "dev".toList (List.mem_cons_self : _ ∈ (_ : List (Name × FileId)))
  split at hd
  · split at hd
    · cases hd
      exact hroot
    · cases hd
      exact hdev
  · cases hd

theorem FS.Crowded.dup {k : Nat} (h : s.Crowded k) (hk : k < WASMFS_FD_MAX) :
    ∃ s' : FS, s'.Crowded (k + 1) := by
  cases hfree : s.getEntry k with
  | some o =>
    refine ⟨s, { h with used := fun fd hfd => ?_ }⟩
    rcases Nat.lt_succ_iff_lt_or_eq.mp hfd with hlt | rfl
    · exact h.used fd hlt
    · rw [hfree]
      exact fun hnone => by cases hnone
  | none =>
    have hfirst : s.freeEntry 0 = some k := by
      unfold FS.freeEntry
      rw [List.find?_range'_eq_some]
      refine ⟨by simpa using hfree, List.mem_range'_1.mpr ⟨Nat.zero_le k, by simpa using hk⟩, ?_⟩
      intro j _ hj
      simpa using h.used j hj
    have hadmit : admitOpenFile 0 s = some (s, .ok ()) := by
      obtain ⟨table, descriptions, rfl⟩ := h.same
      unfold admitOpenFile admitFile getBackend
      rw [gets_bind_apply, gets_bind_apply, h.stdin.2]
      rfl
    have hget : WasmFS.getEntry 0 s = some (s, .ok (some 0)) := by
      change some (s, Except.ok (s.getEntry 0)) = _
      rw [h.stdin.1]
    have hfetch : fetch 0 s = some (s, .ok 0) := by
      unfold fetch
      rw [bind_of_ok hget]
      exact bind_of_ok hadmit
    have hadd : addEntry 0 s = some ((s.setEntry k (some 0)).1, .ok k) := by
      unfold addEntry takeEntry
      rw [hfirst]
    have hrun : (Call.dup 0).exec s = some ((s.setEntry k (some 0)).1, .ok ()) := by
      have hdup : WasmFS.dup 0 s = some ((s.setEntry k (some 0)).1, .ok k) :=
        (bind_of_ok hfetch).trans hadd
      exact bind_of_ok hdup
    refine ⟨(s.setEntry k (some 0)).1, h.reach.step (.call _ _ _ h.settled hrun), ?_, ?_, ?_⟩
    · have hgrown : ((s.growTable k).addUses 0 1).getEntry k = none := by
        rw [FS.getEntry_ofNat]
        exact (s.grownTable_getElem? k k).trans hfree
      obtain ⟨table, descriptions, rfl⟩ := h.same
      unfold FS.setEntry
      simp only [hgrown]
      exact ⟨_, _, rfl⟩
    · rw [FS.setEntry_getEntry]
      refine ⟨?_, (s.setEntry_openFile k (some 0) 0).1.trans h.stdin.2⟩
      split
      · rfl
      · exact h.stdin.1
    · intro fd hfd
      rw [FS.setEntry_getEntry]
      split
      · exact fun hnone => by cases hnone
      · next hne => exact h.used fd (by omega)

theorem crowded_of_le (k : Nat) (hk : k ≤ WASMFS_FD_MAX) : ∃ s : FS, s.Crowded k := by
  induction k with
  | zero => exact ⟨FS.init 0 Env.quiet, .init 0 Env.quiet, ⟨_, _, rfl⟩, ⟨rfl, rfl⟩,
      fun fd hfd => absurd hfd (Nat.not_lt_zero fd)⟩
  | succ k ih =>
    obtain ⟨s, hs⟩ := ih (Nat.le_of_succ_le hk)
    exact hs.dup hk

theorem FS.Crowded.full (h : s.Crowded WASMFS_FD_MAX) : s.Full := by
  unfold FS.Full FS.freeEntry
  rw [List.find?_eq_none]
  intro fd hfd
  have hlt : fd < WASMFS_FD_MAX := by simpa using (List.mem_range'_1.mp hfd).2
  simpa using h.used fd hlt

/-- `openat` of a new file, where every descriptor is in use. -/
theorem openat_full_creates (h : s.Crowded WASMFS_FD_MAX) :
    s.Spoils AT_FDCWD "/x".toList (O_CREAT ||| O_WRONLY) ∧
      ∃ s' e, openat AT_FDCWD "/x".toList (O_CREAT ||| O_WRONLY) 0o644 s = some (s', .error e) := by
  have hfull := h.full
  have htree := h.reach.sound.tree
  obtain ⟨table, descriptions, hs⟩ := h.same
  have hlead : s.Leads "/x".toList AT_FDCWD 3 "x".toList := by rw [hs]; rfl
  have hvalid : validateOpenFlags (O_CREAT ||| O_WRONLY) s = some (s, .ok ()) := rfl
  have habsent : s.tree.child 3 "x".toList = none := by rw [hs]; rfl
  have hchecks : createChecks 3 (O_CREAT ||| O_WRONLY) s = some (s, .ok ()) := by
    unfold createChecks getParent getMode getBackend
    rw [failIf_bind_apply, if_neg (by decide), gets_bind_apply, failIf_bind_apply,
      if_neg (by rw [hs]; exact fun hnone => by cases hnone), gets_bind_apply, failIf_bind_apply,
      if_neg (by rw [hs]; change ¬ ¬ has (S_IFDIR ||| (S_IRUGO ||| S_IXUGO ||| S_IWUGO)) _; decide),
      gets_bind_apply, hs]
    rfl
  refine ⟨.created 3 _ hlead ⟨hvalid, by decide, habsent, hchecks⟩ (.inl hfull), ?_⟩
  have hdir : s.IsDir 3 := by rw [hs]; exact ⟨(by decide : (3 : Nat) < 9), rfl⟩
  obtain ⟨s', e, hrun⟩ := openNew_full htree hdir habsent hchecks hfull 0o644
  refine ⟨s', e, ?_⟩
  unfold openat
  rw [bind_of_ok hvalid, bind_of_ok hlead]
  change doOpen 3 "x".toList _ _ none .fd s = _
  unfold doOpen
  rw [failIf_bind_apply, if_neg (by decide), bind_of_ok (getChild_eq htree 3 _), habsent]
  exact hrun

theorem openat_leaves_created_file : ¬ ∀ (s : FS), Reachable s → ∀ dirfd path flags mode s' e,
    openat dirfd path flags mode s = some (s', .error e) → s.Untouched s' := by
  intro hall
  obtain ⟨s, hs⟩ := crowded_of_le WASMFS_FD_MAX (Nat.le_refl _)
  obtain ⟨hspoils, s', e, hr⟩ := openat_full_creates hs
  exact openat_spoils hs.reach.sound hspoils hr (hall s hs.reach _ _ _ _ _ _ hr)

end WasmFS
