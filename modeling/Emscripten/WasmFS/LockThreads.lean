-- SUMMARY: Record locks under threads: a lock call that fetches a description, and the closes that come before it applies its lock.
import Emscripten.WasmFS.Descriptors
import Emscripten.WasmFS.RecordLock

/-!
# Record locks and closes

`fcntl(F_SETLK)` takes the description from the table, releases the table, and locks the
file later. A close clears the slot and the locks of the file in one step under the
table lock. The threads of this module take these steps in any order.
-/

namespace WasmFS

open Prog

/-! ## The steps of the calls -/

/-- What a lock call keeps of the description that it has read. -/
structure LockRequest where
  file : FileId
  position : Int
  flags : Nat
  lock : Flock

/-- `handleRecordLock` up to the end of the block that reads the description, and the
admission before it. -/
def describeLock (o : OpenId) (lock : Option Flock) : Sys LockRequest := do
  admitOpenFile o
  match lock with
  | none => Prog.fail .EINVAL
  | some lock =>
    Prog.failIf (¬ isValidRecordLockType lock.l_type false) .EINVAL
    let openFile ← Prog.gets fun s : FS => s.openFile o
    pure ⟨openFile.file, openFile.position, openFile.flags, lock⟩

/-- The rest of `handleRecordLock`, under the lock of the file. -/
def applyLock (request : LockRequest) : Sys Flock :=
  lockFile request.file request.position request.flags request.lock false

/-- `F_SETLK` and `F_SETLKW` of `__syscall_fcntl64`. -/
def fcntlSetLk (fd : Int) (lock : Option Flock) : Sys Flock := do
  match ← getEntry fd with
  | none => Prog.fail .EBADF
  | some o =>
    admitOpenFile o
    handleRecordLock o lock false

/-- The part of `__wasi_fd_close` under the table lock. -/
def closeEntry (fd : Int) : Sys (Option OpenId) := do
  match ← getEntry fd with
  | none => Prog.fail .EBADF
  | some o =>
    wasiAdmitOpenFile o
    setEntry fd.toNat none

/-- The part of `dup2` under the table lock. -/
def dup2Entry (oldfd newfd : Int) : Sys (Option OpenId) :=
  if oldfd = newfd then do
    let _ ← fetch oldfd
    pure none
  else do
    let o ← fetch oldfd
    Prog.failIf (newfd < 0 ∨ (WASMFS_FD_MAX : Int) ≤ newfd) .EBADF
    let replaced ← getEntry newfd
    admitReplaced replaced
    setEntry newfd.toNat (some o)

/-- Where a thread is. -/
inductive LockThread
  | idle
  | fetched (o : OpenId) (lock : Option Flock)
  | described (request : LockRequest)
  | closing (closee : OpenId)

/-- Threads on one instance. The ghost `closedSince` tells that a descriptor of the file
has been closed, and that no lock call has taken a description of it since. -/
structure Locks (T : Type) where
  fs : FS
  thread : T → LockThread
  closedSince : FileId → Bool

inductive LockAction (T : Type)
  | fetch (t : T) (fd : Int) (lock : Option Flock)
  | describe (t : T)
  | apply (t : T)
  | close (t : T) (fd : Int)
  | dup (t : T) (fd : Int)
  | dup2 (t : T) (oldfd newfd : Int)
  | finishClose (t : T)
  | other

/-- The file of a slot. -/
def FS.fileAt (s : FS) (fd : Int) : Option FileId := (s.getEntry fd).map fun o => (s.openFile o).file

/-- Some slot refers to the file. -/
def FS.HasSlot (s : FS) (f : FileId) : Prop := ∃ o, some o ∈ s.fileTable ∧ (s.openFile o).file = f

namespace Locks

variable {T : Type} [DecidableEq T]

/-- The instance `fs` with idle threads. -/
def start (fs : FS) : Locks T := ⟨fs, fun _ => .idle, fun _ => false⟩

def setThread (s : Locks T) (t : T) (l : LockThread) : Locks T :=
  { s with thread := Function.update s.thread t l }

/-- The descriptor `fd` of a file has been closed. -/
def markClosed (s : Locks T) (closed : Option FileId) : Locks T :=
  match closed with
  | none => s
  | some f => { s with closedSince := Function.update s.closedSince f true }

/-- What a thread does after the table step of a close. -/
def afterClose : Except Errno (Option OpenId) → LockThread
  | .ok (some closee) => .closing closee
  | _ => .idle

/-- Nothing has happened to the locks, the slots are there still, and every description
that is referred to is of the same file: I/O of other calls, new descriptors, the outside
world. -/
structure Others (s : Locks T) (fs' : FS) : Prop where
  openedFile : ∀ o, (some o ∈ s.fs.fileTable ∨ ∃ t lock, s.thread t = .fetched o lock) →
    (fs'.openFile o).file = (s.fs.openFile o).file
  slots : ∀ o, some o ∈ s.fs.fileTable → some o ∈ fs'.fileTable
  locks : ∀ f, (fs'.file f).recordLocks = (s.fs.file f).recordLocks

inductive Step (s : Locks T) : LockAction T → Locks T → Prop
  | fetch (t : T) (fd : Int) (lock : Option Flock) (o : OpenId) (ht : s.thread t = .idle)
      (h : s.fs.getEntry fd = some o) :
      Step s (.fetch t fd lock) { s.setThread t (.fetched o lock) with
        closedSince := Function.update s.closedSince (s.fs.openFile o).file false }
  | describe (t : T) (o : OpenId) (lock : Option Flock) (fs' : FS) (request : LockRequest)
      (ht : s.thread t = .fetched o lock) (h : describeLock o lock s.fs = some (fs', .ok request)) :
      Step s (.describe t) { s.setThread t (.described request) with fs := fs' }
  | refuse (t : T) (o : OpenId) (lock : Option Flock) (fs' : FS) (e : Errno)
      (ht : s.thread t = .fetched o lock) (h : describeLock o lock s.fs = some (fs', .error e)) :
      Step s (.describe t) { s.setThread t .idle with fs := fs' }
  | apply (t : T) (request : LockRequest) (fs' : FS) (r : Except Errno Flock)
      (ht : s.thread t = .described request) (h : applyLock request s.fs = some (fs', r)) :
      Step s (.apply t) { s.setThread t .idle with fs := fs' }
  | close (t : T) (fd : Int) (fs' : FS) (closee : Option OpenId) (ht : s.thread t = .idle)
      (h : closeEntry fd s.fs = some (fs', .ok closee)) :
      Step s (.close t fd)
        { (s.markClosed (s.fs.fileAt fd)).setThread t (afterClose (.ok closee)) with fs := fs' }
  | dup (t : T) (fd : Int) (fs' : FS) (r : Except Errno Nat) (ht : s.thread t = .idle)
      (h : WasmFS.dup fd s.fs = some (fs', r)) : Step s (.dup t fd) { s with fs := fs' }
  | dup2 (t : T) (oldfd newfd : Int) (fs' : FS) (closee : Option OpenId) (ht : s.thread t = .idle)
      (h : dup2Entry oldfd newfd s.fs = some (fs', .ok closee)) :
      Step s (.dup2 t oldfd newfd)
        { (s.markClosed (if oldfd = newfd then none else s.fs.fileAt newfd)).setThread t
            (afterClose (.ok closee)) with fs := fs' }
  | finishClose (t : T) (closee : OpenId) (fs' : FS) (r : Except Errno Unit)
      (ht : s.thread t = .closing closee) (h : DataFile.close closee s.fs = some (fs', r)) :
      Step s (.finishClose t) { s.setThread t .idle with fs := fs' }
  | other (fs' : FS) (h : s.Others fs') : Step s .other { s with fs := fs' }

end Locks

/-! ### The calls, step after step -/

/-! ## The table steps -/

/-- What a table step does: it closes a descriptor of the file `closed`, if any, and keeps
the slots and locks of the others. -/
structure FS.Reslotted (s s' : FS) (closed : Option FileId) : Prop where
  openedFile : ∀ o, (s'.openFile o).file = (s.openFile o).file
  slots : ∀ f, closed ≠ some f → s.HasSlot f → s'.HasSlot f
  locks : ∀ f, (s'.file f).recordLocks = if closed = some f then [] else (s.file f).recordLocks

section Tables

variable {s s' : FS}

theorem FS.Reslotted.refl (s : FS) : s.Reslotted s none := ⟨fun _ => rfl, fun _ _ h => h, fun _ => rfl⟩

theorem FS.setEntry_recordLocks (s : FS) (fd : Nat) (o : Option OpenId) (f : FileId) :
    ((s.setEntry fd o).1.file f).recordLocks =
      if s.fileAt fd = some f then [] else (s.file f).recordLocks := by
  have hgrown : (s.growTable fd).getEntry fd = s.getEntry fd := by
    rw [FS.getEntry_ofNat]
    exact s.grownTable_getElem? fd fd
  have hadded : ∀ y : OpenId, ((s.growTable fd).addUses y 1).getEntry fd = s.getEntry fd := fun y => hgrown
  -- The description that leaves is of the same file, whether it has been counted again or not.
  have hdrop : ∀ (u : FS) (old : OpenId), (u.openFile old).file = (s.openFile old).file →
      u.file = s.file → ((u.dropEntry old).file f).recordLocks =
        if (s.openFile old).file = f then [] else (s.file f).recordLocks := by
    intro u old hfile hu
    change ((u.clearRecordLocks (u.openFile old).file).file f).recordLocks = _
    rw [hfile]
    unfold FS.clearRecordLocks
    rw [FS.modifyFile_file, hu]
    by_cases heq : f = (s.openFile old).file
    · rw [if_pos heq, if_pos heq.symm]
    · rw [if_neg heq, if_neg (Ne.symm heq)]
  unfold FS.setEntry FS.fileAt
  cases o with
  | none =>
    simp only [hgrown]
    cases s.getEntry fd with
    | none => rfl
    | some old =>
      simp only [Option.map_some, Option.some.injEq]
      exact hdrop _ old rfl rfl
  | some y =>
    simp only [hadded]
    cases s.getEntry fd with
    | none => rfl
    | some old =>
      simp only [Option.map_some, Option.some.injEq]
      refine hdrop _ old ?_ rfl
      rw [FS.addUses_openFile]
      by_cases hy : old = y
      · rw [if_pos hy, hy]
        rfl
      · rw [if_neg hy]
        rfl

theorem FS.reslotted_setEntry (s : FS) (fd : Nat) (o : Option OpenId) :
    s.Reslotted (s.setEntry fd o).1 (s.fileAt fd) where
  openedFile x := (s.setEntry_openFile fd o x).1
  slots f hf := by
    rintro ⟨x, hx, hfile⟩
    refine ⟨x, ?_, ((s.setEntry_openFile fd o x).1).trans hfile⟩
    by_contra hgone
    have hfd := FS.getEntry_of_gone hx hgone
    refine hf ?_
    unfold FS.fileAt
    rw [hfd, ← hfile]
    rfl
  locks f := s.setEntry_recordLocks fd o f

theorem FS.toNat_of_getEntry {fd : Int} {o : OpenId} (h : s.getEntry fd = some o) :
    ((fd.toNat : Nat) : Int) = fd := by
  refine Int.toNat_of_nonneg (Int.not_lt.mp fun hneg => ?_)
  rw [FS.getEntry_neg hneg] at h
  cases h

theorem reslotted_closeEntry {fd : Int} {closee : Option OpenId}
    (h : closeEntry fd s = some (s', .ok closee)) : s.Reslotted s' (s.fileAt fd) := by
  rcases (reads_getEntry fd).bind_cases h with ⟨_, _, herr⟩ | ⟨found, hentry, _, hrest⟩
  · cases herr
  cases found with
  | none => cases hrest
  | some o =>
    rcases (reads_wasiAdmitOpenFile o).bind_cases hrest with ⟨_, _, herr⟩ | ⟨_, _, _, hset⟩
    · cases herr
    cases hset
    have hslots := s.reslotted_setEntry fd.toNat none
    rw [FS.toNat_of_getEntry hentry.symm] at hslots
    exact hslots

theorem reslotted_dup {fd : Int} {r : Except Errno Nat} (h : dup fd s = some (s', r)) :
    s.Reslotted s' none := by
  rcases (reads_fetch fd s).bind_cases h with ⟨_, rfl, _⟩ | ⟨o, _, _, hadd⟩
  · exact .refl s'
  unfold addEntry takeEntry at hadd
  split at hadd
  · next new hfree =>
      cases hadd
      have hnone : s.getEntry new = none := by simpa using List.find?_some hfree
      have hslots := s.reslotted_setEntry new (some o)
      unfold FS.fileAt at hslots
      rw [hnone] at hslots
      exact hslots
  · cases hadd
    exact .refl s

theorem reslotted_dup2Entry {oldfd newfd : Int} {closee : Option OpenId}
    (h : dup2Entry oldfd newfd s = some (s', .ok closee)) :
    s.Reslotted s' (if oldfd = newfd then none else s.fileAt newfd) := by
  unfold dup2Entry at h
  split at h
  · rcases (reads_fetch oldfd s).bind_cases h with ⟨_, _, herr⟩ | ⟨_, _, _, hrest⟩
    · cases herr
    cases hrest
    rw [if_pos ‹_›]
    exact .refl s
  · next hne =>
      rw [if_neg hne]
      rcases (reads_fetch oldfd s).bind_cases h with ⟨_, _, herr⟩ | ⟨o, _, _, h⟩
      · cases herr
      rcases Reads.failIf.bind_cases h with ⟨_, _, herr⟩ | ⟨_, hrange, _, h⟩
      · cases herr
      rcases (reads_getEntry newfd).bind_cases h with ⟨_, _, herr⟩ | ⟨replaced, _, _, h⟩
      · cases herr
      have hadmit : Reads s (admitReplaced replaced) (fun _ => True) := by
        cases replaced with
        | none => exact .pure trivial
        | some o => exact reads_admitOpenFile o
      rcases hadmit.bind_cases h with ⟨_, _, herr⟩ | ⟨_, _, _, hset⟩
      · cases herr
      cases hset
      have hslots := s.reslotted_setEntry newfd.toNat (some o)
      rw [Int.toNat_of_nonneg (by omega)] at hslots
      exact hslots

end Tables

/-! ## The locks that a request leaves -/

theorem mergeFrom_ne_nil (back : RecordLock) (locks : List RecordLock) : mergeFrom back locks ≠ [] := by
  induction locks generalizing back with
  | nil => simp [mergeFrom]
  | cons current rest ih =>
    unfold mergeFrom
    split
    · exact ih _
    · simp

/-- A lock that is not an unlock leaves a lock. -/
theorem applyRecordLock_ne_nil {locks : List RecordLock} {type start : Int} {stop : Option Int}
    (h : type ≠ F_UNLCK) : applyRecordLock locks type start stop ≠ [] := by
  unfold applyRecordLock
  have hmem : (⟨type, start, stop⟩ : RecordLock) ∈ (updatedLocks locks ⟨type, start, stop⟩).insertionSort
      (fun lhs rhs => lhs.start ≤ rhs.start) := by
    refine (List.perm_insertionSort _ _).mem_iff.mpr ?_
    unfold updatedLocks
    rw [if_pos h]
    exact List.mem_append_right _ List.mem_cons_self
  cases hsorted : (updatedLocks locks ⟨type, start, stop⟩).insertionSort
      (fun lhs rhs => lhs.start ≤ rhs.start) with
  | nil =>
    rw [hsorted] at hmem
    exact absurd hmem List.not_mem_nil
  | cons back rest => exact mergeFrom_ne_nil back rest

theorem applyRecordLock_unlock_nil {type start : Int} {stop : Option Int} (h : type = F_UNLCK) :
    applyRecordLock [] type start stop = [] := by
  subst h
  rfl

/-- The request passes every check, and is no unlock. -/
structure LockRequest.Sets (request : LockRequest) (s : FS) : Prop where
  usable : s.canUseRecordLocks request.file
  range : ∃ range, normalizeRecordLockRange request.lock request.position (s.getSize request.file) =
    .ok range
  allowed : ¬ recordLockAccessDenied request.flags request.lock.l_type
  type : request.lock.l_type ≠ F_UNLCK

/-- A request is refused, or changes the locks of its file. -/
theorem applyLock_cases {request : LockRequest} {s s' : FS} {r : Except Errno Flock}
    (h : applyLock request s = some (s', r)) : (s' = s ∧ ¬ request.Sets s) ∨ ∃ start stop,
      s' = s.setRecordLocks request.file (applyRecordLock (s.file request.file).recordLocks
        request.lock.l_type start stop) ∧ (request.lock.l_type ≠ F_UNLCK → request.Sets s) := by
  unfold applyLock at h
  rw [lockFile_apply, Option.some.injEq] at h
  by_cases husable : s.canUseRecordLocks request.file
  · rw [if_neg (not_not.mpr husable)] at h
    cases hrange : normalizeRecordLockRange request.lock request.position (s.getSize request.file) with
    | error e =>
      rw [hrange] at h
      cases h
      refine .inl ⟨rfl, fun hsets => ?_⟩
      obtain ⟨_, hok⟩ := hsets.range
      rw [hrange] at hok
      cases hok
    | ok range =>
      rw [hrange] at h
      simp only [Bool.false_eq_true, if_false] at h
      by_cases hdenied : recordLockAccessDenied request.flags request.lock.l_type
      · rw [if_pos hdenied] at h
        cases h
        exact .inl ⟨rfl, fun hsets => hsets.allowed hdenied⟩
      · rw [if_neg hdenied] at h
        cases h
        exact .inr ⟨_, _, rfl, fun htype => ⟨husable, ⟨range, hrange⟩, hdenied, htype⟩⟩
  · rw [if_pos husable] at h
    cases h
    exact .inl ⟨rfl, fun hsets => husable hsets.usable⟩

theorem FS.setRecordLocks_recordLocks (s : FS) (f g : FileId) (locks : List RecordLock) :
    ((s.setRecordLocks f locks).file g).recordLocks = if g = f then locks else (s.file g).recordLocks := by
  unfold FS.setRecordLocks
  rw [FS.modifyFile_file]
  split
  · rfl
  · rfl

/-! ## Runs -/

/-- The lock call of the thread is about the file `f`. -/
def LockThread.WorksOn (l : LockThread) (fs : FS) (f : FileId) : Prop :=
  match l with
  | .fetched o _ => (fs.openFile o).file = f
  | .described request => request.file = f
  | _ => False

variable {fs : FS} {l : LockThread} {f : FileId}

theorem LockThread.WorksOn.of_file {fs' : FS}
    (hfile : ∀ o lock, l = .fetched o lock → (fs'.openFile o).file = (fs.openFile o).file)
    (hf : l.WorksOn fs' f) : l.WorksOn fs f := by
  cases l with
  | idle => exact hf
  | fetched o lock => exact (hfile o lock rfl).symm.trans hf
  | described request => exact hf
  | closing closee => exact hf

namespace Locks

section Inv

variable {T : Type} {s : Locks T}

/-- After the last close nothing is locked, until a lock call comes; and nothing is locked
that no slot refers to. -/
structure Released (s : Locks T) : Prop where
  closed : ∀ f, s.closedSince f = true → (s.fs.file f).recordLocks = []
  unreferenced : ∀ f, ¬ s.fs.HasSlot f → (s.fs.file f).recordLocks = []

/-- The thread is about to lock a file that has been closed since the thread, and every
other lock call, has taken a description of it from the table. -/
def Overtaken (s : Locks T) (t : T) : Prop :=
  ∃ request, s.thread t = .described request ∧ s.closedSince request.file = true ∧ request.Sets s.fs

/-- No lock is set after the close that has overtaken its call. -/
def Timely (s : Locks T) : LockAction T → Prop
  | .apply t => ¬ s.Overtaken t
  | _ => True

structure Inv (s : Locks T) : Prop where
  closed : ∀ f, s.closedSince f = true → (s.fs.file f).recordLocks = []
  held : ∀ f, (s.fs.file f).recordLocks ≠ [] → s.fs.HasSlot f
  pending : ∀ t f, (s.thread t).WorksOn s.fs f → s.closedSince f = true ∨ s.fs.HasSlot f

theorem Inv.released (h : s.Inv) : s.Released :=
  ⟨h.closed, fun f hf => by_contra fun hlocks => hf (h.held f hlocks)⟩

theorem inv_start (hclean : ∀ f, (fs.file f).recordLocks = []) : (start fs : Locks T).Inv :=
  ⟨fun _ hf => absurd hf Bool.false_ne_true, fun f hf => absurd (hclean f) hf, fun _ _ hf => hf.elim⟩

end Inv

section Steps

variable {T : Type} [DecidableEq T] {s s' : Locks T}

def TimelyStep (s s' : Locks T) : Prop := ∃ a, s.Timely a ∧ s.Step a s'

/-- Of the thread that takes a step only what it does next matters. -/
theorem Inv.pending_setThread (h : s.Inv) {t : T} (hfile : ∀ o, (fs.openFile o).file = (s.fs.openFile o).file)
    {t' : T} (hl : l.WorksOn fs f → s.closedSince f = true ∨ s.fs.HasSlot f)
    (hf : ((s.setThread t l).thread t').WorksOn fs f) : s.closedSince f = true ∨ s.fs.HasSlot f := by
  unfold setThread at hf
  simp only [Function.update_apply] at hf
  split at hf
  · exact hl hf
  · exact h.pending t' f (hf.of_file fun o _ _ => hfile o)

theorem not_worksOn_afterClose {r : Except Errno (Option OpenId)} : ¬ (afterClose r).WorksOn fs f := by
  unfold afterClose
  split
  · exact id
  · exact id

/-- A table step that closes a descriptor of the file `closed`, if any. -/
theorem Inv.reslot (h : s.Inv) {closed : Option FileId} (hslots : s.fs.Reslotted fs closed) (t : T)
    (hl : ∀ f, ¬ l.WorksOn fs f) : ({ (s.markClosed closed).setThread t l with fs := fs } : Locks T).Inv := by
  have hmark : ∀ f, (s.markClosed closed).closedSince f = true ↔ closed = some f ∨ s.closedSince f = true := by
    intro f
    cases closed with
    | none => simp [markClosed]
    | some g =>
      unfold markClosed
      simp only [Function.update_apply, Option.some.injEq]
      by_cases hfg : f = g
      · simp [hfg]
      · simp [hfg, Ne.symm hfg]
  have hthread : (s.markClosed closed).thread = s.thread := by
    cases closed <;> rfl
  refine ⟨?_, ?_, ?_⟩
  · intro f hf
    change (fs.file f).recordLocks = []
    rw [hslots.locks]
    split
    · rfl
    · next hne => exact h.closed f (((hmark f).mp hf).resolve_left hne)
  · intro f hf
    change (fs.file f).recordLocks ≠ [] at hf
    rw [hslots.locks] at hf
    split at hf
    · exact absurd rfl hf
    · next hne => exact hslots.slots f hne (h.held f hf)
  · intro t' f hf
    change (s.markClosed closed).closedSince f = true ∨ fs.HasSlot f
    rw [hmark]
    have hworks : ((s.setThread t l).thread t').WorksOn fs f := by
      have hsame : ((s.markClosed closed).setThread t l).thread = (s.setThread t l).thread := by
        unfold setThread
        rw [hthread]
      exact hsame ▸ hf
    by_cases hclosed : closed = some f
    · exact .inl (.inl hclosed)
    · rcases h.pending_setThread hslots.openedFile (fun hw => absurd hw (hl f)) hworks with hc | hslot
      · exact .inl (.inr hc)
      · exact .inr (hslots.slots f hclosed hslot)

/-- A step that leaves the table and the locks alone. -/
theorem Inv.advance (h : s.Inv) (t : T) (hl : ∀ f, l.WorksOn s.fs f → (s.thread t).WorksOn s.fs f) :
    (s.setThread t l).Inv where
  closed := h.closed
  held := h.held
  pending _ f hf := h.pending_setThread (fun _ => rfl) (fun hw => h.pending t f (hl f hw)) hf

theorem reads_describeLock (o : OpenId) (lock : Option Flock) :
    Reads fs (describeLock o lock) (fun request => request.file = (fs.openFile o).file) := by
  refine .bind (reads_admitOpenFile o) fun _ _ => ?_
  cases lock with
  | none => exact .fail
  | some lock =>
    refine .bind .failIf fun _ _ => ?_
    refine .bind (Q := fun openFile => openFile = fs.openFile o) (.gets rfl) fun openFile hopen => ?_
    exact .pure (congrArg OpenFileState.file hopen)

/-- A request that is applied in time keeps what is closed unlocked, and locks a file with
a slot. -/
theorem Inv.applied (h : s.Inv) {t : T} {request : LockRequest} (ht : s.thread t = .described request)
    (htimely : ¬ s.Overtaken t) {r : Except Errno Flock} (happly : applyLock request s.fs = some (fs, r)) :
    ({ s.setThread t .idle with fs := fs } : Locks T).Inv := by
  rcases applyLock_cases happly with ⟨rfl, _⟩ | ⟨start, stop, rfl, hsets⟩
  · exact h.advance t fun _ hf => hf.elim
  · have hworks : (s.thread t).WorksOn s.fs request.file := by
      rw [ht]
      rfl
    have hunlock : ∀ f, s.closedSince f = true → f = request.file → request.lock.l_type = F_UNLCK := by
      rintro f hf rfl
      by_contra htype
      exact htimely ⟨request, ht, hf, hsets htype⟩
    refine ⟨?_, ?_, ?_⟩
    · intro f hf
      change ((s.fs.setRecordLocks _ _).file f).recordLocks = []
      rw [FS.setRecordLocks_recordLocks]
      split
      · next hfile =>
          rw [← hfile, h.closed f hf]
          exact applyRecordLock_unlock_nil (hunlock f hf hfile)
      · exact h.closed f hf
    · intro f hf
      change ((s.fs.setRecordLocks _ _).file f).recordLocks ≠ [] at hf
      rw [FS.setRecordLocks_recordLocks] at hf
      split at hf
      · next hfile =>
          rcases h.pending t request.file hworks with hclosed | hslot
          · rw [h.closed _ hclosed, applyRecordLock_unlock_nil (hunlock _ hclosed rfl)] at hf
            exact absurd rfl hf
          · exact hfile ▸ hslot
      · exact h.held f hf
    · intro _ f hf
      exact h.pending_setThread (fun _ => rfl) False.elim hf

theorem Inv.step (h : s.Inv) {a : LockAction T} (htimely : s.Timely a) (hstep : s.Step a s') :
    s'.Inv := by
  cases hstep with
  | fetch t fd lock o ht hentry =>
    have hslot : s.fs.HasSlot (s.fs.openFile o).file := ⟨o, FS.mem_of_getEntry hentry, rfl⟩
    refine ⟨?_, h.held, ?_⟩
    · intro f hf
      simp only [Function.update_apply] at hf
      split at hf
      · cases hf
      · exact h.closed f hf
    · intro t' f hf
      by_cases hfile : f = (s.fs.openFile o).file
      · exact .inr (hfile ▸ hslot)
      · simp only [Function.update_apply, if_neg hfile]
        exact h.pending_setThread (l := .fetched o lock) (fun _ => rfl) (fun hw => absurd (Eq.symm hw) hfile) hf
  | describe t o lock fs' request ht hdescribe =>
    obtain ⟨rfl, hfile⟩ := reads_describeLock o lock fs' _ hdescribe
    refine h.advance t fun f hf => ?_
    rw [ht]
    exact (hfile request rfl).symm.trans hf
  | refuse t o lock fs' e ht hdescribe =>
    obtain ⟨rfl, _⟩ := reads_describeLock o lock fs' _ hdescribe
    exact h.advance t fun _ hf => hf.elim
  | apply t request fs' r ht happly => exact h.applied ht htimely happly
  | close t fd fs' closee ht hclose =>
    exact h.reslot (reslotted_closeEntry hclose) t fun _ => not_worksOn_afterClose
  | dup t fd fs' r ht hdup =>
    have hidle : Function.update s.thread t .idle = s.thread := ht ▸ Function.update_eq_self t s.thread
    have hinv := h.reslot (reslotted_dup hdup) t (l := .idle) fun _ => id
    unfold markClosed setThread at hinv
    rw [hidle] at hinv
    exact hinv
  | dup2 t oldfd newfd fs' closee ht hdup =>
    exact h.reslot (reslotted_dup2Entry hdup) t fun _ => not_worksOn_afterClose
  | finishClose t closee fs' r ht hclose =>
    cases hclose
    have hlogged : s.fs.Reslotted (s.fs.logged (.closed closee :: s.fs.log)) none :=
      ⟨fun _ => rfl, fun _ _ hslot => hslot, fun _ => rfl⟩
    exact h.reslot hlogged t (l := .idle) fun _ => id
  | other fs' hothers =>
    have hslots : ∀ f, s.fs.HasSlot f → fs'.HasSlot f := by
      rintro f ⟨o, ho, hfile⟩
      exact ⟨o, hothers.slots o ho, (hothers.openedFile o (.inl ho)).trans hfile⟩
    refine ⟨?_, ?_, ?_⟩
    · intro f hf
      exact (hothers.locks f).trans (h.closed f hf)
    · intro f hf
      exact hslots f (h.held f (hothers.locks f ▸ hf))
    · intro t f hf
      have hworks := hf.of_file fun o lock ht => hothers.openedFile o (.inr ⟨t, lock, ht⟩)
      exact (h.pending t f hworks).imp id (hslots f)

theorem inv_of_timely (hclean : ∀ f, (fs.file f).recordLocks = [])
    (hrun : Relation.ReflTransGen TimelyStep (start fs) s) : s.Inv := by
  induction hrun with
  | refl => exact inv_start hclean
  | tail _ hstep ih =>
    obtain ⟨_, htimely, hstep⟩ := hstep
    exact ih.step htimely hstep

/-- A lock that comes too late stays. -/
theorem Overtaken.not_released {t : T} (h : s.Overtaken t) (hstep : s.Step (.apply t) s') :
    ¬ s'.Released := by
  obtain ⟨request, ht, hclosed, hsets⟩ := h
  cases hstep with
  | apply t request' fs' r ht' happly =>
    obtain rfl : request = request' := LockThread.described.inj (ht.symm.trans ht')
    rcases applyLock_cases happly with ⟨_, hnot⟩ | ⟨start, stop, rfl, _⟩
    · exact fun _ => hnot hsets
    · intro hreleased
      have hnil := hreleased.closed request.file hclosed
      change ((s.fs.setRecordLocks _ _).file _).recordLocks = [] at hnil
      rw [FS.setRecordLocks_recordLocks, if_pos rfl] at hnil
      exact applyRecordLock_ne_nil hsets.type hnil

end Steps

end Locks

/-- As long as no lock comes too late, a file is unlocked after its descriptors are closed.
The first lock that does come too late breaks this. -/
theorem recordLocks_released {T : Type} [DecidableEq T] {fs : FS}
    (hclean : ∀ f, (fs.file f).recordLocks = []) {s : Locks T}
    (hrun : Relation.ReflTransGen Locks.TimelyStep (Locks.start fs) s) :
    s.Released ∧ ∀ a s', s.Step a s' → (s'.Released ↔ s.Timely a) := by
  have hinv := Locks.inv_of_timely hclean hrun
  refine ⟨hinv.released, fun a s' hstep => ⟨fun hreleased => ?_, fun htimely => ?_⟩⟩
  · cases a with
    | apply t => exact fun hovertaken => hovertaken.not_released hstep hreleased
    | _ => trivial
  · exact (hinv.step htimely hstep).released

/-! ### Two threads -/

/-- The instance `lockableFS` with its file open in slot 0. -/
def openedFS : FS :=
  { lockableFS with fileTable := [some 0], openFile := fun _ => ⟨0, 0, O_RDWR, 1, []⟩ }

theorem openedFS_clean (f : FileId) : (openedFS.file f).recordLocks = [] := by
  change (lockableFS.file f).recordLocks = []
  unfold lockableFS
  rw [FS.modifyFile_file]
  split
  · rfl
  · rfl

/-- The request for a write lock that the thread `false` makes. -/
def writeRequest : LockRequest := ⟨0, 0, O_RDWR, lockTenToFourteen⟩

/-- The thread `false` has taken the description from slot 0. -/
def lockFetched : Locks Bool :=
  (Locks.start openedFS).setThread false (.fetched 0 (some lockTenToFourteen))

/-- It has read the description. -/
def lockDescribed : Locks Bool := lockFetched.setThread false (.described writeRequest)

theorem timely_lockDescribed :
    Relation.ReflTransGen Locks.TimelyStep (Locks.start openedFS) lockDescribed := by
  have hfetch : (Locks.start openedFS).Step (.fetch false 0 (some lockTenToFourteen)) lockFetched := by
    have hstep := Locks.Step.fetch (s := Locks.start openedFS) false 0 (some lockTenToFourteen) 0 rfl rfl
    rw [show (Locks.start openedFS : Locks Bool).closedSince = fun _ => false from rfl,
      Function.update_eq_self] at hstep
    exact hstep
  have hdescribe : lockFetched.Step (.describe false) lockDescribed :=
    .describe false 0 (some lockTenToFourteen) openedFS writeRequest rfl rfl
  have htimely : lockFetched.Timely (.describe false) := trivial
  exact .tail (.single ⟨.fetch false 0 (some lockTenToFourteen), trivial, hfetch⟩) ⟨_, htimely, hdescribe⟩

/-- The lock may be set now, as long as nobody closes the descriptor first. -/
theorem recordLocks_released_described : lockDescribed.Released ∧
    ∀ a s', lockDescribed.Step a s' → (s'.Released ↔ lockDescribed.Timely a) :=
  recordLocks_released openedFS_clean timely_lockDescribed

/-- The thread `true` has closed the descriptor. -/
def lockClosed : Locks Bool :=
  { (lockDescribed.markClosed (some 0)).setThread true (.closing 0) with
    fs := (openedFS.setEntry 0 none).1 }

/-- The thread `true` closes the descriptor before the thread `false` sets its lock. -/
theorem close_overtaken_by_lock : ¬ ∀ fs : FS, (∀ f, (fs.file f).recordLocks = []) →
    ∀ s : Locks Bool, Relation.ReflTransGen (fun s s' => ∃ a, s.Step a s') (Locks.start fs) s →
      s.Released := by
  intro hall
  have hrun : Relation.ReflTransGen (fun s s' : Locks Bool => ∃ a, s.Step a s')
      (Locks.start openedFS) lockDescribed :=
    Relation.ReflTransGen.mono (fun _ _ ⟨a, _, hstep⟩ => ⟨a, hstep⟩) _ _ timely_lockDescribed
  have hclose : lockDescribed.Step (.close true 0) lockClosed := .close true 0 _ (some 0) rfl rfl
  have hlate : lockClosed.Step (.apply false) { lockClosed.setThread false .idle with
      fs := lockClosed.fs.setRecordLocks 0 [⟨F_WRLCK, 10, some 15⟩] } :=
    .apply false writeRequest _ (.ok lockTenToFourteen) rfl rfl
  have hreleased := hall openedFS openedFS_clean _ ((hrun.tail ⟨_, hclose⟩).tail ⟨_, hlate⟩)
  refine Locks.Overtaken.not_released ?_ hlate hreleased
  exact ⟨writeRequest, rfl, rfl, by decide, ⟨_, rfl⟩, by decide, by decide⟩

end WasmFS
