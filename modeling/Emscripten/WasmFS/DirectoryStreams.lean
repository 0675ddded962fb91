-- SUMMARY: Directory streams: getdents64 with the records it writes, and seeks to the offsets that the records carry.
import Emscripten.Lib.Machine
import Emscripten.WasmFS.Descriptors
import Emscripten.WasmFS.Transfer

/-!
# Directory streams

The entries of a directory are listed when it is opened; `getdents64` hands out this snapshot, a
record for each entry, and the position of the description is the index of the next one. A record
carries the index of the record after it.
-/

namespace WasmFS

variable {fs s : FS}

variable {rs : List DirentRecord}

namespace DirectoryStream

/-! ## Records -/

def DT_DIR : Nat := 4
def DT_REG : Nat := 8
def DT_LNK : Nat := 10

def direntType : FileKind → Nat
  | .dataFile => DT_REG
  | .directory => DT_DIR
  | .symlink => DT_LNK

/-- `struct dirent` -/
structure DirentRecord where
  d_ino : Option FileId
  d_off : Nat
  d_reclen : Nat
  d_type : Nat
  d_name : Name
deriving DecidableEq, Repr

def record (index : Nat) (entry : Dirent) : DirentRecord where
  d_ino := entry.ino
  d_off := index + 1
  d_reclen := DIRENT_SIZE
  d_type := direntType entry.kind
  d_name := entry.name

/-- All records of a snapshot. -/
def records (dirents : List Dirent) : List DirentRecord := dirents.mapIdx record

/-- The records that a call at an index has room for. -/
def window (dirents : List Dirent) (index count : Nat) : List DirentRecord :=
  ((records dirents).drop index).take (count / DIRENT_SIZE)

/-! ## The call -/

/-- The file system and the buffer of a caller, as the records there is room for. -/
structure Caller where
  fs : FS
  buffer : List DirentRecord

def onFS {α : Type} (m : Sys α) : Prog Caller Errno α := fun c =>
  (m c.fs).map fun x => ({ c with fs := x.1 }, x.2)

/-- The first loop: whether the names fit of the entries that there is room for. -/
def namesFit (dirents : List Dirent) : Nat → Nat → Bool
  | _, 0 => true
  | candidate, entriesThatFit + 1 => match dirents[candidate]? with
    | none => true
    | some entry =>
      if DIRENT_NAME_SIZE ≤ entry.name.length then false
      else namesFit dirents (candidate + 1) entriesThatFit

/-- The second loop: the records it writes, and the index and the byte count it ends with. -/
def writeRecords (dirents : List Dirent) (count index bytesRead : Nat) :
    List DirentRecord × Nat × Nat :=
  if h : index < dirents.length ∧ bytesRead + DIRENT_SIZE ≤ count then
    let x := writeRecords dirents count (index + 1) (bytesRead + DIRENT_SIZE)
    (record index dirents[index] :: x.1, x.2)
  else ([], index, bytesRead)
termination_by dirents.length - index

/-- What the byte count becomes as an `int`. -/
def toInt (bytesRead : Nat) : Int := (bytesRead : Int).bmod (2 ^ 32)

/-- `__syscall_getdents64`, from where it looks at the position. -/
def readEntries (o : OpenId) (openFile : OpenFileState) (count : Nat) : Prog Caller Errno Int := do
  Prog.failIf (openFile.position < 0) .EINVAL
  if (openFile.dirents.length : Int) ≤ openFile.position then pure 0
  else do
    let index := openFile.position.toNat
    Prog.failIf (namesFit openFile.dirents index (count / DIRENT_SIZE) = false) .ENAMETOOLONG
    let x := writeRecords openFile.dirents count index 0
    Prog.modify fun c => { c with buffer := x.1 ++ c.buffer.drop x.1.length }
    onFS (setPosition o x.2.1)
    pure (toInt x.2.2)

/-- `__syscall_getdents64` -/
def getdents64 (fd : Int) (count : Nat) : Prog Caller Errno Int := do
  Prog.failIf (count / DIRENT_SIZE = 0) .EINVAL
  let o ← onFS (fetch fd)
  let openFile ← onFS (getOpenFile o)
  Prog.failIf ((← onFS (getKind openFile.file)) ≠ .directory) .ENOTDIR
  -- a directory that has been unlinked is empty
  if (← onFS (getParent openFile.file)) = none then pure 0 else readEntries o openFile count

/-! ## Loops -/

section Loops

variable {dirents : List Dirent}

theorem length_records (dirents : List Dirent) : (records dirents).length = dirents.length := by
  simp [records]

@[simp] theorem toInt_zero : toInt 0 = 0 := Int.zero_bmod

theorem namesFit_iff (index room : Nat) : namesFit dirents index room = true ↔
    ∀ r ∈ ((records dirents).drop index).take room, r.d_name.length < DIRENT_NAME_SIZE := by
  induction room generalizing index with
  | zero => simp [namesFit]
  | succ room ih =>
    unfold namesFit
    by_cases hi : index < dirents.length
    · have hlen : index < (records dirents).length := by simpa [length_records] using hi
      rw [List.getElem?_eq_getElem hi, List.drop_eq_getElem_cons hlen]
      simp [records, record, ih (index + 1)]
    · have hnone : dirents[index]? = none := List.getElem?_eq_none (by omega)
      have hdrop : (records dirents).drop index = [] :=
        List.drop_eq_nil_of_le (by simp [length_records]; omega)
      simp [hnone, hdrop]

/-- The loop writes as many of the records that are left as there is room for. -/
theorem writeRecords_eq (count index bytesRead : Nat) (hi : index ≤ dirents.length)
    (hb : bytesRead ≤ count) :
    let rs := window dirents index (count - bytesRead)
    writeRecords dirents count index bytesRead =
      (rs, index + rs.length, bytesRead + DIRENT_SIZE * rs.length) := by
  fun_induction writeRecords dirents count index bytesRead with
  | case1 index bytesRead h x ih =>
    have hlen : index < (records dirents).length := by simpa [length_records] using h.1
    have hroom : (count - bytesRead) / DIRENT_SIZE =
        (count - (bytesRead + DIRENT_SIZE)) / DIRENT_SIZE + 1 := by
      have := h.2
      simp only [DIRENT_SIZE] at this ⊢
      omega
    have hrec : (records dirents)[index] = record index dirents[index] := by simp [records]
    simp only [window, List.drop_eq_getElem_cons hlen, hroom, List.take_succ_cons, hrec,
      List.length_cons]
    have hx := ih (by omega) h.2
    simp only [x, hx, window, Prod.mk.injEq, true_and]
    constructor
    · omega
    · rw [Nat.mul_add, Nat.mul_one]
      omega
  | case2 index bytesRead h =>
    have hnil : window dirents index (count - bytesRead) = [] := by
      unfold window
      by_cases hroom : bytesRead + DIRENT_SIZE ≤ count
      · rw [List.drop_eq_nil_of_le (by simp [length_records]; omega), List.take_nil]
      · have hzero : (count - bytesRead) / DIRENT_SIZE = 0 := by
          simp only [DIRENT_SIZE] at hroom ⊢
          omega
        rw [hzero, List.take_zero]
    simp [hnil]

end Loops

/-! ## Single calls -/

section Calls

variable {c : Caller} {fd : Int} {o : OpenId}

/-- The descriptor is that of a directory that has a parent. Directories are made seekable. -/
structure OpenDirectory (fd : Int) (o : OpenId) (s : FS) : Prop where
  entry : s.getEntry fd = some o
  directory : (s.file (s.openFile o).file).kind = .directory
  linked : (s.file (s.openFile o).file).parent ≠ none
  seekable : (s.file (s.openFile o).file).seekable = true

/-- What the backend of the directory says to an operation. -/
def admission (s : FS) (o : OpenId) : Except Errno Unit :=
  match (s.file (s.openFile o).file).backend with
  | none => .ok ()
  | some (.memory _) => .ok ()
  | some b => s.env.acquireProfileOperation b

/-- Why a call for these records fails, if it does. -/
def refusal (s : FS) (o : OpenId) (count : Nat) (rs : List DirentRecord) : Option Errno :=
  if count < DIRENT_SIZE then some .EINVAL
  else match admission s o with
    | .error e => some e
    | .ok () => if ∃ r ∈ rs, DIRENT_NAME_SIZE ≤ r.d_name.length then some .ENAMETOOLONG else none

/-- The records are in the buffer, and the position is behind them. -/
def deliver (o : OpenId) (window : List DirentRecord) (c : Caller) : Caller where
  fs := c.fs.modifyOpen o fun x => { x with position := x.position + window.length }
  buffer := window ++ c.buffer.drop window.length

theorem short_of_not_refused {count : Nat} (h : refusal s o count rs = none) :
    ∀ r ∈ rs, r.d_name.length < DIRENT_NAME_SIZE := by
  unfold refusal at h
  split at h
  next => cases h
  next =>
    split at h
    next => cases h
    next => simpa using h

theorem deliver_nil (o : OpenId) (c : Caller) : deliver o [] c = c := by
  simp [deliver, FS.modifyOpen]

theorem admitOpenFile_eq (s : FS) (o : OpenId) : admitOpenFile o s = some (s, admission s o) := by
  have hadmit (b : Option Backend) : admitBackend b s = some (s, match b with
      | none => .ok ()
      | some (.memory _) => .ok ()
      | some b => s.env.acquireProfileOperation b) := by
    cases b with
    | none => rfl
    | some b => cases b <;> rfl
  exact hadmit _

theorem fetch_eq (h : s.getEntry fd = some o) : fetch fd s = some (s, (admission s o).map fun _ => o) := by
  have hget : getEntry fd s = some (s, .ok (some o)) := by rw [← h]; rfl
  unfold fetch
  rw [Prog.bind_of_ok hget]
  have hadmit := admitOpenFile_eq s o
  cases ha : admission s o with
  | error e =>
    rw [ha] at hadmit
    exact Prog.bind_of_error hadmit
  | ok _ =>
    rw [ha] at hadmit
    exact Prog.bind_of_ok hadmit

theorem onFS_apply {α : Type} {m : Sys α} {r : Except Errno α} (h : m c.fs = some (fs, r)) :
    onFS m c = some ({ c with fs }, r) := by
  simp [onFS, h]

theorem getdents64_open (h : OpenDirectory fd o c.fs) (count : Nat) :
    getdents64 fd count c = if count < DIRENT_SIZE then some (c, .error .EINVAL)
      else match admission c.fs o with
        | .error e => some (c, .error e)
        | .ok () => readEntries o (c.fs.openFile o) count c := by
  have hsmall : count / DIRENT_SIZE = 0 ↔ count < DIRENT_SIZE := by
    simp only [DIRENT_SIZE]
    omega
  have hfetch := onFS_apply (c := c) (fetch_eq h.entry)
  unfold getdents64
  rw [Prog.failIf_bind_apply]
  simp only [hsmall]
  split
  next => rfl
  next =>
    cases hadm : admission c.fs o with
    | error e =>
      rw [hadm] at hfetch
      exact Prog.bind_of_error hfetch
    | ok _ =>
      rw [hadm] at hfetch
      have hopen : onFS (getOpenFile o) c = some (c, .ok (c.fs.openFile o)) := rfl
      have hkind : onFS (getKind (c.fs.openFile o).file) c = some (c, .ok .directory) :=
        onFS_apply (by rw [← h.directory]; rfl)
      have hparent : onFS (getParent (c.fs.openFile o).file) c =
          some (c, .ok (c.fs.file (c.fs.openFile o).file).parent) := rfl
      rw [Prog.bind_of_ok hfetch, Prog.bind_of_ok hopen, Prog.bind_of_ok hkind,
        Prog.failIf_bind_apply, if_neg (fun hne => hne rfl), Prog.bind_of_ok hparent,
        if_neg h.linked]

/-- At a position that is not that of an entry nothing happens. -/
theorem readEntries_outside (count : Nat) (hout : (c.fs.openFile o).position < 0 ∨
    ((c.fs.openFile o).dirents.length : Int) ≤ (c.fs.openFile o).position) :
    readEntries o (c.fs.openFile o) count c = some (c, if (c.fs.openFile o).position < 0
      then .error .EINVAL else .ok 0) := by
  unfold readEntries
  rw [Prog.failIf_bind_apply]
  split
  next => rfl
  next hneg =>
    rw [if_pos (hout.resolve_left hneg)]
    rfl

/-- At a position in the snapshot all that fits is delivered, or a name is too long. -/
theorem readEntries_inside {index : Nat} (hindex : (c.fs.openFile o).position = index)
    (hi : index < (c.fs.openFile o).dirents.length) (count : Nat)
    (hrs : window (c.fs.openFile o).dirents index count = rs) :
    readEntries o (c.fs.openFile o) count c =
      some (if ∃ r ∈ rs, DIRENT_NAME_SIZE ≤ r.d_name.length then (c, .error .ENAMETOOLONG)
        else (deliver o rs c, .ok (toInt (DIRENT_SIZE * rs.length)))) := by
  have hnat : (c.fs.openFile o).position.toNat = index := by omega
  have hloop : writeRecords (c.fs.openFile o).dirents count index 0 =
      (rs, index + rs.length, DIRENT_SIZE * rs.length) := by
    simpa [← hrs] using writeRecords_eq count index 0 (Nat.le_of_lt hi) (Nat.zero_le _)
  have hfit : namesFit (c.fs.openFile o).dirents (c.fs.openFile o).position.toNat
      (count / DIRENT_SIZE) = false ↔ ∃ r ∈ rs, DIRENT_NAME_SIZE ≤ r.d_name.length := by
    rw [hnat, Bool.eq_false_iff, ne_eq, namesFit_iff]
    simp [← hrs, window]
  unfold readEntries
  rw [Prog.failIf_bind_apply, if_neg (by omega), if_neg (by omega)]
  simp only [hnat, hloop]
  by_cases hlong : ∃ r ∈ rs, DIRENT_NAME_SIZE ≤ r.d_name.length
  · rw [Prog.failIf_bind_apply, if_pos (hfit.mpr hlong), if_pos hlong]
  · have hdeliver : onFS (setPosition o (index + rs.length : Nat))
        { c with buffer := rs ++ c.buffer.drop rs.length } = some (deliver o rs c, .ok ()) := by
      simp [onFS, setPosition, deliver, FS.modifyOpen, hindex]
    rw [Prog.failIf_bind_apply, if_neg fun hno => hlong (hfit.mp hno), if_neg hlong,
      Prog.modify_bind_apply, Prog.bind_of_ok hdeliver]
    rfl

/-- On an open directory the call fails and changes nothing, or it delivers all that fits. -/
theorem getdents64_eq (h : OpenDirectory fd o c.fs) {index : Nat} (hindex : (c.fs.openFile o).position = index)
    (count : Nat) (hrs : window (c.fs.openFile o).dirents index count = rs) :
    getdents64 fd count c = some (match refusal c.fs o count rs with
      | some e => (c, .error e)
      | none => (deliver o rs c, .ok (toInt (DIRENT_SIZE * rs.length)))) := by
  rw [getdents64_open h, refusal]
  split
  next => rfl
  next =>
    cases admission c.fs o with
    | error e => rfl
    | ok _ =>
      by_cases hi : index < (c.fs.openFile o).dirents.length
      · simp only [readEntries_inside hindex hi count hrs]
        split <;> rfl
      · have hnil : rs = [] := by
          have hdrop : (records (c.fs.openFile o).dirents).drop index = [] :=
            List.drop_eq_nil_of_le (by rw [length_records]; omega)
          simp [← hrs, window, hdrop]
        have hend : ((c.fs.openFile o).dirents.length : Int) ≤ (c.fs.openFile o).position := by omega
        have hpos : ¬ (c.fs.openFile o).position < 0 := by omega
        simp [readEntries_outside count (.inr hend), hpos, hnil, deliver_nil]

theorem getdents64_outside (h : OpenDirectory fd o c.fs) (count : Nat)
    (hout : (c.fs.openFile o).position < 0 ∨
      ((c.fs.openFile o).dirents.length : Int) ≤ (c.fs.openFile o).position) :
    ∃ r, getdents64 fd count c = some (c, r) := by
  rw [getdents64_open h, readEntries_outside count hout]
  split
  next => exact ⟨_, rfl⟩
  next => split <;> exact ⟨_, rfl⟩

theorem reads_onFS {α : Type} {m : Sys α} {Q : α → Prop} (h : Prog.Reads c.fs m Q) :
    Prog.Reads c (onFS m) Q := by
  intro c' r hr
  unfold onFS at hr
  obtain ⟨⟨fs, r'⟩, hm, hx⟩ := Option.map_eq_some_iff.mp hr
  cases hx
  obtain ⟨rfl, hQ⟩ := h fs r' hm
  exact ⟨rfl, hQ⟩

/-- An error changes nothing. -/
def KeepsOnError {α : Type} (c : Caller) (m : Prog Caller Errno α) : Prop :=
  ∀ c' e, m c = some (c', .error e) → c' = c

theorem KeepsOnError.bind {α β : Type} {m : Prog Caller Errno α} {k : α → Prog Caller Errno β}
    {Q : α → Prop} (hm : Prog.Reads c m Q) (hk : ∀ a, Q a → KeepsOnError c (k a)) :
    KeepsOnError c (m >>= k) := by
  intro c' e h
  obtain h | ⟨a, c₁, h₁, h₂⟩ := Prog.bind_error_iff.mp h
  · exact (hm c' _ h).1
  · obtain ⟨rfl, hQ⟩ := hm c₁ _ h₁
    exact hk a (hQ a rfl) c' e h₂

theorem keeps_getdents64 (fd : Int) (count : Nat) (c : Caller) :
    KeepsOnError c (getdents64 fd count) := by
  refine .bind .failIf fun _ _ => .bind (reads_onFS (reads_fetch fd _)) fun o _ => ?_
  refine .bind (reads_onFS (Prog.Reads.gets rfl)) fun x hx => ?_
  refine .bind (reads_onFS (Prog.Reads.gets (Q := fun _ => True) trivial)) fun _ _ => ?_
  refine .bind .failIf fun _ _ => ?_
  refine .bind (reads_onFS (Prog.Reads.gets (Q := fun _ => True) trivial)) fun _ _ => ?_
  split
  next => exact fun c' e h => by cases h
  next =>
    refine .bind .failIf fun _ _ => ?_
    split
    next => exact fun c' e h => by cases h
    next =>
      refine .bind .failIf fun _ _ c' e h => ?_
      -- from here on nothing fails
      cases h

/-- A seek to an offset that is not negative. -/
theorem fdSeek_eq (h : OpenDirectory fd o s) (offset : OffT) (hnonneg : 0 ≤ offset.val) :
    fdSeek fd offset SEEK_SET s = some (match admission s o with
      | .error e => (s, .error (operationErrorToWasiErrno e))
      | .ok () => (s.modifyOpen o fun x => { x with position := offset.val }, .ok offset.val)) := by
  have hget : getEntry fd s = some (s, .ok (some o)) := by rw [← h.entry]; rfl
  have hadmit : wasiAdmitOpenFile o s = some (s, match admission s o with
      | .error e => .error (operationErrorToWasiErrno e)
      | .ok () => .ok ()) := by
    unfold wasiAdmitOpenFile
    rw [Prog.attempt_of (admitOpenFile_eq s o)]
    cases admission s o <;> rfl
  have hfetch : wasiFetch fd s = some (s, match admission s o with
      | .error e => .error (operationErrorToWasiErrno e)
      | .ok () => .ok o) := by
    unfold wasiFetch
    rw [Prog.bind_of_ok hget]
    cases hadm : admission s o with
    | error e =>
      rw [hadm] at hadmit
      exact Prog.bind_of_error hadmit
    | ok _ =>
      rw [hadm] at hadmit
      exact Prog.bind_of_ok hadmit
  unfold fdSeek doFdSeek
  cases hadm : admission s o with
  | error e =>
    rw [hadm] at hfetch
    exact Prog.bind_of_error hfetch
  | ok _ =>
    rw [hadm] at hfetch
    have hseekable : isSeekable (s.openFile o).file s = some (s, .ok true) := by
      rw [← h.seekable]
      rfl
    have hopen : getOpenFile o s = some (s, .ok (s.openFile o)) := rfl
    have htarget : seekTarget (s.openFile o) offset SEEK_SET s = some (s, .ok offset.val) := rfl
    rw [Prog.bind_of_ok hfetch, Prog.bind_of_ok hopen, Prog.bind_of_ok hseekable,
      Prog.failIf_bind_apply, if_neg (by decide), Prog.bind_of_ok htarget,
      Prog.failIf_bind_apply, if_neg (Int.not_lt.mpr hnonneg), Prog.failIf_bind_apply,
      if_neg (Int.not_lt.mpr offset.le_max)]
    rfl

end Calls

/-! ## Runs -/

/-- A caller, and what it has seen: the offset it last sought to, the records that it has received
since then, and all that it has ever received. -/
structure Stream where
  caller : Caller
  sought : Option Nat
  received : List DirentRecord
  seen : List DirentRecord

def Stream.position (s : Stream) (o : OpenId) : Int := (s.caller.fs.openFile o).position

inductive Action
  | getdents (count : Nat)
  | lseek (offset : OffT)
  | other (fs : FS)

/-- A call of `getdents64` has written as many records as the position has advanced by. -/
def step (fd : Int) (o : OpenId) (s : Stream) : Action → Option Stream
  | .getdents count => (getdents64 fd count s.caller).map fun x =>
    let s' := { s with caller := x.1 }
    let written := x.1.buffer.take (s'.position o - s.position o).toNat
    { s' with received := s.received ++ written, seen := s.seen ++ written }
  | .lseek offset => (fdSeek fd offset SEEK_SET s.caller.fs).map fun x =>
    let s' := { s with caller := { s.caller with fs := x.1 } }
    match x.2 with
    | .error _ => s'
    | .ok position => { s' with sought := some position.toNat, received := [] }
  | .other fs => some { s with caller := { s.caller with fs } }

/-- Seeks go to offsets of records that were received. All else that happens leaves the description
and its directory alone. -/
def Allowed (fd : Int) (o : OpenId) (s : Stream) : Action → Prop
  | .getdents _ => True
  | .lseek offset => ∃ r ∈ s.seen, offset.val = r.d_off
  | .other fs => OpenDirectory fd o fs ∧ fs.openFile o = s.caller.fs.openFile o

/-- The directory has just been opened. -/
def opened (fs : FS) (buffer : List DirentRecord) : Stream := ⟨⟨fs, buffer⟩, none, [], []⟩

/-- What was received since the last seek follows the record that was sought, without a gap. -/
structure InOrder (o : OpenId) (dirents : List Dirent) (s : Stream) (before rest : List DirentRecord) :
    Prop where
  all : records dirents = before ++ s.received ++ rest
  position : s.position o = (before.length + s.received.length : Nat)
  sought : before.getLast?.map DirentRecord.d_off = s.sought

structure Inv (fd : Int) (o : OpenId) (dirents : List Dirent) (s : Stream) : Prop where
  isOpen : OpenDirectory fd o s.caller.fs
  snapshot : (s.caller.fs.openFile o).dirents = dirents
  inOrder : ∃ before rest, InOrder o dirents s before rest
  seen : ∀ r ∈ s.seen, r ∈ records dirents ∧ r.d_name.length < DIRENT_NAME_SIZE

section Runs

variable {fd : Int} {o : OpenId} {dirents : List Dirent} {s s' : Stream}

theorem OpenDirectory.moved (h : OpenDirectory fd o fs) (position : OpenFileState → Int) :
    OpenDirectory fd o (fs.modifyOpen o fun x => { x with position := position x }) := by
  have hfile : ((fs.modifyOpen o fun x => { x with position := position x }).openFile o).file =
      (fs.openFile o).file := by simp [FS.modifyOpen]
  refine ⟨h.entry, ?_, ?_, ?_⟩
  · rw [hfile]
    exact h.directory
  · rw [hfile]
    exact h.linked
  · rw [hfile]
    exact h.seekable

theorem dirents_moved (fs : FS) (o : OpenId) (position : OpenFileState → Int) :
    ((fs.modifyOpen o fun x => { x with position := position x }).openFile o).dirents =
      (fs.openFile o).dirents := by
  simp [FS.modifyOpen]

theorem position_moved (fs : FS) (o : OpenId) (position : OpenFileState → Int) :
    ((fs.modifyOpen o fun x => { x with position := position x }).openFile o).position =
      position (fs.openFile o) := by
  simp [FS.modifyOpen]

theorem OpenDirectory.deliver {c : Caller} (h : OpenDirectory fd o c.fs) (rs : List DirentRecord) :
    OpenDirectory fd o (deliver o rs c).fs := h.moved fun x => x.position + rs.length

theorem deliver_dirents (o : OpenId) (rs : List DirentRecord) (c : Caller) :
    ((deliver o rs c).fs.openFile o).dirents = (c.fs.openFile o).dirents :=
  dirents_moved c.fs o fun x => x.position + rs.length

theorem deliver_position (o : OpenId) (rs : List DirentRecord) (c : Caller) :
    ((deliver o rs c).fs.openFile o).position = (c.fs.openFile o).position + rs.length :=
  position_moved c.fs o fun x => x.position + rs.length

theorem InOrder.window {before rest : List DirentRecord} (h : InOrder o dirents s before rest)
    (count : Nat) : window dirents (before.length + s.received.length) count =
      rest.take (count / DIRENT_SIZE) := by
  rw [DirectoryStream.window, h.all, List.drop_left' (by simp)]

theorem Inv.call (h : Inv fd o dirents s) {before rest : List DirentRecord}
    (horder : InOrder o dirents s before rest) (count : Nat) :
    getdents64 fd count s.caller =
      some (match refusal s.caller.fs o count (rest.take (count / DIRENT_SIZE)) with
        | some e => (s.caller, .error e)
        | none => (deliver o (rest.take (count / DIRENT_SIZE)) s.caller,
            .ok (toInt (DIRENT_SIZE * (rest.take (count / DIRENT_SIZE)).length)))) :=
  getdents64_eq h.isOpen horder.position count (by rw [h.snapshot, horder.window])

theorem mem_records {r : DirentRecord} (h : r ∈ records dirents) :
    ∃ i, ∃ hi : i < (records dirents).length, (records dirents)[i] = r ∧ r.d_off = i + 1 := by
  obtain ⟨i, hi, rfl⟩ := List.getElem_of_mem h
  exact ⟨i, hi, rfl, by simp [records, record]⟩

/-- What follows the record of an offset. -/
theorem inOrder_seek {r : DirentRecord} (h : r ∈ records dirents)
    (hposition : s.position o = r.d_off) (hsought : s.sought = some r.d_off) (hreceived : s.received = []) :
    InOrder o dirents s ((records dirents).take r.d_off) ((records dirents).drop r.d_off) := by
  obtain ⟨i, hi, hr, hoff⟩ := mem_records h
  refine ⟨by simp [hreceived], ?_, ?_⟩
  · rw [hposition, hreceived, List.length_take]
    simp
    omega
  · rw [hsought, hoff, List.take_succ_eq_append_getElem hi]
    simp [hr, hoff]

theorem Inv.step (h : Inv fd o dirents s) (a : Action) (hallowed : Allowed fd o s a)
    (hstep : step fd o s a = some s') : Inv fd o dirents s' := by
  obtain ⟨before, rest, horder⟩ := h.inOrder
  cases a with
  | getdents count =>
    simp only [DirectoryStream.step, h.call horder, Option.map_some, Option.some.injEq] at hstep
    subst hstep
    cases hrefused : refusal s.caller.fs o count (rest.take (count / DIRENT_SIZE)) with
    | some e =>
      -- nothing has been written
      simp only [Stream.position, Int.sub_self, Int.toNat_zero, List.take_zero, List.append_nil]
      exact ⟨h.isOpen, h.snapshot, ⟨before, rest, horder⟩, h.seen⟩
    | none =>
      have hmoved : ((deliver o (rest.take (count / DIRENT_SIZE)) s.caller).fs.openFile o).position =
          s.position o + ((rest.take (count / DIRENT_SIZE)).length : Nat) := deliver_position _ _ _
      have hwritten : (deliver o (rest.take (count / DIRENT_SIZE)) s.caller).buffer.take
          (((deliver o (rest.take (count / DIRENT_SIZE)) s.caller).fs.openFile o).position -
            s.position o).toNat = rest.take (count / DIRENT_SIZE) := by
        have hdiff (n : Nat) : (s.position o + (n : Int) - s.position o).toNat = n := by omega
        rw [hmoved, hdiff, deliver, List.take_left']
        rfl
      simp only [Stream.position] at hwritten ⊢
      simp only [hwritten]
      have hall : records dirents = before ++ (s.received ++ rest.take (count / DIRENT_SIZE)) ++
          rest.drop (count / DIRENT_SIZE) := by
        rw [horder.all, List.append_assoc, List.append_assoc, List.append_assoc,
          List.take_append_drop]
      refine ⟨h.isOpen.deliver _, (deliver_dirents _ _ _).trans h.snapshot,
        ⟨before, rest.drop (count / DIRENT_SIZE), hall, ?_, horder.sought⟩, fun r hr => ?_⟩
      · refine hmoved.trans ?_
        rw [horder.position, List.length_append]
        omega
      · obtain hr | hr := List.mem_append.mp hr
        · exact h.seen r hr
        · refine ⟨?_, short_of_not_refused hrefused r hr⟩
          rw [horder.all]
          exact List.mem_append_right _ (List.mem_of_mem_take hr)
  | lseek offset =>
    obtain ⟨r, hr, hoff⟩ := hallowed
    have hseek := fdSeek_eq h.isOpen offset (by omega)
    simp only [DirectoryStream.step, hseek, Option.map_some, Option.some.injEq] at hstep
    subst hstep
    cases hadm : admission s.caller.fs o with
    | error e => exact ⟨h.isOpen, h.snapshot, ⟨before, rest, horder⟩, h.seen⟩
    | ok _ =>
      have hdirents := dirents_moved s.caller.fs o fun _ => offset.val
      have hposition := position_moved s.caller.fs o fun _ => offset.val
      refine ⟨h.isOpen.moved fun _ => offset.val, hdirents.trans h.snapshot,
        ⟨_, _, inOrder_seek (h.seen r hr).1 ?_ ?_ rfl⟩, h.seen⟩
      · exact hposition.trans hoff
      · simp [hoff]
  | other fs =>
    simp only [DirectoryStream.step, Option.some.injEq] at hstep
    subst hstep
    obtain ⟨hopen, hsame⟩ := hallowed
    refine ⟨hopen, ?_, ⟨before, rest, horder.all, ?_, horder.sought⟩, h.seen⟩
    · rw [← h.snapshot]
      exact congrArg OpenFileState.dirents hsame
    · rw [← horder.position]
      exact congrArg OpenFileState.position hsame

theorem inv_opened (hopen : OpenDirectory fd o fs) (hposition : (fs.openFile o).position = 0)
    (buffer : List DirentRecord) : Inv fd o (fs.openFile o).dirents (opened fs buffer) :=
  ⟨hopen, rfl, ⟨[], records (fs.openFile o).dirents, rfl, hposition, rfl⟩,
    fun _ hr => absurd hr List.not_mem_nil⟩

theorem toInt_of_lt {n : Nat} (h : n < 2 ^ 31) : toInt n = n := by
  apply Int.bmod_eq_of_le <;> omega

/-- What a caller may rely on, from any point of a run. -/
structure Enumerates (fd : Int) (o : OpenId) (dirents : List Dirent) (s : Stream)
    (before rest : List DirentRecord) : Prop extends InOrder o dirents s before rest where
  /-- The next call delivers what follows, as far as there is room, or it changes nothing. -/
  next : ∀ count, getdents64 fd count s.caller =
    some (match refusal s.caller.fs o count (rest.take (count / DIRENT_SIZE)) with
      | some e => (s.caller, .error e)
      | none => (deliver o (rest.take (count / DIRENT_SIZE)) s.caller,
          .ok (toInt (DIRENT_SIZE * (rest.take (count / DIRENT_SIZE)).length))))
  /-- A seek to the offset of a record continues after it. -/
  seek : ∀ r ∈ records dirents, ∀ offset : OffT, offset.val = r.d_off →
    fdSeek fd offset SEEK_SET s.caller.fs = some (match admission s.caller.fs o with
      | .error e => (s.caller.fs, .error (operationErrorToWasiErrno e))
      | .ok () => (s.caller.fs.modifyOpen o fun x => { x with position := r.d_off }, .ok r.d_off)) ∧
    ∃ pre, records dirents = pre ++ r :: (records dirents).drop r.d_off

/-- In every run of calls and seeks on an open directory all records come in order, once each. -/
theorem directory_enumerated {fs : FS} {buffer : List DirentRecord} (hopen : OpenDirectory fd o fs)
    (hposition : (fs.openFile o).position = 0)
    (hrun : Machine.Reaches (step fd o) (Allowed fd o) (opened fs buffer) s) :
    (∃ before rest, Enumerates fd o (fs.openFile o).dirents s before rest) ∧
      (∀ (fd' : Int) count c c' e, getdents64 fd' count c = some (c', .error e) → c' = c) ∧
      (∀ (fd' : Int) o' count c, OpenDirectory fd' o' c.fs → ((c.fs.openFile o').position < 0 ∨
        ((c.fs.openFile o').dirents.length : Int) ≤ (c.fs.openFile o').position) →
        ∃ r, getdents64 fd' count c = some (c, r)) ∧
      ∀ n, DIRENT_SIZE * n < 2 ^ 31 → toInt (DIRENT_SIZE * n) = DIRENT_SIZE * n := by
  have hinv : Inv fd o (fs.openFile o).dirents s := hrun.invariant (inv_opened hopen hposition buffer)
    fun _ a _ hI hC hs => hI.step a hC hs
  obtain ⟨before, rest, horder⟩ := hinv.inOrder
  refine ⟨⟨before, rest, horder, hinv.call horder, fun r hr offset hoff => ⟨?_, ?_⟩⟩,
    fun fd' count c => keeps_getdents64 fd' count c,
    fun fd' o' count c hdir hout => getdents64_outside hdir count hout,
    fun n hn => (toInt_of_lt hn).trans (by simp)⟩
  · rw [fdSeek_eq hinv.isOpen offset (by omega), hoff]
  · obtain ⟨i, hi, rfl, hoff'⟩ := mem_records hr
    refine ⟨(records (fs.openFile o).dirents).take i, ?_⟩
    rw [hoff', ← List.drop_eq_getElem_cons hi, List.take_append_drop]

/-- The root directory, open with a snapshot. -/
def listing (dirents : List Dirent) : FS :=
  { FS.init 0 .quiet with fileTable := [some 0], openFile := fun _ => ⟨3, 0, O_RDONLY, 1, dirents⟩ }

theorem openDirectory_listing (dirents : List Dirent) : OpenDirectory 0 0 (listing dirents) :=
  ⟨rfl, rfl, fun h => (by cases h), rfl⟩

def longEntry : Dirent := ⟨List.replicate 256 'a', .dataFile, some 9⟩

/-- A backend may list a name that is too long for a record: no run gets past it. -/
theorem long_name_not_delivered : ¬ ∀ (fs : FS) (fd : Int) (o : OpenId) (buffer : List DirentRecord),
    OpenDirectory fd o fs → (fs.openFile o).position = 0 →
    ∃ s, Machine.Reaches (step fd o) (Allowed fd o) (opened fs buffer) s ∧
      ∀ r ∈ records (fs.openFile o).dirents, r ∈ s.seen := by
  intro hall
  obtain ⟨s, hrun, hseen⟩ := hall (listing [longEntry]) 0 0 [] (openDirectory_listing _) rfl
  have hinv : Inv 0 0 [longEntry] s :=
    hrun.invariant (inv_opened (openDirectory_listing _) rfl []) fun _ a _ hI hC hs => hI.step a hC hs
  have hshort := (hinv.seen _ (hseen (record 0 longEntry) (by simp [listing, records]))).2
  have hlong : longEntry.name.length = DIRENT_NAME_SIZE := List.length_replicate
  exact absurd hshort (by rw [record, hlong]; exact Nat.lt_irrefl _)

/-- A check of `Allowed`, but for what others do. -/
def allowed (s : Stream) : Action → Bool
  | .getdents _ => true
  | .lseek offset => s.seen.any fun r => offset.val = r.d_off
  | .other _ => false

theorem allowed_sound (s : Stream) (a : Action) (h : allowed s a = true) : Allowed fd o s a := by
  cases a with
  | getdents count => trivial
  | lseek offset => simpa [allowed, Allowed] using h
  | other fs => cases h

/-- Two records, back to the offset of the first, and one record again. -/
theorem directory_enumerated_again : ∃ s before rest,
    Enumerates 0 0 [⟨dot, .directory, some 3⟩, ⟨dotDot, .directory, some 3⟩, ⟨['a'], .dataFile, some 9⟩]
      s before rest ∧ s.received.map DirentRecord.d_off = [2] ∧
      s.seen.map DirentRecord.d_off = [1, 2, 2] := by
  let fs := listing
    [⟨dot, .directory, some 3⟩, ⟨dotDot, .directory, some 3⟩, ⟨['a'], .dataFile, some 9⟩]
  let actions : List Action := [.getdents 600, .lseek ⟨1, by decide, by decide⟩, .getdents 300]
  have hexec : (Machine.exec (step 0 0) (opened fs []) actions).map (fun s =>
      (s.received.map DirentRecord.d_off, s.seen.map DirentRecord.d_off)) = some ([2], [1, 2, 2]) := by
    decide +kernel
  obtain ⟨s, hs, hobs⟩ := Option.map_eq_some_iff.mp hexec
  obtain ⟨hreceived, hseen⟩ := Prod.mk.inj hobs
  have hmeets : Machine.Meets (step 0 0) (Allowed 0 0) (opened fs []) actions :=
    Machine.meets_of_check allowed_sound actions (by decide +kernel)
  obtain ⟨⟨before, rest, henum⟩, -⟩ := directory_enumerated (openDirectory_listing _) rfl
    (Machine.reaches_of_exec actions hs hmeets)
  exact ⟨s, before, rest, henum, hreceived, hseen⟩

end Runs

end DirectoryStream

end WasmFS
