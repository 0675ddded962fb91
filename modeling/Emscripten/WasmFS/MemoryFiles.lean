-- SUMMARY: What the I/O calls on files in memory mean: byte lists and positions, and the calls refine them.
import Emscripten.WasmFS.TransferErrors

/-!
# Files in memory

`FileModel` says what reading, writing, seeking and truncating are for: a file is a list
of bytes, an open description has a position in it, and a vector of buffers is their
concatenation. Any sequence of calls on descriptors of files in memory does what the model
does, as long as the sizes fit.
-/

namespace WasmFS

open Prog

/-! ## The model -/

section Model

variable {F D : Type} [DecidableEq F] [DecidableEq D]

/-- What an open description is for. -/
structure Handle (F : Type) where
  file : F
  readable : Bool
  writable : Bool
  append : Bool

/-- The bytes of every file, and the position of every description. -/
@[ext] structure FileModel (F D : Type) where
  content : F → List UInt8
  position : D → Nat

/-- The calls, on a description and on the bytes of all buffers together. -/
inductive FileOp (D : Type)
  | read (d : D) (n : Nat)
  | pread (d : D) (n offset : Nat)
  | write (d : D) (bytes : List UInt8)
  | pwrite (d : D) (bytes : List UInt8) (offset : Nat)
  | lseek (d : D) (offset whence : Int)
  | ftruncate (d : D) (size : Int)

/-- A count or a position, and the bytes that are delivered. -/
abbrev Reply := Int × List UInt8

namespace FileModel

variable (h : D → Handle F) (m : FileModel F D)

def setContent (f : F) (bytes : List UInt8) : FileModel F D :=
  { m with content := Function.update m.content f bytes }

def setPosition (d : D) (position : Nat) : FileModel F D :=
  { m with position := Function.update m.position d position }

/-- Where a sequential write starts. -/
def start (d : D) : Nat := if (h d).append then (m.content (h d).file).length else m.position d

/-- Write at an offset: with zeros in a gap, and nothing if there is nothing to write. -/
def stored (d : D) (offset : Nat) (bytes : List UInt8) : FileModel F D :=
  m.setContent (h d).file (ByteSeq.store 0 offset bytes (m.content (h d).file))

def target (d : D) (offset whence : Int) : Option Int :=
  if whence = SEEK_SET then some offset
  else if whence = SEEK_CUR then some (m.position d + offset)
  else if whence = SEEK_END then some ((m.content (h d).file).length + offset)
  else none

/-- One call. A call that is not allowed has no reply, and changes nothing. -/
def apply : FileOp D → FileModel F D × Option Reply
  | .read d n =>
    if (h d).readable then
      let data := ByteSeq.readAt (m.position d) n (m.content (h d).file)
      (m.setPosition d (m.position d + data.length), some (data.length, data))
    else (m, none)
  | .pread d n offset =>
    if (h d).readable then
      let data := ByteSeq.readAt offset n (m.content (h d).file)
      (m, some (data.length, data))
    else (m, none)
  | .write d bytes =>
    if (h d).writable then
      ((m.stored h d (m.start h d) bytes).setPosition d (m.start h d + bytes.length),
        some (bytes.length, []))
    else (m, none)
  | .pwrite d bytes offset =>
    if (h d).writable then (m.stored h d offset bytes, some (bytes.length, [])) else (m, none)
  | .lseek d offset whence =>
    match m.target h d offset whence with
    | some position =>
      if 0 ≤ position ∧ position ≤ OFF_MAX then
        (m.setPosition d position.toNat, some (position, []))
      else (m, none)
    | none => (m, none)
  | .ftruncate d size =>
    if (h d).writable ∧ 0 ≤ size then
      (m.setContent (h d).file (ByteSeq.resize 0 size.toNat (m.content (h d).file)), some (0, []))
    else (m, none)

def applyAll : FileModel F D → List (FileOp D) → FileModel F D × List (Option Reply)
  | m, [] => (m, [])
  | m, op :: ops =>
    let (m', reply) := m.apply h op
    let (m'', replies) := m'.applyAll ops
    (m'', reply :: replies)

variable {m}

omit [DecidableEq D] in
theorem setContent_eq_self {f : F} {bytes : List UInt8} (h : m.content f = bytes) :
    m.setContent f bytes = m := by
  subst h
  unfold setContent
  rw [Function.update_eq_self]

omit [DecidableEq F] in
theorem setPosition_eq_self {d : D} {position : Nat} (h : m.position d = position) :
    m.setPosition d position = m := by
  subst h
  unfold setPosition
  rw [Function.update_eq_self]

omit [DecidableEq F] in
theorem setPosition_setPosition (d : D) (position position' : Nat) :
    (m.setPosition d position).setPosition d position' = m.setPosition d position' := by
  unfold setPosition
  rw [Function.update_idem]

omit [DecidableEq D] in
theorem stored_nil {d : D} {offset : Nat} : m.stored h d offset [] = m := setContent_eq_self rfl

end FileModel

end Model

/-! ## The calls -/

inductive FileCall
  | read (fd : Int) (iovs : List IOVec)
  | pread (fd : Int) (iovs : List IOVec) (offset : Nat)
  | write (fd : Int) (iovs : List IOVec)
  | pwrite (fd : Int) (iovs : List IOVec) (offset : Nat)
  | lseek (fd : Int) (offset : OffT) (whence : Int)
  | ftruncate (fd : Int) (size : OffT)

namespace FileCall

def fd : FileCall → Int
  | .read fd _ | .pread fd _ _ | .write fd _ | .pwrite fd _ _ | .lseek fd _ _ | .ftruncate fd _ => fd

/-- The call, with its count or position and with what the buffers receive. -/
def run : FileCall → Sys Reply
  | .read fd iovs => do let (n, data) ← fdRead fd (.vec iovs); pure ((n : Int), data)
  | .pread fd iovs offset => do let (n, data) ← fdPread fd (.vec iovs) offset; pure ((n : Int), data)
  | .write fd iovs => do let n ← fdWrite fd (.vec iovs); pure ((n : Int), [])
  | .pwrite fd iovs offset => do let n ← fdPwrite fd (.vec iovs) offset; pure ((n : Int), [])
  | .lseek fd offset whence => do let position ← fdSeek fd offset whence; pure (position, [])
  | .ftruncate fd size => do WasmFS.ftruncate fd size; pure ((0 : Int), [])

/-- What the call on the description `o` means. -/
def op (o : OpenId) : FileCall → FileOp OpenId
  | .read _ iovs => .read o (total iovs)
  | .pread _ iovs offset => .pread o (total iovs) offset
  | .write _ iovs => .write o (payload iovs)
  | .pwrite _ iovs offset => .pwrite o (payload iovs) offset
  | .lseek _ offset whence => .lseek o offset.val whence
  | .ftruncate _ size => .ftruncate o size.val

/-- Run the calls one after the other, and collect what they reply. -/
def runAll : List FileCall → FS → Option (FS × List (Option Reply))
  | [], s => some (s, [])
  | c :: calls, s =>
    match c.run s with
    | none => none
    | some (s', r) => (runAll calls s').map fun p => (p.1, r.toOption :: p.2)

end FileCall

/-! ## What the calls act on -/

/-- The description as the model has it. -/
def OpenFileState.handle (x : OpenFileState) : Handle FileId where
  file := x.file
  readable := decide (x.flags &&& O_ACCMODE ≠ O_WRONLY)
  writable := decide (x.flags &&& O_ACCMODE ≠ O_RDONLY)
  append := decide (has x.flags O_APPEND)

def FS.handle (s : FS) (o : OpenId) : Handle FileId := (s.openFile o).handle

/-- The bytes of a file in memory. -/
def File.bytes (x : File) : List UInt8 :=
  match x.data with
  | .memory buffer => buffer
  | .pipe _ | .external => []

def FS.model (s : FS) : FileModel FileId OpenId where
  content f := (s.file f).bytes
  position o := (s.openFile o).position.toNat

def FS.InMemory (s : FS) (f : FileId) : Prop := ∃ buffer, (s.file f).data = .memory buffer

/-- The descriptor `fd` is open on a file in memory. -/
def FS.OnMemory (s : FS) (fd : Int) : Prop :=
  ∃ o, s.getEntry fd = some o ∧ s.InMemory (s.openFile o).file

/-- The same descriptions are open, and on the same files. -/
structure FS.SameOpen (s s' : FS) : Prop where
  fileTable : s'.fileTable = s.fileTable
  handle : s'.handle = s.handle
  inMemory : ∀ f, s.InMemory f → s'.InMemory f

section Acting

variable {s s' s'' : FS} {f : FileId} {o : OpenId} {fd : Int} {buffer : List UInt8}

theorem FS.SameOpen.refl (s : FS) : s.SameOpen s := ⟨rfl, rfl, fun _ => id⟩

theorem FS.SameOpen.trans (h : s.SameOpen s') (h' : s'.SameOpen s'') : s.SameOpen s'' :=
  ⟨h'.fileTable.trans h.fileTable, h'.handle.trans h.handle, fun f hf => h'.inMemory f (h.inMemory f hf)⟩

theorem FS.SameOpen.getEntry (h : s.SameOpen s') (fd : Int) : s'.getEntry fd = s.getEntry fd := by
  unfold FS.getEntry
  rw [h.fileTable]

theorem FS.SameOpen.onMemory (h : s.SameOpen s') (hfd : s.OnMemory fd) : s'.OnMemory fd := by
  obtain ⟨o, ho, hf⟩ := hfd
  refine ⟨o, (h.getEntry fd).trans ho, ?_⟩
  have hfile : (s'.openFile o).file = (s.openFile o).file := congrArg Handle.file (congrFun h.handle o)
  rw [hfile]
  exact h.inMemory _ hf

theorem FS.bytes_of_memory (h : (s.file f).data = .memory buffer) : s.model.content f = buffer := by
  change (s.file f).bytes = buffer
  unfold File.bytes
  rw [h]

/-! ### Updates -/

theorem FS.model_asked (made : List DataRequest) : (s.asked made).model = s.model := rfl

theorem FS.sameOpen_asked (made : List DataRequest) : s.SameOpen (s.asked made) := ⟨rfl, rfl, fun _ => id⟩

theorem FS.model_moved (o : OpenId) (position : Nat) :
    (s.modifyOpen o fun x => { x with position := position }).model = s.model.setPosition o position := by
  refine FileModel.ext rfl (funext fun d => ?_)
  change (Function.update s.openFile o _ d).position.toNat =
    Function.update s.model.position o position d
  rw [Function.update_apply, Function.update_apply]
  split
  · exact Int.toNat_natCast position
  · rfl

theorem FS.sameOpen_moved (o : OpenId) (position : Int) :
    s.SameOpen (s.modifyOpen o fun x => { x with position := position }) := by
  refine ⟨rfl, funext fun d => ?_, fun _ => id⟩
  change (Function.update s.openFile o _ d).handle = (s.openFile d).handle
  rw [Function.update_apply]
  split
  · next hd => rw [hd]; rfl
  · rfl

theorem FS.model_updateMTime : (s.updateMTime f).model = s.model := by
  refine FileModel.ext (funext fun g => ?_) rfl
  change ((s.updateMTime f).file g).bytes = (s.file g).bytes
  rw [FS.updateMTime_file]
  split
  · next hg => rw [hg]; rfl
  · rfl

theorem FS.sameOpen_updateMTime : s.SameOpen (s.updateMTime f) := by
  refine ⟨rfl, rfl, fun g hg => ?_⟩
  unfold InMemory
  rw [FS.updateMTime_file]
  split
  · next heq => exact heq ▸ hg
  · exact hg

/-- A file in memory with other bytes. -/
theorem FS.model_setData (f : FileId) (bytes : List UInt8) :
    (s.modifyFile f fun x => { x with data := .memory bytes }).model = s.model.setContent f bytes := by
  refine FileModel.ext (funext fun g => ?_) rfl
  change ((s.modifyFile f _).file g).bytes = Function.update s.model.content f bytes g
  rw [FS.modifyFile_file, Function.update_apply]
  split
  · rfl
  · rfl

theorem FS.sameOpen_setData (f : FileId) (bytes : List UInt8) :
    s.SameOpen (s.modifyFile f fun x => { x with data := .memory bytes }) := by
  refine ⟨rfl, rfl, fun g hg => ?_⟩
  unfold InMemory
  rw [FS.modifyFile_file]
  split
  · exact ⟨bytes, rfl⟩
  · exact hg

theorem FS.store_memory (h : (s.file f).data = .memory buffer) (offset : Nat) (bytes : List UInt8) :
    s.store f offset bytes =
      s.modifyFile f fun x => { x with data := .memory (ByteSeq.store 0 offset bytes buffer) } := by
  unfold store
  rw [h]

theorem FS.model_store {handles : OpenId → Handle FileId} (h : s.InMemory f) (hf : (handles o).file = f)
    (offset : Nat) (bytes : List UInt8) :
    (s.store f offset bytes).model = s.model.stored handles o offset bytes := by
  obtain ⟨buffer, hdata⟩ := h
  rw [FS.store_memory hdata, FS.model_setData]
  unfold FileModel.stored
  rw [hf, FS.bytes_of_memory hdata]

theorem FS.sameOpen_store (h : s.InMemory f) (offset : Nat) (bytes : List UInt8) :
    s.SameOpen (s.store f offset bytes) := by
  obtain ⟨buffer, hdata⟩ := h
  rw [FS.store_memory hdata]
  exact FS.sameOpen_setData f _

end Acting

/-! ## Single calls -/

/-- The sizes of the call fit: what is read into the range of `off_t` and of a count, what
is written into a buffer in memory. A call that the description does not allow may have
any sizes. Vectors are those of POSIX, of at most `UIO_MAXIOV` buffers. -/
def FileCall.SizesFit (h : OpenId → Handle FileId) (m : FileModel FileId OpenId) (o : OpenId) :
    FileCall → Prop
  | .read _ iovs => (h o).readable → Present iovs ∧ total iovs ≤ SSIZE_MAX ∧
      m.position o + total iovs ≤ OFF_MAX.toNat
  | .pread _ iovs offset => offset ≤ OFF_MAX.toNat ∧ ((h o).readable → Present iovs ∧
      total iovs ≤ SSIZE_MAX ∧ offset + total iovs ≤ OFF_MAX.toNat)
  | .write _ iovs => (h o).writable → Present iovs ∧
      (0 < total iovs → m.start h o + total iovs ≤ SSIZE_MAX)
  | .pwrite _ iovs offset => offset ≤ OFF_MAX.toNat ∧ ((h o).writable → Present iovs ∧
      (0 < total iovs → offset + total iovs ≤ SSIZE_MAX))
  | .lseek _ _ _ => True
  | .ftruncate _ size => size.val ≤ SSIZE_MAX

/-- The vector has no more buffers than are allowed, and one to append has some. -/
def FileCall.Vectored (h : OpenId → Handle FileId) (o : OpenId) : FileCall → Prop
  | .read _ iovs | .pread _ iovs _ | .pwrite _ iovs _ => iovs.length ≤ UIO_MAXIOV
  | .write _ iovs => iovs.length ≤ UIO_MAXIOV ∧ ((h o).append → iovs ≠ [])
  | .lseek _ _ _ | .ftruncate _ _ => True

/-- The program does in `s` what the model does. -/
def FS.Does (s : FS) (prog : Sys Reply) (op : FileOp OpenId) : Prop :=
  ∃ s' r, prog s = some (s', r) ∧ (s'.model, r.toOption) = s.model.apply s.handle op ∧ s.SameOpen s'

section Single

variable {W : Requests} {s : FS} {f : FileId} {o : OpenId} {fd : Int} {buffer : List UInt8}
  {iovs : List IOVec} {offset start : Nat} {setOffset : OffsetHandling}

theorem FS.Regular.inMemory (h : s.Regular W) (hmem : s.InMemory f) :
    (s.file f).kind = .dataFile ∧ (s.file f).seekable = true ∧ ∃ n, (s.file f).backend = some (.memory n) := by
  obtain ⟨buffer, hdata⟩ := hmem
  obtain ⟨hkind, hseekable, hbackend, _⟩ := h.file f buffer hdata
  exact ⟨hkind, hseekable, hbackend⟩

theorem admitOpenFile_memory (h : s.Regular W) (hmem : s.InMemory (s.openFile o).file) :
    admitOpenFile o s = some (s, .ok ()) := by
  obtain ⟨_, _, n, hbackend⟩ := h.inMemory hmem
  unfold admitOpenFile admitFile getBackend
  rw [gets_bind_apply, gets_bind_apply, hbackend]
  rfl

theorem wasiFetch_memory (h : s.Regular W) (hentry : s.getEntry fd = some o)
    (hmem : s.InMemory (s.openFile o).file) : wasiFetch fd s = some (s, .ok o) := by
  have hget : WasmFS.getEntry fd s = some (s, .ok (some o)) := by
    change some (s, Except.ok (s.getEntry fd)) = _
    rw [hentry]
  have hadmit : wasiAdmitOpenFile o s = some (s, .ok ()) := attempt_of (admitOpenFile_memory h hmem)
  unfold wasiFetch
  rw [bind_of_ok hget]
  exact bind_of_ok hadmit

theorem fetch_memory (h : s.Regular W) (hentry : s.getEntry fd = some o)
    (hmem : s.InMemory (s.openFile o).file) : fetch fd s = some (s, .ok o) := by
  have hget : WasmFS.getEntry fd s = some (s, .ok (some o)) := by
    change some (s, Except.ok (s.getEntry fd)) = _
    rw [hentry]
  unfold fetch
  rw [bind_of_ok hget]
  exact bind_of_ok (admitOpenFile_memory h hmem)

theorem toFilesize_of_inRange {position : Int} (h : 0 ≤ position ∧ position ≤ OFF_MAX) :
    toFilesize position = position.toNat := by
  unfold toFilesize
  rw [Int.emod_eq_of_lt h.1 (Int.lt_of_le_of_lt h.2 (by decide))]

theorem FS.Regular.position_le (h : s.Regular W) (o : OpenId) : s.model.position o ≤ OFF_MAX.toNat := by
  have hrange := h.position o
  change (s.openFile o).position.toNat ≤ OFF_MAX.toNat
  omega

theorem validateIOVs_of_fits (hcount : iovs.length ≤ UIO_MAXIOV) (htotal : total iovs ≤ SSIZE_MAX) :
    validateIOVs (.vec iovs) s = some (s, .ok ()) := by
  have hfits : lengthsFit SSIZE_MAX iovs 0 = true :=
    (lengthsFit_iff iovs (Nat.zero_le _)).mpr (by rwa [Nat.zero_add])
  have hcount' : ¬ UIO_MAXIOV < (IOVs.vec iovs).iovs_len := Nat.not_lt.mpr hcount
  unfold validateIOVs
  rw [failIf_bind_apply, if_neg hcount']
  change failIf (lengthsFit SSIZE_MAX iovs 0 = false) Errno.EINVAL s = _
  rw [failIf_apply, if_neg (by rw [hfits]; exact Bool.noConfusion)]

/-! ### Writing -/

/-- The checks of a write to a file in memory: the access mode, and the vector. -/
theorem writeChecks_memory (setOffset : OffsetHandling) (iovs : List IOVec) (h : s.Regular W)
    (hmem : s.InMemory (s.openFile o).file) (hvalid : isValidOffset offset) : writeChecks setOffset o (.vec iovs) offset s =
      if (s.handle o).writable then validateIOVs (.vec iovs) s else some (s, .error .EBADF) := by
  obtain ⟨_, hseekable, _⟩ := h.inMemory hmem
  unfold writeChecks getOpenFile isSeekable
  rw [failIf_bind_apply, if_neg (not_not.mpr hvalid), gets_bind_apply, gets_bind_apply, failIf_bind_apply,
    if_neg (by rw [hseekable]; exact fun hnot => Bool.noConfusion hnot.2), failIf_bind_apply]
  change (if (s.openFile o).flags &&& O_ACCMODE = O_RDONLY then _ else _) =
    if decide ((s.openFile o).flags &&& O_ACCMODE ≠ O_RDONLY) = true then _ else _
  simp only [decide_eq_true_eq, ne_eq, ite_not]

theorem takesAll_of_room (hdata : (s.file f).data = .memory buffer) (iovs : List IOVec) :
    ∀ offset, Present iovs → (0 < total iovs → offset + total iovs ≤ SSIZE_MAX) →
      s.TakesAll f offset iovs := by
  induction iovs with
  | nil => exact fun _ _ _ => trivial
  | cons iov rest ih =>
    intro offset hpresent hroom
    rw [total_cons] at hroom
    refine ⟨fun hlen => ?_, ih _ (fun x hx => hpresent x (List.mem_cons_of_mem _ hx)) (by omega)⟩
    obtain ⟨bytes, hbuf⟩ := Option.ne_none_iff_exists'.mp (hpresent iov List.mem_cons_self hlen)
    refine ⟨bytes, hbuf, ?_⟩
    unfold FS.Takes
    rw [hdata]
    have hlength := iov.len_eq bytes hbuf
    dsimp only
    omega

theorem FS.store_seekable (g : FileId) (bytes : List UInt8) :
    ((s.store f offset bytes).file g).seekable = (s.file g).seekable := by
  unfold store
  split
  · rw [modifyFile_file]
    split
    · next hg => rw [hg]
    · rfl
  · rfl
  · rfl

theorem FS.sameOpen_started : s.SameOpen (s.started setOffset o start) := by
  unfold started
  split
  · exact FS.sameOpen_moved o start
  · exact .refl s

theorem advance_apply (hseekable : (s.file f).seekable = true) (position : Nat) :
    advance setOffset o f position s = some (if setOffset = .openFileState
      then s.modifyOpen o fun x => { x with position := position } else s, .ok ()) := by
  unfold advance isSeekable
  rw [gets_bind_apply, hseekable]
  cases setOffset with
  | argument => rfl
  | openFileState => rfl

theorem touch_apply (done : Nat) :
    touch f done s = some (if done ≠ 0 then s.updateMTime f else s, .ok ()) := by
  unfold touch
  split
  · rfl
  · rfl

theorem FS.sameOpen_touched {s' : FS} {c : Prop} [Decidable c] (h : s.SameOpen s') :
    s.SameOpen (if c then s'.updateMTime f else s') := by
  split
  · exact h.trans FS.sameOpen_updateMTime
  · exact h

theorem FS.model_touched {c : Prop} [Decidable c] :
    (if c then s.updateMTime f else s).model = s.model := by
  split
  · exact FS.model_updateMTime
  · rfl

/-- The state in which a write ends, without its changes to the metadata. -/
theorem FS.model_written {handles : OpenId → Handle FileId} (hmem : s.InMemory f)
    (hf : (handles o).file = f) (made : List DataRequest) (bytes : List UInt8) (position : Nat) :
    (if setOffset = .openFileState
      then (((s.started setOffset o start).store f start bytes).asked made).modifyOpen o
        fun x => { x with position := position }
      else ((s.started setOffset o start).store f start bytes).asked made).model =
    if setOffset = .openFileState then (s.model.stored handles o start bytes).setPosition o position
    else s.model.stored handles o start bytes := by
  have hmem' : (s.started setOffset o start).InMemory f := FS.sameOpen_started.inMemory f hmem
  cases setOffset with
  | argument =>
    rw [FS.started_of_stays fun h => by cases h.1]
    exact FS.model_store hmem hf start bytes
  | openFileState =>
    rw [if_pos rfl, if_pos rfl, FS.model_moved, FS.model_asked, FS.model_store hmem' hf]
    by_cases hmoves : s.MovesFirst .openFileState o
    · rw [FS.started_of_moves hmoves, FS.model_moved]
      change ((s.model.stored handles o start bytes).setPosition o start).setPosition o position = _
      exact FileModel.setPosition_setPosition o start position
    · rw [FS.started_of_stays hmoves]

/-- A write to a file in memory, whose checks pass, is one write of all bytes. With no buffers it starts nowhere. -/
theorem writeAtOffset_memory (h : s.Regular W) (hentry : s.getEntry fd = some o)
    (hmem : s.InMemory (s.openFile o).file) (hchecks : writeChecks setOffset o (.vec iovs) offset s =
      some (s, .ok ())) (hpresent : Present iovs) (hstarts : s.StartsAt setOffset o iovs offset start)
    (hroom : 0 < total iovs → start + total iovs ≤ SSIZE_MAX)
    (hempty : iovs = [] → setOffset = .openFileState → start = s.model.position o) :
    ∃ s', writeAtOffset setOffset fd (.vec iovs) offset s = some (s', .ok (total iovs)) ∧
      s.SameOpen s' ∧ s'.model = if setOffset = .openFileState
        then (s.model.stored s.handle o start (payload iovs)).setPosition o (start + total iovs)
        else s.model.stored s.handle o start (payload iovs) := by
  obtain ⟨hkind, hseekable, _⟩ := h.inMemory hmem
  have hfetch := wasiFetch_memory h hentry hmem
  by_cases hne : iovs = []
  · subst hne
    refine ⟨s, ?_, .refl s, ?_⟩
    · unfold writeAtOffset
      rw [bind_of_ok hfetch, bind_of_ok hchecks]
      rfl
    · rw [show payload [] = [] from rfl, FileModel.stored_nil]
      split
      · next hseq => exact (FileModel.setPosition_eq_self (hempty rfl hseq).symm).symm
      · rfl
  · have hlen : ¬ (IOVs.vec iovs).iovs_len = 0 := fun hzero => hne (List.eq_nil_of_length_eq_zero hzero)
    rw [writeAtOffset_eq hfetch hchecks hlen hkind hstarts]
    have hstarted : s.SameOpen (s.started setOffset o start) := FS.sameOpen_started
    obtain ⟨buffer, hdata⟩ := hstarted.inMemory _ hmem
    have hpass := passes_of_takesAll start iovs (s.started setOffset o start) 0 []
      (by rw [Nat.add_zero]; exact hstarts.fits) (takesAll_of_room hdata iovs _ hpresent hroom)
    have hloop := hpass.ends
    rw [Nat.add_zero, Nat.zero_add] at hloop
    have hend : (((s.started setOffset o start).store (s.openFile o).file start (payload iovs)).file
        (s.openFile o).file).seekable = true := by
      rw [FS.store_seekable, FS.started_file, hseekable]
    have hadvance : advance setOffset o (s.openFile o).file (start + total iovs) _ = _ :=
      advance_apply (s := (FS.store _ _ start (payload iovs)).asked
        (writeRequests (s.openFile o).file start iovs)) hend _
    refine ⟨_, (bind_of_ok hloop).trans ((bind_of_ok hadvance).trans (bind_of_ok (touch_apply _))), ?_, ?_⟩
    · refine FS.sameOpen_touched ?_
      have hstored := (hstarted.trans (FS.sameOpen_store ⟨buffer, hdata⟩ start (payload iovs))).trans
        (FS.sameOpen_asked (writeRequests (s.openFile o).file start iovs))
      cases setOffset with
      | argument => exact hstored
      | openFileState => exact hstored.trans (FS.sameOpen_moved o _)
    · rw [FS.model_touched]
      exact FS.model_written hmem rfl _ _ _

theorem FS.start_eq (hdata : (s.file (s.openFile o).file).data = .memory buffer) :
    s.model.start s.handle o =
      if has (s.openFile o).flags O_APPEND then buffer.length else (s.openFile o).position.toNat := by
  unfold FileModel.start
  rw [show (s.handle o).file = (s.openFile o).file from rfl, FS.bytes_of_memory hdata]
  change (if decide (has (s.openFile o).flags O_APPEND) = true then _ else _) = _
  simp only [decide_eq_true_eq]
  rfl

/-- Where a sequential write to a file in memory starts. -/
theorem startsAt_memory (h : s.Regular W) (hmem : s.InMemory (s.openFile o).file)
    (hroom : 0 < total iovs → s.model.start s.handle o + total iovs ≤ SSIZE_MAX) :
    s.StartsAt .openFileState o iovs 0 (s.model.start s.handle o) := by
  obtain ⟨buffer, hdata⟩ := hmem
  obtain ⟨hkind, _, _, hlength⟩ := h.file _ buffer hdata
  have hposition := h.position o
  have hmax : SSIZE_MAX ≤ OFF_MAX.toNat := by decide
  have hle : s.model.start s.handle o ≤ OFF_MAX.toNat := by
    rw [FS.start_eq hdata]
    split <;> omega
  refine ⟨?_, ?_⟩
  · unfold Fits
    omega
  · dsimp only
    rw [FS.start_eq hdata]
    split
    · unfold getSize
      rw [hkind, hdata]
    · exact (toFilesize_of_inRange hposition).symm

theorem write_does (h : s.Regular W) (hentry : s.getEntry fd = some o)
    (hmem : s.InMemory (s.openFile o).file)
    (hfit : (FileCall.write fd iovs).SizesFit s.handle s.model o)
    (hvec : (FileCall.write fd iovs).Vectored s.handle o) :
    s.Does (FileCall.write fd iovs).run ((FileCall.write fd iovs).op o) := by
  have hfetch := wasiFetch_memory h hentry hmem
  have hchecks := writeChecks_memory .openFileState iovs h hmem (Nat.zero_le _)
  by_cases hwritable : (s.handle o).writable = true
  · obtain ⟨hpresent, hroom⟩ := hfit hwritable
    obtain ⟨hcount, happend⟩ := hvec
    rw [if_pos hwritable, validateIOVs_of_fits hcount (by omega)] at hchecks
    have hempty : iovs = [] → s.model.start s.handle o = s.model.position o := fun hnil => by
      unfold FileModel.start
      rw [if_neg fun ha => happend ha hnil]
    obtain ⟨s', hrun, hsame, hmodel⟩ := writeAtOffset_memory h hentry hmem hchecks hpresent
      (startsAt_memory h hmem hroom) hroom fun hnil _ => hempty hnil
    refine ⟨s', _, bind_of_ok hrun, Eq.trans ?_ (if_pos hwritable).symm, hsame⟩
    rw [length_payload hpresent]
    exact Prod.ext hmodel rfl
  · rw [if_neg hwritable] at hchecks
    exact ⟨s, _, bind_of_error ((bind_of_ok hfetch).trans (bind_of_error hchecks)),
      (if_neg hwritable).symm, .refl s⟩

theorem pwrite_does (h : s.Regular W) (hentry : s.getEntry fd = some o)
    (hmem : s.InMemory (s.openFile o).file)
    (hfit : (FileCall.pwrite fd iovs offset).SizesFit s.handle s.model o)
    (hvec : (FileCall.pwrite fd iovs offset).Vectored s.handle o) :
    s.Does (FileCall.pwrite fd iovs offset).run ((FileCall.pwrite fd iovs offset).op o) := by
  obtain ⟨hvalid, hfit⟩ := hfit
  have hfetch := wasiFetch_memory h hentry hmem
  have hchecks := writeChecks_memory .argument iovs h hmem hvalid
  by_cases hwritable : (s.handle o).writable = true
  · obtain ⟨hpresent, hroom⟩ := hfit hwritable
    have hmax : SSIZE_MAX ≤ OFF_MAX.toNat := by decide
    rw [if_pos hwritable, validateIOVs_of_fits hvec (by omega)] at hchecks
    obtain ⟨s', hrun, hsame, hmodel⟩ := writeAtOffset_memory h hentry hmem hchecks hpresent
      ⟨by unfold Fits; omega, rfl⟩ hroom fun _ hseq => by cases hseq
    refine ⟨s', _, bind_of_ok hrun, Eq.trans ?_ (if_pos hwritable).symm, hsame⟩
    rw [length_payload hpresent]
    exact Prod.ext hmodel rfl
  · rw [if_neg hwritable] at hchecks
    exact ⟨s, _, bind_of_error ((bind_of_ok hfetch).trans (bind_of_error hchecks)),
      (if_neg hwritable).symm, .refl s⟩

/-! ### Reading -/

theorem readChecks_memory (setOffset : OffsetHandling) (iovs : List IOVec) (h : s.Regular W)
    (hmem : s.InMemory (s.openFile o).file) : readChecks setOffset o (.vec iovs) s =
      if (s.handle o).readable then validateIOVs (.vec iovs) s else some (s, .error .EBADF) := by
  obtain ⟨_, hseekable, _⟩ := h.inMemory hmem
  unfold readChecks getOpenFile isSeekable
  rw [gets_bind_apply, gets_bind_apply, failIf_bind_apply,
    if_neg (by rw [hseekable]; exact fun hnot => Bool.noConfusion hnot.2), failIf_bind_apply]
  change (if (s.openFile o).flags &&& O_ACCMODE = O_WRONLY then _ else _) =
    if decide ((s.openFile o).flags &&& O_ACCMODE ≠ O_WRONLY) = true then _ else _
  simp only [decide_eq_true_eq, ne_eq, ite_not]

theorem read_memory (hdata : (s.file f).data = .memory buffer) (len offset : Nat) :
    DataFile.read f len offset s =
      some (s.asked [.read f len offset], .ok (ByteSeq.readAt offset len buffer)) := by
  unfold DataFile.read
  change (match (s.file f).data with | .memory _ => _ | .pipe _ => _ | .external => _) = _
  rw [hdata]
  dsimp only
  rw [if_neg (by omega), Int.toNat_natCast]
  rfl

/-- Reading buffer by buffer is one read into all of them. -/
theorem readLoop_memory (hdata : (s.file f).data = .memory buffer) (start : Nat) (iovs : List IOVec) :
    ∀ (made : List DataRequest) (done : Nat) (data : List UInt8), Present iovs →
    ∃ made', transferLoop (fun _ => pure ()) (readBuffer f start) iovs done data (s.asked made) =
      some (s.asked made', .ok (done + (ByteSeq.readAt (start + done) (total iovs) buffer).length,
        data ++ ByteSeq.readAt (start + done) (total iovs) buffer)) := by
  induction iovs with
  | nil =>
    intro made done data _
    have hnil : ByteSeq.readAt (start + done) (total []) buffer = [] := List.take_zero
    rw [hnil, List.append_nil]
    exact ⟨made, rfl⟩
  | cons iov rest ih =>
    intro made done data hpresent
    have hrest : Present rest := fun x hx => hpresent x (List.mem_cons_of_mem _ hx)
    rw [total_cons, transferLoop]
    split
    · next hzero =>
        rw [hzero, Nat.zero_add]
        exact ih made done data hrest
    · next hlen =>
        obtain ⟨bytes, hbuf⟩ := Option.ne_none_iff_exists'.mp
          (hpresent iov List.mem_cons_self (Nat.pos_of_ne_zero hlen))
        rw [hbuf, ← iov.len_eq bytes hbuf]
        have hio : readBuffer f start bytes done (s.asked made) = _ :=
          bind_of_ok (read_memory (s := s.asked made) hdata bytes.length (start + done))
        change ∃ made', Prog.attempt _ _ (s.asked made) = _
        rw [attempt_of hio, ByteSeq.readAt_add]
        dsimp only
        split
        · next hshort =>
            rw [ByteSeq.readAt_of_short _ _ _ hshort, List.append_nil]
            exact ⟨.read f bytes.length (start + done : Nat) :: made, rfl⟩
        · next hfull =>
            have hcount : (ByteSeq.readAt (start + done) bytes.length buffer).length = bytes.length := by
              rw [ByteSeq.length_readAt] at hfull ⊢
              omega
            rw [FS.asked_asked, hcount]
            obtain ⟨made', hrun⟩ := ih ([.read f bytes.length (start + done : Nat)] ++ made)
              (done + bytes.length) (data ++ ByteSeq.readAt (start + done) bytes.length buffer) hrest
            refine ⟨made', hrun.trans ?_⟩
            rw [List.length_append, hcount, List.append_assoc, Nat.add_assoc, Nat.add_assoc]

theorem readAtOffset_memory (h : s.Regular W) (hentry : s.getEntry fd = some o)
    (hdata : (s.file (s.openFile o).file).data = .memory buffer)
    (hstarts : readOffset setOffset o offset s = some (s, .ok start))
    (hchecks : readChecks setOffset o (.vec iovs) s = some (s, .ok ())) (hpresent : Present iovs)
    (hfits : Fits iovs start) (hempty : iovs = [] → setOffset = .openFileState → start = s.model.position o) :
    ∃ s', readAtOffset setOffset fd (.vec iovs) offset s =
        some (s', .ok ((ByteSeq.readAt start (total iovs) buffer).length,
          ByteSeq.readAt start (total iovs) buffer)) ∧
      s.SameOpen s' ∧ s'.model = if setOffset = .openFileState
        then s.model.setPosition o (start + (ByteSeq.readAt start (total iovs) buffer).length)
        else s.model := by
  have hmem : s.InMemory (s.openFile o).file := ⟨buffer, hdata⟩
  obtain ⟨hkind, hseekable, _⟩ := h.inMemory hmem
  have hfetch := wasiFetch_memory h hentry hmem
  by_cases hne : iovs = []
  · subst hne
    have hnil : ByteSeq.readAt start (total []) buffer = [] := List.take_zero
    refine ⟨s, ?_, .refl s, ?_⟩
    · unfold readAtOffset
      rw [bind_of_ok hfetch, bind_of_ok hstarts, bind_of_ok hchecks, hnil]
      rfl
    · rw [hnil]
      split
      · next hseq => exact (FileModel.setPosition_eq_self (hempty rfl hseq).symm).symm
      · rfl
  · have hlen : ¬ (IOVs.vec iovs).iovs_len = 0 := fun hzero => hne (List.eq_nil_of_length_eq_zero hzero)
    rw [readAtOffset_eq hfetch hstarts hchecks hlen hkind hfits]
    obtain ⟨made, hloop⟩ := readLoop_memory hdata start iovs [] 0 [] hpresent
    rw [Nat.zero_add, Nat.add_zero, List.nil_append] at hloop
    have hadvance : advance setOffset o (s.openFile o).file _ (s.asked made) = _ :=
      advance_apply (s := s.asked made) hseekable (start + (ByteSeq.readAt start (total iovs) buffer).length)
    refine ⟨_, (bind_of_ok hloop).trans (bind_of_ok hadvance), ?_, ?_⟩
    · split
      · exact (FS.sameOpen_asked made).trans (FS.sameOpen_moved o _)
      · exact FS.sameOpen_asked made
    · split
      · exact FS.model_moved o _
      · rfl

theorem read_does (h : s.Regular W) (hentry : s.getEntry fd = some o)
    (hmem : s.InMemory (s.openFile o).file)
    (hfit : (FileCall.read fd iovs).SizesFit s.handle s.model o)
    (hvec : (FileCall.read fd iovs).Vectored s.handle o) :
    s.Does (FileCall.read fd iovs).run ((FileCall.read fd iovs).op o) := by
  obtain ⟨buffer, hdata⟩ := hmem
  have hfetch := wasiFetch_memory h hentry ⟨buffer, hdata⟩
  have hchecks := readChecks_memory .openFileState iovs h ⟨buffer, hdata⟩
  have hposition := h.position o
  have hvalid : isValidOffset (s.openFile o).position.toNat := h.position_le o
  have hstarts : readOffset .openFileState o 0 s = some (s, .ok (s.model.position o)) := by
    unfold readOffset getOpenFile
    dsimp only
    rw [gets_bind_apply, toFilesize_of_inRange hposition, failIf_bind_apply,
      if_neg (not_not.mpr hvalid)]
    rfl
  by_cases hreadable : (s.handle o).readable = true
  · obtain ⟨hpresent, hcount, hroom⟩ := hfit hreadable
    rw [if_pos hreadable, validateIOVs_of_fits hvec hcount] at hchecks
    obtain ⟨s', hrun, hsame, hmodel⟩ := readAtOffset_memory h hentry hdata hstarts hchecks hpresent hroom
      fun _ _ => rfl
    refine ⟨s', _, bind_of_ok hrun, Eq.trans ?_ (if_pos hreadable).symm, hsame⟩
    rw [show (s.handle o).file = (s.openFile o).file from rfl, FS.bytes_of_memory hdata]
    exact Prod.ext hmodel rfl
  · rw [if_neg hreadable] at hchecks
    exact ⟨s, _, bind_of_error ((bind_of_ok hfetch).trans ((bind_of_ok hstarts).trans
      (bind_of_error hchecks))), (if_neg hreadable).symm, .refl s⟩

theorem pread_does (h : s.Regular W) (hentry : s.getEntry fd = some o)
    (hmem : s.InMemory (s.openFile o).file)
    (hfit : (FileCall.pread fd iovs offset).SizesFit s.handle s.model o)
    (hvec : (FileCall.pread fd iovs offset).Vectored s.handle o) :
    s.Does (FileCall.pread fd iovs offset).run ((FileCall.pread fd iovs offset).op o) := by
  obtain ⟨buffer, hdata⟩ := hmem
  obtain ⟨hle, hfit⟩ := hfit
  have hvalid : isValidOffset offset := hle
  have hfetch := wasiFetch_memory h hentry ⟨buffer, hdata⟩
  have hchecks := readChecks_memory .argument iovs h ⟨buffer, hdata⟩
  have hstarts : readOffset .argument o offset s = some (s, .ok offset) := by
    unfold readOffset
    dsimp only
    rw [failIf_bind_apply, if_neg (not_not.mpr hvalid)]
    rfl
  by_cases hreadable : (s.handle o).readable = true
  · obtain ⟨hpresent, hcount, hroom⟩ := hfit hreadable
    rw [if_pos hreadable, validateIOVs_of_fits hvec hcount] at hchecks
    obtain ⟨s', hrun, hsame, hmodel⟩ := readAtOffset_memory h hentry hdata hstarts hchecks hpresent hroom
      fun _ hseq => by cases hseq
    refine ⟨s', _, bind_of_ok hrun, Eq.trans ?_ (if_pos hreadable).symm, hsame⟩
    rw [show (s.handle o).file = (s.openFile o).file from rfl, FS.bytes_of_memory hdata]
    exact Prod.ext hmodel rfl
  · rw [if_neg hreadable] at hchecks
    exact ⟨s, _, bind_of_error ((bind_of_ok hfetch).trans ((bind_of_ok hstarts).trans
      (bind_of_error hchecks))), (if_neg hreadable).symm, .refl s⟩

/-! ### Seeking and truncating -/

theorem addOffT_apply (a b : Int) : addOffT a b s =
    some (s, if a + b < OFF_MIN ∨ OFF_MAX < a + b then .error .EINVAL else .ok (a + b)) := by
  unfold addOffT
  rw [failIf_bind_apply]
  split
  · rfl
  · rfl

/-- What a seek to `position` does at its end. -/
theorem seek_ends (position : Int) :
    (do
      Prog.failIf (position < 0) .EINVAL
      Prog.failIf (OFF_MAX < position) .EOVERFLOW
      setPosition o position
      pure position : Sys Int) s =
    if 0 ≤ position ∧ position ≤ OFF_MAX
      then some (s.modifyOpen o fun x => { x with position := position }, .ok position)
      else some (s, .error (if position < 0 then .EINVAL else .EOVERFLOW)) := by
  rw [failIf_bind_apply]
  split
  · next hneg => rw [if_neg (by omega)]
  · next hneg =>
      rw [failIf_bind_apply]
      split
      · next hbig => rw [if_neg (by omega)]
      · next hbig =>
          rw [if_pos (by omega)]
          rfl

/-- The target of a seek as the code computes it: out of the range of `off_t`, it is an
error. -/
theorem seekTarget_memory (h : s.Regular W) (hdata : (s.file (s.openFile o).file).data = .memory buffer)
    (offset : OffT) (whence : Int) : ∃ r, seekTarget (s.openFile o) offset whence s = some (s, r) ∧
      match s.model.target s.handle o offset.val whence with
      | some position => r = .ok position ∨ ¬ (0 ≤ position ∧ position ≤ OFF_MAX) ∧ r = .error .EINVAL
      | none => r = .error .EINVAL := by
  obtain ⟨hkind, _⟩ := h.file _ buffer hdata
  have hsize : getSize (s.openFile o).file s = some (s, .ok buffer.length) := by
    unfold getSize
    rw [hkind, hdata]
  have hposition : ((s.model.position o : Nat) : Int) = (s.openFile o).position :=
    Int.toNat_of_nonneg (h.position o).1
  have hadd : ∀ a : Int, ∃ r, addOffT a offset.val s = some (s, r) ∧ (r = .ok (a + offset.val) ∨
      ¬ (0 ≤ a + offset.val ∧ a + offset.val ≤ OFF_MAX) ∧ r = .error .EINVAL) := by
    intro a
    refine ⟨_, addOffT_apply a offset.val, ?_⟩
    have hmin : OFF_MIN ≤ 0 := by decide
    split
    · exact .inr ⟨by omega, rfl⟩
    · exact .inl rfl
  unfold seekTarget FileModel.target
  rw [show (s.handle o).file = (s.openFile o).file from rfl, FS.bytes_of_memory hdata, hposition]
  split
  · exact ⟨_, rfl, .inl rfl⟩
  · split
    · exact hadd _
    · split
      · obtain ⟨r, hrun, hr⟩ := hadd buffer.length
        exact ⟨r, (bind_of_ok hsize).trans hrun, hr⟩
      · exact ⟨_, rfl, rfl⟩

theorem lseek_does (h : s.Regular W) (hentry : s.getEntry fd = some o)
    (hmem : s.InMemory (s.openFile o).file) (offset : OffT) (whence : Int) :
    s.Does (FileCall.lseek fd offset whence).run ((FileCall.lseek fd offset whence).op o) := by
  obtain ⟨_, hseekable, _⟩ := h.inMemory hmem
  have hfetch := wasiFetch_memory h hentry hmem
  obtain ⟨buffer, hdata⟩ := hmem
  obtain ⟨r, hrun, hr⟩ := seekTarget_memory h hdata offset whence
  have hseek : fdSeek fd offset whence s =
      (do
        let position ← seekTarget (s.openFile o) offset whence
        Prog.failIf (position < 0) .EINVAL
        Prog.failIf (OFF_MAX < position) .EOVERFLOW
        setPosition o position
        pure position : Sys Int) s := by
    unfold fdSeek doFdSeek getOpenFile isSeekable
    rw [bind_of_ok hfetch, gets_bind_apply, gets_bind_apply, failIf_bind_apply,
      if_neg (by rw [hseekable]; exact Bool.noConfusion)]
  change ∃ s' r, (fdSeek fd offset whence >>= fun position => pure (position, [])) s = some (s', r) ∧
    (s'.model, r.toOption) = (match s.model.target s.handle o offset.val whence with
      | some position =>
        if 0 ≤ position ∧ position ≤ OFF_MAX then
          (s.model.setPosition o position.toNat, some (position, []))
        else (s.model, none)
      | none => (s.model, none)) ∧ s.SameOpen s'
  cases htarget : s.model.target s.handle o offset.val whence with
  | none =>
    rw [htarget] at hr
    cases hr
    exact ⟨s, _, bind_of_error (hseek.trans (bind_of_error hrun)), rfl, .refl s⟩
  | some position =>
    rw [htarget] at hr
    rcases hr with rfl | ⟨hout, rfl⟩
    · replace hseek := hseek.trans ((bind_of_ok hrun).trans (seek_ends position))
      split at hseek
      · next hin =>
          refine ⟨_, _, bind_of_ok hseek, ?_, FS.sameOpen_moved o position⟩
          dsimp only
          rw [if_pos hin, ← Int.toNat_of_nonneg hin.1, FS.model_moved, Int.toNat_natCast]
          rfl
      · next hout =>
          refine ⟨s, _, bind_of_error hseek, ?_, .refl s⟩
          dsimp only
          rw [if_neg hout]
          rfl
    · refine ⟨s, _, bind_of_error (hseek.trans (bind_of_error hrun)), ?_, .refl s⟩
      dsimp only
      rw [if_neg hout]
      rfl

theorem setSize_memory (hdata : (s.file f).data = .memory buffer) {size : Int} (h : size ≤ SSIZE_MAX) :
    DataFile.setSize f size s = some ((s.modifyFile f fun x =>
      { x with data := .memory (ByteSeq.resize 0 size.toNat buffer) }).asked [.setSize f size], .ok ()) := by
  unfold DataFile.setSize
  change (match (s.file f).data with | .memory _ => _ | .pipe _ => _ | .external => _) = _
  rw [hdata]
  dsimp only
  rw [if_neg (Int.not_lt.mpr h)]
  rfl

theorem ftruncate_does (h : s.Regular W) (hentry : s.getEntry fd = some o)
    (hmem : s.InMemory (s.openFile o).file) {size : OffT}
    (hfit : (FileCall.ftruncate fd size).SizesFit s.handle s.model o) :
    s.Does (FileCall.ftruncate fd size).run ((FileCall.ftruncate fd size).op o) := by
  obtain ⟨hkind, _⟩ := h.inMemory hmem
  have hfetch := fetch_memory h hentry hmem
  obtain ⟨buffer, hdata⟩ := hmem
  have hrun : WasmFS.ftruncate fd size s =
      if (s.openFile o).flags &&& O_ACCMODE = O_RDONLY then some (s, .error .EINVAL)
      else if size.val < 0 then some (s, .error .EINVAL)
      else DataFile.setSize (s.openFile o).file size.val s := by
    unfold WasmFS.ftruncate getOpenFile doTruncate getKind getMode
    rw [bind_of_ok hfetch, gets_bind_apply, failIf_bind_apply]
    split
    · rfl
    · rw [gets_bind_apply, failIf_bind_apply, if_neg (not_not.mpr hkind), gets_bind_apply,
        failIf_bind_apply, if_neg fun hnot => Bool.noConfusion hnot.1, failIf_bind_apply]
  change ∃ s' r, (WasmFS.ftruncate fd size >>= fun _ => pure ((0 : Int), [])) s = some (s', r) ∧
    (s'.model, r.toOption) =
      (if decide ((s.openFile o).flags &&& O_ACCMODE ≠ O_RDONLY) = true ∧ 0 ≤ size.val
        then (s.model.setContent (s.openFile o).file (ByteSeq.resize 0 size.val.toNat
          (s.model.content (s.openFile o).file)), some (0, []))
        else (s.model, none)) ∧ s.SameOpen s'
  by_cases hallowed : (s.openFile o).flags &&& O_ACCMODE ≠ O_RDONLY ∧ 0 ≤ size.val
  · rw [if_neg hallowed.1, if_neg (Int.not_lt.mpr hallowed.2), setSize_memory hdata hfit] at hrun
    refine ⟨_, _, bind_of_ok hrun, ?_, (FS.sameOpen_setData _ _).trans (FS.sameOpen_asked _)⟩
    rw [if_pos ⟨decide_eq_true hallowed.1, hallowed.2⟩, FS.bytes_of_memory hdata, FS.model_asked,
      FS.model_setData]
    rfl
  · have hfail : WasmFS.ftruncate fd size s = some (s, .error .EINVAL) := by
      rw [hrun]
      split
      · rfl
      · next hmode => rw [if_pos (Int.not_le.mp fun hle => hallowed ⟨hmode, hle⟩)]
    refine ⟨s, _, bind_of_error hfail, ?_, .refl s⟩
    rw [if_neg fun hnot => hallowed ⟨of_decide_eq_true hnot.1, hnot.2⟩]
    rfl

end Single

/-! ## Sequences of calls -/

section Sequences

variable {W : Requests} {s : FS}

/-- A call on a descriptor of a file in memory does what the model does. -/
theorem FileCall.does (h : s.Regular W) {c : FileCall} {o : OpenId} (hentry : s.getEntry c.fd = some o)
    (hmem : s.InMemory (s.openFile o).file) (hfit : c.SizesFit s.handle s.model o)
    (hvec : c.Vectored s.handle o) : s.Does c.run (c.op o) := by
  cases c with
  | read fd iovs => exact read_does h hentry hmem hfit hvec
  | pread fd iovs offset => exact pread_does h hentry hmem hfit hvec
  | write fd iovs => exact write_does h hentry hmem hfit hvec
  | pwrite fd iovs offset => exact pwrite_does h hentry hmem hfit hvec
  | lseek fd offset whence => exact lseek_does h hentry hmem offset whence
  | ftruncate fd size => exact ftruncate_does h hentry hmem hfit

theorem regular_run (c : FileCall) : Preserves (FS.Regular W) c.run := by
  cases c with
  | read fd iovs => exact .bind (regular_readAtOffset _ _ _ _) fun _ => .pure
  | pread fd iovs offset => exact .bind (regular_readAtOffset _ _ _ _) fun _ => .pure
  | write fd iovs => exact .bind (regular_writeAtOffset _ _ _ _) fun _ => .pure
  | pwrite fd iovs offset => exact .bind (regular_writeAtOffset _ _ _ _) fun _ => .pure
  | lseek fd offset whence => exact .bind (regular_doFdSeek fd offset whence (Int.le_refl _)) fun _ => .pure
  | ftruncate fd size => exact .bind (regular_ftruncate fd size) fun _ => .pure

/-- The description that `fd` leads to. -/
def FS.description (s : FS) (fd : Int) : OpenId := (s.getEntry fd).getD 0

/-- The sizes of every call fit where it comes to be made. -/
def SizesFit (h : OpenId → Handle FileId) (description : Int → OpenId) :
    FileModel FileId OpenId → List FileCall → Prop
  | _, [] => True
  | m, c :: calls => c.SizesFit h m (description c.fd) ∧
      SizesFit h description (m.apply h (c.op (description c.fd))).1 calls

/-- The calls do in `s` what the model does. -/
def FS.DoesAll (s : FS) (calls : List FileCall) : Prop :=
  ∃ s' replies, FileCall.runAll calls s = some (s', replies) ∧
    (s'.model, replies) = s.model.applyAll s.handle (calls.map fun c => c.op (s.description c.fd))

theorem doesAll_of_regular (calls : List FileCall) : ∀ s : FS, s.Regular W →
    (∀ c ∈ calls, s.OnMemory c.fd) → SizesFit s.handle s.description s.model calls →
    (∀ c ∈ calls, c.Vectored s.handle (s.description c.fd)) → s.DoesAll calls := by
  induction calls with
  | nil => exact fun s _ _ _ _ => ⟨s, [], rfl, rfl⟩
  | cons c calls ih =>
    intro s h hmem hfits hvecs
    obtain ⟨hfit, hrest⟩ := hfits
    have hvec := hvecs c List.mem_cons_self
    obtain ⟨o, hentry, hfile⟩ := hmem c List.mem_cons_self
    have hdescription : s.description c.fd = o := by
      unfold FS.description
      rw [hentry]
      rfl
    rw [hdescription] at hfit hvec hrest
    obtain ⟨s₁, r, hrun, hmodel, hsame⟩ := c.does h hentry hfile hfit hvec
    have h₁ : s₁.Regular W := by
      have hkept := regular_run c s h s₁ r hrun
      cases r with
      | ok _ => exact hkept
      | error _ => exact hkept
    have hdescriptions : s₁.description = s.description := by
      funext fd
      unfold FS.description
      rw [hsame.getEntry]
    have hmodel₁ := congrArg Prod.fst hmodel
    dsimp only at hmodel₁
    obtain ⟨s', replies, hruns, happly⟩ := ih s₁ h₁
      (fun x hx => hsame.onMemory (hmem x (List.mem_cons_of_mem _ hx)))
      (by rw [hsame.handle, hdescriptions, hmodel₁]; exact hrest)
      (fun x hx => by
        rw [hsame.handle, hdescriptions]
        exact hvecs x (List.mem_cons_of_mem _ hx))
    refine ⟨s', r.toOption :: replies, ?_, ?_⟩
    · unfold FileCall.runAll
      rw [hrun]
      dsimp only
      rw [hruns]
      rfl
    · rw [hsame.handle, hdescriptions, hmodel₁] at happly
      rw [List.map_cons, hdescription]
      unfold FileModel.applyAll
      dsimp only
      rw [← happly, ← hmodel]

/-- In every reachable state, any sequence of calls on descriptors of files in memory
refines the model, if the sizes fit and the vectors are not too long, nor empty where
they are to be appended. -/
theorem calls_refine_model {C : FS → IOCall → Prop} (h : FileReachable C s) (calls : List FileCall)
    (hmem : ∀ c ∈ calls, s.OnMemory c.fd)
    (hfits : SizesFit s.handle s.description s.model calls)
    (hvectored : ∀ c ∈ calls, c.Vectored s.handle (s.description c.fd)) : s.DoesAll calls :=
  doesAll_of_regular calls s h.regular_any hmem hfits hvectored

/-- Two buffers, written and read back. -/
theorem calls_refine_model_two : withFile.DoesAll [.write 3 [.of [65], .of [66]],
    .lseek 3 ⟨0, by decide, by decide⟩ SEEK_SET, .read 3 [.of [0, 0, 0]]] := by
  have hmem : withFile.OnMemory 3 := ⟨3, rfl, [], rfl⟩
  refine calls_refine_model fileReachable_withFile _ ?_ ⟨fun _ => ⟨?_, fun _ => by decide⟩, trivial,
    fun _ => ⟨?_, by decide, by decide⟩, trivial⟩ ?_
  · simp [FileCall.fd, hmem]
  · simp [Present, IOVec.of]
  · simp [Present, IOVec.of]
  · simp only [List.mem_cons, List.not_mem_nil, or_false, forall_eq_or_imp, forall_eq]
    exact ⟨⟨(by decide : 2 ≤ 1024), fun _ h => by cases h⟩, trivial, (by decide : 1 ≤ 1024)⟩

/-! ### A file to append to -/

def appending : FS := withFile.modifyOpen 3 fun x => { x with flags := O_CREAT ||| O_RDWR ||| O_APPEND }

theorem fileReachable_appending : FileReachable (fun _ _ => True) appending := by
  obtain ⟨root, env, hdoc, hrun⟩ := fileReachable_withFile
  refine ⟨root, env, hdoc, hrun.tail (.io (.fcntlSetFl 3 O_APPEND) _ (.ok ()) trivial rfl fun o => ?_)⟩
  change (Function.update withFile.openFile 3 _ o).dirents.length ≤ SSIZE_MAX
  rw [Function.update_apply]
  split
  · exact listed_withFile 3
  · exact listed_withFile o

def offTZero : OffT := ⟨0, by decide, by decide⟩

/-- A byte, back to the start, a vector without buffers: the position is still there. -/
def emptyAppend : List FileCall :=
  [.write 3 [.of [65]], .lseek 3 offTZero SEEK_SET, .write 3 [], .lseek 3 offTZero SEEK_CUR]

theorem empty_vector_does_not_append : ¬ ∀ s, FileReachable (fun _ _ => True) s → ∀ calls,
    (∀ c ∈ calls, s.OnMemory c.fd) → SizesFit s.handle s.description s.model calls → s.DoesAll calls := by
  intro hall
  have hmem : appending.OnMemory 3 := ⟨3, rfl, [], rfl⟩
  obtain ⟨s', replies, hrun, happly⟩ := hall appending fileReachable_appending emptyAppend
    (by simp [emptyAppend, FileCall.fd, hmem])
    ⟨fun _ => ⟨by simp [Present, IOVec.of], fun _ => by decide⟩, trivial,
      fun _ => ⟨fun _ h => absurd h List.not_mem_nil, fun h => absurd h (by decide)⟩, trivial, trivial⟩
  have hreplies : (FileCall.runAll emptyAppend appending).map Prod.snd =
      some [some (1, []), some (0, []), some (0, []), some (0, [])] := rfl
  rw [hrun] at hreplies
  cases hreplies
  have hmodel : [some (1, []), some (0, []), some (0, []), some (0, [])] = (FileModel.applyAll
      appending.handle appending.model (emptyAppend.map fun c => c.op (appending.description c.fd))).2 :=
    congrArg Prod.snd happly
  exact absurd hmodel (by decide)

end Sequences

end WasmFS
