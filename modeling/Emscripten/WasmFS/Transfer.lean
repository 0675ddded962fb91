-- SUMMARY: The syscalls that read, write, seek, resize and map open files.
import Emscripten.WasmFS.System

/-!
# File I/O

`writeAtOffset` and `readAtOffset` serve every reading and writing call: the scalar and
the vectored ones, at the position of the description or at an offset that the caller
gives. Their loops differ in what they do with a buffer only, so that both are
`transferLoop`. An offset in the WASI calls is unsigned, and a negative `off_t` turns
into one that is too large.
-/

namespace WasmFS

/-! ## Buffers -/

/-- `__wasi_iovec_t` and `__wasi_ciovec_t`: a null pointer with a length, or the bytes
the pointer leads to. -/
structure IOVec where
  buf_len : Nat
  buf : Option (List UInt8)
  len_eq : ∀ bytes, buf = some bytes → bytes.length = buf_len

/-- A buffer in memory. -/
def IOVec.of (bytes : List UInt8) : IOVec where
  buf_len := bytes.length
  buf := some bytes
  len_eq := fun _ h => congrArg List.length (Option.some.inj h).symm

/-- A null pointer, passed as a buffer of `len` bytes. -/
def IOVec.null (len : Nat) : IOVec where
  buf_len := len
  buf := none
  len_eq := fun _ h => nomatch h

/-- The vector of a call, itself perhaps a null pointer. -/
inductive IOVs
  | null (iovs_len : Nat)
  | vec (iovs : List IOVec)

def IOVs.iovs_len : IOVs → Nat
  | .null n => n
  | .vec iovs => iovs.length

def IOVs.toList : IOVs → List IOVec
  | .null _ => []
  | .vec iovs => iovs

/-- Each length is checked against what is left below `limit`. -/
def lengthsFit (limit : Nat) : List IOVec → Nat → Bool
  | [], _ => true
  | iov :: rest, total =>
    if limit - total < iov.buf_len then false else lengthsFit limit rest (total + iov.buf_len)

/-- `fitsIOVRange`. -/
def fitsIOVRange (iovs : List IOVec) (offset : Nat) : Bool := lengthsFit OFF_MAX.toNat iovs offset

/-- `validateIOVs`. -/
def validateIOVs (iovs : IOVs) : Sys Unit := do
  Prog.failIf (UIO_MAXIOV < iovs.iovs_len) .EINVAL
  match iovs with
  | .null n => Prog.failIf (n ≠ 0) .EFAULT
  | .vec iovs => Prog.failIf (lengthsFit SSIZE_MAX iovs 0 = false) .EINVAL

/-- Whether the offset of a call comes from the description or from an argument. -/
inductive OffsetHandling
  | openFileState
  | argument
deriving DecidableEq, Repr

/-- The cast of an `off_t` to the unsigned `__wasi_filesize_t`. -/
def toFilesize (offset : Int) : Nat := (offset % 2 ^ 64).toNat

def isValidOffset (offset : Nat) : Prop := offset ≤ OFF_MAX.toNat

instance (offset : Nat) : Decidable (isValidOffset offset) := inferInstanceAs (Decidable (_ ≤ _))

/-! ## Data files -/

namespace DataFile

/-- `DataFile::write`. -/
def write (f : FileId) (bytes : List UInt8) (offset : Int) : Sys Nat := fun s =>
  let s := s.requested (.write f bytes offset)
  match (s.file f).data with
  | .memory buffer =>
    let past := offset + bytes.length
    if (buffer.length : Int) < past ∧ (SSIZE_MAX : Int) < past then some (s, .error Errno.EIO)
    -- The bytes before a vector are nobody's: undefined behaviour.
    else if offset < 0 then none
    else some (s.modifyFile f fun x =>
      { x with data := .memory (ByteSeq.writeAt 0 offset.toNat bytes buffer) }, .ok bytes.length)
  | .pipe q => some ({ s with pipe := Function.update s.pipe q (s.pipe q ++ bytes) },
      .ok bytes.length)
  | .external => some (s, s.env.write f bytes offset)

/-- `DataFile::read`, of at most `len` bytes. -/
def read (f : FileId) (len : Nat) (offset : Int) : Sys (List UInt8) := fun s =>
  let s := s.requested (.read f len offset)
  match (s.file f).data with
  | .memory buffer =>
    if offset < 0 then none else some (s, .ok (ByteSeq.readAt offset.toNat len buffer))
  | .pipe q => some ({ s with pipe := Function.update s.pipe q ((s.pipe q).drop len) },
      .ok ((s.pipe q).take len))
  | .external => some (s, s.env.read f len offset)

end DataFile

/-- `File::getSize`. -/
def getSize (f : FileId) : Sys Nat := fun s =>
  match (s.file f).kind with
  | .directory => some (s, .ok 4096)
  | .symlink => some (s, .ok (s.file f).target.length)
  | .dataFile =>
    match (s.file f).data with
    | .memory buffer => some (s, .ok buffer.length)
    | .pipe q => some (s, .ok (s.pipe q).length)
    | .external => some (s, s.env.getSize f)

def getOpenFile (o : OpenId) : Sys OpenFileState := Prog.gets fun s => s.openFile o

def isSeekable (f : FileId) : Sys Bool := Prog.gets fun s => (s.file f).seekable

def setPosition (o : OpenId) (position : Int) : Sys Unit :=
  Prog.modify fun s => s.modifyOpen o fun x => { x with position := position }

/-- The description of `fd`, admitted by a WASI entry point. -/
def wasiFetch (fd : Int) : Sys OpenId := do
  match ← getEntry fd with
  | none => Prog.fail .EBADF
  | some o =>
    wasiAdmitOpenFile o
    pure o

/-! ## Transfers -/

/-- The loop over the buffers. `io` transfers one, with the number of bytes transferred
before it, and returns how many bytes it has transferred and which it has read. -/
def transferLoop (check : Nat → Sys Unit) (io : List UInt8 → Nat → Sys (Nat × List UInt8)) :
    List IOVec → Nat → List UInt8 → Sys (Nat × List UInt8)
  | [], done, data => pure (done, data)
  | iov :: rest, done, data =>
    -- A buffer of length zero does not reach the backend, whatever its pointer.
    if iov.buf_len = 0 then transferLoop check io rest done data
    else match iov.buf with
      | none => Prog.fail .EINVAL
      | some bytes => do
        check done
        Prog.attempt (io bytes done) fun
          -- After some bytes an error makes the transfer a short one.
          | .error e => if 0 < done then pure (done, data) else Prog.fail e
          | .ok (result, read) =>
            if result < iov.buf_len then pure (done + result, data ++ read)
            else transferLoop check io rest (done + result) (data ++ read)

/-- `addWillOverFlow(offset, bytesWritten)`. -/
def checkOverflow (offset done : Nat) : Sys Unit :=
  Prog.failIf (0 < offset ∧ 2 ^ 64 - 1 - offset < done) .EFBIG

def writeBuffer (f : FileId) (offset : Nat) (bytes : List UInt8) (done : Nat) :
    Sys (Nat × List UInt8) := do
  let result ← DataFile.write f bytes (offset + done : Nat)
  pure (result, [])

def readBuffer (f : FileId) (offset : Nat) (bytes : List UInt8) (done : Nat) :
    Sys (Nat × List UInt8) := do
  let read ← DataFile.read f bytes.length (offset + done : Nat)
  pure (read.length, read)

/-- The loop of `writeAtOffset`. -/
def writeLoop (f : FileId) (offset : Nat) (iovs : List IOVec) : Sys (Nat × List UInt8) :=
  transferLoop (checkOverflow offset) (writeBuffer f offset) iovs 0 []

/-- The loop of `readAtOffset`. -/
def readLoop (f : FileId) (offset : Nat) (iovs : List IOVec) : Sys (Nat × List UInt8) :=
  transferLoop (fun _ => pure ()) (readBuffer f offset) iovs 0 []

/-- Where a sequential write starts: in append mode at the end of the file, and the
position is set to it before anything is written. -/
def appendOffset (o : OpenId) (f : FileId) (iovs : List IOVec) : Sys Nat := do
  let openFile ← getOpenFile o
  if has openFile.flags O_APPEND then do
    let offset ← getSize f
    Prog.failIf (¬ isValidOffset offset ∨ fitsIOVRange iovs offset = false) .EINVAL
    setPosition o offset
    pure offset
  else do
    let offset := toFilesize openFile.position
    Prog.failIf (¬ isValidOffset offset ∨ fitsIOVRange iovs offset = false) .EINVAL
    pure offset

/-- Where a write to the data file `f` starts. -/
def writeOffset (setOffset : OffsetHandling) (o : OpenId) (f : FileId) (iovs : List IOVec)
    (offset : Nat) : Sys Nat :=
  match setOffset with
  | .argument => do
    Prog.failIf (fitsIOVRange iovs offset = false) .EINVAL
    pure offset
  | .openFileState => appendOffset o f iovs

/-- The end of a sequential transfer: the position moves, unless the file is a pipe or
another that has none. -/
def advance (setOffset : OffsetHandling) (o : OpenId) (f : FileId) (position : Nat) : Sys Unit := do
  if setOffset = .openFileState ∧ (← isSeekable f) = true then setPosition o position else pure ()

def touch (f : FileId) (done : Nat) : Sys Unit :=
  if done ≠ 0 then Prog.modify fun s => s.updateMTime f else pure ()

/-- What `writeAtOffset` checks before it looks at the file's kind. -/
def writeChecks (setOffset : OffsetHandling) (o : OpenId) (iovs : IOVs) (offset : Nat) :
    Sys Unit := do
  Prog.failIf (¬ isValidOffset offset) .EINVAL
  let openFile ← getOpenFile o
  Prog.failIf (setOffset = .argument ∧ (← isSeekable openFile.file) = false) .ESPIPE
  Prog.failIf (openFile.flags &&& O_ACCMODE = O_RDONLY) .EBADF
  validateIOVs iovs

/-- `writeAtOffset`. -/
def writeAtOffset (setOffset : OffsetHandling) (fd : Int) (iovs : IOVs) (offset : Nat) : Sys Nat := do
  let o ← wasiFetch fd
  writeChecks setOffset o iovs offset
  if iovs.iovs_len = 0 then pure 0
  else do
    let f := (← getOpenFile o).file
    Prog.failIf ((← getKind f) ≠ .dataFile) .EISDIR
    let offset ← writeOffset setOffset o f iovs.toList offset
    let (done, _) ← writeLoop f offset iovs.toList
    advance setOffset o f (offset + done)
    touch f done
    pure done

/-- Where a read starts, as `readAtOffset` finds out before its other checks. -/
def readOffset (setOffset : OffsetHandling) (o : OpenId) (offset : Nat) : Sys Nat := do
  match setOffset with
  | .argument =>
    Prog.failIf (¬ isValidOffset offset) .EINVAL
    pure offset
  | .openFileState =>
    let offset := toFilesize (← getOpenFile o).position
    Prog.failIf (¬ isValidOffset offset) .EINVAL
    pure offset

/-- What `readAtOffset` checks before it looks at the file's kind. -/
def readChecks (setOffset : OffsetHandling) (o : OpenId) (iovs : IOVs) : Sys Unit := do
  let openFile ← getOpenFile o
  Prog.failIf (setOffset = .argument ∧ (← isSeekable openFile.file) = false) .ESPIPE
  Prog.failIf (openFile.flags &&& O_ACCMODE = O_WRONLY) .EBADF
  validateIOVs iovs

/-- `readAtOffset`: the count, and the bytes that the buffers received. -/
def readAtOffset (setOffset : OffsetHandling) (fd : Int) (iovs : IOVs) (offset : Nat) :
    Sys (Nat × List UInt8) := do
  let o ← wasiFetch fd
  let offset ← readOffset setOffset o offset
  readChecks setOffset o iovs
  if iovs.iovs_len = 0 then pure (0, [])
  else do
    let f := (← getOpenFile o).file
    Prog.failIf ((← getKind f) ≠ .dataFile) .EISDIR
    Prog.failIf (fitsIOVRange iovs.toList offset = false) .EINVAL
    let (done, data) ← readLoop f offset iovs.toList
    advance setOffset o f (offset + done)
    pure (done, data)

/-- `__wasi_fd_write`. -/
def fdWrite (fd : Int) (iovs : IOVs) : Sys Nat := writeAtOffset .openFileState fd iovs 0

/-- `__wasi_fd_pwrite`. -/
def fdPwrite (fd : Int) (iovs : IOVs) (offset : Nat) : Sys Nat := writeAtOffset .argument fd iovs offset

/-- `__wasi_fd_read`. -/
def fdRead (fd : Int) (iovs : IOVs) : Sys (Nat × List UInt8) := readAtOffset .openFileState fd iovs 0

/-- `__wasi_fd_pread`. -/
def fdPread (fd : Int) (iovs : IOVs) (offset : Nat) : Sys (Nat × List UInt8) :=
  readAtOffset .argument fd iovs offset

/-! ## Positions and sizes -/

/-- `__builtin_add_overflow` on `off_t`. -/
def addOffT (a b : Int) : Sys Int := do
  Prog.failIf (a + b < OFF_MIN ∨ OFF_MAX < a + b) .EINVAL
  pure (a + b)

def seekTarget (openFile : OpenFileState) (offset : OffT) (whence : Int) : Sys Int := do
  if whence = SEEK_SET then pure offset.val
  else if whence = SEEK_CUR then addOffT openFile.position offset.val
  else if whence = SEEK_END then do
    let size ← getSize openFile.file
    addOffT size offset.val
  else Prog.fail .EINVAL

/-- `doFdSeek`. -/
def doFdSeek (fd : Int) (offset : OffT) (whence : Int) (maxPosition : Int) : Sys Int := do
  let o ← wasiFetch fd
  let openFile ← getOpenFile o
  Prog.failIf ((← isSeekable openFile.file) = false) .ESPIPE
  let position ← seekTarget openFile offset whence
  Prog.failIf (position < 0) .EINVAL
  Prog.failIf (maxPosition < position) .EOVERFLOW
  setPosition o position
  pure position

/-- `__wasi_fd_seek`. -/
def fdSeek (fd : Int) (offset : OffT) (whence : Int) : Sys Int := doFdSeek fd offset whence OFF_MAX

def JSExactOffsetLimit : Int := 2 ^ 53

/-- `__wasmfs_fd_seek_for_js`. -/
def fdSeekForJs (fd : Int) (offset : OffT) (whence : Int) : Sys Int :=
  doFdSeek fd offset whence JSExactOffsetLimit

/-- `doTruncate`. -/
def doTruncate (file : FileId) (size : OffT) (checkFileWritePermission : Bool) : Sys Unit := do
  Prog.failIf ((← getKind file) ≠ .dataFile) .EISDIR
  let mode ← getMode file
  Prog.failIf (checkFileWritePermission = true ∧ ¬ has mode WASMFS_PERM_WRITE) .EACCES
  Prog.failIf (size.val < 0) .EINVAL
  DataFile.setSize file size.val

/-- `__syscall_truncate64`. -/
def truncate (path : Path) (size : OffT) : Sys Unit := do
  let file ← Path.parseFile path AT_FDCWD Path.followLinks
  doTruncate file size true

/-- `__syscall_ftruncate64`. -/
def ftruncate (fd : Int) (size : OffT) : Sys Unit := do
  let openFile ← getOpenFile (← fetch fd)
  Prog.failIf (openFile.flags &&& O_ACCMODE = O_RDONLY) .EINVAL
  doTruncate openFile.file size false

/-- The growth at the end of `__syscall_fallocate`. -/
def growTo (file : FileId) (newNeededSize : Int) : Sys Unit := do
  let size ← getSize file
  if (size : Int) < newNeededSize then DataFile.setSize file newNeededSize else pure ()

/-- `__syscall_fallocate`. -/
def fallocate (fd : Int) (mode : Int) (offset len : OffT) : Sys Unit := do
  let openFile ← getOpenFile (← fetch fd)
  Prog.failIf (offset.val < 0 ∨ len.val ≤ 0) .EINVAL
  Prog.failIf (mode ≠ 0) .ENOTSUP
  Prog.failIf (openFile.flags &&& O_ACCMODE = O_RDONLY) .EBADF
  Prog.failIf ((← isSeekable openFile.file) = false) .ESPIPE
  Prog.failIf ((← getKind openFile.file) ≠ .dataFile) .ENODEV
  Prog.failIf (OFF_MAX - len.val < offset.val) .EFBIG
  growTo openFile.file (offset.val + len.val)

/-- `sizeof(dirent)`, and the size of its name field. -/
def DIRENT_SIZE : Nat := 280
def DIRENT_NAME_SIZE : Nat := 256

/-- `__syscall_getdents64`: the entries that the buffer of `count` bytes receives. -/
def getdents (fd : Int) (count : Nat) : Sys (List Dirent) := do
  Prog.failIf (count / DIRENT_SIZE = 0) .EINVAL
  let o ← fetch fd
  let openFile ← getOpenFile o
  Prog.failIf ((← getKind openFile.file) ≠ .directory) .ENOTDIR
  if (← getParent openFile.file) = none then pure []
  else do
    Prog.failIf (openFile.position < 0) .EINVAL
    if (openFile.dirents.length : Int) ≤ openFile.position then pure []
    else do
      let index := openFile.position.toNat
      let entries := (openFile.dirents.drop index).take (count / DIRENT_SIZE)
      Prog.failIf (∃ entry ∈ entries, DIRENT_NAME_SIZE ≤ entry.name.length) .ENAMETOOLONG
      setPosition o (index + entries.length : Nat)
      pure entries

/-- `F_SETFL` of `__syscall_fcntl64`. -/
def fcntlSetFl (fd : Int) (flags : Nat) : Sys Unit := do
  let o ← fetch fd
  let flags := without flags (O_RDONLY ||| O_WRONLY ||| O_RDWR ||| O_CREAT ||| O_EXCL ||| O_NOCTTY |||
    O_TRUNC ||| O_LARGEFILE)
  Prog.failIf (flags ≠ flags &&& O_APPEND) .EINVAL
  Prog.modify fun s => s.modifyOpen o fun x =>
    { x with flags := without x.flags O_APPEND ||| (flags &&& O_APPEND) }

/-! ## Mappings -/

def PROT_WRITE : Nat := 2
def PROT_EXEC : Nat := 4
def MAP_SHARED : Nat := 1
def MAP_PRIVATE : Nat := 2
def MAP_SHARED_VALIDATE : Nat := 3
def MAP_TYPE : Nat := 0xf
def MAP_ANONYMOUS : Nat := 0x20
def SYSCALL_MMAP2_UNIT : Int := 4096

/-- What `_mmap_js` checks before it reads the file. The allocator may have no memory
for the mapping. -/
def mmapChecks (allocated : Bool) (length prot flags : Nat) (fd : Int) : Sys FileId := do
  Prog.failIf (has prot PROT_EXEC) .EPERM
  Prog.failIf (length = 0) .EINVAL
  let mapType := flags &&& MAP_TYPE
  Prog.failIf (mapType ≠ MAP_PRIVATE ∧ mapType ≠ MAP_SHARED ∧ mapType ≠ MAP_SHARED_VALIDATE) .EINVAL
  if mapType = MAP_SHARED_VALIDATE then Prog.crash
  else do
    let openFile ← getOpenFile (← fetch fd)
    let accessMode := openFile.flags &&& O_ACCMODE
    Prog.failIf (accessMode = O_WRONLY) .EACCES
    Prog.failIf (has prot PROT_WRITE ∧ mapType ≠ MAP_PRIVATE ∧ accessMode ≠ O_RDWR) .EACCES
    Prog.failIf ((← getKind openFile.file) ≠ .dataFile) .ENODEV
    Prog.failIf (¬ has flags MAP_ANONYMOUS ∧ mapType = MAP_SHARED ∧ has prot PROT_WRITE) .ENOTSUP
    Prog.failIf (allocated = false) .ENOMEM
    pure openFile.file

/-- `_mmap_js`: the bytes of the file at the start of the mapping. -/
def mmapJs (allocated : Bool) (length prot flags : Nat) (fd : Int) (offset : Int) :
    Sys (List UInt8) := do
  let file ← mmapChecks allocated length prot flags fd
  DataFile.read file length offset

/-- The product `offset *= 4096ULL` of an `off_t`, which wraps. -/
def mmapOffset (offset : OffT) : Int := (offset.val * SYSCALL_MMAP2_UNIT).bmod (2 ^ 64)

/-- `__syscall_mmap2`. An anonymous mapping has nothing to do with files. -/
def mmap2 (allocated : Bool) (addr : Int) (len prot flags : Nat) (fd : Int) (offset : OffT) :
    Sys (List UInt8) := do
  Prog.failIf (addr ≠ 0) .EINVAL
  if has flags MAP_ANONYMOUS then do
    Prog.failIf (allocated = false) .ENOMEM
    pure []
  else mmapJs allocated len prot flags fd (mmapOffset offset)

/-- `_msync_js`, which `_munmap_js` calls too, on a mapping of the bytes at its address. -/
def msyncJs (mapped : IOVec) (prot flags : Nat) (fd : Int) (offset : Int) : Sys Unit := do
  if flags &&& MAP_TYPE = MAP_SHARED ∧ has prot PROT_WRITE then do
    let _ ← fdPwrite fd (.vec [mapped]) (toFilesize offset)
    pure ()
  else pure ()

/-! ## Calls -/

inductive IOCall
  | fdWrite (fd : Int) (iovs : IOVs)
  | fdPwrite (fd : Int) (iovs : IOVs) (offset : Nat)
  | fdRead (fd : Int) (iovs : IOVs)
  | fdPread (fd : Int) (iovs : IOVs) (offset : Nat)
  | fdSeek (fd : Int) (offset : OffT) (whence : Int)
  | fdSeekForJs (fd : Int) (offset : OffT) (whence : Int)
  | truncate (path : Path) (size : OffT)
  | ftruncate (fd : Int) (size : OffT)
  | fallocate (fd : Int) (mode : Int) (offset len : OffT)
  | getdents (fd : Int) (count : Nat)
  | fcntlSetFl (fd : Int) (flags : Nat)
  | mmap2 (allocated : Bool) (addr : Int) (len prot flags : Nat) (fd : Int) (offset : OffT)
  | msyncJs (mapped : IOVec) (prot flags : Nat) (fd : Int) (offset : Int)

def IOCall.exec : IOCall → Sys Unit
  | .fdWrite fd iovs => discard (WasmFS.fdWrite fd iovs)
  | .fdPwrite fd iovs offset => discard (WasmFS.fdPwrite fd iovs offset)
  | .fdRead fd iovs => discard (WasmFS.fdRead fd iovs)
  | .fdPread fd iovs offset => discard (WasmFS.fdPread fd iovs offset)
  | .fdSeek fd offset whence => discard (WasmFS.fdSeek fd offset whence)
  | .fdSeekForJs fd offset whence => discard (WasmFS.fdSeekForJs fd offset whence)
  | .truncate path size => WasmFS.truncate path size
  | .ftruncate fd size => WasmFS.ftruncate fd size
  | .fallocate fd mode offset len => WasmFS.fallocate fd mode offset len
  | .getdents fd count => discard (WasmFS.getdents fd count)
  | .fcntlSetFl fd flags => WasmFS.fcntlSetFl fd flags
  | .mmap2 allocated addr len prot flags fd offset =>
    discard (WasmFS.mmap2 allocated addr len prot flags fd offset)
  | .msyncJs mapped prot flags fd offset => WasmFS.msyncJs mapped prot flags fd offset

end WasmFS
