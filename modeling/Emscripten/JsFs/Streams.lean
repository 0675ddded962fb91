-- SUMMARY: Streams of the JS file system: the descriptor table, open, seek, read, write, truncation, and the calls on descriptors.
import Emscripten.JsFs.Nodes

/-!
# Streams

A descriptor is an index of `FS.streams`. Duplicates of a stream share one object with the
flags and the position. The system calls take their stream out of the table, so no operation
here meets a closed one. Writes never take their buffer over (`canOwn`).
-/

namespace JsFs

variable [Build]

/-! ## The descriptor table -/

def MAX_OPEN_FDS : Nat := 4096

/-- The first free descriptor of some in a row. -/
def FS.firstFree (s : FS) : Nat → Nat → Option Nat
  | 0, _ => none
  | k + 1, fd => if (s.getStream fd).isNone then some fd else firstFree s k (fd + 1)

def FS.nextfd (s : FS) : Except Errno Nat :=
  match s.firstFree (MAX_OPEN_FDS + 1) 0 with
  | some fd => .ok fd
  | none => .error .EMFILE

def FS.getStreamChecked (s : FS) (fd : Nat) : Except Errno Stream :=
  match s.getStream fd with
  | some st => .ok st
  | none => .error .EBADF

/-- A new stream has a `shared` object of its own. -/
def FS.newShared (s : FS) (sh : Shared) : FS :=
  { s.setShared s.nextShared sh with nextShared := s.nextShared + 1 }

/-- The descriptor of a new stream: the one asked for, or the next one. -/
def chooseFd (fd : Option Nat) : Sys Nat :=
  match fd with
  | some fd => pure fd
  | none => query fun s => s.nextfd

/-- `createStream` of a new stream. -/
def createStream (node : NodeId) (path : Path) (flags : Flags) (seekable : Bool)
    (stream_ops : StreamOps) : Sys Nat := do
  let fd ← chooseFd none
  let shared ← Prog.gets fun s => s.nextShared
  Prog.modify fun s => s.newShared ⟨flags, 0⟩
  Prog.modify fun s => s.setStream fd (some ⟨node, path, seekable, shared, stream_ops⟩)
  pure fd

def dupStream (origStream : Stream) (fd : Option Nat) : Sys Nat := do
  let fd ← chooseFd fd
  Prog.modify fun s => s.setStream fd (some origStream)
  pure fd

/-- `FS.close`. The streams of MEMFS have no `close` of their own. -/
def closeStream (fd : Nat) : Sys Unit := Prog.modify fun s => s.setStream fd none

def FS.flags (s : FS) (st : Stream) : Flags := (s.shared st.shared).flags

def FS.position (s : FS) (st : Stream) : Nat := (s.shared st.shared).position

def setPosition (st : Stream) (position : Nat) : Sys Unit :=
  Prog.modify fun s => s.setShared st.shared { s.shared st.shared with position }

def setFlags (st : Stream) (flags : Flags) : Sys Unit :=
  Prog.modify fun s => s.setShared st.shared { s.shared st.shared with flags }

def setFile (n : NodeId) (f : FileData) : Sys Unit :=
  Prog.modify fun s => s.setNode n { s.node n with data := .file f }

/-! ## Truncation -/

def doTruncate (n : NodeId) (len : Nat) : Sys Unit := do
  let s ← Prog.gets id
  match (s.node n).data with
  | .dir _ => Prog.fail .EISDIR
  | .file f => do
      throwIf (s.nodePermissions n (some ['w']))
      setFile n (f.resizeFileStorage len)
  | _ => Prog.fail .EINVAL

def ftruncate (fd : Nat) (len : Int) : Sys Unit := do
  let st ← query fun s => s.getStreamChecked fd
  let s ← Prog.gets id
  Prog.failIf (len < 0 ∨ access (s.flags st) = O_RDONLY) .EINVAL
  doTruncate st.node len.toNat

/-! ## Open -/

def flagsToPermissionString (flag : Flags) : Option (List Char) :=
  let trunc := if Has flag O_TRUNC then ['w'] else []
  let mode := flag &&& 3
  if mode = 0 then some ('r' :: trunc)
  else if mode = 1 then some ('w' :: trunc)
  else if mode = 2 then some (['r', 'w'] ++ trunc)
  else if Has flag O_TRUNC then some "undefinedw".toList
  else none

/-- The error `mayOpen` returns for a node that is there. -/
def FS.mayOpen (s : FS) (n : NodeId) (flags : Flags) : Option Errno :=
  match (s.node n).data with
  | .link _ => some .ELOOP
  | .dir _ =>
    if flagsToPermissionString flags ≠ some ['r'] ∨ Has flags (O_TRUNC ||| O_CREAT) then
      some .EISDIR
    else s.nodePermissions n (flagsToPermissionString flags)
  | _ => s.nodePermissions n (flagsToPermissionString flags)

/-- The lookup of `open`. -/
def FS.target (s : FS) (path : Path) (flags : Flags) : Except Errno FS.Lookup :=
  s.lookupPath path { FS.LookupOpts.default with follow := ¬ Has flags O_NOFOLLOW, noent_okay := true }

/-- The node `open` works on, with whether it was made now. -/
def openNode (path : Path) (flags : Flags) : Sys (NodeId × Bool) := do
  let isDirPath := path.getLast? = some '/'
  let lookup ← query fun s => s.target path flags
  match lookup.node with
  | some n => do
      Prog.failIf (Has flags O_CREAT ∧ Has flags O_EXCL) .EEXIST
      pure (n, false)
  | none =>
    if Has flags O_CREAT then do
      Prog.failIf isDirPath .EISDIR
      -- The permission bits are set once the file is open; `chmod` then drops those above them.
      let n ← mknod lookup.path .file S_IRWXUGO
      pure (n, true)
    else Prog.fail .ENOENT

/-- The flags that are passed down. -/
def streamFlags (flags : Flags) : Flags := flags &&& ~~~(O_EXCL ||| O_TRUNC ||| O_NOFOLLOW)

/-- `stream_ops.open` of the new stream: a device's stream gets the operations of the device. -/
def openStream (fd : Nat) (n : NodeId) : Sys Unit := do
  let s ← Prog.gets id
  match (s.node n).data with
  | .chrdev rdev =>
    match s.devices rdev with
    | none => Prog.fail .TypeError
    | some device => do
        Prog.modify fun s => s.setStream fd
          ((s.getStream fd).map fun st => { st with stream_ops := .device rdev })
        throwIf device.openError
  | _ => pure ()

def chmodNode (n : NodeId) (mode : Mode) : Sys Unit :=
  Prog.modify fun s => s.setNode n { s.node n with perm := mode &&& S_IALLUGO }

/-- A device is not truncated. -/
def FS.openFlags (s : FS) (n : NodeId) (flags : Flags) : Flags :=
  if (s.node n).isChrdev then flags &&& ~~~O_TRUNC else flags

/-- The checks of `open` on its node, and the truncation. -/
def checkNode (n : NodeId) (created : Bool) (flags : Flags) : Sys Unit := do
  let s ← Prog.gets id
  Prog.failIf (Has flags O_DIRECTORY ∧ ¬ (s.node n).isDir) .ENOTDIR
  doIf (¬ created) (throwIf (s.mayOpen n flags))
  doIf (Has flags O_TRUNC ∧ ¬ created) (doTruncate n 0)

/-- The new stream, which is in the table before it is opened. -/
def registerStream (n : NodeId) (flags : Flags) : Sys Nat := do
  let path ← getPath n
  let fd ← createStream n path (streamFlags flags) true .memfs
  openStream fd n
  pure fd

/-- `FS.open` of a path, with the flags as a word. -/
def «open» (path : Path) (flags : Flags) (mode : Mode) : Sys Nat := do
  Prog.failIf (path = []) .ENOENT
  let (n, created) ← openNode path flags
  let flags ← Prog.gets fun s => s.openFlags n flags
  checkNode n created flags
  let fd ← registerStream n flags
  doIf created (chmodNode n (mode &&& S_IRWXUGO))
  pure fd

/-! ## Seek, read and write -/

/-- `MEMFS.stream_ops.llseek`. -/
def memfsLlseek (s : FS) (st : Stream) (offset whence : Int) : Except Errno Nat :=
  let position :=
    if whence = SEEK_CUR then number (offset + s.position st)
    else if whence = SEEK_END ∧ (s.node st.node).isFile then
      number (offset + (s.node st.node).bytes.length)
    else offset
  if position < 0 then .error .EINVAL else .ok position.toNat

/-- Whether the stream has the operation: links, sockets and pipes have none to seek. -/
def canSeek (s : FS) (st : Stream) : Bool :=
  st.stream_ops = .memfs && ((s.node st.node).isDir || (s.node st.node).isFile)

def llseek (st : Stream) (offset whence : Int) : Sys Nat := do
  Prog.failIf (¬ st.seekable ∨ ¬ canSeek (← Prog.gets id) st) .ESPIPE
  Prog.failIf (whence ≠ SEEK_SET ∧ whence ≠ SEEK_CUR ∧ whence ≠ SEEK_END) .EINVAL
  let position ← query fun s => memfsLlseek s st offset whence
  setPosition st position
  pure position

/-- Where a call without a position of its own reads or writes, and whether it has one. -/
def seekPosition (st : Stream) (position : Option Int) : Sys Nat :=
  match position with
  | none => Prog.gets fun s => s.position st
  | some p => do
      Prog.failIf (¬ st.seekable) .ESPIPE
      pure p.toNat

/-- `FS.read` of a MEMFS file: the bytes that are put in the buffer. What a device or a pipe
delivers is left out. -/
def read (st : Stream) (length : Int) (position : Option Int) : Sys (List UInt8) := do
  Prog.failIf (length < 0 ∨ position.any (· < 0)) .EINVAL
  let s ← Prog.gets id
  Prog.failIf (access (s.flags st) = O_WRONLY) .EBADF
  match (s.node st.node).data with
  | .dir _ => Prog.fail .EISDIR
  | .file f => do
      let position' ← seekPosition st position
      let data := ByteSeq.readAt position' length.toNat f.bytes
      doIf position.isNone (setPosition st (number (position' + data.length)).toNat)
      pure data
  | _ => Prog.fail .EINVAL

/-- `FS.write` on a MEMFS file. -/
def write (st : Stream) (buffer : List UInt8) (position : Option Int) : Sys Nat := do
  Prog.failIf (position.any (· < 0)) .EINVAL
  let s ← Prog.gets id
  Prog.failIf (access (s.flags st) = O_RDONLY) .EBADF
  match (s.node st.node).data with
  | .dir _ => Prog.fail .EISDIR
  | .file f => do
      -- In append mode the stream is moved to the end, also where the call has a position.
      doIf (st.seekable ∧ Has (s.flags st) O_APPEND) do
        let _ ← llseek st 0 SEEK_END
        pure ()
      let position' ← seekPosition st position
      doIf (buffer ≠ []) (setFile st.node (f.write buffer position'))
      doIf position.isNone (setPosition st (number (position' + buffer.length)).toNat)
      pure buffer.length
  | _ => Prog.fail .EINVAL

/-! ## Calls on descriptors

An offset that is no exact number reaches a call as `NaN`. -/

/-- The loop of `doReadv`, over the lengths of the buffers. -/
def doReadv (st : Stream) : List Nat → Option Int → Sys (List UInt8)
  | [], _ => pure []
  | len :: lens, offset => do
      let curr ← read st len offset
      if curr.length < len then pure curr
      else
        let rest ← doReadv st lens (offset.map fun offset => number (offset + curr.length))
        pure (curr ++ rest)

/-- The loop of `doWritev`, over the buffers. -/
def doWritev (st : Stream) : List (List UInt8) → Option Int → Sys Nat
  | [], _ => pure 0
  | buffer :: buffers, offset => do
      let curr ← write st buffer offset
      if curr < buffer.length then pure curr
      else
        let rest ← doWritev st buffers (offset.map fun offset => number (offset + curr))
        pure (curr + rest)

def fd_read (fd : Nat) (lens : List Nat) : Sys (List UInt8) := do
  let st ← query fun s => s.getStreamChecked fd
  doReadv st lens none

def fd_pread (fd : Nat) (lens : List Nat) (offset : Int) : Sys (List UInt8) := do
  Prog.failIf (¬ Exact offset) .EOVERFLOW
  let st ← query fun s => s.getStreamChecked fd
  doReadv st lens (some offset)

def fd_write (fd : Nat) (buffers : List (List UInt8)) : Sys Nat := do
  let st ← query fun s => s.getStreamChecked fd
  doWritev st buffers none

def fd_pwrite (fd : Nat) (buffers : List (List UInt8)) (offset : Int) : Sys Nat := do
  Prog.failIf (¬ Exact offset) .EOVERFLOW
  let st ← query fun s => s.getStreamChecked fd
  doWritev st buffers (some offset)

def fd_seek (fd : Nat) (offset whence : Int) : Sys Nat := do
  Prog.failIf (¬ Exact offset) .EOVERFLOW
  let st ← query fun s => s.getStreamChecked fd
  llseek st offset whence

def fd_close (fd : Nat) : Sys Unit := do
  let _ ← query fun s => s.getStreamChecked fd
  closeStream fd

/-- `__syscall_ftruncate64`. -/
def ftruncate64 (fd : Nat) (length : Int) : Sys Unit := do
  Prog.failIf (¬ Exact length) .EOVERFLOW
  ftruncate fd length

/-- The size `getattr` reports. -/
def statSize (nd : Node) : Nat :=
  match nd.data with
  | .dir _ => 4096
  | .file f => f.usedBytes
  | .link target => target.length
  | _ => 0

/-- `__syscall_fallocate`. -/
def fallocate (fd : Nat) (mode offset len : Int) : Sys Unit := do
  Prog.failIf (¬ Exact offset ∨ ¬ Exact len) .EOVERFLOW
  Prog.failIf (mode ≠ 0) .ENOTSUP
  Prog.failIf (offset < 0 ∨ len < 0) .EINVAL
  let st ← query fun s => s.getStreamChecked fd
  let oldSize ← Prog.gets fun s => statSize (s.node st.node)
  let newSize := number (offset + len)
  doIf (newSize > oldSize) (ftruncate fd newSize)

/-- `dup`. -/
def dup (fd : Nat) : Sys Nat := do
  let st ← query fun s => s.getStreamChecked fd
  dupStream st none

/-- `__syscall_dup3`. -/
def dup3 (fd : Nat) (newfd : Int) : Sys Nat := do
  let old ← query fun s => s.getStreamChecked fd
  Prog.failIf ((fd : Int) = newfd) .EINVAL
  Prog.failIf (newfd < 0 ∨ (MAX_OPEN_FDS : Int) ≤ newfd) .EBADF
  let existing ← Prog.gets fun s => s.getStream newfd.toNat
  doIf existing.isSome (closeStream newfd.toNat)
  dupStream old (some newfd.toNat)

/-- The first descriptor from `arg` on that is free: behind the end of the array all are. -/
def FS.freeFrom (s : FS) (arg : Nat) : Nat :=
  (s.firstFree s.streams.length arg).getD (arg + s.streams.length)

/-- `__syscall_fcntl64`, with the word that commands with an argument take. -/
def fcntl64 (fd : Nat) (cmd : Int) (arg : Flags) : Sys Int := do
  let st ← query fun s => s.getStreamChecked fd
  if cmd = F_DUPFD then do
    Prog.failIf (arg.toInt < 0) .EINVAL
    let newfd ← Prog.gets fun s => s.freeFrom arg.toNat
    let fd ← dupStream st (some newfd)
    pure fd
  else if cmd = F_GETFD ∨ cmd = F_SETFD then pure 0
  else if cmd = F_GETFL then Prog.gets fun s => (s.flags st).toInt
  else if cmd = F_SETFL then do
    setFlags st ((← Prog.gets fun s => s.flags st) ||| arg)
    pure 0
  else if cmd = F_GETLK ∨ cmd = F_SETLK ∨ cmd = F_SETLKW then Prog.fail .ENOTSUP
  else Prog.fail .EINVAL

/-! ## Mappings -/

def PROT_WRITE : BitVec 32 := 2

def MAP_PRIVATE : BitVec 32 := 2

/-- `MEMFS.stream_ops.mmap`: the bytes of the new mapping, a copy of the file's in memory that
was zero. -/
def mappedBytes (f : FileData) (length position : Nat) : List UInt8 :=
  ByteSeq.resize 0 length (ByteSeq.readAt position length f.contents)

/-- `FS.mmap` of a MEMFS file. -/
def mmap (st : Stream) (length position : Nat) (prot flags : BitVec 32) : Sys (List UInt8) := do
  let s ← Prog.gets id
  Prog.failIf (Has prot PROT_WRITE ∧ ¬ Has flags MAP_PRIVATE ∧ access (s.flags st) ≠ O_RDWR) .EACCES
  Prog.failIf (access (s.flags st) = O_WRONLY) .EACCES
  match (s.node st.node).data with
  | .file f => do
      Prog.failIf (length = 0) .EINVAL
      pure (mappedBytes f length position)
  | _ => Prog.fail .ENODEV

/-- `_mmap_js`. -/
def mmap_js (fd length position : Nat) (prot flags : BitVec 32) : Sys (List UInt8) := do
  let st ← query fun s => s.getStreamChecked fd
  mmap st length position prot flags

/-! ## Pipes -/

namespace PIPEFS

/-- `'pipe[' + (PIPEFS.nextname.current++) + ']'` -/
def nextname : Sys Name := do
  let k ← Prog.gets fun s => s.nextPipe
  Prog.modify fun s => { s with nextPipe := k + 1 }
  pure ("pipe[".toList ++ (Nat.repr k).toList ++ [']'])

/-- An end of a pipe: a node without a place in a directory. -/
def pipeNode (name : Name) : Sys NodeId := do
  let n ← Prog.gets fun s => s.nextInode
  Prog.modify fun s => s.createNode (some s.pipefsRoot) name .fifo 0
  pure n

def createPipe : Sys (Nat × Nat) := do
  let rName ← nextname
  let wName ← nextname
  let rNode ← pipeNode rName
  let wNode ← pipeNode wName
  let readable_fd ← createStream rNode rName O_RDONLY false .pipe
  let writable_fd ← createStream wNode wName O_WRONLY false .pipe
  pure (readable_fd, writable_fd)

end PIPEFS

end JsFs
