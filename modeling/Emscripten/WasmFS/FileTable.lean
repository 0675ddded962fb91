-- SUMMARY: The descriptor table: open file descriptions, their use counts, and the opens and closes of data files.
import Emscripten.Lib.ByteSeq
import Emscripten.WasmFS.Paths

/-!
# The descriptor table

A slot of the table holds an open file description; duplicated descriptors are slots
with the same description, and `uses` counts them. `setEntry` is the one function
that changes a slot. It reports the description whose last slot it has cleared when a
data file has to be closed for it, and its caller closes the file.
-/

namespace WasmFS

/-! ## Data files -/

namespace DataFile

/-- `DataFile::open`. -/
def tryOpen (s : FS) (f : FileId) (flags : Nat) : Except Errno Unit :=
  match (s.file f).data with
  | .external => s.env.open_ f flags
  | _ => .ok ()

/-- `DataFile::close`, for the description `o`. -/
def close (o : OpenId) : Sys Unit := fun s =>
  let f := (s.openFile o).file
  some (s.logged (.closed o :: s.log),
    match (s.file f).data with
    | .external => s.env.close f
    | _ => .ok ())

/-- `DataFile::setSize`. -/
def setSize (f : FileId) (size : Int) : Sys Unit := fun s =>
  let s := s.requested (.setSize f size)
  match (s.file f).data with
  | .memory buffer =>
    if (SSIZE_MAX : Int) < size then some (s, .error .EOVERFLOW)
    else some (s.modifyFile f fun x =>
      { x with data := .memory (ByteSeq.resize 0 size.toNat buffer) }, .ok ())
  | .pipe _ => some (s, .error .EINVAL)
  | .external => some (s, s.env.setSize f size)

end DataFile

/-! ## Descriptions -/

/-- `OpenFileState::create`: open the data file, or list the directory, and make the
description. -/
def OpenFileState.create (file : FileId) (flags : Nat) : Sys OpenId := fun s =>
  match (s.file file).kind with
  | .dataFile =>
    match DataFile.tryOpen s file (flags &&& O_ACCMODE) with
    | .error e => some (s, .error e)
    | .ok () =>
      some ((s.addOpen ⟨file, 0, flags, 0, []⟩).logged (.opened s.nextOpen :: s.log),
        .ok s.nextOpen)
  | .directory =>
    let dirents := ⟨dot, .directory, some file⟩ :: ⟨dotDot, .directory, (s.file file).parent⟩ ::
      s.getEntries file
    some (s.addOpen ⟨file, 0, flags, 0, dirents⟩, .ok s.nextOpen)
  | .symlink => some (s.addOpen ⟨file, 0, flags, 0, []⟩, .ok s.nextOpen)

/-- The description is of a data file. -/
def FS.isData (s : FS) (o : OpenId) : Prop := (s.file (s.openFile o).file).kind = .dataFile

instance (s : FS) (o : OpenId) : Decidable (s.isData o) := inferInstanceAs (Decidable (_ = _))

/-! ## Slots -/

namespace FS

variable (s : FS)

/-- `entries.resize(fd + 1)` where the table is shorter. -/
def growTable (fd : Nat) : FS :=
  { s with fileTable := s.fileTable ++ List.replicate (fd + 1 - s.fileTable.length) none }

def addUses (o : OpenId) (n : Int) : FS := s.modifyOpen o fun x => { x with uses := x.uses + n }

/-- POSIX releases the locks on a file with any descriptor of it. -/
def clearRecordLocks (f : FileId) : FS := s.modifyFile f fun x => { x with recordLocks := [] }

def putSlot (fd : Nat) (o : Option OpenId) : FS := { s with fileTable := s.fileTable.set fd o }

/-- What `setEntry` does to the description it takes out of the slot. -/
def dropEntry (old : OpenId) : FS := (s.clearRecordLocks (s.openFile old).file).addUses old (-1)

/-- `setEntry`. The second component is the description whose data file the caller has
to close. -/
def setEntry (fd : Nat) (o : Option OpenId) : FS × Option OpenId :=
  let s₁ := s.growTable fd
  let s₂ := match o with
    | none => s₁
    | some o => s₁.addUses o 1
  match s₂.getEntry fd with
  | none => (s₂.putSlot fd o, none)
  | some old =>
    let s₃ := s₂.dropEntry old
    (s₃.putSlot fd o, if (s₃.openFile old).uses = 0 ∧ s₃.isData old then some old else none)

/-- The first free descriptor from `start` on. -/
def freeEntry (start : Nat) : Option Nat :=
  (List.range' start (WASMFS_FD_MAX - start)).find? fun fd => s.getEntry fd = none

end FS

def setEntry (fd : Nat) (o : Option OpenId) : Sys (Option OpenId) := fun s =>
  some ((s.setEntry fd o).1, .ok (s.setEntry fd o).2)

/-- Take the first free slot from `start` on. -/
def takeEntry (start : Nat) (o : OpenId) : Sys Nat := fun s =>
  match s.freeEntry start with
  | some fd => some ((s.setEntry fd (some o)).1, .ok fd)
  | none => some (s, .error .EMFILE)

/-- `FileTable::Handle::addEntry`. -/
def addEntry (o : OpenId) : Sys Nat := takeEntry 0 o

/-- The closing of what `setEntry` returned, where the caller ignores its error. -/
def closeIgnored (closee : Option OpenId) : Sys Unit :=
  match closee with
  | none => pure ()
  | some o => Prog.attempt (DataFile.close o) fun _ => pure ()

/-- The loop of `detachAll`, over the slots from `fd` on; `keep` tells the slots that
the loop of `detachBackend` passes over. -/
def FS.detachFrom (keep : FS → OpenId → Bool) : Nat → Nat → FS → FS × List OpenId
  | 0, _, s => (s, [])
  | n + 1, fd, s =>
    let step := match s.getEntry fd with
      | some o => if keep s o then (s, none) else s.setEntry fd none
      | none => s.setEntry fd none
    let rest := FS.detachFrom keep n (fd + 1) step.1
    (rest.1, step.2.toList ++ rest.2)

/-- `detachAll`: clear every slot, and return what has to be closed. -/
def FS.detachAll (s : FS) : FS × List OpenId :=
  FS.detachFrom (fun _ _ => false) s.fileTable.length 0 s

/-- `detachBackend`. -/
def FS.detachBackend (s : FS) (backend : Option Backend) : FS × List OpenId :=
  FS.detachFrom (fun s o => (s.file (s.openFile o).file).backend ≠ backend) s.fileTable.length 0 s

/-! ## Installing a new description -/

/-- `abandonOpenFile`: close the file of a description that was never installed. -/
def abandonOpenFile (o : OpenId) : Sys Unit := do
  if ← Prog.gets fun s => decide (s.isData o) then DataFile.close o else pure ()

/-- `installOpenFile`. -/
def installOpenFile (o : OpenId) : Sys Nat :=
  Prog.attempt (addEntry o) fun
    | .ok fd => pure fd
    | .error e => do
      abandonOpenFile o
      Prog.fail e

/-! ## Duplication and closing -/

/-- The description of `fd`, admitted. -/
def fetch (fd : Int) : Sys OpenId := do
  match ← getEntry fd with
  | none => Prog.fail .EBADF
  | some o =>
    admitOpenFile o
    pure o

/-- `__syscall_dup`. -/
def dup (fd : Int) : Sys Nat := do
  let o ← fetch fd
  addEntry o

/-- Admission of the description that `dup3` replaces, if there is one. -/
def admitReplaced (replaced : Option OpenId) : Sys Unit :=
  match replaced with
  | none => pure ()
  | some o => admitOpenFile o

/-- `__syscall_dup3`. -/
def dup3 (oldfd newfd : Int) (flags : Nat) : Sys Nat := do
  Prog.failIf (without flags O_CLOEXEC ≠ 0) .EINVAL
  Prog.failIf (oldfd = newfd) .EINVAL
  let o ← fetch oldfd
  Prog.failIf (newfd < 0 ∨ (WASMFS_FD_MAX : Int) ≤ newfd) .EBADF
  let replaced ← getEntry newfd
  admitReplaced replaced
  let closee ← setEntry newfd.toNat (some o)
  -- The descriptor is replaced already: an error of the close cannot be returned.
  closeIgnored closee
  pure newfd.toNat

/-- `dup2` of libc: `dup3`, but a descriptor onto itself is only checked. -/
def dup2 (oldfd newfd : Int) : Sys Nat := do
  if oldfd = newfd then
    let _ ← fetch oldfd
    pure oldfd.toNat
  else dup3 oldfd newfd 0

/-- `F_DUPFD` of `__syscall_fcntl64`. -/
def fcntlDupFd (fd arg : Int) : Sys Nat := do
  let o ← fetch fd
  Prog.failIf (arg < 0 ∨ (WASMFS_FD_MAX : Int) ≤ arg) .EINVAL
  takeEntry arg.toNat o

/-- `operationErrorToWasiErrno`. -/
def operationErrorToWasiErrno : Errno → Errno
  | .ESHUTDOWN => .ECANCELED
  | .EDEADLK => .EDEADLK
  | .EBUSY => .EBUSY
  | _ => Errno.EIO

/-- Admission of a description by a WASI entry point. -/
def wasiAdmitOpenFile (o : OpenId) : Sys Unit :=
  Prog.attempt (admitOpenFile o) fun
    | .ok _ => pure ()
    | .error e => Prog.fail (operationErrorToWasiErrno e)

/-- `__wasi_fd_close`. -/
def fdClose (fd : Int) : Sys Unit := do
  match ← getEntry fd with
  | none => Prog.fail .EBADF
  | some o =>
    wasiAdmitOpenFile o
    match ← setEntry fd.toNat none with
    | none => pure ()
    | some closee => DataFile.close closee

/-- A `PipeFile` on the queue `data`. -/
def newPipeFile (mode : Nat) (data : PipeId) (now : Nat) : File :=
  { File.new .dataFile (mode ||| S_IFREG) none now with data := .pipe data, seekable := false }

/-- `std::make_shared` of the two ends of a pipe, and of the data between them. -/
def makePipe : Sys (FileId × FileId) := fun s =>
  let data := s.nextPipe
  let s := { s with pipe := Function.update s.pipe data [], nextPipe := data + 1 }
  let reader := s.nextFile
  let s := s.addFile (newPipeFile S_IRUGO data s.env.now)
  let writer := s.nextFile
  some (s.addFile (newPipeFile S_IWUGO data s.env.now), .ok (reader, writer))

/-- `__syscall_pipe2`. -/
def pipe2 (flags : Nat) : Sys (Nat × Nat) := do
  Prog.failIf (flags ≠ 0 ∧ flags ≠ O_CLOEXEC) .ENOTSUP
  let (reader, writer) ← makePipe
  let openReader ← OpenFileState.create reader O_RDONLY
  let openWriter ← OpenFileState.create writer O_WRONLY
  Prog.attempt (addEntry openReader) fun
    | .error e => do
      Prog.attempt (abandonOpenFile openReader) fun _ => pure ()
      Prog.attempt (abandonOpenFile openWriter) fun _ => pure ()
      Prog.fail e
    | .ok readerFD =>
      Prog.attempt (addEntry openWriter) fun
        | .ok writerFD => pure (readerFD, writerFD)
        | .error e => do
          -- Only the writer found no slot: the reader leaves the table again.
          let closee ← setEntry readerFD none
          closeIgnored closee
          Prog.attempt (abandonOpenFile openWriter) fun _ => pure ()
          Prog.fail e

/-- The closing loop of a drain; the errors are counted there. -/
def closeAll : List OpenId → Sys Unit
  | [] => pure ()
  | o :: rest => do
    Prog.attempt (DataFile.close o) fun _ => pure ()
    closeAll rest

/-- The part of `terminalDrain` that empties the table. -/
def detachAll : Sys Unit := do
  let closees ← Prog.gets fun s => s.detachAll.2
  Prog.modify fun s => s.detachAll.1
  closeAll closees

/-- The part of `drainOPFSProfileBackend` that takes a backend's descriptors away. -/
def detachBackend (backend : Option Backend) : Sys Unit := do
  let closees ← Prog.gets fun s => (s.detachBackend backend).2
  Prog.modify fun s => (s.detachBackend backend).1
  closeAll closees

end WasmFS
