-- SUMMARY: The syscalls that make, open, remove, mount, unmount and rename the files of the tree.
import Emscripten.WasmFS.FileTable

/-!
# The tree syscalls

Each function is one syscall, or one of the helpers that the source shares between
them. A syscall that fails keeps what it has done so far, as in the source: a file
that was created but could not be opened stays.
-/

namespace WasmFS

/-! ## Opening and creating files -/

/-- `validateOpenFlags`. -/
def validateOpenFlags (flags : Nat) : Sys Unit := do
  let accessMode := flags &&& O_ACCMODE
  Prog.failIf (accessMode ≠ O_WRONLY ∧ accessMode ≠ O_RDONLY ∧ accessMode ≠ O_RDWR) .EINVAL
  Prog.failIf (has flags (O_SYNC ||| O_DSYNC)) .ENOTSUP
  Prog.failIf (flags &&& O_TMPFILE = O_TMPFILE) .ENOTSUP
  Prog.failIf (has flags (O_DIRECT ||| O_ASYNC ||| O_NOATIME)) .ENOTSUP
  Prog.failIf (without flags (O_CREAT ||| O_EXCL ||| O_DIRECTORY ||| O_TRUNC ||| O_APPEND |||
    O_RDWR ||| O_WRONLY ||| O_RDONLY ||| O_LARGEFILE ||| O_NOFOLLOW ||| O_CLOEXEC |||
    O_NONBLOCK ||| O_NOCTTY) ≠ 0) .EINVAL

/-- What `open` does with the node it has made: return its descriptor, or nothing. -/
inductive OpenReturnMode
  | fd
  | nothing
deriving DecidableEq, Repr

/-- `Backend::createFile` of a backend that the caller has chosen. -/
def createFile (backend : Option Backend) (mode : Nat) : Sys (Option FileId) := fun s =>
  match backend with
  | some (.memory n) => some (s.addFile (newDataFile (some (.memory n)) mode s.env.now), .ok s.nextFile)
  | some b =>
    if s.env.createFile b then some (s.addFile (newDataFile (some b) mode s.env.now), .ok s.nextFile)
    else some (s, .ok none)
  | none => none

/-- `Backend::createDirectory` of a backend that the caller has chosen. -/
def createDirectory (backend : Option Backend) (mode : Nat) : Sys (Option FileId) := fun s =>
  match backend with
  | some (.memory n) => some (s.addFile (newDirectory (some (.memory n)) mode s.env.now), .ok s.nextFile)
  | some b =>
    if s.env.createDirectory b then
      some (s.addFile (newDirectory (some b) mode s.env.now), .ok s.nextFile)
    else some (s, .ok none)
  | none => none

/-- The new node of `doOpen`: the parent's backend makes it, or another backend does and
it is mounted. -/
def makeNode (parent : FileId) (childName : Name) (mode : Nat) (backend parentBackend : Option Backend) :
    Sys (Option FileId) := do
  if backend = parentBackend then Directory.insertDataFile parent childName mode
  else
    match ← createFile backend mode with
    | none => pure none
    | some file =>
      let _ ← Directory.mountChild parent childName file
      pure (some file)

/-- The end of `doOpen` for a node it has made. -/
def openNode (created : Option FileId) (flags : Nat) (returnMode : OpenReturnMode) : Sys Nat :=
  match created with
  | none => Prog.fail Errno.EIO
  | some file =>
    if returnMode = .nothing then pure 0
    else do
      let o ← OpenFileState.create file flags
      installOpenFile o

/-- The branch of `doOpen` for a name that is not there. -/
def openNew (parent : FileId) (childName : Name) (flags mode : Nat) (backend : Option Backend)
    (returnMode : OpenReturnMode) : Sys Nat := do
  Prog.failIf (¬ has flags O_CREAT) .ENOENT
  -- Inserting into an unlinked directory is not allowed.
  Prog.failIf ((← getParent parent) = none) .ENOENT
  Prog.failIf (¬ has (← getMode parent) WASMFS_PERM_WRITE) .EACCES
  let parentBackend ← getBackend parent
  let backend := if backend = none then parentBackend else backend
  admitBackend backend
  let created ← makeNode parent childName (mode &&& S_IALLUGO) backend parentBackend
  openNode created flags returnMode

/-- The branch of `doOpen` for a node that exists; a symbolic link is already
replaced by its target. -/
def openExisting (child : FileId) (flags : Nat) : Sys Nat := do
  let accessMode := flags &&& O_ACCMODE
  let kind ← getKind child
  Prog.failIf (has flags O_EXCL ∧ has flags O_CREAT) .EEXIST
  Prog.failIf (kind = .directory ∧ (accessMode ≠ O_RDONLY ∨ has flags O_CREAT)) .EISDIR
  let fileMode ← getMode child
  Prog.failIf ((accessMode = O_RDONLY ∨ accessMode = O_RDWR) ∧ ¬ has fileMode WASMFS_PERM_READ)
    .EACCES
  Prog.failIf ((accessMode = O_WRONLY ∨ accessMode = O_RDWR) ∧ ¬ has fileMode WASMFS_PERM_WRITE)
    .EACCES
  Prog.failIf (has flags O_DIRECTORY ∧ kind ≠ .directory) .ENOTDIR
  -- The file is opened before it is truncated: some backends truncate open files better.
  let o ← OpenFileState.create child flags
  if has flags O_TRUNC then
    if kind ≠ .dataFile then
      abandonOpenFile o
      Prog.fail .EISDIR
    else if ¬ has fileMode WASMFS_PERM_WRITE then
      abandonOpenFile o
      Prog.fail .EACCES
    else
      Prog.attempt (DataFile.setSize child 0) fun
        | .ok _ => installOpenFile o
        | .error e =>
          if accessMode ≠ O_RDONLY then do
            abandonOpenFile o
            Prog.fail e
          else installOpenFile o
  else installOpenFile o

/-- `doOpen`, after the path has been parsed. -/
def doOpen (parent : FileId) (childName : Name) (flags mode : Nat) (backend : Option Backend)
    (returnMode : OpenReturnMode) : Sys Nat := do
  Prog.failIf (WASMFS_NAME_MAX < childName.length) .ENAMETOOLONG
  match ← Directory.getChild parent childName with
  | none => openNew parent childName flags mode backend returnMode
  | some child =>
    admitFile child
    if (← getKind child) = .symlink then
      Prog.failIf (has flags O_NOFOLLOW) .ELOOP
      let target ← Prog.gets fun s => (s.file child).target
      let child ← Path.getFileFrom parent target
      openExisting child flags
    else openExisting child flags

/-- `__syscall_openat`. The flags are checked before the path is resolved, and again by
`doOpen`. -/
def openat (dirfd : Int) (path : Path) (flags mode : Nat) : Sys Nat := do
  validateOpenFlags flags
  let (parent, childName) ← Path.parseParent path dirfd
  doOpen parent childName flags mode none .fd

/-- `__syscall_mknodat`. -/
def mknodat (dirfd : Int) (path : Path) (mode : Nat) : Sys Nat := do
  let type := mode &&& S_IFMT
  Prog.failIf (type = S_IFCHR ∨ type = S_IFBLK ∨ type = S_IFIFO ∨ type = S_IFSOCK) .ENOTSUP
  Prog.failIf (type ≠ 0 ∧ type ≠ S_IFREG) .EINVAL
  let (parent, childName) ← Path.parseParent path dirfd
  doOpen parent childName (O_CREAT ||| O_EXCL) mode none .nothing

/-- `wasmfs_create_file`. -/
def wasmfsCreateFile (path : Path) (mode : Nat) (backend : Option Backend) : Sys Nat := do
  let (parent, childName) ← Path.parseParent path AT_FDCWD
  doOpen parent childName (O_CREAT ||| O_EXCL ||| O_RDWR) mode backend .fd

/-! ## Directories and links -/

/-- `doMkdir`, after the path has been parsed. -/
def doMkdir (parent : FileId) (childName : Name) (mode : Nat) (backend : Option Backend) :
    Sys Unit := do
  Prog.failIf (WASMFS_NAME_MAX < childName.length) .ENAMETOOLONG
  match ← Directory.getChild parent childName with
  | some child =>
    admitFile child
    Prog.fail .EEXIST
  | none =>
    let mode := mode &&& (S_IRWXUGO ||| S_ISVTX)
    Prog.failIf (¬ has (← getMode parent) WASMFS_PERM_WRITE) .EACCES
    let parentBackend ← getBackend parent
    let backend := if backend = none then parentBackend else backend
    admitBackend backend
    if backend = parentBackend then
      match ← Directory.insertDirectory parent childName mode with
      | none => Prog.fail Errno.EIO
      | some _ => pure ()
    else
      match ← createDirectory backend mode with
      | none => Prog.fail Errno.EIO
      | some created =>
        let _ ← Directory.mountChild parent childName created
        pure ()

/-- `__syscall_mkdirat`. -/
def mkdirat (dirfd : Int) (path : Path) (mode : Nat) : Sys Unit := do
  let (parent, childName) ← Path.parseParent path dirfd
  doMkdir parent childName mode none

/-- `wasmfs_create_directory`. -/
def wasmfsCreateDirectory (path : Path) (mode : Nat) (backend : Option Backend) : Sys Unit := do
  let (parent, childName) ← Path.parseParent path AT_FDCWD
  doMkdir parent childName mode backend

/-- `__syscall_symlinkat`. -/
def symlinkat (target : Path) (newdirfd : Int) (linkpath : Path) : Sys Unit := do
  let (parent, childName) ← Path.parseParent linkpath newdirfd
  Prog.failIf (WASMFS_NAME_MAX < childName.length) .ENAMETOOLONG
  match ← Directory.getChild parent childName with
  | some child =>
    admitFile child
    Prog.fail .EEXIST
  | none =>
    match ← Directory.insertSymlink parent childName target with
    | none => Prog.fail .EPERM
    | some _ => pure ()

/-! ## Removal -/

/-- The path ends in "/." up to slashes: invalid for `rmdir`. -/
def endsInDot (path : Path) : Prop := (path.reverse.dropWhile (· = '/')).take 2 = ['.', '/']

instance (path : Path) : Decidable (endsInDot path) := inferInstanceAs (Decidable (_ = _))

/-- The checks of `__syscall_unlinkat` that depend on the kind of the file. -/
def unlinkKindCheck (parent file : FileId) (flags : Nat) : Sys Unit := do
  if (← getKind file) = .directory then
    Prog.failIf (flags ≠ AT_REMOVEDIR) .EISDIR
    -- A mountpoint is only detached by `wasmfs_unmount`.
    Prog.failIf ((← getBackend parent) ≠ (← getBackend file)) .EBUSY
    Prog.failIf ((← Prog.gets fun s => s.getNumEntries file) > 0) .ENOTEMPTY
  else Prog.failIf (flags = AT_REMOVEDIR) .ENOTDIR

/-- What `__syscall_unlinkat` checks before it removes `file` from `parent`. -/
def unlinkCheck (parent file : FileId) (flags : Nat) : Sys Unit := do
  admitFile file
  Prog.failIf (file = (← Prog.gets fun s => s.rootDirectory)) .EBUSY
  unlinkKindCheck parent file flags
  Prog.failIf (¬ has (← getMode parent) WASMFS_PERM_WRITE) .EACCES

/-- `__syscall_unlinkat`. -/
def unlinkat (dirfd : Int) (path : Path) (flags : Nat) : Sys Unit := do
  Prog.failIf (without flags AT_REMOVEDIR ≠ 0) .EINVAL
  Prog.failIf (flags = AT_REMOVEDIR ∧ endsInDot path) .EINVAL
  let (parent, childName) ← Path.parseParent path dirfd
  match ← Directory.getChild parent childName with
  | none => Prog.fail .ENOENT
  | some file =>
    unlinkCheck parent file flags
    Directory.removeChild parent childName

/-- `cwdIsAtOrBelow`; `none` where the walk up does not end. -/
def FS.cwdIsAtOrBelow (s : FS) (directory : FileId) : Nat → FileId → Option Bool
  | 0, _ => none
  | fuel + 1, current =>
    if current = directory then some true
    else match (s.file current).parent with
      | none => some false
      | some parent =>
        if parent = current then some false else s.cwdIsAtOrBelow directory fuel parent

/-- What `wasmfs_unmount` checks before it detaches `mount`. -/
def unmountCheck (parent file : FileId) : Sys Unit := do
  admitFile file
  Prog.failIf (file = (← Prog.gets fun s => s.rootDirectory)) .EBUSY
  Prog.failIf ((← getKind file) ≠ .directory) .ENOTDIR
  Prog.failIf ((← getBackend parent) = (← getBackend file)) .EINVAL
  match ← Prog.gets fun s => s.cwdIsAtOrBelow file (s.nextFile + 1) s.cwd with
  | none => Prog.crash
  | some below => Prog.failIf (below = true) .EBUSY

/-- `wasmfs_unmount`. No other thread runs in between, so the mount that was checked is
the one that is detached, and the loop of the source ends in its first round. -/
def wasmfsUnmount (path : Path) : Sys Unit := do
  let (parent, childName) ← Path.parseParent path AT_FDCWD
  match ← Directory.getChild parent childName with
  | none => Prog.fail .ENOENT
  | some mount =>
    unmountCheck parent mount
    Directory.removeChild parent childName

/-! ## Renaming -/

/-- The loop of `__syscall_renameat` that looks for `oldFile` among the ancestors of the
new parent. It dereferences the parent of an unlinked directory. -/
def checkNotAncestor (oldFile : FileId) : Nat → FileId → Sys Unit
  | 0, _ => Prog.crash
  | fuel + 1, curr => fun s =>
    if curr = s.rootDirectory then some (s, .ok ())
    else if curr = oldFile then some (s, .error .EINVAL)
    else match (s.file curr).parent with
      | none => none
      | some parent => checkNotAncestor oldFile fuel parent s

/-- The checks of a file that `__syscall_renameat` is about to replace. -/
def checkReplaced (oldFile newFile : FileId) : Sys Unit := do
  if (← getKind newFile) = .directory then
    Prog.failIf ((← getKind oldFile) ≠ .directory) .EISDIR
    Prog.failIf ((← Prog.gets fun s => s.getNumEntries newFile) > 0) .ENOTEMPTY
  else Prog.failIf ((← getKind oldFile) = .directory) .ENOTDIR

def admitFound (file : Option FileId) : Sys Unit :=
  match file with
  | none => pure ()
  | some f => admitFile f

/-- The checks of `__syscall_renameat` on two different files. -/
def renameCheck (oldParent newParent oldFile : FileId) (newFile : Option FileId) : Sys Unit := do
  let root ← Prog.gets fun s => s.rootDirectory
  -- Never allow renaming or overwriting the root.
  Prog.failIf (oldFile = root ∨ newFile = some root) .EBUSY
  let oldMode ← getMode oldParent
  let newMode ← getMode newParent
  Prog.failIf (¬ has oldMode WASMFS_PERM_WRITE ∨ ¬ has newMode WASMFS_PERM_WRITE) .EACCES
  Prog.failIf ((← getBackend oldParent) ≠ (← getBackend newParent)) .EXDEV
  checkNotAncestor oldFile ((← Prog.gets fun s => s.nextFile) + 1) newParent
  match newFile with
  | none => pure ()
  | some newFile => checkReplaced oldFile newFile

/-- `__syscall_renameat` on the parsed paths. -/
def doRename (oldParent : FileId) (oldFileName : Name) (newParent : FileId) (newFileName : Name) :
    Sys Unit := do
  let oldFound ← Directory.getChild oldParent oldFileName
  let newFile ← Directory.getChild newParent newFileName
  admitFound oldFound
  admitFound newFile
  match oldFound with
  | none => Prog.fail .ENOENT
  | some oldFile =>
    -- If the source and destination are the same, do nothing.
    if newFile = some oldFile then pure ()
    else do
      renameCheck oldParent newParent oldFile newFile
      Directory.insertMove newParent newFileName oldFile

/-- `__syscall_renameat`. -/
def renameat (olddirfd : Int) (oldpath : Path) (newdirfd : Int) (newpath : Path) : Sys Unit := do
  let (oldParent, oldFileName) ← Path.parseParent oldpath olddirfd
  let (newParent, newFileName) ← Path.parseParent newpath newdirfd
  Prog.failIf (WASMFS_NAME_MAX < newFileName.length) .ENAMETOOLONG
  doRename oldParent oldFileName newParent newFileName

/-! ## The working directory -/

/-- `doChdir`. -/
def doChdir (file : FileId) : Sys Unit := do
  Prog.failIf ((← getKind file) ≠ .directory) .ENOTDIR
  Prog.modify fun s => { s with cwd := file }

/-- `__syscall_chdir`. -/
def chdir (path : Path) : Sys Unit := do
  let file ← Path.parseFile path AT_FDCWD Path.followLinks
  doChdir file

/-- `__syscall_fchdir`. -/
def fchdir (fd : Int) : Sys Unit := do
  match ← getEntry fd with
  | none => Prog.fail .EBADF
  | some o =>
    let file ← Prog.gets fun s => (s.openFile o).file
    admitFile file
    doChdir file

end WasmFS
