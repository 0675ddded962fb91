-- SUMMARY: Path resolution: from a path and a base descriptor to a directory and a leaf name, through symbolic links.
import Emscripten.WasmFS.Directory

/-!
# Path resolution

`doParseParent` walks a path down to the directory of its last segment, `getChild`
looks a segment up and follows the symbolic links it finds, and following a link
resolves its target in turn. The number of links one resolution follows is limited by
`MAX_RECURSIONS`; the fuel of `follow` is above that limit and is never used up.
-/

namespace WasmFS

/-! ## Admission -/

/-- `WasmFS::admitBackend` within an admitted operation. Only a leased backend refuses. -/
def admitBackend (backend : Option Backend) : Sys Unit := fun s =>
  match backend with
  | none => some (s, .ok ())
  | some (.memory _) => some (s, .ok ())
  | some b => some (s, s.env.acquireProfileOperation b)

def admitFile (f : FileId) : Sys Unit := do
  admitBackend (← getBackend f)

/-! ## The descriptor table, read only -/

/-- `FileTable::Handle::getEntry`. -/
def FS.getEntry (s : FS) (fd : Int) : Option OpenId :=
  if fd < 0 ∨ (s.fileTable.length : Int) ≤ fd then none
  else (s.fileTable[fd.toNat]?).join

def getEntry (fd : Int) : Sys (Option OpenId) := Prog.gets fun s => s.getEntry fd

def admitOpenFile (o : OpenId) : Sys Unit := do
  admitFile (← Prog.gets fun s => (s.openFile o).file)

namespace Path

/-- The segments of a path. Slashes in a row, and slashes at the ends, separate
nothing. -/
def segments (path : Path) : List Name := (path.splitOn '/').filter (· ≠ [])

/-- How a resolution follows what it finds: a directory, a file found in it and the
links followed so far give the file at the end of the chain of links. -/
abbrev Follow := FileId → FileId → Nat → Sys (FileId × Nat)

/-- Look `name` up in `dir`. -/
def getChild (follow : Follow) (dir : FileId) (name : Name) (recursions : Nat) :
    Sys (FileId × Nat) := do
  admitBackend (← getBackend dir)
  match ← Directory.getChild dir name with
  | none => Prog.fail .ENOENT
  | some child =>
    admitBackend (← getBackend child)
    follow dir child recursions

/-- The loop of `doParseParent`: descend into every segment but the last. A path
without segments names its base as ".". -/
def walk (follow : Follow) : List Name → FileId → Nat → Sys (FileId × Name × Nat)
  | [], curr, recursions => pure (curr, dot, recursions)
  | [leaf], curr, recursions => do
    admitBackend (← getBackend curr)
    pure (curr, leaf, recursions)
  | segment :: rest, curr, recursions => do
    let (child, recursions) ← getChild follow curr segment recursions
    Prog.failIf ((← getKind child) ≠ .directory) .ENOTDIR
    walk follow rest child recursions

def doParseParent (follow : Follow) (path : Path) (curr : FileId) (recursions : Nat) :
    Sys (FileId × Name × Nat) := do
  Prog.failIf (path = []) .ENOENT
  if path.head? = some '/' then
    let root ← Prog.gets fun s => s.rootDirectory
    admitBackend (← getBackend root)
    walk follow (segments path) root recursions
  else walk follow (segments path) curr recursions

/-- `NoFollowLinks`: what was found is the result. -/
def noFollow : Follow := fun _ child recursions => pure (child, recursions)

/-- `FollowLinks`: the loop in `getChild` over the chain of links. -/
def follow : Nat → Follow
  | 0 => fun _ _ _ => Prog.crash
  | fuel + 1 => fun dir child recursions => do
    if (← getKind child) ≠ .symlink then pure (child, recursions)
    else
      Prog.failIf (MAX_RECURSIONS < recursions + 1) .ELOOP
      let target ← Prog.gets fun s => (s.file child).target
      Prog.failIf (target = []) .ENOENT
      let (parent, leaf, recursions) ← doParseParent (follow fuel) target dir (recursions + 1)
      let (next, recursions) ← getChild (follow fuel) parent leaf recursions
      follow fuel dir next recursions

def followLinks : Follow := follow (MAX_RECURSIONS + 1)

def getBaseDir (basefd : Int) : Sys FileId := do
  if basefd = AT_FDCWD then
    let cwd ← Prog.gets fun s => s.cwd
    admitBackend (← getBackend cwd)
    pure cwd
  else
    match ← getEntry basefd with
    | none => Prog.fail .EBADF
    | some o =>
      let file ← Prog.gets fun s => (s.openFile o).file
      admitBackend (← getBackend file)
      Prog.failIf ((← getKind file) ≠ .directory) .ENOTDIR
      pure file

/-- The directory a resolution starts from. An absolute path does not look at
`basefd`. -/
def base (path : Path) (basefd : Int) : Sys FileId := do
  if path.head? = some '/' then
    let root ← Prog.gets fun s => s.rootDirectory
    admitBackend (← getBackend root)
    pure root
  else getBaseDir basefd

/-- `path::parseParent`. -/
def parseParent (path : Path) (basefd : Int) : Sys (FileId × Name) := do
  let baseDir ← base path basefd
  let (parent, leaf, _) ← doParseParent followLinks path baseDir 0
  pure (parent, leaf)

/-- `doParseFile` with a fresh count of links. -/
def doParseFile (links : Follow) (path : Path) (baseDir : FileId) : Sys FileId := do
  let (parent, leaf, recursions) ← doParseParent followLinks path baseDir 0
  let (file, _) ← getChild links parent leaf recursions
  pure file

/-- `path::parseFile`. -/
def parseFile (path : Path) (basefd : Int) (links : Follow) : Sys FileId := do
  let baseDir ← base path basefd
  doParseFile links path baseDir

/-- `path::getFileFrom`. -/
def getFileFrom (baseDir : FileId) (path : Path) : Sys FileId := do
  admitBackend (← getBackend baseDir)
  doParseFile followLinks path baseDir

end Path

end WasmFS
