-- SUMMARY: The WasmFS state: files, directories, open file descriptions, the descriptor table and the outside world.
import Mathlib.Data.List.AList
import Emscripten.Lib.Prog
import Emscripten.Lib.TaggedRange
import Emscripten.WasmFS.Basic

/-!
# The state

A `File` object is known by its address, which WasmFS also reports as the inode
number. The fields of the `File` subclasses are laid out flat: `data` belongs to
data files, `entries` and `dcache` to directories, `target` to symbolic links.

Every directory is a `MemoryDirectory`, as it is for the memory backends and for
the backends built on `JSImplBackend`. The two kinds of backend differ in their
data files: a memory file holds its bytes here, the virtual calls of an external
file are answered by `Env`.
-/

namespace WasmFS

abbrev FileId := Nat
abbrev OpenId := Nat
abbrev PipeId := Nat

/-- A backend object, by its address. -/
inductive Backend
  | memory (n : Nat)
  | external (n : Nat)
deriving DecidableEq, Repr

inductive FileKind
  | dataFile
  | directory
  | symlink
deriving DecidableEq, Repr

inductive DCacheKind
  | normal
  | mount
deriving DecidableEq, Repr

structure DCacheEntry where
  kind : DCacheKind
  file : FileId
deriving DecidableEq, Repr

/-- The implementation of a data file: a byte vector, one end of a pipe, or code
outside the model (a device, a JS or OPFS file). -/
inductive DataImpl
  | memory (buffer : List UInt8)
  | pipe (data : PipeId)
  | external
deriving DecidableEq, Repr

/-- A record lock: its type is the range's tag, its end is exclusive, a missing
end reaches to the end of the file. -/
abbrev RecordLock := TaggedRange Int

structure File where
  kind : FileKind
  mode : Nat
  backend : Option Backend
  /-- The weak pointer to the parent directory. -/
  parent : Option FileId
  seekable : Bool
  recordLocks : List RecordLock
  mtime : Nat
  data : DataImpl
  entries : List (Name × FileId)
  dcache : AList (fun _ : Name => DCacheEntry)
  target : Path

/-- A directory entry as `getEntries` returns it. The inode number is the address of
the file, which is null for the parent of an unlinked directory. -/
structure Dirent where
  name : Name
  kind : FileKind
  ino : Option FileId
deriving DecidableEq, Repr

structure OpenFileState where
  file : FileId
  position : Int
  flags : Nat
  uses : Int
  dirents : List Dirent

/-- What lies outside: the clock, and the answers of the virtual calls of external
files and backends. A run may change it at any time. -/
structure Env where
  now : Nat
  acquireProfileOperation : Backend → Except Errno Unit
  createFile : Backend → Bool
  createDirectory : Backend → Bool
  supportsRecordLocks : Backend → Bool
  open_ : FileId → Nat → Except Errno Unit
  close : FileId → Except Errno Unit
  getSize : FileId → Except Errno Nat
  setSize : FileId → Int → Except Errno Unit
  write : FileId → List UInt8 → Int → Except Errno Nat
  read : FileId → Nat → Int → Except Errno (List UInt8)

/-- The calls of `DataFile::open` that succeeded and the calls of
`DataFile::close`, each with the description it was made for. -/
inductive FileEvent
  | opened (o : OpenId)
  | closed (o : OpenId)
deriving DecidableEq, Repr

/-- A read, write or resizing that reached a data file, with its range. -/
inductive DataRequest
  | read (f : FileId) (len : Nat) (offset : Int)
  | write (f : FileId) (bytes : List UInt8) (offset : Int)
  | setSize (f : FileId) (size : Int)
deriving DecidableEq, Repr

structure FS where
  file : FileId → File
  nextFile : FileId
  rootDirectory : FileId
  cwd : FileId
  fileTable : List (Option OpenId)
  openFile : OpenId → OpenFileState
  nextOpen : OpenId
  pipe : PipeId → List UInt8
  nextPipe : PipeId
  env : Env
  /-- Ghost: what happened to data files, latest first. -/
  log : List FileEvent
  /-- Ghost: the requests that reached data files, latest first. -/
  requests : List DataRequest

/-- A WasmFS operation. `crash` is the dereference of a null pointer, or a loop
that does not end. -/
abbrev Sys := Prog FS Errno

/-! ## Fresh objects -/

def emptyDCache : AList (fun _ : Name => DCacheEntry) := ∅

/-- A file as the `File` constructor leaves it. -/
def File.new (kind : FileKind) (mode : Nat) (backend : Option Backend) (now : Nat) : File where
  kind := kind
  mode := mode
  backend := backend
  parent := none
  seekable := true
  recordLocks := []
  mtime := now
  data := .external
  entries := []
  dcache := emptyDCache
  target := []

/-- An outside world in which every call succeeds. -/
def Env.quiet : Env where
  now := 0
  acquireProfileOperation := fun _ => .ok ()
  createFile := fun _ => true
  createDirectory := fun _ => true
  supportsRecordLocks := fun _ => true
  open_ := fun _ _ => .ok ()
  close := fun _ => .ok ()
  getSize := fun _ => .ok 0
  setSize := fun _ _ => .ok ()
  write := fun _ buf _ => .ok buf.length
  read := fun _ _ _ => .ok []

namespace FS

/-- The state before the `WasmFS` constructor has made anything. -/
def blank (env : Env) : FS where
  file := fun _ => File.new .dataFile S_IFREG none env.now
  nextFile := 0
  rootDirectory := 0
  cwd := 0
  fileTable := []
  openFile := fun _ => ⟨0, 0, O_RDWR, 0, []⟩
  nextOpen := 0
  pipe := fun _ => []
  nextPipe := 0
  env := env
  log := []
  requests := []

def modifyFile (s : FS) (f : FileId) (g : File → File) : FS :=
  { s with file := Function.update s.file f (g (s.file f)) }

def modifyOpen (s : FS) (o : OpenId) (g : OpenFileState → OpenFileState) : FS :=
  { s with openFile := Function.update s.openFile o (g (s.openFile o)) }

def setParent (s : FS) (f : FileId) (p : Option FileId) : FS :=
  s.modifyFile f (fun x => { x with parent := p })

def updateMTime (s : FS) (f : FileId) : FS :=
  s.modifyFile f (fun x => { x with mtime := s.env.now })

/-- `std::make_shared`: place a new file at the next address. -/
def addFile (s : FS) (x : File) : FS :=
  { s with file := Function.update s.file s.nextFile x, nextFile := s.nextFile + 1 }

def addOpen (s : FS) (o : OpenFileState) : FS :=
  { s with openFile := Function.update s.openFile s.nextOpen o, nextOpen := s.nextOpen + 1 }

def logged (s : FS) (log : List FileEvent) : FS := { s with log := log }

def requested (s : FS) (r : DataRequest) : FS := { s with requests := r :: s.requests }

/-! ### Reading an updated state -/

variable (s : FS) (f g : FileId) (h : File → File)

@[simp] theorem modifyFile_file_self : (s.modifyFile f h).file f = h (s.file f) := by
  simp [modifyFile]

theorem modifyFile_file_ne (hne : g ≠ f) : (s.modifyFile f h).file g = s.file g := by
  simp [modifyFile, hne]

theorem modifyFile_file :
    (s.modifyFile f h).file g = if g = f then h (s.file f) else s.file g := by
  simp [modifyFile, Function.update_apply]

/-- Storing what is already there changes nothing. -/
theorem modifyFile_eq_self (heq : h (s.file f) = s.file f) : s.modifyFile f h = s := by
  simp [modifyFile, heq]

theorem setParent_eq_self {p : Option FileId} (hp : (s.file f).parent = p) :
    s.setParent f p = s := by
  apply modifyFile_eq_self
  subst hp
  rfl

theorem setParent_file (p : Option FileId) :
    (s.setParent f p).file g = if g = f then { s.file f with parent := p } else s.file g :=
  modifyFile_file s f g _

theorem updateMTime_file :
    (s.updateMTime f).file g = if g = f then { s.file f with mtime := s.env.now } else s.file g :=
  modifyFile_file s f g _

theorem addFile_file (x : File) :
    (s.addFile x).file g = if g = s.nextFile then x else s.file g := by
  simp [addFile, Function.update_apply]

end FS

end WasmFS
