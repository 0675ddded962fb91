-- SUMMARY: Runs of a WasmFS instance: its initial state, its calls, and everything else that can happen between them.
import Emscripten.WasmFS.Tree

/-!
# Runs

A run starts in the state the `WasmFS` constructor leaves and takes one step after the
other. A step is a call that changes the tree or the descriptor table; or anything that
changes neither, such as I/O, metadata, locks and the outside world; or the
destruction of a directory that nobody holds any more, which clears the weak parent
pointers to it.
-/

namespace WasmFS

/-! ## The initial state -/

namespace FS

/-- One of the `SpecialFiles`. -/
def specialFile (mode : Nat) (seekable : Bool) (now : Nat) : File :=
  { File.new .dataFile (mode ||| S_IFCHR) none now with seekable := seekable }

/-- The root directory, its own parent. -/
def rootDir (backend : Backend) (now : Nat) (root : FileId) : File :=
  { newDirectory (some backend) (S_IRUGO ||| S_IXUGO ||| S_IWUGO) now with parent := some root }

/-- The files of a new instance: stdin, stdout and stderr, the root, "dev" and "tmp" in
it, and the three devices that are mounted in "dev" beside the streams. -/
def initialFiles (backend : Backend) (now : Nat) : FileId → File
  | 0 => { specialFile S_IRUGO false now with parent := some 4 }
  | 1 => { specialFile S_IWUGO false now with parent := some 4 }
  | 2 => { specialFile S_IWUGO false now with parent := some 4 }
  | 3 => { rootDir backend now 3 with entries := [("dev".toList, 4), ("tmp".toList, 8)] }
  | 4 =>
    { newDirectory (some backend) (S_IRUGO ||| S_IXUGO) now with
      parent := some 3
      dcache := (((((emptyDCache.insert "null".toList ⟨.mount, 5⟩).insert "stdin".toList ⟨.mount, 0⟩
        |>.insert "stdout".toList ⟨.mount, 1⟩).insert "stderr".toList ⟨.mount, 2⟩).insert
          "random".toList ⟨.mount, 6⟩).insert "urandom".toList ⟨.mount, 7⟩) }
  | 5 => { specialFile (S_IRUGO ||| S_IWUGO) true now with parent := some 4 }
  | 6 => { specialFile S_IRUGO false now with parent := some 4 }
  | 7 => { specialFile S_IRUGO false now with parent := some 4 }
  | 8 => { newDirectory (some backend) S_IRWXUGO now with parent := some 3 }
  | _ => File.new .dataFile S_IFREG none now

/-- The state after the `WasmFS` constructor, on a root backend of memory files: the
standard streams are open. -/
def init (root : Nat) (env : Env) : FS where
  file := initialFiles (.memory root) env.now
  nextFile := 9
  rootDirectory := 3
  cwd := 3
  fileTable := [some 0, some 1, some 2]
  openFile := fun o =>
    match o with
    | 0 => ⟨0, 0, O_RDONLY, 1, []⟩
    | 1 => ⟨1, 0, O_WRONLY, 1, []⟩
    | 2 => ⟨2, 0, O_WRONLY, 1, []⟩
    | _ => ⟨0, 0, O_RDWR, 0, []⟩
  nextOpen := 3
  pipe := fun _ => []
  nextPipe := 0
  env := env
  log := [.opened 2, .opened 1, .opened 0]
  requests := []

end FS

/-! ## Calls -/

inductive Call
  | openat (dirfd : Int) (path : Path) (flags mode : Nat)
  | mknodat (dirfd : Int) (path : Path) (mode : Nat)
  | wasmfsCreateFile (path : Path) (mode : Nat) (backend : Option Backend)
  | mkdirat (dirfd : Int) (path : Path) (mode : Nat)
  | wasmfsCreateDirectory (path : Path) (mode : Nat) (backend : Option Backend)
  | symlinkat (target : Path) (newdirfd : Int) (linkpath : Path)
  | unlinkat (dirfd : Int) (path : Path) (flags : Nat)
  | wasmfsUnmount (path : Path)
  | renameat (olddirfd : Int) (oldpath : Path) (newdirfd : Int) (newpath : Path)
  | chdir (path : Path)
  | fchdir (fd : Int)
  | dup (fd : Int)
  | dup2 (oldfd newfd : Int)
  | dup3 (oldfd newfd : Int) (flags : Nat)
  | fcntlDupFd (fd arg : Int)
  | fdClose (fd : Int)
  | pipe2 (flags : Nat)
  | detachAll
  | detachBackend (backend : Option Backend)

def discard {α : Type} (m : Sys α) : Sys Unit := m >>= fun _ => pure ()

def Call.exec : Call → Sys Unit
  | .openat dirfd path flags mode => discard (WasmFS.openat dirfd path flags mode)
  | .mknodat dirfd path mode => discard (WasmFS.mknodat dirfd path mode)
  | .wasmfsCreateFile path mode backend => discard (WasmFS.wasmfsCreateFile path mode backend)
  | .mkdirat dirfd path mode => WasmFS.mkdirat dirfd path mode
  | .wasmfsCreateDirectory path mode backend => WasmFS.wasmfsCreateDirectory path mode backend
  | .symlinkat target newdirfd linkpath => WasmFS.symlinkat target newdirfd linkpath
  | .unlinkat dirfd path flags => WasmFS.unlinkat dirfd path flags
  | .wasmfsUnmount path => WasmFS.wasmfsUnmount path
  | .renameat olddirfd oldpath newdirfd newpath =>
    WasmFS.renameat olddirfd oldpath newdirfd newpath
  | .chdir path => WasmFS.chdir path
  | .fchdir fd => WasmFS.fchdir fd
  | .dup fd => discard (WasmFS.dup fd)
  | .dup2 oldfd newfd => discard (WasmFS.dup2 oldfd newfd)
  | .dup3 oldfd newfd flags => discard (WasmFS.dup3 oldfd newfd flags)
  | .fcntlDupFd fd arg => discard (WasmFS.fcntlDupFd fd arg)
  | .fdClose fd => WasmFS.fdClose fd
  | .pipe2 flags => discard (WasmFS.pipe2 flags)
  | .detachAll => WasmFS.detachAll
  | .detachBackend backend => WasmFS.detachBackend backend

/-! ## The other steps -/

/-- Nothing has happened to the tree, the descriptor table and the log. -/
structure FS.SameNames (s s' : FS) : Prop where
  nextFile : s'.nextFile = s.nextFile
  rootDirectory : s'.rootDirectory = s.rootDirectory
  cwd : s'.cwd = s.cwd
  kind : ∀ f, (s'.file f).kind = (s.file f).kind
  backend : ∀ f, (s'.file f).backend = (s.file f).backend
  parent : ∀ f, (s'.file f).parent = (s.file f).parent
  entries : ∀ f, (s'.file f).entries = (s.file f).entries
  dcache : ∀ f, (s'.file f).dcache = (s.file f).dcache
  target : ∀ f, (s'.file f).target = (s.file f).target
  fileTable : s'.fileTable = s.fileTable
  openedFile : ∀ o, (s'.openFile o).file = (s.openFile o).file
  uses : ∀ o, (s'.openFile o).uses = (s.openFile o).uses
  nextOpen : s'.nextOpen = s.nextOpen
  log : s'.log = s.log

/-- Some `shared_ptr` leads to `f`: from the instance, from an open description, or
from a directory that is itself held. -/
inductive FS.Held (s : FS) : FileId → Prop
  | root : s.Held s.rootDirectory
  | cwd : s.Held s.cwd
  | opened (o : OpenId) (h : some o ∈ s.fileTable) : s.Held (s.openFile o).file
  | entry (d f : FileId) (name : Name) (hd : s.Held d) (h : (name, f) ∈ (s.file d).entries) :
      s.Held f
  | mount (d : FileId) (e : DCacheEntry) (name : Name) (hd : s.Held d)
      (h : (s.file d).dcache.lookup name = some e) : s.Held e.file

/-- The destructor of the directory `d`: what it lists is dropped with it, and the weak
pointers to it become null. -/
def FS.expire (s : FS) (d : FileId) : FS :=
  { s with file := fun f =>
      { s.file f with
        parent := if (s.file f).parent = some d then none else (s.file f).parent
        entries := if f = d then [] else (s.file f).entries
        dcache := if f = d then emptyDCache else (s.file f).dcache } }

/-- Every directory that nobody holds any more has been destroyed: no parent pointer
leads to one. -/
def FS.Settled (s : FS) : Prop := ∀ f d, (s.file f).parent = some d → s.Held d

/-- A call starts in a settled state, since the destructors run as soon as the last
pointer to a directory is gone. -/
inductive Step (s : FS) : FS → Prop
  | call (c : Call) (s' : FS) (r : Except Errno Unit) (hsettled : s.Settled)
      (h : c.exec s = some (s', r)) : Step s s'
  | expire (d : FileId) (h : ¬ s.Held d) : Step s (s.expire d)
  | other (s' : FS) (h : s.SameNames s') : Step s s'

/-- The states an instance reaches. -/
def Reachable (s : FS) : Prop :=
  ∃ root env, Relation.ReflTransGen Step (FS.init root env) s

end WasmFS
