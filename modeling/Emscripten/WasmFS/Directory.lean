-- SUMMARY: Directories: the backend's entry vector, the directory cache that holds the mounts, and the parent pointers.
import Emscripten.Lib.Assoc
import Emscripten.WasmFS.State

/-!
# Directories

A directory is stored three times over. `MemoryDirectory` keeps the backend's own
children in the vector `entries`; the generic `Directory` keeps the mounts, which no
backend knows about, in `dcache`; and each child points back to its parent. The
functions of this module are the virtual functions of `MemoryDirectory` and the
methods of `Directory::Handle` above them.
-/

namespace WasmFS

open Assoc

/-! ## MemoryDirectory -/

/-- `MemoryDirectory` keeps `File` identity itself, so ordinary children do not enter
the dcache. -/
def File.maintainsFileIdentity (_ : File) : Bool := true

namespace FS

variable (s : FS)

/-- `MemoryDirectory::getChild`. -/
def memoryGetChild (d : FileId) (name : Name) : Option FileId :=
  (s.file d).entries.lookup name

/-- `MemoryDirectory::insertChild`. -/
def memoryInsertChild (d : FileId) (name : Name) (child : FileId) : FS :=
  s.modifyFile d fun x => { x with entries := x.entries ++ [(name, child)] }

/-- `MemoryDirectory::removeChild`. -/
def memoryRemoveChild (d : FileId) (name : Name) : FS :=
  match s.memoryGetChild d name with
  | none => s
  | some child =>
    (s.setParent child none).modifyFile d fun x =>
      { x with entries := dropFirst Prod.fst name x.entries }

/-- `MemoryDirectory::insertMove`, where `oldParent` is the parent of `file`. -/
def memoryInsertMove (d : FileId) (name : Name) (file oldParent : FileId) : FS :=
  ((s.modifyFile oldParent fun x => { x with entries := dropFirst Prod.snd file x.entries })
    |>.memoryRemoveChild d name).memoryInsertChild d name file

/-! ## The directory cache -/

/-- `std::map::insert`: a name that is there already keeps its entry. -/
def dcacheInsert (d : FileId) (name : Name) (e : DCacheEntry) : FS :=
  s.modifyFile d fun x =>
    match x.dcache.lookup name with
    | some _ => x
    | none => { x with dcache := x.dcache.insert name e }

def dcacheErase (d : FileId) (name : Name) : FS :=
  s.modifyFile d fun x => { x with dcache := x.dcache.erase name }

/-- `cacheChild`: enter the child into the dcache, unless the directory does without
one, and set its parent. -/
def cacheChild (d : FileId) (name : Name) (child : FileId) (kind : DCacheKind) : FS :=
  (if kind = .mount ∨ (s.file d).maintainsFileIdentity = false then
      s.dcacheInsert d name ⟨kind, child⟩ else s).setParent child (some d)

/-- The dcache entry that holds `file`, with its name. -/
def findInDCache (d file : FileId) : Option (Name × DCacheEntry) :=
  ((s.file d).dcache.entries.find? fun e => e.2.file = file).map fun e => (e.1, e.2)

end FS

/-! ## Directory::Handle -/

def getParent (f : FileId) : Sys (Option FileId) := Prog.gets fun s => (s.file f).parent

def getBackend (f : FileId) : Sys (Option Backend) := Prog.gets fun s => (s.file f).backend

def getMode (f : FileId) : Sys Nat := Prog.gets fun s => (s.file f).mode

def getKind (f : FileId) : Sys FileKind := Prog.gets fun s => (s.file f).kind

namespace Directory

def getChild (d : FileId) (name : Name) : Sys (Option FileId) := fun s =>
  match (s.file d).parent with
  -- Unlinked directories are empty, without even "." or "..".
  | none => some (s, .ok none)
  | some parent =>
    if name = dot then some (s, .ok (some d))
    else if name = dotDot then some (s, .ok (some parent))
    else match (s.file d).dcache.lookup name with
      | some e => some (s, .ok (some e.file))
      | none =>
        match s.memoryGetChild d name with
        | none => some (s, .ok none)
        | some child => some (s.cacheChild d name child .normal, .ok (some child))

/-- `mountChild`; `false` in an unlinked directory, which is left as it is. -/
def mountChild (d : FileId) (name : Name) (child : FileId) : Sys Bool := fun s =>
  if (s.file d).parent = none then some (s, .ok false)
  else some (s.cacheChild d name child .mount, .ok true)

/-- The common body of `insertDataFile`, `insertDirectory` and `insertSymlink`: the
backend makes the child `x`. The directory is not unlinked. -/
def insertNew (d : FileId) (name : Name) (x : File) : Sys FileId := fun s =>
  let child := s.nextFile
  some ((((s.addFile x).memoryInsertChild d name child).cacheChild d name child .normal).updateMTime d,
    .ok child)

/-- `insertMove`. A null old parent is dereferenced. -/
def insertMove (d : FileId) (name : Name) (file : FileId) : Sys Unit := fun s =>
  if (s.file d).parent = none then some (s, .error .EPERM)
  else match (s.file file).parent with
    | none => none
    | some oldParent =>
      let moved := s.memoryInsertMove d name file oldParent
      let cached := match s.findInDCache oldParent file with
        | none => moved
        | some (oldName, entry) =>
          let erased := moved.dcacheErase oldParent oldName
          match (erased.file d).dcache.lookup name with
          | none => erased.dcacheInsert d name entry
          | some overwritten =>
            -- Update and overwrite the overwritten file.
            (erased.setParent overwritten.file none).modifyFile d fun x =>
              { x with dcache := x.dcache.insert name entry }
      some (((cached.setParent file (some d)).updateMTime oldParent).updateMTime d, .ok ())

def removeChild (d : FileId) (name : Name) : Sys Unit := fun s =>
  match (s.file d).dcache.lookup name with
  -- A mount is not the backend's, and leaves without the backend's call.
  | some ⟨.mount, _⟩ => some (s.dcacheErase d name, .ok ())
  | some ⟨.normal, child⟩ =>
    some ((((s.memoryRemoveChild d name).setParent child none).dcacheErase d name).updateMTime d,
      .ok ())
  | none => some ((s.memoryRemoveChild d name).updateMTime d, .ok ())

end Directory

namespace FS

variable (s : FS)

/-- The mounts among the dcache entries of `d`. -/
def mounts (d : FileId) : List (Name × FileId) :=
  ((s.file d).dcache.entries.filter fun e => e.2.kind = .mount).map fun e => (e.1, e.2.file)

def getNumEntries (d : FileId) : Nat := (s.file d).entries.length + (s.mounts d).length

/-- The names `getEntries` lists, each with the file it lists for it. -/
def listed (d : FileId) : List (Name × FileId) := (s.file d).entries ++ s.mounts d

def getEntries (d : FileId) : List Dirent :=
  (s.listed d).map fun e => ⟨e.1, (s.file e.2).kind, some e.2⟩

end FS

/-! ## Backends -/

/-- `Backend::createFile` of the backend of a directory, or of one chosen by the caller. -/
def newDataFile (backend : Option Backend) (mode now : Nat) : File :=
  { File.new .dataFile (mode ||| S_IFREG) backend now with
    data := match backend with
      | some (.memory _) => .memory []
      | _ => .external }

def newDirectory (backend : Option Backend) (mode now : Nat) : File :=
  File.new .directory (mode ||| S_IFDIR) backend now

def newSymlink (backend : Option Backend) (target : Path) (now : Nat) : File :=
  { File.new .symlink S_IFLNK backend now with target := target }

namespace Directory

/-- `insertDataFile`; no child is made in an unlinked directory. -/
def insertDataFile (d : FileId) (name : Name) (mode : Nat) : Sys (Option FileId) := fun s =>
  if (s.file d).parent = none then some (s, .ok none)
  else (insertNew d name (newDataFile (s.file d).backend mode s.env.now) >>= fun c => pure (some c)) s

def insertDirectory (d : FileId) (name : Name) (mode : Nat) : Sys (Option FileId) := fun s =>
  if (s.file d).parent = none then some (s, .ok none)
  else (insertNew d name (newDirectory (s.file d).backend mode s.env.now) >>= fun c => pure (some c)) s

def insertSymlink (d : FileId) (name : Name) (target : Path) : Sys (Option FileId) := fun s =>
  if (s.file d).parent = none then some (s, .ok none)
  else (insertNew d name (newSymlink (s.file d).backend target s.env.now) >>= fun c => pure (some c)) s

end Directory

end WasmFS
