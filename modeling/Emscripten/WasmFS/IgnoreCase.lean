-- SUMMARY: The case-insensitive backend: directories that wrap memory directories and look names up in lower case.
import Emscripten.WasmFS.Edits

/-!
# The case-insensitive backend

An `IgnoreCaseDirectory` stands in front of a memory directory. It keeps a map from the
normalized names to its children, each with the spelling it was made with, and passes
every call on to the wrapped directory under the normalized name. Above it runs the code
that all directories share, which keeps the mounts in the dcache.

Wrappers and wrapped files are `File` objects of one address space. What the virtual
classes add to `File` is kept beside the files in `CaseFS.virtual`.
-/

namespace WasmFS

open Prog

/-- `std::tolower` of the C locale on every byte. -/
def normalize (name : Name) : Name := name.map Char.toLower

structure ChildInfo where
  originalName : Name
  child : FileId

/-- The fields of a virtual file: the file it wraps, and the map of an
`IgnoreCaseDirectory` from normalized names. -/
structure Virtual where
  real : FileId
  children : AList (fun _ : Name => ChildInfo)

structure CaseFS where
  fs : FS
  virtual : FileId → Option Virtual

/-- An operation on the files of a case-insensitive backend. -/
abbrev Case := Prog CaseFS Errno

namespace CaseFS

/-- What the map of the directory `d` has under a normalized name. -/
def child (s : CaseFS) (d : FileId) (normalized : Name) : Option ChildInfo :=
  (s.virtual d).bind fun v => v.children.lookup normalized

def real (s : CaseFS) (f : FileId) : Option FileId := (s.virtual f).map Virtual.real

/-- Change the map of the directory `d`. -/
def modifyChildren (s : CaseFS) (d : FileId)
    (g : AList (fun _ : Name => ChildInfo) → AList (fun _ : Name => ChildInfo)) : CaseFS :=
  let changed := (s.virtual d).map fun v => { v with children := g v.children }
  { s with virtual := Function.update s.virtual d changed }

def modifyFS (s : CaseFS) (g : FS → FS) : CaseFS := { s with fs := g s.fs }

end CaseFS

/-- An operation on the files that does not concern the virtual classes. -/
def onFiles {α : Type} (m : Sys α) : Case α := fun s =>
  match m s.fs with
  | none => none
  | some (fs, r) => some ({ s with fs := fs }, r)

/-- The virtual directory at `d`. An object of another class has no such fields. -/
def thisDirectory (d : FileId) : Case Virtual := fun s =>
  match s.virtual d with
  | none => none
  | some v => some (s, .ok v)

/-- `virtualize`: a new wrapper of the same kind. -/
def virtualize (f : FileId) (backend : Option Backend) : Case FileId := fun s =>
  let x := s.fs.file f
  let wrapper := s.fs.nextFile
  some ({ fs := s.fs.addFile (File.new x.kind x.mode backend s.fs.env.now)
          virtual := Function.update s.virtual wrapper (some ⟨f, ∅⟩) }, .ok wrapper)

/-- `devirtualize`. A symbolic link is cast to `VirtualDirectory`, which keeps `real`
where a `VirtualSymlink` has already ended. -/
def devirtualize (f : FileId) : Case FileId := fun s =>
  match (s.fs.file f).kind, s.virtual f with
  | .dataFile, some v => some (s, .ok v.real)
  | .directory, some v => some (s, .ok v.real)
  | .symlink, _ => none
  | _, none => none

/-! ## IgnoreCaseDirectory -/

namespace IgnoreCaseDirectory

def getChild (d : FileId) (name : Name) : Case (Option FileId) := do
  let normalized := normalize name
  let this ← thisDirectory d
  match this.children.lookup normalized with
  | some info => pure (some info.child)
  | none =>
    match ← onFiles (Directory.getChild this.real normalized) with
    | none => pure none
    | some child =>
      let child ← virtualize child (← gets fun s => (s.fs.file d).backend)
      modify fun s => s.modifyChildren d fun m => m.insert normalized ⟨name, child⟩
      pure (some child)

/-- The common body of the three `insert` functions. -/
def insertNew (insert : FileId → Name → Sys (Option FileId)) (d : FileId) (name : Name) :
    Case (Option FileId) := do
  let normalized := normalize name
  let this ← thisDirectory d
  match ← onFiles (insert this.real normalized) with
  | none => pure none
  | some file =>
    let file ← virtualize file (← gets fun s => (s.fs.file d).backend)
    modify fun s => s.modifyChildren d fun m => m.insert normalized ⟨name, file⟩
    pure (some file)

def insertDataFile (d : FileId) (name : Name) (mode : Nat) : Case (Option FileId) :=
  insertNew (fun real n => Directory.insertDataFile real n mode) d name

def insertDirectory (d : FileId) (name : Name) (mode : Nat) : Case (Option FileId) :=
  insertNew (fun real n => Directory.insertDirectory real n mode) d name

def insertSymlink (d : FileId) (name : Name) (target : Path) : Case (Option FileId) :=
  insertNew (fun real n => Directory.insertSymlink real n target) d name

/-- Delete the entry of `file` from the map of its old parent. -/
def eraseChild (oldParent file : FileId) : Case Unit := do
  let this ← thisDirectory oldParent
  match this.children.entries.find? fun e => e.2.child = file with
  | none => pure ()
  | some e => modify fun s => s.modifyChildren oldParent fun m => m.erase e.1

def insertMove (d : FileId) (name : Name) (file : FileId) : Case Unit := do
  let normalized := normalize name
  let this ← thisDirectory d
  let realFile ← devirtualize file
  onFiles (Directory.insertMove this.real normalized realFile)
  match ← onFiles (getParent file) with
  | none => crash
  | some oldParent =>
    eraseChild oldParent file
    let this ← thisDirectory d
    match this.children.lookup normalized with
    | none => pure ()
    -- Unlink the overwritten entry.
    | some overwritten => modify fun s => s.modifyFS fun fs => fs.setParent overwritten.child none
    modify fun s => s.modifyChildren d fun m => m.insert normalized ⟨name, file⟩

/-- `removeChild`, which asserts that the map has the name. -/
def removeChild (d : FileId) (name : Name) : Case Unit := do
  let normalized := normalize name
  let this ← thisDirectory d
  onFiles (Directory.removeChild this.real normalized)
  match this.children.lookup normalized with
  | none => crash
  | some info =>
    modify fun s => s.modifyFS fun fs => fs.setParent info.child none
    modify fun s => s.modifyChildren d fun m => m.erase normalized

def getEntries (s : CaseFS) (d : FileId) : List Dirent :=
  match s.virtual d with
  | none => []
  | some this => (s.fs.getEntries this.real).map fun entry =>
    match this.children.lookup entry.name with
    | some info => { entry with name := info.originalName }
    | none => entry

end IgnoreCaseDirectory

/-! ## Directory::Handle -/

namespace CaseDirectory

def getChild (d : FileId) (name : Name) : Case (Option FileId) := fun s =>
  match (s.fs.file d).parent with
  | none => some (s, .ok none)
  | some parent =>
    if name = dot then some (s, .ok (some d))
    else if name = dotDot then some (s, .ok (some parent))
    else match (s.fs.file d).dcache.lookup name with
      | some e => some (s, .ok (some e.file))
      | none =>
        (IgnoreCaseDirectory.getChild d name >>= fun child =>
          match child with
          | none => pure none
          | some child => do
            modify fun s => s.modifyFS fun fs => fs.cacheChild d name child .normal
            pure (some child)) s

/-- The three `insert` functions, which differ in the call of the backend. -/
def insertNew (insert : FileId → Name → Case (Option FileId)) (d : FileId) (name : Name) :
    Case (Option FileId) := fun s =>
  if (s.fs.file d).parent = none then some (s, .ok none)
  else (insert d name >>= fun child =>
    match child with
    | none => pure none
    | some child => do
      modify fun s => s.modifyFS fun fs => (fs.cacheChild d name child .normal).updateMTime d
      pure (some child)) s

def insertDataFile (d : FileId) (name : Name) (mode : Nat) : Case (Option FileId) :=
  insertNew (fun d name => IgnoreCaseDirectory.insertDataFile d name mode) d name

def insertDirectory (d : FileId) (name : Name) (mode : Nat) : Case (Option FileId) :=
  insertNew (fun d name => IgnoreCaseDirectory.insertDirectory d name mode) d name

def insertSymlink (d : FileId) (name : Name) (target : Path) : Case (Option FileId) :=
  insertNew (fun d name => IgnoreCaseDirectory.insertSymlink d name target) d name

def insertMove (d : FileId) (name : Name) (file : FileId) : Case Unit := fun s =>
  if (s.fs.file d).parent = none then some (s, .error .EPERM)
  else match (s.fs.file file).parent with
    | none => none
    | some oldParent =>
      let cached := s.fs.findInDCache oldParent file
      (IgnoreCaseDirectory.insertMove d name file >>= fun _ =>
        modify fun s => s.modifyFS fun fs =>
          let moved := match cached with
            | none => fs
            | some (oldName, entry) => fs.moveInDCache oldParent oldName entry d name
          ((moved.setParent file (some d)).updateMTime oldParent).updateMTime d) s

def removeChild (d : FileId) (name : Name) : Case Unit := fun s =>
  match (s.fs.file d).dcache.lookup name with
  | some ⟨.mount, _⟩ => some (s.modifyFS fun fs => fs.dcacheErase d name, .ok ())
  | some ⟨.normal, child⟩ =>
    (IgnoreCaseDirectory.removeChild d name >>= fun _ =>
      modify fun s => s.modifyFS fun fs =>
        ((fs.setParent child none).dcacheErase d name).updateMTime d) s
  | none =>
    (IgnoreCaseDirectory.removeChild d name >>= fun _ =>
      modify fun s => s.modifyFS fun fs => fs.updateMTime d) s

def getEntries (s : CaseFS) (d : FileId) : List Dirent :=
  IgnoreCaseDirectory.getEntries s d ++
    (s.fs.mounts d).map fun e => ⟨e.1, (s.fs.file e.2).kind, some e.2⟩

end CaseDirectory

/-! ## IgnoreCaseBackend -/

namespace IgnoreCaseBackend

/-- `createFile`; `wrapped` is the memory backend. -/
def createFile (wrapped : Nat) (backend : Option Backend) (mode : Nat) : Case (Option FileId) := do
  match ← onFiles (WasmFS.createFile (some (.memory wrapped)) mode) with
  | none => crash
  | some real => some <$> virtualize real backend

/-- `createDirectory`. The wrapped directory becomes its own parent, for it would look
unlinked otherwise. -/
def createDirectory (wrapped : Nat) (backend : Option Backend) (mode : Nat) :
    Case (Option FileId) := do
  match ← onFiles (WasmFS.createDirectory (some (.memory wrapped)) mode) with
  | none => crash
  | some real =>
    modify fun s => s.modifyFS fun fs => fs.setParent real (some real)
    some <$> virtualize real backend

end IgnoreCaseBackend

/-! ## The calls of a run -/

/-- What a new child of a directory may be. -/
inductive NewChild
  | dataFile (mode : Nat)
  | directory (mode : Nat)
  | symlink (target : Path)

def NewChild.insert (x : NewChild) (d : FileId) (name : Name) : Case (Option FileId) :=
  match x with
  | .dataFile mode => CaseDirectory.insertDataFile d name mode
  | .directory mode => CaseDirectory.insertDirectory d name mode
  | .symlink target => CaseDirectory.insertSymlink d name target

/-- What may be mounted: a new file or directory of another backend, case-insensitive or not. -/
inductive NewMount
  | dataFile (backend : Backend) (mode : Nat)
  | directory (backend : Backend) (mode : Nat)
  | ignoreCaseFile (wrapped : Nat) (backend : Backend) (mode : Nat)
  | ignoreCaseDirectory (wrapped : Nat) (backend : Backend) (mode : Nat)

def NewMount.create : NewMount → Case (Option FileId)
  | .dataFile backend mode => onFiles (createFile (some backend) mode)
  | .directory backend mode => onFiles (createDirectory (some backend) mode)
  | .ignoreCaseFile wrapped backend mode => IgnoreCaseBackend.createFile wrapped (some backend) mode
  | .ignoreCaseDirectory wrapped backend mode =>
    IgnoreCaseBackend.createDirectory wrapped (some backend) mode

/-- An operation on a directory of a case-insensitive backend. -/
inductive CaseCall
  | lookup (d : FileId) (name : Name)
  | insert (d : FileId) (name : Name) (x : NewChild)
  | mount (d : FileId) (name : Name) (x : NewMount)
  | remove (d : FileId) (name : Name)
  | move (d : FileId) (name : Name) (file : FileId)

namespace CaseCall

/-- The call with the lookup that precedes it in every syscall. It returns the file that
it creates, mounts or moves. -/
def exec : CaseCall → Case (Option FileId)
  | .lookup d name => CaseDirectory.getChild d name >>= fun _ => pure none
  | .insert d name x => do
    match ← CaseDirectory.getChild d name with
    | some _ => fail .EEXIST
    | none =>
      match ← x.insert d name with
      | none => fail Errno.EIO
      | some child => pure (some child)
  | .mount d name x => do
    match ← CaseDirectory.getChild d name with
    | some _ => fail .EEXIST
    | none =>
      match ← x.create with
      | none => fail Errno.EIO
      | some child =>
        let _ ← onFiles (Directory.mountChild d name child)
        pure (some child)
  | .remove d name => do
    failIf (name = dot ∨ name = dotDot) .EINVAL
    match ← CaseDirectory.getChild d name with
    | none => fail .ENOENT
    | some _ =>
      CaseDirectory.removeChild d name
      pure none
  | .move d name file => CaseDirectory.insertMove d name file >>= fun _ => pure (some file)

/-- The name that the call gives to the file it returns. -/
def name : CaseCall → Name
  | .lookup _ name => name
  | .insert _ name _ => name
  | .mount _ name _ => name
  | .remove _ name => name
  | .move _ name _ => name

end CaseCall

end WasmFS
