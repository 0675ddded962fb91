-- SUMMARY: Making, linking, moving and removing nodes, and mounting: the operations of FS on the tree, over MEMFS.
import Emscripten.JsFs.Lookup

/-!
# Operations on the tree

The operations of `FS` that make, move and remove nodes, with those of MEMFS they call.
-/

namespace JsFs

variable [Build]

/-! ## Nodes -/

/-- `FS.createNode`: a node without a parent is the root of what it is in. -/
def FS.createNode (s : FS) (parent : Option NodeId) (name : Name) (data : Data) (perm : Mode) : FS :=
  let n := s.nextInode
  { s.setNode n ⟨parent.getD n, name, data, perm, parent.bind fun p => (s.node p).mount, none⟩ with
    nextInode := n + 1 }.hashAddNode n

/-- Nothing has been made yet. -/
def FS.blank : FS where
  node := fun _ => ⟨0, [], .sock, 0, none, none⟩
  nextInode := 0
  nameTable := fun _ => []
  root := 0
  mount := fun _ => ⟨['/'], 0, []⟩
  nextMount := 1
  currentPath := ['/']
  ignorePermissions := false
  streams := []
  shared := fun _ => ⟨0, 0⟩
  nextShared := 0
  devices := fun _ => none
  pipefsRoot := 1
  nextPipe := 0

/-- MEMFS mounted at "/", and the root of PIPEFS: what `FS.staticInit` makes first. -/
def FS.initial : FS :=
  let s := FS.blank.createNode none ['/'] (.dir ⟨[], none⟩) S_IRWXUGO
  let s := s.setNode 0 { s.node 0 with mount := some 0 }
  s.createNode none ['/'] (.dir ⟨[], none⟩) S_IRWXUGO

/-- `parent.contents[name] = node`. -/
def FS.setChild (s : FS) (parent : NodeId) (name : Name) (n : NodeId) : FS :=
  s.setNode parent ((s.node parent).setContents ((s.node parent).contents.set name n))

/-- `delete parent.contents[name]`. -/
def FS.deleteChild (s : FS) (parent : NodeId) (name : Name) : FS :=
  s.setNode parent ((s.node parent).setContents ((s.node parent).contents.delete name))

/-- What `MEMFS.createNode` makes of the type bits of a mode. -/
inductive NodeType
  | dir
  | file
  | chrdev (rdev : Nat)
  | blkdev
  | fifo
  | sock
deriving DecidableEq, Repr

def NodeType.data : NodeType → Option Data
  | .dir => some (.dir ⟨[], none⟩)
  | .file => some (.file .empty)
  | .chrdev rdev => some (.chrdev rdev)
  | .blkdev | .fifo => none
  | .sock => some .sock

namespace MEMFS

/-- `MEMFS.createNode` in a directory. The new node is the one with the next identity. -/
def createNode (parent : NodeId) (name : Name) (data : Data) (perm : Mode) : Sys NodeId := do
  let n ← Prog.gets fun s => s.nextInode
  Prog.modify fun s => (s.createNode (some parent) name data perm).setChild parent name n
  pure n

def mknod (parent : NodeId) (name : Name) (type : NodeType) (perm : Mode) : Sys NodeId :=
  match type.data with
  | none => Prog.fail .EPERM
  | some data => createNode parent name data perm

def symlink (parent : NodeId) (newname : Name) (oldpath : Path) : Sys NodeId :=
  createNode parent newname (.link oldpath) S_IRWXUGO

def unlink (parent : NodeId) (name : Name) : Sys Unit :=
  Prog.modify fun s => s.deleteChild parent name

def rmdir (parent : NodeId) (name : Name) : Sys Unit := do
  let n ← query fun s => s.lookupNode parent name
  Prog.failIf (¬ (← Prog.gets fun s => (s.node n).contents.isEmpty)) .ENOTEMPTY
  Prog.modify fun s => s.deleteChild parent name

/-- The node at the new name, where there is one. -/
def lookupNew (s : FS) (new_dir : NodeId) (new_name : Name) : Option NodeId :=
  (s.lookupNode new_dir new_name).toOption

/-- The internal rewiring of a rename. -/
def rewire (s : FS) (old_node new_dir : NodeId) (new_name : Name) : FS :=
  let s := s.deleteChild (s.node old_node).parent (s.node old_node).name
  let s := s.setChild new_dir new_name old_node
  s.setNode old_node { s.node old_node with name := new_name }

/-- A directory that is replaced is empty, and leaves the name table. -/
def replace (old_node : NodeId) (new_node : Option NodeId) : Sys Unit :=
  match new_node with
  | some new_node => do
      let s ← Prog.gets id
      Prog.failIf ((s.node old_node).isDir ∧ ¬ (s.node new_node).contents.isEmpty) .ENOTEMPTY
      Prog.modify fun s => s.hashRemoveNode new_node
  | none => pure ()

def rename (old_node new_dir : NodeId) (new_name : Name) : Sys Unit := do
  replace old_node (← Prog.gets fun s => lookupNew s new_dir new_name)
  Prog.modify fun s => rewire s old_node new_dir new_name

end MEMFS

/-! ## Creation and removal -/

/-- `FS.mknod`, of a mode that is not that of a link. -/
def mknod (path : Path) (type : NodeType) (perm : Mode) : Sys NodeId := do
  let parent ← query fun s => s.lookupParent path
  let name := Path.basename path
  Prog.failIf (name = []) .EINVAL
  Prog.failIf (name = dot ∨ name = dotDot) .EEXIST
  throwIf (← Prog.gets fun s => s.mayCreate parent name)
  MEMFS.mknod parent name type perm

def mkdir (path : Path) (mode : Mode) : Sys NodeId :=
  mknod path .dir (mode &&& (S_IRWXUGO ||| S_ISVTX))

def symlink (oldpath newpath : Path) : Sys NodeId := do
  let cwd ← Prog.gets fun s => s.currentPath
  Prog.failIf (Path.resolve cwd oldpath = []) .ENOENT
  let parent ← query fun s => s.lookupParent newpath
  let newname := Path.basename newpath
  throwIf (← Prog.gets fun s => s.mayCreate parent newname)
  MEMFS.symlink parent newname oldpath

def unlink (path : Path) : Sys Unit := do
  let parent ← query fun s => s.lookupParent path
  let name := Path.basename path
  let n ← query fun s => s.lookupNode parent name
  throwIf (← mayDelete parent name false)
  Prog.failIf (← Prog.gets fun s => (s.node n).isMountpoint) .EBUSY
  MEMFS.unlink parent name
  Prog.modify fun s => s.hashRemoveNode n

def rmdir (path : Path) : Sys Unit := do
  let parent ← query fun s => s.lookupParent path
  let name := Path.basename path
  let n ← query fun s => s.lookupNode parent name
  throwIf (← mayDelete parent name true)
  Prog.failIf (← Prog.gets fun s => (s.node n).isMountpoint) .EBUSY
  MEMFS.rmdir parent name
  Prog.modify fun s => s.hashRemoveNode n

/-! ## Rename -/

/-- The test for an ancestor, on the text of the paths. -/
def notBelow (cwd source target : Path) : Bool := (Path.relative cwd source target).head? = some '.'

/-- The move itself: the node is taken out of the name table, and put back however it ends. -/
def moveNode (old_node new_dir : NodeId) (new_name : Name) : Sys Unit := do
  Prog.modify fun s => s.hashRemoveNode old_node
  Prog.attempt (MEMFS.rename old_node new_dir new_name) fun r =>
    match r with
    | .ok () => do
        Prog.modify fun s => s.setNode old_node { s.node old_node with parent := new_dir }
        Prog.modify fun s => s.hashAddNode old_node
    | .error e => do
        Prog.modify fun s => s.hashAddNode old_node
        Prog.fail e

/-- What is at the new name is deleted, and where nothing is, a name is made. -/
def mayReplace (new_dir : NodeId) (new_name : Name) (isdir : Bool) (new_node : Option NodeId) :
    Sys (Option Errno) :=
  match new_node with
  | some _ => mayDelete new_dir new_name isdir
  | none => Prog.gets fun s => s.mayCreate new_dir new_name

/-- What `rename` asks before it moves a node, with the node at the new name. -/
def mayRename (old_dir : NodeId) (old_name : Name) (old_node new_dir : NodeId) (new_name : Name)
    (new_node : Option NodeId) : Sys Unit := do
  let isdir ← Prog.gets fun s => (s.node old_node).isDir
  throwIf (← mayDelete old_dir old_name isdir)
  throwIf (← mayReplace new_dir new_name isdir new_node)
  Prog.failIf (← Prog.gets fun s => (s.node old_node).isMountpoint ||
    new_node.any fun n => (s.node n).isMountpoint) .EBUSY
  let errCode ← Prog.gets fun s => s.nodePermissions old_dir (some ['w'])
  doIf (new_dir ≠ old_dir) (throwIf errCode)

def rename (old_path new_path : Path) : Sys Unit := do
  let old_dirname := Path.dirname old_path
  let new_dirname := Path.dirname new_path
  let old_name := Path.basename old_path
  let new_name := Path.basename new_path
  let old_dir ← query fun s => s.lookupParent old_path
  let new_dir ← query fun s => s.lookupParent new_path
  Prog.failIf (← Prog.gets fun s => (s.node old_dir).mount != (s.node new_dir).mount) .EXDEV
  let old_node ← query fun s => s.lookupNode old_dir old_name
  let cwd ← Prog.gets fun s => s.currentPath
  Prog.failIf (¬ notBelow cwd old_path new_dirname) .EINVAL
  Prog.failIf (¬ notBelow cwd new_path old_dirname) .ENOTEMPTY
  let new_node ← Prog.gets fun s => MEMFS.lookupNew s new_dir new_name
  if new_node = some old_node then pure ()
  else do
    mayRename old_dir old_name old_node new_dir new_name new_node
    moveNode old_node new_dir new_name

/-! ## Mounts -/

namespace FS

/-- `getMounts`, on the mounts still to visit. -/
def getMounts (s : FS) : Nat → List MountId → List MountId
  | 0, _ => []
  | _, [] => []
  | k + 1, m :: check => m :: getMounts s k ((s.mount m).mounts ++ check)

/-- `destroyNode` of the nodes of some mounts. -/
def destroyMounts (s : FS) (mounts : List MountId) : FS :=
  { s with nameTable := fun h => (s.nameTable h).filter fun n =>
      ¬ ((s.node n).mount.any (mounts.contains ·) ∧ s.hashOf n = h) }

/-- A mount and the root `MEMFS.mount` makes for it, set on a node. -/
def addMount (s : FS) (mountpoint : Path) (n : NodeId) : FS :=
  let m := s.nextMount
  let r := s.nextInode
  let s := s.createNode none ['/'] (.dir ⟨[], none⟩) S_IRWXUGO
  let s := { s.setMount m ⟨mountpoint, r, []⟩ with nextMount := m + 1 }
  let s := s.setNode r { s.node r with mount := some m }
  let s := s.setNode n { s.node n with mounted := some m }
  match (s.node n).mount with
  | some p => s.setMount p { s.mount p with mounts := (s.mount p).mounts ++ [m] }
  | none => s

def removeMount (s : FS) (n : NodeId) (m : MountId) : FS :=
  let s := s.destroyMounts (s.getMounts (s.nextMount + 1) [m])
  let s := s.setNode n { s.node n with mounted := none }
  match (s.node n).mount with
  | some p => s.setMount p { s.mount p with mounts := (s.mount p).mounts.erase m }
  | none => s

end FS

/-- The lookup of `mount` and `unmount`, which stops at the mountpoint. -/
def lookupMountpoint (path : Path) : Sys (Path × NodeId) := do
  let lookup ← query fun s => s.lookupPath path { FS.LookupOpts.default with follow_mount := false }
  match lookup.node with
  | some n => pure (lookup.path, n)
  | none => Prog.fail .ENOENT

/-- `FS.mount` of MEMFS at a path. -/
def mount (mountpoint : Path) : Sys Unit := do
  Prog.failIf (mountpoint = ['/']) .EBUSY
  let (path, n) ← lookupMountpoint mountpoint
  Prog.failIf (← Prog.gets fun s => (s.node n).isMountpoint) .EBUSY
  Prog.failIf (¬ (← Prog.gets fun s => (s.node n).isDir)) .ENOTDIR
  Prog.modify fun s => s.addMount path n

def unmount (mountpoint : Path) : Sys Unit := do
  let (_, n) ← lookupMountpoint mountpoint
  match ← Prog.gets fun s => (s.node n).mounted with
  | none => Prog.fail .EINVAL
  | some m => Prog.modify fun s => s.removeMount n m

def chdir (path : Path) : Sys Unit := do
  let lookup ← query fun s => s.lookupPath path { FS.LookupOpts.default with follow := true }
  match lookup.node with
  | none => Prog.fail .ENOENT
  | some n =>
    Prog.failIf (¬ (← Prog.gets fun s => (s.node n).isDir)) .ENOTDIR
    throwIf (← Prog.gets fun s => s.nodePermissions n (some ['x']))
    Prog.modify fun s => { s with currentPath := lookup.path }

end JsFs
