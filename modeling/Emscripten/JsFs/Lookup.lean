-- SUMMARY: Looking names up: the name table, permissions, path resolution through links and mounts, and the path of a node.
import Emscripten.JsFs.State

/-!
# Lookup

`lookupNode` finds a name in a directory through the chains of the name table, `lookupPath`
walks a path from the root. A walk ends at a node, or starts again with another path: at a
symbolic link, of which it follows 40, and at ".." in the root of a mount.
-/

namespace JsFs

variable [Build]

/-! ## The name table -/

def NAME_TABLE_SIZE : Nat := 4096

/-- The code units of a character. -/
def codeUnits (c : Char) : List Nat :=
  if c.toNat < 0x10000 then [c.toNat]
  else [0xd800 + (c.toNat - 0x10000) / 0x400, 0xdc00 + (c.toNat - 0x10000) % 0x400]

def hashName (parentid : NodeId) (name : Name) : Nat :=
  let hash := ((Build.fold name).flatMap codeUnits).foldl
    (fun (hash : BitVec 32) (code : Nat) => (hash <<< 5) - hash + BitVec.ofNat 32 code) (0 : BitVec 32)
  (BitVec.ofNat 32 parentid + hash).toNat % NAME_TABLE_SIZE

namespace FS

variable (s : FS)

/-- The chain a node belongs to. -/
def hashOf (n : NodeId) : Nat := hashName (s.node n).parent (s.node n).name

def hashAddNode (n : NodeId) : FS := s.setChain (s.hashOf n) (n :: s.nameTable (s.hashOf n))

def hashRemoveNode (n : NodeId) : FS := s.setChain (s.hashOf n) ((s.nameTable (s.hashOf n)).erase n)

/-! ## Permissions -/

/-- The error `nodePermissions` returns, if it does. There is no such string for the access mode 3,
and asking it is a type error. -/
def nodePermissions (n : NodeId) (perms : Option (List Char)) : Option Errno :=
  if s.ignorePermissions then none
  else match perms with
    | none => some .TypeError
    | some perms =>
      if 'r' ∈ perms ∧ ¬ Has (s.node n).perm S_IRUGO then some .EACCES
      else if 'w' ∈ perms ∧ ¬ Has (s.node n).perm S_IWUGO then some .EACCES
      else if 'x' ∈ perms ∧ ¬ Has (s.node n).perm S_IXUGO then some .EACCES
      else none

def mayLookup (dir : NodeId) : Option Errno :=
  if (s.node dir).isDir then s.nodePermissions dir (some ['x']) else some .ENOTDIR

/-- A node of the chain is the child `name` of `parent`. -/
def Named (parent : NodeId) (name : Name) (n : NodeId) : Prop :=
  (s.node n).parent = parent ∧ Build.fold (s.node n).name = Build.fold name

instance (parent : NodeId) (name : Name) (n : NodeId) : Decidable (s.Named parent name n) :=
  inferInstanceAs (Decidable (_ ∧ _))

/-- The first node of the chain that has the name. -/
def hashLookup (parent : NodeId) (name : Name) : Option NodeId :=
  (s.nameTable (hashName parent name)).find? fun n => s.Named parent name n

/-- What is in no chain, MEMFS does not find either. -/
def lookupNode (parent : NodeId) (name : Name) : Except Errno NodeId :=
  match s.mayLookup parent with
  | some e => .error e
  | none => match s.hashLookup parent name with
    | some n => .ok n
    | none => .error .ENOENT

/-- Whatever `lookupNode` throws is caught. -/
def mayCreate (dir : NodeId) (name : Name) : Option Errno :=
  if (s.node dir).isDir then
    match s.lookupNode dir name with
    | .ok _ => some .EEXIST
    | .error _ => s.nodePermissions dir (some ['w', 'x'])
  else some .ENOTDIR

/-! ## Path resolution -/

structure LookupOpts where
  follow : Bool
  follow_mount : Bool
  parent : Bool
  noent_okay : Bool
deriving DecidableEq, Repr

def LookupOpts.default : LookupOpts := ⟨false, true, false, false⟩

structure Lookup where
  path : Path
  /-- `undefined` where `noent_okay` let the last name be missing. -/
  node : Option NodeId
deriving DecidableEq, Repr

/-- How a walk ends: with a result, or with another path to walk. -/
inductive Walk
  | done (result : Except Errno Lookup)
  | up (path : Path)
  | link (path : Path)

/-- Jump to the root of what is mounted on a node. -/
def crossMount (n : NodeId) : NodeId :=
  match (s.node n).mounted with
  | some m => (s.mount m).root
  | none => n

/-- The path that goes on with the target of a link found at `current_path`. -/
def linkPath (current_path link : Path) (rest : List Name) : Path :=
  (if Path.isAbs link then link else Path.dirname current_path ++ '/' :: link) ++
    '/' :: Path.join rest

/-- The loop over the parts of a path. -/
def walk (o : LookupOpts) : List Name → Path → NodeId → Walk
  | [], current_path, current => .done (.ok ⟨current_path, some current⟩)
  | p :: rest, current_path, current =>
    let islast := rest.isEmpty
    if islast ∧ o.parent then .done (.ok ⟨current_path, some current⟩)
    else if p = dot then walk o rest current_path current
    else if p = dotDot then
      let current_path := Path.dirname current_path
      if s.isRoot current then .up (current_path ++ '/' :: Path.join rest)
      else walk o rest current_path (s.node current).parent
    else
      let current_path := Path.join2 current_path p
      match s.lookupNode current p with
      | .error e =>
        if e = .ENOENT ∧ islast ∧ o.noent_okay then .done (.ok ⟨current_path, none⟩)
        else .done (.error e)
      | .ok child =>
        let child := if !islast ∨ o.follow_mount then s.crossMount child else child
        match (s.node child).data with
        | .link target =>
          if !islast ∨ o.follow then .link (linkPath current_path target rest)
          else walk o rest current_path child
        | _ => walk o rest current_path child

/-- A ".." in a root starts over with a shorter path and counts as no link. -/
def upLoop (o : LookupOpts) : Nat → Path → Walk
  | 0, path => .up path
  | k + 1, path =>
    match s.walk o (Path.parts path) ['/'] s.root with
    | .up path' => upLoop o k path'
    | w => w

/-- `linkloop`, with the number of links that may still be followed. -/
def linkLoop (o : LookupOpts) : Nat → Path → Except Errno Lookup
  | 0, _ => .error .ELOOP
  | k + 1, path =>
    match s.upLoop o ((Path.parts path).length + 1) path with
    | .done result => result
    | .link path' => linkLoop o k path'
    | .up _ => .error .ELOOP

def SYMLOOP_MAX : Nat := 40

def lookupPath (path : Path) (o : LookupOpts) : Except Errno Lookup :=
  if path = [] then .error .ENOENT
  else s.linkLoop o SYMLOOP_MAX (if Path.isAbs path then path else s.currentPath ++ '/' :: path)

/-- The node of a lookup that lets no name be missing. -/
def lookupPathNode (path : Path) (o : LookupOpts) : Except Errno NodeId :=
  match s.lookupPath path o with
  | .error e => .error e
  | .ok ⟨_, some n⟩ => .ok n
  | .ok ⟨_, none⟩ => .error .ENOENT

/-- `lookupPath(path, { parent: true })`. -/
def lookupParent (path : Path) : Except Errno NodeId :=
  s.lookupPathNode path { LookupOpts.default with parent := true }

/-! ## The path of a node -/

/-- The loop of `getPath`, with the path below the node. -/
def climb : Nat → NodeId → Path → Option Path
  | 0, _, _ => none
  | k + 1, n, path =>
    if s.isRoot n then
      match (s.node n).mount with
      | none => none
      | some m =>
        let mountpoint := (s.mount m).mountpoint
        some (if path = [] then mountpoint
          else if mountpoint.getLast? = some '/' then mountpoint ++ path
          else mountpoint ++ '/' :: path)
    else climb k (s.node n).parent
      (if path = [] then (s.node n).name else (s.node n).name ++ '/' :: path)

/-- A climb over more nodes than there are never ends. -/
def pathOf (n : NodeId) : Option Path := s.climb (s.nextInode + 1) n []

end FS

def getPath (n : NodeId) : Sys Path := fun s => (s.pathOf n).map fun path => (s, .ok path)

def mayDelete (dir : NodeId) (name : Name) (isdir : Bool) : Sys (Option Errno) := fun s =>
  match s.lookupNode dir name with
  | .error e => some (s, .ok (some e))
  | .ok n =>
    match s.nodePermissions dir (some ['w', 'x']) with
    | some e => some (s, .ok (some e))
    | none =>
      if isdir then
        if (s.node n).isDir then
          if s.isRoot n then some (s, .ok (some .EBUSY))
          else (s.pathOf n).map fun path =>
            (s, .ok (if path = s.currentPath then some .EBUSY else none))
        else some (s, .ok (some .ENOTDIR))
      else some (s, .ok (if (s.node n).isDir then some .EISDIR else none))

end JsFs
