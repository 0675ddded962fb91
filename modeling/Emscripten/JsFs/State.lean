-- SUMMARY: State of the JS file system: nodes, the name table, mounts, streams, devices and pipes.
import Emscripten.Lib.Prog
import Emscripten.JsFs.Basic
import Emscripten.JsFs.Paths

/-!
# State of the JS file system

An object of the program is an identity here, with its properties in a table of the state;
a new object takes the next identity. A chain of the name table, linked by `name_next`, is
the list of its nodes. Times, owners and the ring of a pipe's buffers are left out.
-/

namespace JsFs

/-- A build of the library: the spelling under which names are compared, `toLowerCase` with
`CASE_INSENSITIVE_FS`, else the name itself. -/
class Build where
  fold : Name → Name

abbrev Build.caseSensitive : Build := ⟨id⟩

abbrev NodeId := Nat

abbrev MountId := Nat

abbrev SharedId := Nat

/-! ## Nodes -/

/-- The object of a directory's children. The key `__proto__` sets its prototype. -/
structure DirObject where
  entries : List (Name × NodeId)
  proto : Option NodeId
deriving DecidableEq, Repr

/-- The type bits of `node.mode`, and what a node of that type holds. -/
inductive Data
  | dir (contents : DirObject)
  | file (f : FileData)
  | link (target : Path)
  | chrdev (rdev : Nat)
  | fifo
  | sock
deriving DecidableEq

structure Node where
  parent : NodeId
  name : Name
  data : Data
  /-- The permission bits of `node.mode`. -/
  perm : Mode
  mount : Option MountId
  mounted : Option MountId
deriving DecidableEq

namespace Node

variable (n : Node)

def isDir : Bool := match n.data with
  | .dir _ => true
  | _ => false

def isFile : Bool := match n.data with
  | .file _ => true
  | _ => false

def isLink : Bool := match n.data with
  | .link _ => true
  | _ => false

def isChrdev : Bool := match n.data with
  | .chrdev _ => true
  | _ => false

def isMountpoint : Bool := n.mounted.isSome

/-- The bytes of a file. -/
def bytes : List UInt8 := match n.data with
  | .file f => f.bytes
  | _ => []

/-- `node.contents` of a directory. -/
def contents : DirObject := match n.data with
  | .dir c => c
  | _ => ⟨[], none⟩

def setContents (c : DirObject) : Node := match n.data with
  | .dir _ => { n with data := .dir c }
  | _ => n

variable (c : DirObject)

@[simp] theorem parent_setContents : (n.setContents c).parent = n.parent := by
  unfold setContents
  split <;> rfl

@[simp] theorem name_setContents : (n.setContents c).name = n.name := by
  unfold setContents
  split <;> rfl

@[simp] theorem mount_setContents : (n.setContents c).mount = n.mount := by
  unfold setContents
  split <;> rfl

@[simp] theorem mounted_setContents : (n.setContents c).mounted = n.mounted := by
  unfold setContents
  split <;> rfl

@[simp] theorem isDir_setContents : (n.setContents c).isDir = n.isDir := by
  unfold setContents isDir
  cases h : n.data <;> simp [h]

theorem contents_setContents_of_isDir (h : n.isDir = true) (c : DirObject) :
    (n.setContents c).contents = c := by
  unfold isDir at h
  split at h
  · next hd => simp [setContents, contents, hd]
  · cases h

theorem contents_of_not_isDir (h : n.isDir = false) : n.contents = ⟨[], none⟩ := by
  unfold isDir at h
  unfold contents
  cases hd : n.data with
  | dir o => simp [hd] at h
  | _ => rfl

end Node

namespace DirObject

def protoKey : Name := "__proto__".toList

variable (o : DirObject)

/-- `contents[name] = node`. -/
def set (name : Name) (n : NodeId) : DirObject :=
  if name = protoKey then { o with proto := some n }
  else if name ∈ o.entries.map Prod.fst then
    { o with entries := o.entries.map fun e => if e.1 = name then (name, n) else e }
  else { o with entries := o.entries ++ [(name, n)] }

/-- `delete contents[name]`, of an own property only. -/
def delete (name : Name) : DirObject := { o with entries := o.entries.filter fun e => e.1 ≠ name }

/-- The loop `for (var i in contents)` has no turn. -/
def isEmpty : Bool := o.entries.isEmpty && o.proto.isNone

/-- `Object.keys(contents)`, in some order. -/
def keys : List Name := o.entries.map Prod.fst

theorem mem_set {name : Name} (hname : name ≠ protoKey) (n : NodeId) {e : Name × NodeId} :
    e ∈ (o.set name n).entries ↔ e = (name, n) ∨ e ∈ o.entries ∧ e.1 ≠ name := by
  unfold set
  rw [if_neg hname]
  split
  · next hmem =>
      obtain ⟨e₀, he₀, hkey⟩ := List.mem_map.mp hmem
      simp only [List.mem_map]
      constructor
      · rintro ⟨e', he', rfl⟩
        split
        · exact .inl rfl
        · next hne => exact .inr ⟨he', hne⟩
      · rintro (rfl | ⟨he, hne⟩)
        · exact ⟨e₀, he₀, if_pos hkey⟩
        · exact ⟨e, he, if_neg hne⟩
  · next hmem =>
      have hkeep : e ∈ o.entries → e.1 ≠ name := fun he hk =>
        hmem (List.mem_map.mpr ⟨e, he, hk⟩)
      simp only [List.mem_append, List.mem_singleton]
      constructor
      · rintro (he | he)
        · exact .inr ⟨he, hkeep he⟩
        · exact .inl he
      · rintro (he | ⟨he, _⟩)
        · exact .inr he
        · exact .inl he

theorem proto_set {name : Name} (hname : name ≠ protoKey) (n : NodeId) :
    (o.set name n).proto = o.proto := by
  unfold set
  rw [if_neg hname]
  split <;> rfl

@[simp] theorem mem_delete {name : Name} {e : Name × NodeId} :
    e ∈ (o.delete name).entries ↔ e ∈ o.entries ∧ e.1 ≠ name := by
  simp [delete]

end DirObject

/-! ## Mounts, streams and devices -/

structure Mount where
  mountpoint : Path
  root : NodeId
  mounts : List MountId

/-- Where the operations of a stream come from. -/
inductive StreamOps
  | memfs
  | device (rdev : Nat)
  | pipe
deriving DecidableEq, Repr

/-- `FSStream`. Duplicates have their own record, and one `shared` object. -/
structure Stream where
  node : NodeId
  path : Path
  seekable : Bool
  shared : SharedId
  stream_ops : StreamOps
deriving DecidableEq

structure Shared where
  flags : Flags
  position : Nat
deriving DecidableEq

/-- A device: the exception its `open` throws, if it does. -/
structure Device where
  openError : Option Errno

structure FS where
  node : NodeId → Node
  nextInode : NodeId
  nameTable : Nat → List NodeId
  root : NodeId
  mount : MountId → Mount
  nextMount : MountId
  currentPath : Path
  ignorePermissions : Bool
  /-- `FS.streams`, an array with holes. -/
  streams : List (Option Stream)
  shared : SharedId → Shared
  nextShared : SharedId
  devices : Nat → Option Device
  /-- `PIPEFS.root`, and the counter of the names of pipes. -/
  pipefsRoot : NodeId
  nextPipe : Nat

abbrev Sys := Prog FS Errno

/-- Read the state through a function that may throw. -/
def query {α : Type} (f : FS → Except Errno α) : Sys α := fun s => some (s, f s)

@[simp] theorem query_apply {α : Type} (f : FS → Except Errno α) (s : FS) :
    query f s = some (s, f s) := rfl

theorem query_of_eq {α : Type} {f : FS → Except Errno α} {s : FS} {r : Except Errno α} (h : f s = r) :
    query f s = some (s, r) := congrArg (fun r => some (s, r)) h

/-- An `if` without an `else`. -/
def doIf (c : Prop) [Decidable c] (m : Sys Unit) : Sys Unit := if c then m else pure ()

/-- `if (errCode) throw`. -/
def throwIf (e : Option Errno) : Sys Unit :=
  match e with
  | some e => Prog.fail e
  | none => pure ()

namespace FS

/-! ## Updates -/

def setNode (s : FS) (n : NodeId) (nd : Node) : FS :=
  { s with node := Function.update s.node n nd }

def setShared (s : FS) (k : SharedId) (sh : Shared) : FS :=
  { s with shared := Function.update s.shared k sh }

def getStream (s : FS) (fd : Nat) : Option Stream := (s.streams[fd]?).join

/-- `FS.streams[fd] = stream`, which makes the array longer where it has to. -/
def setStream (s : FS) (fd : Nat) (st : Option Stream) : FS :=
  { s with streams := (s.streams ++ List.replicate (fd + 1 - s.streams.length) none).set fd st }

def setChain (s : FS) (h : Nat) (chain : List NodeId) : FS :=
  { s with nameTable := Function.update s.nameTable h chain }

def setMount (s : FS) (m : MountId) (mt : Mount) : FS :=
  { s with mount := Function.update s.mount m mt }

def isRoot (s : FS) (n : NodeId) : Bool := (s.node n).parent = n

theorem getStream_setStream (s : FS) (fd fd' : Nat) (st : Option Stream) :
    (s.setStream fd st).getStream fd' = if fd' = fd then st else s.getStream fd' := by
  unfold getStream setStream
  simp only [List.getElem?_set, List.length_append, List.length_replicate, List.getElem?_append,
    List.getElem?_replicate]
  split
  · next he =>
      subst he
      have hlt : fd < s.streams.length + (fd + 1 - s.streams.length) := by omega
      simp [hlt]
  · next hne =>
      rw [if_neg (Ne.symm hne)]
      split
      · rfl
      · next hge =>
          rw [List.getElem?_eq_none (Nat.le_of_not_lt hge)]
          split <;> rfl

/-- A node that is a file has its data. -/
theorem data_of_isFile {s : FS} {n : NodeId} (h : (s.node n).isFile = true) :
    ∃ f, (s.node n).data = .file f ∧ (s.node n).bytes = f.bytes := by
  unfold Node.isFile at h
  unfold Node.bytes
  split at h
  · next f hf => exact ⟨f, hf, rfl⟩
  · cases h

end FS

end JsFs
