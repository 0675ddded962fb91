-- SUMMARY: The system calls on descriptors as one type, and what their parts leave alone.
import Emscripten.Lib.Within
import Emscripten.JsFs.Streams

/-!
# Calls

The calls that take a descriptor, or make one. The frames of the parts come after: what the
tree operations leave of the streams, and what the stream operations leave of the tree.
-/

namespace JsFs

open Prog

variable [Build]

/-! ## The calls -/

inductive Result
  | bytes (data : List UInt8)
  | count (n : Nat)
  | done
deriving DecidableEq, Repr

/-- The calls on the data of a file. -/
inductive DataCall
  | read (fd : Nat) (lens : List Nat)
  | pread (fd : Nat) (lens : List Nat) (offset : Int)
  | write (fd : Nat) (buffers : List (List UInt8))
  | pwrite (fd : Nat) (buffers : List (List UInt8)) (offset : Int)
  | lseek (fd : Nat) (offset whence : Int)
  | ftruncate (fd : Nat) (length : Int)
  | fallocate (fd : Nat) (mode offset len : Int)
deriving DecidableEq, Repr

inductive Call
  | data (c : DataCall)
  | open (path : Path) (flags : Flags) (mode : Mode)
  | dup (fd : Nat)
  | dup3 (fd : Nat) (newfd : Int)
  | fcntl (fd : Nat) (cmd : Int) (arg : Flags)
  | mmap (fd length position : Nat) (prot flags : BitVec 32)
  | close (fd : Nat)
deriving DecidableEq, Repr

def DataCall.run : DataCall → Sys Result
  | .read fd lens => do pure (.bytes (← fd_read fd lens))
  | .pread fd lens offset => do pure (.bytes (← fd_pread fd lens offset))
  | .write fd buffers => do pure (.count (← fd_write fd buffers))
  | .pwrite fd buffers offset => do pure (.count (← fd_pwrite fd buffers offset))
  | .lseek fd offset whence => do pure (.count (← fd_seek fd offset whence))
  | .ftruncate fd length => do
      ftruncate64 fd length
      pure .done
  | .fallocate fd mode offset len => do
      JsFs.fallocate fd mode offset len
      pure .done

def DataCall.fd : DataCall → Nat
  | .read fd _ | .pread fd _ _ | .write fd _ | .pwrite fd _ _ => fd
  | .lseek fd _ _ | .ftruncate fd _ | .fallocate fd _ _ _ => fd

def Call.run : Call → Sys Result
  | .data c => c.run
  | .open path flags mode => do pure (.count (← JsFs.open path flags mode))
  | .dup fd => do pure (.count (← JsFs.dup fd))
  | .dup3 fd newfd => do pure (.count (← JsFs.dup3 fd newfd))
  | .fcntl fd cmd arg => do
      let _ ← fcntl64 fd cmd arg
      pure .done
  | .mmap fd length position prot flags => do pure (.bytes (← mmap_js fd length position prot flags))
  | .close fd => do
      fd_close fd
      pure .done

/-- The descriptor a call is on. -/
def Call.fd : Call → Option Nat
  | .data c => some c.fd
  | .open _ _ _ => none
  | .dup fd | .dup3 fd _ | .fcntl fd _ _ | .mmap fd _ _ _ _ | .close fd => some fd

/-! ## Frames -/

section Frames

variable {R : FS → FS → Prop} [IsPreorder FS R]

omit [Build] in
theorem within_query {α : Type} (f : FS → Except Errno α) : Within R (query f) :=
  .of_read fun s s' r h => by
    cases h
    rfl

omit [Build] in
theorem within_throwIf (e : Option Errno) : Within R (throwIf e) := by
  cases e with
  | none => exact .pure
  | some e => exact .fail

omit [Build] in
theorem within_doIf {c : Prop} [Decidable c] {m : Sys Unit} (h : c → Within R m) :
    Within R (doIf c m) := .ite h fun _ => .pure

omit [Build] in
theorem within_getPath (n : NodeId) : Within R (getPath n) := .of_read fun s s' r h => by
  obtain ⟨path, _, he⟩ := Option.map_eq_some_iff.mp h
  cases he
  rfl

end Frames

/-- The streams, and the objects they share, are as they were. -/
structure FS.StreamsKept (s s' : FS) : Prop where
  streams : s'.streams = s.streams
  shared : s'.shared = s.shared
  nextShared : s'.nextShared = s.nextShared

instance : IsPreorder FS FS.StreamsKept where
  refl _ := ⟨rfl, rfl, rfl⟩
  trans _ _ _ h h' := ⟨h'.1.trans h.1, h'.2.trans h.2, h'.3.trans h.3⟩

/-- No node but those made meanwhile has other bytes than before. -/
structure FS.BytesKept (s s' : FS) : Prop where
  nextInode : s.nextInode ≤ s'.nextInode
  bytes : ∀ n < s.nextInode, (s'.node n).bytes = (s.node n).bytes

instance : IsPreorder FS FS.BytesKept where
  refl _ := ⟨Nat.le_refl _, fun _ _ => rfl⟩
  trans _ _ _ h h' := ⟨Nat.le_trans h.1 h'.1, fun n hn =>
    (h'.2 n (Nat.lt_of_lt_of_le hn h.1)).trans (h.2 n hn)⟩

omit [Build] in
theorem bytes_setContents (nd : Node) (c : DirObject) : (nd.setContents c).bytes = nd.bytes := by
  cases h : nd.data <;> simp [Node.setContents, Node.bytes, h]

/-- Making a node keeps both the streams and the bytes of all others. -/
theorem within_createNode (parent : NodeId) (name : Name) (data : Data) (perm : Mode) :
    Within FS.StreamsKept (MEMFS.createNode parent name data perm) ∧
      Within FS.BytesKept (MEMFS.createNode parent name data perm) := by
  refine ⟨.bind .gets fun n => .bind (.modify fun s => ⟨rfl, rfl, rfl⟩) fun _ => .pure, ?_⟩
  intro s s' r h
  cases h
  refine ⟨Nat.le_succ _, fun n hn => ?_⟩
  have hne : n ≠ s.nextInode := Nat.ne_of_lt hn
  simp only [FS.setChild, FS.setNode, FS.createNode, FS.hashAddNode, FS.setChain,
    Function.update_apply]
  split
  · simp_all [bytes_setContents]
  · simp

theorem within_mknod (path : Path) (type : NodeType) (perm : Mode) :
    Within FS.StreamsKept (mknod path type perm) ∧ Within FS.BytesKept (mknod path type perm) := by
  have hmemfs : ∀ parent name, Within FS.StreamsKept (MEMFS.mknod parent name type perm) ∧
      Within FS.BytesKept (MEMFS.mknod parent name type perm) := by
    intro parent name
    unfold MEMFS.mknod
    split
    · exact ⟨.fail, .fail⟩
    · exact within_createNode parent name _ perm
  constructor
  · refine .bind (within_query _) fun parent => .bind .failIf fun _ => .bind .failIf fun _ => ?_
    exact .bind .gets fun e => .bind (within_throwIf e) fun _ => (hmemfs parent _).1
  · refine .bind (within_query _) fun parent => .bind .failIf fun _ => .bind .failIf fun _ => ?_
    exact .bind .gets fun e => .bind (within_throwIf e) fun _ => (hmemfs parent _).2

theorem within_openNode (path : Path) (flags : Flags) :
    Within FS.StreamsKept (openNode path flags) ∧ Within FS.BytesKept (openNode path flags) := by
  constructor
  · refine .bind (within_query _) fun lookup => ?_
    split
    · exact .bind .failIf fun _ => .pure
    · refine .ite (fun _ => ?_) fun _ => .fail
      exact .bind .failIf fun _ => .bind (within_mknod _ _ _).1 fun _ => .pure
  · refine .bind (within_query _) fun lookup => ?_
    split
    · exact .bind .failIf fun _ => .pure
    · refine .ite (fun _ => ?_) fun _ => .fail
      exact .bind .failIf fun _ => .bind (within_mknod _ _ _).2 fun _ => .pure

omit [Build] in
theorem within_doTruncate (n : NodeId) (len : Nat) : Within FS.StreamsKept (doTruncate n len) := by
  refine .bind .gets fun s => ?_
  split
  · exact .fail
  · exact .bind (within_throwIf _) fun _ => .modify fun _ => ⟨rfl, rfl, rfl⟩
  · exact .fail

omit [Build] in
theorem within_chmodNode (n : NodeId) (mode : Mode) :
    Within FS.StreamsKept (chmodNode n mode) ∧ Within FS.BytesKept (chmodNode n mode) := by
  refine ⟨.modify fun _ => ⟨rfl, rfl, rfl⟩, .modify fun s => ⟨Nat.le_refl _, fun m _ => ?_⟩⟩
  simp only [FS.setNode, Function.update_apply]
  split
  · next he => simp [he, Node.bytes]
  · rfl

end JsFs
