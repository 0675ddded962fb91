-- SUMMARY: A socket of SOCKFS over WebSockets: its peers, its queues of messages, and the operations on them.
import Mathlib.Logic.Function.Basic
import Emscripten.Lib.Machine
import Emscripten.Lib.Prog

/-!
# Sockets over WebSockets

A socket keeps the messages it received in a queue, and each of its peers the messages that
wait for its WebSocket to open. Programs call the operations; the WebSockets open, deliver
and close between the calls. The handler of the "open" event runs a callback of the user in
its middle, so it is two steps, with the calls of the callback between them.
-/

namespace Sockfs

abbrev Bytes := List UInt8

/-- The numbers of `FS.ErrnoError`, and the one other exception that is met. -/
inductive Errno
  | EAGAIN | EALREADY | EDESTADDRREQ | EHOSTUNREACH | EINVAL | EISCONN | ENOTCONN | EOPNOTSUPP
  | RangeError
deriving DecidableEq, Repr

inductive SockType
  | SOCK_STREAM | SOCK_DGRAM
deriving DecidableEq, Repr

inductive ReadyState
  | CONNECTING | OPEN | CLOSING | CLOSED
deriving DecidableEq, Repr

/-- Closing or closed. -/
def ReadyState.isGone (r : ReadyState) : Bool := r = .CLOSING ∨ r = .CLOSED

/-! ## Views -/

/-- A `Uint8Array` on a buffer: always inside of it. -/
structure View where
  buffer : Bytes
  byteOffset : Nat
  byteLength : Nat
  inside : byteOffset + byteLength ≤ buffer.length
deriving DecidableEq

namespace View

def ofBuffer (buffer : Bytes) : View := ⟨buffer, 0, buffer.length, by simp⟩

def bytes (v : View) : Bytes := (v.buffer.drop v.byteOffset).take v.byteLength

/-- `new Uint8Array(buffer, byteOffset, n)`, where the view has so many bytes. -/
def take (v : View) (n : Nat) : View :=
  ⟨v.buffer, v.byteOffset, min n v.byteLength, by have := v.inside; omega⟩

/-- `new Uint8Array(buffer, byteOffset + n, byteLength - n)`. -/
def drop (v : View) (n : Nat) : View :=
  ⟨v.buffer, v.byteOffset + min n v.byteLength, v.byteLength - min n v.byteLength, by
    have := v.inside; omega⟩

@[simp] theorem length_bytes (v : View) : v.bytes.length = v.byteLength := by
  have := v.inside
  simp only [bytes, List.length_take, List.length_drop]
  omega

@[simp] theorem bytes_ofBuffer (buffer : Bytes) : (ofBuffer buffer).bytes = buffer := by
  simp [bytes, ofBuffer]

@[simp] theorem bytes_take (v : View) (n : Nat) : (v.take n).bytes = v.bytes.take n := by
  simp [bytes, take, List.take_take]

@[simp] theorem bytes_drop (v : View) (n : Nat) : (v.drop n).bytes = v.bytes.drop n := by
  simp only [bytes, drop, List.drop_take, List.drop_drop]
  by_cases hn : n ≤ v.byteLength
  · rw [Nat.min_eq_left hn]
  · have hle : v.byteLength ≤ n := Nat.le_of_not_le hn
    simp [Nat.min_eq_right hle, Nat.sub_eq_zero_of_le hle]

end View

/-! ## State -/

structure Address where
  addr : String
  port : Nat
deriving DecidableEq, Repr

abbrev PeerId := Nat

/-- What is given to `send` of a WebSocket: the data of a call, or the port of a bound socket. -/
inductive Msg
  | data (bytes : Bytes)
  | port (sport : Nat)
deriving DecidableEq, Repr

/-- A peer with its WebSocket. -/
structure Peer where
  address : Address
  /-- `first` of `handlePeerEvents`: no message came yet. -/
  first : Bool
  msg_send_queue : List Msg
  readyState : ReadyState
  /-- What `socket.send` was called with. -/
  handed : List Msg
deriving DecidableEq

structure Queued where
  source : Address
  data : View
deriving DecidableEq

structure Sock where
  type : SockType
  /-- `saddr` and `sport`, once bound. -/
  bound : Option Address
  /-- `daddr` and `dport`. -/
  dest : Option Address
  server : Bool
  connecting : Bool
  /-- `sock.peers`, by address and port. -/
  peers : Address → Option PeerId
  peer : PeerId → Peer
  nextPeer : PeerId
  recv_queue : List Queued

abbrev Sys := Prog Sock Errno

namespace Sock

variable (s : Sock)

def setPeer (p : PeerId) (pr : Peer) : Sock := { s with peer := Function.update s.peer p pr }

/-- `getPeer`; there is no peer at an undefined address. -/
def getPeer (a : Option Address) : Option PeerId := a.bind s.peers

def addPeer (p : PeerId) : Sock :=
  { s with peers := Function.update s.peers (s.peer p).address (some p) }

def removePeer (p : PeerId) : Sock :=
  { s with peers := Function.update s.peers (s.peer p).address none }

def pushSend (p : PeerId) (m : Msg) : Sock :=
  s.setPeer p { s.peer p with msg_send_queue := (s.peer p).msg_send_queue ++ [m] }

/-- `peer.socket.send`. -/
def send (p : PeerId) (m : Msg) : Sock :=
  s.setPeer p { s.peer p with handed := (s.peer p).handed ++ [m] }

/-- A peer with its WebSocket in the given state. A bound datagram socket queues its port. -/
def newPeer (a : Address) (readyState : ReadyState) : Sock :=
  let p := s.nextPeer
  let port := match s.type, s.bound with
    | .SOCK_DGRAM, some b => [Msg.port b.port]
    | _, _ => []
  { s.setPeer p ⟨a, true, port, readyState, []⟩ with nextPeer := p + 1 }.addPeer p

end Sock

/-! ## Operations -/

/-- `createPeer` of an address: a new WebSocket, if its constructor does not throw. -/
def createPeer (a : Address) (reachable : Bool) : Sys PeerId := do
  Prog.failIf (¬ reachable) .EHOSTUNREACH
  let p ← Prog.gets fun s => s.nextPeer
  Prog.modify fun s => s.newPeer a .CONNECTING
  pure p

def bind (a : Address) : Sys Unit := do
  Prog.failIf (← Prog.gets fun s => s.bound.isSome) .EINVAL
  Prog.modify fun s => { s with bound := some a }

def listen (isNode : Bool) : Sys Unit := do
  Prog.failIf (¬ isNode) .EOPNOTSUPP
  Prog.failIf (← Prog.gets fun s => s.server) .EINVAL
  Prog.modify fun s => { s with server := true }

def connect (a : Address) (reachable : Bool) : Sys Unit := do
  let s ← Prog.gets id
  Prog.failIf s.server .EOPNOTSUPP
  match s.getPeer s.dest with
  | some p => Prog.fail (if (s.peer p).readyState = .CONNECTING then .EALREADY else .EISCONN)
  | none => do
      let _ ← createPeer a reachable
      Prog.modify fun s => { s with dest := some a, connecting := true }

/-- The address a message goes to. -/
def Sock.destination (s : Sock) (target : Option Address) : Option Address :=
  match s.type with
  | .SOCK_DGRAM => target.or s.dest
  | .SOCK_STREAM => s.dest

/-- The peer a message is queued for, which a datagram socket makes where it has none. -/
def queuePeer (a : Address) (dest : Option PeerId) (reachable : Bool) : Sys PeerId := do
  let s ← Prog.gets id
  match dest with
  | some p =>
    if s.type = .SOCK_DGRAM ∧ (s.peer p).readyState.isGone then createPeer a reachable else pure p
  | none => createPeer a reachable

/-- A message that is not sent at once is queued, and its length returned all the same. -/
def transmit (data : Bytes) (a : Address) (dest : Option PeerId) (reachable : Bool) : Sys Nat := do
  let s ← Prog.gets id
  match dest.filter fun p => (s.peer p).readyState = .OPEN with
  | some p => do
      Prog.modify fun s => s.send p (.data data)
      pure data.length
  | none => do
      let p ← queuePeer a dest reachable
      Prog.modify fun s => s.pushSend p (.data data)
      pure data.length

def sendmsg (data : Bytes) (target : Option Address) (reachable : Bool) : Sys Nat := do
  let s ← Prog.gets id
  let dest := s.getPeer (s.destination target)
  Prog.failIf (s.type = .SOCK_DGRAM ∧ s.destination target = none) .EDESTADDRREQ
  Prog.failIf (s.type = .SOCK_STREAM ∧ dest.all fun p => (s.peer p).readyState.isGone) .ENOTCONN
  match s.destination target with
  | some a => transmit data a dest reachable
  | none => Prog.fail .ENOTCONN

/-- `recvmsg` with an empty queue: nothing to read, or the end of a stream. -/
def recvNothing : Sys (Option View) := do
  let s ← Prog.gets id
  match s.type, s.getPeer s.dest with
  | .SOCK_STREAM, none => Prog.fail .ENOTCONN
  | .SOCK_STREAM, some p =>
    if (s.peer p).readyState.isGone then pure none else Prog.fail .EAGAIN
  | .SOCK_DGRAM, _ => Prog.fail .EAGAIN

/-- What a stream has not read of a message goes back to the front of the queue. -/
def recvmsg (length : Int) : Sys (Option View) := do
  let s ← Prog.gets id
  Prog.failIf (s.type = .SOCK_STREAM ∧ s.server) .ENOTCONN
  match s.recv_queue with
  | [] => recvNothing
  | queued :: rest => do
      Prog.modify fun s => { s with recv_queue := rest }
      Prog.failIf (length < 0) .RangeError
      let bytesRead := min length.toNat queued.data.byteLength
      if s.type = .SOCK_STREAM ∧ bytesRead < queued.data.byteLength then do
        Prog.modify fun s =>
          { s with recv_queue := { queued with data := queued.data.drop bytesRead } :: s.recv_queue }
        pure (some (queued.data.take bytesRead))
      else pure (some (queued.data.take bytesRead))

/-- `FS.read` on the stream of the socket. -/
def read (length : Int) : Sys Bytes := do
  Prog.failIf (length < 0) .EINVAL
  let msg ← recvmsg length
  pure (msg.elim [] View.bytes)

/-- `__syscall_recvfrom`. -/
def recvfrom (length : Int) : Sys Bytes := do
  let msg ← recvmsg length
  pure (msg.elim [] View.bytes)

/-- `ioctl` with `FIONREAD`. -/
def fionread : Sys Nat := Prog.gets fun s => (s.recv_queue.head?.map (·.data.byteLength)).getD 0

/-! ## Events of a WebSocket -/

/-- The in-band message with the port of a bound datagram socket. -/
def PortMessage (data : Bytes) : Prop :=
  data.length = 10 ∧ data.take 8 = [255, 255, 255, 255, 112, 111, 114, 116]

instance (data : Bytes) : Decidable (PortMessage data) := inferInstanceAs (Decidable (_ ∧ _))

/-- The port in its last two bytes. -/
def newport (data : Bytes) : Nat := (data.getD 8 0).toNat * 256 + (data.getD 9 0).toNat

namespace Sock

def handleMessage (s : Sock) (p : PeerId) (isText : Bool) (data : Bytes) : Sock :=
  if ¬ isText ∧ data = [] then s
  else
    let wasfirst := (s.peer p).first
    let s := s.setPeer p { s.peer p with first := false }
    if wasfirst ∧ PortMessage data then
      let s := s.removePeer p
      let s := s.setPeer p { s.peer p with address := ⟨(s.peer p).address.addr, newport data⟩ }
      s.addPeer p
    else { s with recv_queue := s.recv_queue ++ [⟨(s.peer p).address, View.ofBuffer data⟩] }

/-- `handleOpen` up to the callback. -/
def handleOpen (s : Sock) (p : PeerId) : Sock :=
  { s.setPeer p { s.peer p with readyState := .OPEN } with connecting := false }

/-- `handleOpen` after the callback: the queue is sent. -/
def flush (s : Sock) (p : PeerId) : Sock :=
  s.setPeer p { s.peer p with
    handed := (s.peer p).handed ++ (s.peer p).msg_send_queue, msg_send_queue := [] }

def leave (s : Sock) (p : PeerId) (closed : Bool) : Sock :=
  s.setPeer p { s.peer p with readyState := if closed then .CLOSED else .CLOSING }

end Sock

/-! ## Runs -/

inductive Call
  | bind (a : Address)
  | listen (isNode : Bool)
  | connect (a : Address) (reachable : Bool)
  | sendmsg (data : Bytes) (target : Option Address) (reachable : Bool)
  | read (length : Int)
  | recvfrom (length : Int)
  | fionread
deriving DecidableEq

inductive Reply
  | unit
  | count (n : Nat)
  | bytes (bs : Bytes)
deriving DecidableEq, Repr

def Call.run : Call → Sys Reply
  | .bind a => do Sockfs.bind a; pure .unit
  | .listen isNode => do Sockfs.listen isNode; pure .unit
  | .connect a reachable => do Sockfs.connect a reachable; pure .unit
  | .sendmsg data target reachable => do pure (.count (← Sockfs.sendmsg data target reachable))
  | .read length => do pure (.bytes (← Sockfs.read length))
  | .recvfrom length => do pure (.bytes (← Sockfs.recvfrom length))
  | .fionread => do pure (.count (← Sockfs.fionread))

inductive Event
  | call (c : Call)
  /-- The WebSocket opens, and the callback of the "open" event starts. -/
  | opened (p : PeerId)
  /-- The callback returns, or throws. -/
  | returned
  | thrown
  | message (p : PeerId) (isText : Bool) (data : Bytes)
  /-- The WebSocket is closing, or is closed. -/
  | gone (p : PeerId) (closed : Bool)
  /-- A listening datagram socket gets a connection. -/
  | incoming (a : Address)
deriving DecidableEq

/-- A socket, with what is remembered of the run. -/
structure SockRun where
  sock : Sock
  /-- The peer whose "open" event is being handled. -/
  opening : Option PeerId
  /-- Ghost: for each peer, the messages for which `sendmsg` reported success. -/
  accepted : PeerId → List Bytes
  /-- Ghost: all bytes that messages brought, and all that reads returned. -/
  delivered : Bytes
  returned : Bytes

namespace SockRun

/-- The sockets that `socket` and `accept` make: the second is connected. -/
def created (type : SockType) : SockRun :=
  ⟨⟨type, none, none, false, false, fun _ => none,
    fun _ => ⟨⟨"", 0⟩, true, [], .CONNECTING, []⟩, 0, []⟩, none, fun _ => [], [], []⟩

def connected (a : Address) : SockRun :=
  { created .SOCK_STREAM with
    sock := { (created .SOCK_STREAM).sock.newPeer a .OPEN with dest := some a } }

/-- The peer that a message was sent to, seen after the call. -/
def sentTo (s : Sock) (target : Option Address) : Option PeerId := s.getPeer (s.destination target)

def note (s : SockRun) (sock : Sock) : Call → Except Errno Reply → SockRun
  | .sendmsg data target _, .ok _ => match sentTo sock target with
    | some p => { s with sock := sock, accepted := Function.update s.accepted p (s.accepted p ++ [data]) }
    | none => { s with sock := sock }
  | _, .ok (.bytes bs) => { s with sock := sock, returned := s.returned ++ bs }
  | _, _ => { s with sock := sock }

/-- The next state. WebSockets deliver when they are open, and no event comes during a callback. -/
def step (s : SockRun) : Event → Option SockRun
  | .call c => (c.run s.sock).map fun r => s.note r.1 c r.2
  | .opened p =>
    if s.opening = none ∧ p < s.sock.nextPeer ∧ (s.sock.peer p).readyState = .CONNECTING then
      some { s with sock := s.sock.handleOpen p, opening := some p }
    else none
  | .returned => s.opening.map fun p => { s with sock := s.sock.flush p, opening := none }
  | .thrown => s.opening.map fun _ => { s with opening := none }
  | .message p isText data =>
    if s.opening = none ∧ p < s.sock.nextPeer ∧ (s.sock.peer p).readyState = .OPEN then
      some { s with sock := s.sock.handleMessage p isText data, delivered := s.delivered ++ data }
    else none
  | .gone p closed =>
    if s.opening = none ∧ p < s.sock.nextPeer then
      some { s with sock := s.sock.leave p closed }
    else none
  | .incoming a =>
    if s.opening = none ∧ s.sock.type = .SOCK_DGRAM ∧ s.sock.server then
      some { s with sock := s.sock.newPeer a .OPEN }
    else none

end SockRun

end Sockfs
