-- SUMMARY: The handlers of the proxy's socket messages: what they read, what they give to system calls, what they answer.
import Emscripten.Lib.Words

/-!
# Handlers of socket messages

Each handler casts a message payload to its own structure, makes at most one system call, and
answers with one message. An access outside of the payload or of a local buffer stops the run,
and so do a `malloc` of a size that no object has and a failed assertion.

The `Kernel` says what the system calls return. A call reads or writes all of a length it is given;
lengths are unsigned, and the translation of options and flags does not show in what is accessed.
-/

namespace Proxy

open Words

inductive Stop
  | outside
  | noMemory
  | aborted

/-! ## Memory -/

def access (off len size : Nat) : Except Stop Unit :=
  if len = 0 ∨ off + len ≤ size then .ok () else .error .outside

def uint32 (off : Nat) (data : List UInt8) : Except Stop Nat :=
  match load 4 off data with
  | some n => .ok n
  | none => .error .outside

def malloc (size : Nat) : Except Stop Nat := if size < 2 ^ 63 then .ok size else .error .noMemory

/-- `(int)` of a word. -/
def toInt (n : Nat) : Int := if n % 2 ^ 32 < 2 ^ 31 then (n % 2 ^ 32 : Nat) else (n % 2 ^ 32 : Nat) - 2 ^ 32

/-- `(int)` of a longer integer. -/
def castInt (i : Int) : Int := toInt (i % 2 ^ 32).toNat

/-- `(uint32_t)` of an `int`. -/
def toUInt (i : Int) : Nat := (i % 2 ^ 32).toNat

/-- `(size_t)` of an `int`. -/
def toSize (i : Int) : Nat := (i % 2 ^ 64).toNat

def intBytes (i : Int) : List UInt8 := toLE 4 (toUInt i)

/-! ## System calls -/

def MAX_SOCKADDR_SIZE : Nat := 256

def MAX_OPTIONVALUE_SIZE : Nat := 16

/-- The size of `struct sockaddr_storage`, which has room for every address. -/
def SOCKADDR_STORAGE_SIZE : Nat := 128

def IsInt (i : Int) : Prop := -2 ^ 31 ≤ i ∧ i < 2 ^ 31

/-- The value of a call, and of `errno` behind it. -/
structure Result where
  ret : Int
  errno : Int
  ret_int : IsInt ret
  errno_int : IsInt errno

structure PairResult extends Result where
  sv : Int × Int
  sv_int : IsInt sv.1 ∧ IsInt sv.2

/-- The calls that tell an address. A failed one leaves the length that it was given. -/
structure AddressResult extends Result where
  address : List UInt8
  storage : address.length ≤ SOCKADDR_STORAGE_SIZE

structure SendResult (length : Nat) where
  ret : Int
  errno : Int
  errno_int : IsInt errno
  bound : -1 ≤ ret ∧ ret ≤ length

/-- Bytes received, or a failure. -/
structure RecvResult (length : Nat) where
  data : Option (List UInt8)
  errno : Int
  errno_int : IsInt errno
  fits : ∀ bs ∈ data, bs.length ≤ length

def RecvResult.ret {length : Nat} (r : RecvResult length) : Int :=
  match r.data with
  | some bs => bs.length
  | none => -1

def RecvResult.bytes {length : Nat} (r : RecvResult length) : List UInt8 := r.data.getD []

/-- A protocol without addresses leaves the length that it was given. -/
structure RecvfromResult (length : Nat) extends RecvResult length where
  address : Option (List UInt8)
  storage : ∀ a ∈ address, a.length ≤ SOCKADDR_STORAGE_SIZE

structure OptionResult (given : Nat) extends Result where
  value : List UInt8
  fits : value.length ≤ given

structure Addrinfo where
  flags : Int
  family : Int
  socktype : Int
  protocol : Int
  ints : IsInt flags ∧ IsInt family ∧ IsInt socktype ∧ IsInt protocol
  addr : List UInt8
  storage : addr.length ≤ SOCKADDR_STORAGE_SIZE

/-- A name has not so many addresses that they fill a gigabyte, and a string has no zero. -/
structure AddrinfoResult extends Result where
  canonname : Option (List UInt8)
  canonname_zero : ∀ name ∈ canonname, 0 ∉ name
  addrs : List Addrinfo
  few : addrs.length < 2 ^ 22

structure Kernel where
  /-- `errno` where no call is made. -/
  errno : Int
  errno_int : IsInt errno
  call : Result
  socketpair : PairResult
  address : AddressResult
  send : (length : Nat) → SendResult length
  recv : (length : Nat) → RecvResult length
  recvfrom : (length : Nat) → RecvfromResult length
  getsockopt : (given : Nat) → OptionResult given
  getaddrinfo : AddrinfoResult
  /-- What locals hold that were not set. -/
  stack : Nat → UInt8

def Kernel.locals (k : Kernel) (size : Nat) : List UInt8 := (List.range size).map k.stack

/-! ## Answers -/

/-- Bytes that are copied behind the fields of an answer, out of a buffer of `size` bytes. -/
structure Part where
  len : Int
  bytes : List UInt8
  size : Nat

def copyParts (total : Nat) : Nat → List Part → Except Stop (List UInt8)
  | _, [] => .ok []
  | off, p :: ps => do
      access 0 (toSize p.len) p.size
      access off (toSize p.len) total
      let rest ← copyParts total (off + toSize p.len) ps
      .ok (p.bytes.take (toSize p.len) ++ rest)

/-- Allocate the answer, `resultSize` being an `int`, fill it in and send it. -/
def answer (fields : List Int) (parts : List Part) : Except Stop (List (List UInt8)) := do
  let head := fields.flatMap intBytes
  let resultSize := castInt (head.length + (parts.map fun p => toSize p.len).sum : Nat)
  let size ← malloc (toSize resultSize)
  access 0 head.length size
  let tail ← copyParts size head.length parts
  .ok [head ++ tail]

/-! ## Handlers -/

section

variable (k : Kernel) (tracked : Int → Bool) (data : List UInt8)

/-- Every connection may use socket 0. -/
def IsSocketPartOfConnection (usedSocket : Int) : Bool := usedSocket == 0 || tracked usedSocket

def isOwned : Except Stop Bool := do
  let socket ← uint32 8 data
  .ok (IsSocketPartOfConnection tracked (toInt socket))

def callId : Except Stop Int := do
  let word ← uint32 0 data
  .ok (toInt word)

/-- The fields are translated in place. -/
def Socket : Except Stop (List (List UInt8)) := do
  let _domain ← uint32 8 data
  let _type ← uint32 12 data
  let _protocol ← uint32 16 data
  let errorCode := if k.call.ret < 0 then k.call.errno else 0
  answer [← callId data, k.call.ret, errorCode] []

def Socketpair : Except Stop (List (List UInt8)) := do
  let _domain ← uint32 8 data
  let _type ← uint32 12 data
  let _protocol ← uint32 16 data
  let r := k.socketpair
  let errorCode := if r.ret ≠ 0 then r.errno else 0
  answer [← callId data, r.ret, errorCode, r.sv.1, r.sv.2] []

/-- A handler that makes a call on a socket of the connection and answers with its value. `call` is what
it reads for the call, and what the call reads. -/
def socketCall (call : Except Stop (Int × Int)) : Except Stop (List (List UInt8)) := do
  let (ret, errno) ← if ← isOwned tracked data then call else .ok (-1, k.errno)
  answer [← callId data, ret, if ret ≠ 0 then errno else 0] []

def Shutdown : Except Stop (List (List UInt8)) := do
  let _how ← uint32 12 data
  socketCall k tracked data (.ok (k.call.ret, k.call.errno))

def Bind : Except Stop (List (List UInt8)) :=
  socketCall k tracked data do
    let address_len ← uint32 12 data
    access 16 address_len data.length
    .ok (k.call.ret, k.call.errno)

/-- `MIN(d->address_len, (uint32_t)numBytes - sizeof(MSG))`, in 64 bits, and then an `int`. -/
def connectLength (address_len numBytes : Nat) : Int :=
  castInt (min address_len (toSize ((numBytes % 2 ^ 32 : Nat) - 16)) : Nat)

def Connect : Except Stop (List (List UInt8)) := do
  let address_len ← uint32 12 data
  let actualAddressLen := connectLength address_len data.length
  socketCall k tracked data do
    access 16 (toUInt actualAddressLen) data.length
    .ok (k.call.ret, k.call.errno)

def Listen : Except Stop (List (List UInt8)) :=
  socketCall k tracked data do
    let _backlog ← uint32 12 data
    .ok (k.call.ret, k.call.errno)

/-- The answer of the handlers that tell an address or an option. -/
def answerValue (ret errorCode : Int) (outLen askedLen : Nat) (buffer : List UInt8) :
    Except Stop (List (List UInt8)) := do
  let actualLen := castInt (min outLen askedLen : Nat)
  answer [← callId data, ret, errorCode, toInt outLen] [⟨actualLen, buffer, buffer.length⟩]

def Accept : Except Stop (List (List UInt8)) := do
  let address_len ← uint32 12 data
  let addressLen := max 0 (min address_len MAX_SOCKADDR_SIZE)
  let address := List.replicate MAX_SOCKADDR_SIZE 0
  if ← isOwned tracked data then
    access 0 addressLen MAX_SOCKADDR_SIZE
    let r := k.address
    let errorCode := if r.ret < 0 then r.errno else 0
    -- without a length the call is given null pointers
    if r.ret < 0 ∨ address_len = 0 then answerValue data r.ret errorCode addressLen address_len address
    else
      let written := r.address.take addressLen
      answerValue data r.ret errorCode r.address.length address_len (written ++ address.drop written.length)
  else answerValue data (-1) (-1) 0 address_len address

def addressCall : Except Stop (List (List UInt8)) := do
  let address_len ← uint32 12 data
  let address := k.locals MAX_SOCKADDR_SIZE
  if ← isOwned tracked data then
    access 0 address_len MAX_SOCKADDR_SIZE
    let r := k.address
    let errorCode := if r.ret ≠ 0 then r.errno else 0
    if r.ret ≠ 0 then answerValue data r.ret errorCode address_len address_len address
    else
      let written := r.address.take address_len
      answerValue data r.ret errorCode r.address.length address_len (written ++ address.drop written.length)
  else answerValue data (-1) (-1) 0 address_len address

def Getsockname : Except Stop (List (List UInt8)) := addressCall k tracked data

def Getpeername : Except Stop (List (List UInt8)) := addressCall k tracked data

/-- `MIN((int)numBytes - sizeof(MSG), d->length)`, in 64 bits, and then an `int`. -/
def sendBytes (length numBytes : Nat) : Int :=
  castInt (min (toSize (toInt numBytes - 20)) length : Nat)

def Send : Except Stop (List (List UInt8)) := do
  let length ← uint32 12 data
  let actualBytes := sendBytes length data.length
  socketCall k tracked data do
    let _flags ← uint32 16 data
    access 20 (toSize actualBytes) data.length
    let r := k.send (toSize actualBytes)
    .ok (castInt r.ret, r.errno)

def Recv : Except Stop (List (List UInt8)) := do
  let length ← uint32 12 data
  let size ← malloc length
  if ← isOwned tracked data then
    let _flags ← uint32 16 data
    let r := k.recv length
    let errorCode := if r.ret ≠ 0 then r.errno else 0
    let receivedBytes := castInt (max r.ret 0)
    answer [← callId data, castInt r.ret, errorCode] [⟨receivedBytes, r.bytes, size⟩]
  else answer [← callId data, -1, -1] [⟨0, [], size⟩]

def Sendto : Except Stop (List (List UInt8)) :=
  socketCall k tracked data do
    let length ← uint32 12 data
    let _flags ← uint32 16 data
    let dest_len ← uint32 20 data
    access 280 length data.length
    access 24 dest_len data.length
    let r := k.send length
    .ok (castInt r.ret, r.errno)

/-- The length of the address in the answer is the one that was asked for. -/
def Recvfrom : Except Stop (List (List UInt8)) := do
  let length ← uint32 12 data
  let asked ← uint32 20 data
  let size ← malloc length
  let address := k.locals MAX_SOCKADDR_SIZE
  let send := fun (ret errorCode receivedBytes : Int) (bytes : List UInt8) (address_len : Nat)
      (address : List UInt8) => do
    let actualAddressLen := castInt (min address_len asked : Nat)
    answer [← callId data, ret, errorCode, receivedBytes, toInt asked]
      [⟨receivedBytes, bytes, size⟩, ⟨actualAddressLen, address, MAX_SOCKADDR_SIZE⟩]
  if ← isOwned tracked data then
    let _flags ← uint32 16 data
    access 0 asked MAX_SOCKADDR_SIZE
    let r := k.recvfrom length
    let ret := castInt r.ret
    let errorCode := if ret ≠ 0 then r.errno else 0
    match r.data, r.address with
    | some _, some a =>
      let written := a.take asked
      send ret errorCode (max ret 0) r.bytes a.length (written ++ address.drop written.length)
    | _, _ => send ret errorCode (max ret 0) r.bytes asked address
  else send (-1) (-1) 0 [] 0 address

def Getsockopt : Except Stop (List (List UInt8)) := do
  let _level ← uint32 12 data
  let _option_name ← uint32 16 data
  let asked ← uint32 20 data
  let option_value := k.locals MAX_OPTIONVALUE_SIZE
  if ← isOwned tracked data then
    access 0 asked MAX_OPTIONVALUE_SIZE
    let r := k.getsockopt asked
    let errorCode := if r.ret ≠ 0 then r.errno else 0
    if r.ret ≠ 0 then answerValue data r.ret errorCode asked asked option_value
    else answerValue data r.ret errorCode r.value.length asked (r.value ++ option_value.drop r.value.length)
  else answerValue data (-1) (-1) 0 asked option_value

/-- `MIN(d->option_len, (int)(numBytes - sizeof(MSG)))`, of two `int`s. -/
def optionLength (option_len : Int) (numBytes : Nat) : Int :=
  min option_len (castInt (numBytes - 24))

def Setsockopt : Except Stop (List (List UInt8)) := do
  let option_len ← uint32 20 data
  let actualOptionLen := optionLength (toInt option_len) data.length
  let _level ← uint32 12 data
  let _option_name ← uint32 16 data
  socketCall k tracked data do
    access 24 (toUInt actualOptionLen) data.length
    .ok (k.call.ret, k.call.errno)

def MAX_NODE_LEN : Nat := 2048

def MAX_SERVICE_LEN : Nat := 128

/-- A string is read up to its zero. -/
def cstring (off : Nat) : Except Stop Unit :=
  if 0 ∈ data.drop off then .ok () else .error .outside

/-- `strncpy` of at most `MAX_NODE_LEN - 1` bytes into zeros. -/
def canonnameBytes (name : Option (List UInt8)) : List UInt8 :=
  let bytes := (name.getD []).take (MAX_NODE_LEN - 1)
  bytes ++ List.replicate (MAX_NODE_LEN - bytes.length) 0

def Addrinfo.bytes (ai : Addrinfo) : List UInt8 :=
  [ai.flags, ai.family, ai.socktype, ai.protocol, (ai.addr.length : Int)].flatMap intBytes ++ ai.addr

/-- The canonical name is that of the first result. -/
def Getaddrinfo : Except Stop (List (List UInt8)) := do
  let _hasHints ← uint32 (8 + MAX_NODE_LEN + MAX_SERVICE_LEN) data
  let _ai_flags ← uint32 (12 + MAX_NODE_LEN + MAX_SERVICE_LEN) data
  let _ai_family ← uint32 (16 + MAX_NODE_LEN + MAX_SERVICE_LEN) data
  let _ai_socktype ← uint32 (20 + MAX_NODE_LEN + MAX_SERVICE_LEN) data
  let _ai_protocol ← uint32 (24 + MAX_NODE_LEN + MAX_SERVICE_LEN) data
  cstring data 8
  cstring data (8 + MAX_NODE_LEN)
  let r := k.getaddrinfo
  let errorCode := if r.ret ≠ 0 then r.errno else 0
  let addrs := if r.ret = 0 then r.addrs else []
  let name := if r.ret = 0 ∧ addrs ≠ [] then r.canonname else none
  let body := canonnameBytes name ++ intBytes addrs.length ++ addrs.flatMap Addrinfo.bytes
  answer [← callId data, r.ret, errorCode] [⟨body.length, body, body.length⟩]

/-- The handlers that are not implemented answer nothing. -/
def unimplemented : Except Stop (List (List UInt8)) := .ok []

/-- `switch (header->function)`. -/
def handle : Nat → Except Stop (List (List UInt8))
  | 1 => Socket k data
  | 2 => Socketpair k data
  | 3 => Shutdown k tracked data
  | 4 => Bind k tracked data
  | 5 => Connect k tracked data
  | 6 => Listen k tracked data
  | 7 => Accept k tracked data
  | 8 => Getsockname k tracked data
  | 9 => Getpeername k tracked data
  | 10 => Send k tracked data
  | 11 => Recv k tracked data
  | 12 => Sendto k tracked data
  | 13 => Recvfrom k tracked data
  | 14 => unimplemented
  | 15 => unimplemented
  | 16 => Getsockopt k tracked data
  | 17 => Setsockopt k tracked data
  | 18 => Getaddrinfo k data
  | 19 => unimplemented
  | _ => .ok []

/-- The calls that may block are made by another thread, on a copy of the payload. -/
def ProcessWebSocketMessage : Except Stop (List (List UInt8)) :=
  if data.length < 8 then .ok []
  else do
    let function ← uint32 4 data
    handle k tracked data function

end

end Proxy
