-- SUMMARY: Binary frames as the WebSocket protocol lays them out, and the frames the proxy sends.
import Emscripten.Proxy.WebSocketFrame

/-!
# Frames

`Frame` is a complete binary frame and `Frame.bytes` its layout. The accessors, which
decode every part on their own, agree with it on any bytes that start with the frame.
-/

namespace Proxy

open Words

/-! ## Layout -/

/-- The sender is free to choose a class that is longer than needed. -/
inductive LengthClass
  | bits7
  | bits16
  | bits64

/-- The most significant bit of a 64-bit length is zero. -/
def LengthClass.bound : LengthClass → Nat
  | bits7 => 126
  | bits16 => 2 ^ 16
  | bits64 => 2 ^ 63

def LengthClass.code (len : Nat) : LengthClass → Nat
  | bits7 => len
  | bits16 => 126
  | bits64 => 127

def LengthClass.bytes : LengthClass → Nat
  | bits7 => 0
  | bits16 => 2
  | bits64 => 8

structure Frame where
  fin : Bool
  rsv : Nat
  rsv_lt : rsv < 8
  key : Option (List UInt8)
  key_length : ∀ k ∈ key, k.length = 4
  lengthClass : LengthClass
  payload : List UInt8
  fits : payload.length < lengthClass.bound

namespace Frame

def header (f : Frame) : WebSocketMessageHeader where
  opcode := 0x02
  rsv := f.rsv
  fin := f.fin
  payloadLength := f.lengthClass.code f.payload.length
  mask := f.key.isSome

/-- The extended length, in network order. -/
def lengthBytes (f : Frame) : List UInt8 := (toLE f.lengthClass.bytes f.payload.length).reverse

def keyBytes (f : Frame) : List UInt8 := f.key.getD []

def maskedPayload (f : Frame) : List UInt8 :=
  match f.key with
  | none => f.payload
  | some k => xorFrom k 0 f.payload

def bytes (f : Frame) : List UInt8 :=
  f.header.bytes ++ (f.lengthBytes ++ (f.keyBytes ++ f.maskedPayload))

variable (f : Frame)

theorem code_lt : f.header.payloadLength < 128 := by
  have hfits := f.fits
  unfold header LengthClass.code
  unfold LengthClass.bound at hfits
  cases hclass : f.lengthClass <;> simp only [hclass] at hfits ⊢ <;> omega

@[simp] theorem length_maskedPayload : f.maskedPayload.length = f.payload.length := by
  unfold maskedPayload
  split <;> simp

@[simp] theorem length_lengthBytes : f.lengthBytes.length = f.header.extBytes := by
  have hfits := f.fits
  simp only [lengthBytes, List.length_reverse, length_toLE, WebSocketMessageHeader.extBytes, header,
    LengthClass.code]
  unfold LengthClass.bound at hfits
  cases hclass : f.lengthClass <;> simp only [hclass] at hfits ⊢ <;> simp only [LengthClass.bytes]
  -- a short length is neither of the codes of an extended one
  split <;> omega

@[simp] theorem length_keyBytes : f.keyBytes.length = f.header.keyBytes := by
  have hkey := f.key_length
  unfold keyBytes WebSocketMessageHeader.keyBytes header
  cases hf : f.key with
  | none => simp
  | some k => simp [hkey k hf]

theorem length_bytes : f.bytes.length = f.header.headerBytes + f.payload.length := by
  simp [bytes, WebSocketMessageHeader.bytes, WebSocketMessageHeader.headerBytes]
  omega

theorem length_bytes_lt : f.bytes.length < 2 ^ 64 := by
  have hfits := f.fits
  have hbound : f.lengthClass.bound ≤ 2 ^ 63 := by
    cases f.lengthClass <;> simp [LengthClass.bound]
  have hhead := headerBytes_le f.header
  rw [length_bytes]
  omega

/-! ## Reading a frame back -/

variable (more : List UInt8)

theorem readHeader_bytes : readHeader (f.bytes ++ more) = some f.header := by
  have hcode := f.code_lt
  have hrsv := f.rsv_lt
  have hofBytes : WebSocketMessageHeader.ofBytes
      (.ofNat (0x02 + 16 * f.rsv + 128 * f.fin.toNat))
      (.ofNat (f.header.payloadLength + 128 * f.header.mask.toNat)) = f.header := by
    have hfin : f.fin.toNat ≤ 1 := Bool.toNat_le _
    have hmask : f.header.mask.toNat ≤ 1 := Bool.toNat_le _
    have hfirst : (2 + 16 * f.rsv + 128 * f.fin.toNat) % 256 = 2 + 16 * f.rsv + 128 * f.fin.toNat :=
      Nat.mod_eq_of_lt (by omega)
    have hsecond : (f.header.payloadLength + 128 * f.header.mask.toNat) % 256 =
        f.header.payloadLength + 128 * f.header.mask.toNat := Nat.mod_eq_of_lt (by omega)
    have hbit : ∀ b : Bool, (b.toNat == 1) = b := by decide
    have hf : f.header = ⟨2, f.rsv, f.fin, f.header.payloadLength, f.header.mask⟩ := rfl
    rw [hf]
    simp only [WebSocketMessageHeader.ofBytes, UInt8.toNat_ofNat', hfirst, hsecond,
      WebSocketMessageHeader.mk.injEq]
    refine ⟨by omega, by omega, ?_, by omega, ?_⟩
    · rw [show (2 + 16 * f.rsv + 128 * f.fin.toNat) / 128 = f.fin.toNat by omega]
      exact hbit _
    · rw [show (f.header.payloadLength + 128 * f.header.mask.toNat) / 128 = f.header.mask.toNat by omega]
      exact hbit _
  simp only [bytes, WebSocketMessageHeader.bytes, List.cons_append, List.nil_append, readHeader]
  exact congrArg some hofBytes

theorem load_lengthBytes :
    load f.header.extBytes 2 (f.bytes ++ more) = some (ofLE f.lengthBytes) := by
  have hfront : f.header.bytes.length = 2 := rfl
  simp only [bytes, List.append_assoc]
  exact load_middle hfront f.length_lengthBytes _

theorem ofBE_lengthBytes (hext : f.lengthClass ≠ .bits7) : ofBE f.lengthBytes = f.payload.length := by
  have hfits := f.fits
  have hbound : f.lengthClass.bound ≤ 256 ^ f.lengthClass.bytes := by
    cases hclass : f.lengthClass <;> simp_all [LengthClass.bound, LengthClass.bytes]
  simp only [ofBE, lengthBytes, List.reverse_reverse, ofLE_toLE]
  exact Nat.mod_eq_of_lt (Nat.lt_of_lt_of_le hfits hbound)

theorem payloadLength_bytes :
    WebSocketMessagePayloadLength (f.bytes ++ more) = some f.payload.length := by
  have hfits := f.fits
  have hload := f.load_lengthBytes more
  have hlen := f.length_lengthBytes
  simp only [WebSocketMessagePayloadLength, f.readHeader_bytes more, bind, Option.bind_some]
  cases hclass : f.lengthClass with
  | bits7 =>
    have hcode : f.header.payloadLength = f.payload.length := by simp [header, hclass, LengthClass.code]
    simp only [hclass, LengthClass.bound] at hfits
    split
    · omega
    · omega
    · exact congrArg some hcode
  | bits16 =>
    have hcode : f.header.payloadLength = 126 := by simp [header, hclass, LengthClass.code]
    have hext : f.header.extBytes = 2 := by simp [WebSocketMessageHeader.extBytes, hcode]
    rw [hext] at hload hlen
    simp [hcode, hload, ntohs_ofLE hlen, f.ofBE_lengthBytes (by simp [hclass])]
  | bits64 =>
    have hcode : f.header.payloadLength = 127 := by simp [header, hclass, LengthClass.code]
    have hext : f.header.extBytes = 8 := by simp [WebSocketMessageHeader.extBytes, hcode]
    rw [hext] at hload hlen
    simp [hcode, hload, ntoh64_ofLE hlen, f.ofBE_lengthBytes (by simp [hclass])]

theorem fullMessageSize_bytes :
    WebSocketFullMessageSize (f.bytes ++ more) = some f.bytes.length := by
  rw [fullMessageSize_eq (f.readHeader_bytes more), payloadLength_bytes, Option.map_some,
    ← length_bytes, Nat.mod_eq_of_lt f.length_bytes_lt]

theorem drop_headerBytes :
    (f.bytes ++ more).drop f.header.headerBytes = f.maskedPayload ++ more := by
  have hassoc : f.bytes ++ more =
      (f.header.bytes ++ (f.lengthBytes ++ f.keyBytes)) ++ (f.maskedPayload ++ more) := by
    simp [bytes]
  have hfront : (f.header.bytes ++ (f.lengthBytes ++ f.keyBytes)).length = f.header.headerBytes := by
    simp [WebSocketMessageHeader.bytes, WebSocketMessageHeader.headerBytes]
    omega
  rw [hassoc, ← hfront, List.drop_left]

/-- The key is read where the frame has it. -/
theorem maskingKey_bytes {k : List UInt8} (hk : f.key = some k) :
    WebSocketMessageMaskingKey (f.bytes ++ more) = some (ofLE k) := by
  have hmask : f.header.mask = true := by simp [header, hk]
  have hload : load 4 (2 + f.header.extBytes) (f.bytes ++ more) = some (ofLE k) := by
    have hassoc : f.bytes ++ more =
        (f.header.bytes ++ f.lengthBytes) ++ (k ++ (f.maskedPayload ++ more)) := by
      simp [bytes, keyBytes, hk]
    rw [hassoc]
    exact load_middle (by simp [WebSocketMessageHeader.bytes]; omega) (f.key_length k hk) _
  revert hload
  simp only [WebSocketMessageMaskingKey, f.readHeader_bytes more, bind, Option.bind_some, hmask, if_true,
    WebSocketMessageHeader.extBytes]
  split <;> exact id

end Frame

/-! ## Sending -/

/-- `hton64` is `ntoh64`, and `htons` is `ntohs`. -/
def hton64 (x : Nat) : Nat := ntoh64 x

def htons (x : Nat) : Nat := ntohs x

/-- `(int)numBytes`, as the `size_t` that `send` takes. -/
def sendLength (numBytes : Nat) : Nat := ((BitVec.ofNat 32 numBytes).signExtend 64).toNat

def sentHeader (numBytes : Nat) : List UInt8 :=
  let header := fun payloadLength : Nat =>
    (WebSocketMessageHeader.mk 0x02 0 true payloadLength false).bytes
  if numBytes < 126 then header numBytes
  else if numBytes ≤ 65535 then header 126 ++ toLE 2 (htons (numBytes % 2 ^ 16))
  else header 127 ++ toLE 8 (hton64 numBytes)

/-- A buffer with a message. No object in memory has 2^63 bytes. -/
structure Message where
  bytes : List UInt8
  small : bytes.length < 2 ^ 63

/-- What is put on the wire, where `send` takes all it is given, and none where it is to take
bytes behind the message. -/
def SendWebSocketMessage (m : Message) : Option (List UInt8) :=
  if sendLength m.bytes.length ≤ m.bytes.length then
    some (sentHeader m.bytes.length ++ m.bytes.take (sendLength m.bytes.length))
  else none

theorem toLE_hton64 {n : Nat} (h : n < 2 ^ 64) : toLE 8 (hton64 n) = (toLE 8 n).reverse := by
  have hn : ofLE (toLE 8 n) = n := by rw [ofLE_toLE, Nat.mod_eq_of_lt (by simpa using h)]
  have hswap : hton64 n = ofLE (toLE 8 n).reverse := by
    have hback := ntoh64_ofLE (length_toLE 8 n)
    rw [hn] at hback
    exact hback
  have hbytes := toLE_ofLE (toLE 8 n).reverse
  rw [hswap]
  simpa using hbytes

/-- The shortest class that has room. -/
def LengthClass.ofLength (len : Nat) : LengthClass :=
  if len < 126 then bits7 else if len ≤ 65535 then bits16 else bits64

/-- The frame of a message: whole, not masked, in the shortest class. -/
def Message.frame (m : Message) : Frame where
  fin := true
  rsv := 0
  rsv_lt := by decide
  key := none
  key_length := by simp
  lengthClass := .ofLength m.bytes.length
  payload := m.bytes
  fits := by
    unfold LengthClass.ofLength
    split
    · assumption
    · split
      · exact Nat.lt_succ_of_le ‹_›
      · exact m.small

theorem sentHeader_eq (m : Message) : sentHeader m.bytes.length ++ m.bytes = m.frame.bytes := by
  simp only [Frame.bytes, Frame.header, Frame.lengthBytes, Frame.keyBytes, Frame.maskedPayload,
    Message.frame, LengthClass.ofLength, sentHeader]
  split
  · simp [LengthClass.code, LengthClass.bytes, toLE]
  · split
    · have hmod : m.bytes.length % 65536 = m.bytes.length := Nat.mod_eq_of_lt (by omega)
      simp [LengthClass.code, LengthClass.bytes, hmod, htons, ntohs, toLE_swap]
    · simp [LengthClass.code, LengthClass.bytes, toLE_hton64 (Nat.lt_trans m.small (by simp))]

theorem sendLength_eq (n : Nat) : sendLength n =
    n % 2 ^ 32 + if 2 ^ 31 ≤ n % 2 ^ 32 then 2 ^ 64 - 2 ^ 32 else 0 := by
  have hmsb : (BitVec.ofNat 32 n).msb = decide (2 ^ 31 ≤ n % 2 ^ 32) := by
    simp [BitVec.msb_eq_decide]
  have hwide : n % 2 ^ 32 % 2 ^ 64 = n % 2 ^ 32 := Nat.mod_eq_of_lt (by omega)
  simp only [sendLength, BitVec.toNat_signExtend, hmsb, BitVec.toNat_setWidth, BitVec.toNat_ofNat,
    hwide, decide_eq_true_eq]

/-- Up to 2^31 bytes the cast keeps the length; above, an object's length never comes out. -/
theorem sendLength_eq_self {n : Nat} (h : n < 2 ^ 63) : sendLength n = n ↔ n < 2 ^ 31 := by
  rw [sendLength_eq]
  split <;> omega

theorem length_sentHeader (n : Nat) : (sentHeader n).length ≤ 10 := by
  unfold sentHeader
  split
  · simp [WebSocketMessageHeader.bytes]
  · split <;> simp [WebSocketMessageHeader.bytes]

/-- The accessors give back the length and the bytes of a message from the frame sent for it. -/
def RoundTrips (m : Message) : Prop :=
  ∃ data start, SendWebSocketMessage m = some data ∧
    WebSocketFullMessageSize data = some data.length ∧
    WebSocketMessagePayloadLength data = some m.bytes.length ∧
    WebSocketMessageData data = some start ∧ data.drop start = m.bytes

theorem roundTrips_iff (m : Message) : RoundTrips m ↔ m.bytes.length < 2 ^ 31 := by
  constructor
  · intro ⟨data, start, hsend, _, _, _, hdrop⟩
    simp only [SendWebSocketMessage, Option.ite_none_right_eq_some, Option.some.injEq] at hsend
    obtain ⟨hle, rfl⟩ := hsend
    have hhead := length_sentHeader m.bytes.length
    have hback := congrArg List.length hdrop
    simp only [List.length_drop, List.length_append, List.length_take, Nat.min_eq_left hle] at hback
    -- a message that was cut lacks 2^32 bytes at least, more than the header makes up for
    have hcast := sendLength_eq m.bytes.length
    have hsmall := m.small
    split at hcast <;> omega
  · intro hlt
    have hcast := (sendLength_eq_self m.small).mpr hlt
    have hbytes := sentHeader_eq m
    have hmasked : m.frame.maskedPayload = m.bytes := rfl
    have hsize := m.frame.fullMessageSize_bytes []
    have hlen := m.frame.payloadLength_bytes []
    have hstart := webSocketMessageData_eq (m.frame.readHeader_bytes [])
    have hdrop := m.frame.drop_headerBytes []
    simp only [List.append_nil] at hsize hlen hstart hdrop
    refine ⟨m.frame.bytes, m.frame.header.headerBytes, ?_, hsize, hlen, hstart, ?_⟩
    · simp [SendWebSocketMessage, hcast, hbytes]
    · rw [hdrop, hmasked]

end Proxy
