-- SUMMARY: WebSocket frames as the proxy reads them: header, lengths, masking, and the frames it sends.
import Emscripten.Lib.Words

/-!
# WebSocket frames

The accessors of the WebSocket-to-POSIX proxy read a frame at the front of the bytes
received so far. Each is a partial function of these bytes: an access that is not wholly
inside them has no value. The host is little-endian.
-/

namespace Proxy

open Words

/-! ## Byte order -/

def ntohs (x : Nat) : Nat := swap 2 x

def ntohl (x : Nat) : Nat := swap 4 x

def ntoh64 (x : Nat) : Nat := ntohl (x >>> 32) ||| ntohl (x &&& 0xFFFFFFFF) <<< 32

variable {bs : List UInt8}

theorem ntohs_ofLE (h : bs.length = 2) : ntohs (ofLE bs) = ofBE bs := swap_ofLE h

theorem ntohl_ofLE (h : bs.length = 4) : ntohl (ofLE bs) = ofBE bs := swap_ofLE h

/-- The two halves are swapped, and the bytes of each. -/
theorem ntoh64_ofLE (h : bs.length = 8) : ntoh64 (ofLE bs) = ofBE bs := by
  have hlow : (bs.take 4).length = 4 := by simp [h]
  have hhigh : (bs.drop 4).length = 4 := by simp [h]
  have hsum : ofLE bs = ofLE (bs.take 4) + 2 ^ 32 * ofLE (bs.drop 4) := by
    have happ := ofLE_append (bs.take 4) (bs.drop 4)
    rw [List.take_append_drop, hlow] at happ
    simpa using happ
  have hlt : ofLE (bs.take 4) < 2 ^ 32 := by simpa [hlow] using ofLE_lt (bs.take 4)
  have hupper : ofLE bs >>> 32 = ofLE (bs.drop 4) := by
    rw [Nat.shiftRight_eq_div_pow, hsum]
    omega
  have hlower : ofLE bs &&& 0xFFFFFFFF = ofLE (bs.take 4) := by
    have hand : ofLE bs &&& 0xFFFFFFFF = ofLE bs % 2 ^ 32 := Nat.and_two_pow_sub_one_eq_mod _ 32
    rw [hand, hsum]
    omega
  have hback : ofBE bs = ofBE (bs.drop 4) + 2 ^ 32 * ofBE (bs.take 4) := by
    have happ := ofBE_append (bs.take 4) (bs.drop 4)
    rw [List.take_append_drop, hhigh] at happ
    simpa using happ
  have hlt' : ofBE (bs.drop 4) < 2 ^ 32 := by simpa [hhigh] using ofBE_lt (bs.drop 4)
  unfold ntoh64
  rw [hupper, hlower, ntohl_ofLE hlow, ntohl_ofLE hhigh, hback, Nat.or_comm,
    Nat.shiftLeft_eq, Nat.mul_comm _ (2 ^ 32), ← Nat.two_pow_add_eq_or_of_lt hlt', Nat.add_comm]

/-! ## The header -/

/-- Two bytes of bit fields, the low bits first. -/
structure WebSocketMessageHeader where
  opcode : Nat
  rsv : Nat
  fin : Bool
  payloadLength : Nat
  mask : Bool

def WebSocketMessageHeader.ofBytes (first second : UInt8) : WebSocketMessageHeader where
  opcode := first.toNat % 16
  rsv := first.toNat / 16 % 8
  fin := first.toNat / 128 == 1
  payloadLength := second.toNat % 128
  mask := second.toNat / 128 == 1

def WebSocketMessageHeader.bytes (h : WebSocketMessageHeader) : List UInt8 :=
  [.ofNat (h.opcode + 16 * h.rsv + 128 * h.fin.toNat), .ofNat (h.payloadLength + 128 * h.mask.toNat)]

def readHeader : List UInt8 → Option WebSocketMessageHeader
  | first :: second :: _ => some (.ofBytes first second)
  | _ => none

/-- The size of the masking key. -/
def WebSocketMessageHeader.keyBytes (h : WebSocketMessageHeader) : Nat := if h.mask then 4 else 0

/-- The size of the extended length. -/
def WebSocketMessageHeader.extBytes (h : WebSocketMessageHeader) : Nat :=
  match h.payloadLength with
  | 127 => 8
  | 126 => 2
  | _ => 0

/-! ## Accessors -/

/-- For both extended lengths the source returns the sum, not the comparison. -/
def WebSocketHasFullHeader (data : List UInt8) (obtainedNumBytes : Nat) : Option Bool :=
  if obtainedNumBytes < 2 then some false
  else do
    let header ← readHeader data
    let expectedNumBytes := 2 + header.keyBytes
    match header.payloadLength with
    | 127 => some (decide (expectedNumBytes + 8 ≠ 0))
    | 126 => some (decide (expectedNumBytes + 2 ≠ 0))
    | _ => some (decide (expectedNumBytes ≤ obtainedNumBytes))

/-- In 64 bits: the sum with an extended length may wrap. -/
def WebSocketFullMessageSize (data : List UInt8) : Option Nat := do
  let header ← readHeader data
  let expectedNumBytes := 2 + header.keyBytes
  match header.payloadLength with
  | 127 => (load 8 2 data).map fun len => (expectedNumBytes + (8 + ntoh64 len)) % 2 ^ 64
  | 126 => (load 2 2 data).map fun len => (expectedNumBytes + (2 + ntohs len)) % 2 ^ 64
  | len => some ((expectedNumBytes + len) % 2 ^ 64)

def WebSocketMessagePayloadLength (data : List UInt8) : Option Nat := do
  let header ← readHeader data
  match header.payloadLength with
  | 127 => (load 8 2 data).map ntoh64
  | 126 => (load 2 2 data).map ntohs
  | len => some len

def WebSocketMessageMaskingKey (data : List UInt8) : Option Nat := do
  let header ← readHeader data
  if header.mask then
    match header.payloadLength with
    | 127 => load 4 10 data
    | 126 => load 4 4 data
    | _ => load 4 2 data
  else some 0

/-- Where the payload starts. -/
def WebSocketMessageData (data : List UInt8) : Option Nat := do
  let header ← readHeader data
  let start := 2 + header.keyBytes
  match header.payloadLength with
  | 127 => some (start + 8)
  | 126 => some (start + 2)
  | _ => some start

/-! ## Masking -/

/-- `while (data_u32 < end_u32) *data_u32++ ^= maskingKey`, and what lies behind. -/
def unmaskWords (maskingKey : Nat) : Nat → List UInt8 → Option (List UInt8 × List UInt8)
  | 0, mem => some ([], mem)
  | words + 1, mem => do
      let word ← load 4 0 mem
      let (done, rest) ← unmaskWords maskingKey words (mem.drop 4)
      some (toLE 4 (word ^^^ maskingKey) ++ done, rest)

/-- The bytes behind the whole words, from place `i` of the payload on. -/
def unmaskBytes (maskingKey8 : List UInt8) : Nat → Nat → List UInt8 → Option (List UInt8)
  | _, 0, mem => some mem
  | _, _ + 1, [] => none
  | i, n + 1, b :: mem =>
    (unmaskBytes maskingKey8 (i + 1) n mem).map ((b ^^^ maskingKey8.getD (i % 4) 0) :: ·)

/-- `~3u` has 32 bits: from 4 GiB on the words end early, and the bytes do the rest. -/
def WebSocketMessageUnmaskPayload (payload : List UInt8) (payloadLength maskingKey : Nat) :
    Option (List UInt8) := do
  let words := (payloadLength &&& 0xFFFFFFFC) / 4
  let (done, rest) ← unmaskWords maskingKey words payload
  let tail ← unmaskBytes (toLE 4 maskingKey) (4 * words) (payloadLength - 4 * words) rest
  some (done ++ tail)

/-! ## What the accessors agree on -/

/-- The bytes before the payload. -/
def WebSocketMessageHeader.headerBytes (h : WebSocketMessageHeader) : Nat :=
  2 + h.keyBytes + h.extBytes

variable {data : List UInt8} {h : WebSocketMessageHeader}

theorem headerBytes_le (h : WebSocketMessageHeader) : h.headerBytes ≤ 14 := by
  unfold WebSocketMessageHeader.headerBytes WebSocketMessageHeader.keyBytes
    WebSocketMessageHeader.extBytes
  split <;> split <;> simp

theorem readHeader_eq_none : readHeader data = none ↔ data.length < 2 := by
  rcases data with _ | ⟨first, _ | ⟨second, rest⟩⟩ <;> simp [readHeader]

theorem readHeader_append (hread : readHeader data = some h) (more : List UInt8) :
    readHeader (data ++ more) = some h := by
  rcases data with _ | ⟨first, _ | ⟨second, rest⟩⟩
  · simp [readHeader] at hread
  · simp [readHeader] at hread
  · simpa [readHeader] using hread

theorem webSocketMessageData_eq (hread : readHeader data = some h) :
    WebSocketMessageData data = some h.headerBytes := by
  simp only [WebSocketMessageData, hread, Option.bind_some, bind, WebSocketMessageHeader.headerBytes,
    WebSocketMessageHeader.extBytes]
  split <;> simp

/-- The two functions that decode the length differ in the header and the wrap. -/
theorem fullMessageSize_eq (hread : readHeader data = some h) : WebSocketFullMessageSize data =
    (WebSocketMessagePayloadLength data).map fun len => (h.headerBytes + len) % 2 ^ 64 := by
  simp only [WebSocketFullMessageSize, WebSocketMessagePayloadLength, hread, Option.bind_some, bind,
    WebSocketMessageHeader.headerBytes, WebSocketMessageHeader.extBytes]
  split <;> simp [Function.comp_def, Nat.add_assoc]

/-- The length is read where the extended bytes are there. -/
theorem payloadLength_eq_none (hread : readHeader data = some h) :
    WebSocketMessagePayloadLength data = none ↔ data.length < 2 + h.extBytes := by
  have hlen : ¬ data.length < 2 := by
    intro hshort
    simp [readHeader_eq_none.mpr hshort] at hread
  simp only [WebSocketMessagePayloadLength, hread, Option.bind_some, bind,
    WebSocketMessageHeader.extBytes]
  split
  · simp [load_eq_none]
  · simp [load_eq_none]
  · simpa using hlen

/-- More bytes behind do not change a length that was read. -/
theorem payloadLength_append {len : Nat} (hlen : WebSocketMessagePayloadLength data = some len)
    (more : List UInt8) : WebSocketMessagePayloadLength (data ++ more) = some len := by
  cases hread : readHeader data with
  | none => simp [WebSocketMessagePayloadLength, hread] at hlen
  | some h =>
    have hext : 2 + h.extBytes ≤ data.length := by
      apply Nat.le_of_not_lt
      intro hshort
      simp [(payloadLength_eq_none hread).mpr hshort] at hlen
    revert hlen hext
    simp only [WebSocketMessagePayloadLength, hread, readHeader_append hread, Option.bind_some, bind,
      WebSocketMessageHeader.extBytes]
    split
    · intro hlen hext
      rw [load_append hext, hlen]
    · intro hlen hext
      rw [load_append hext, hlen]
    · intro hlen _
      exact hlen

theorem readHeader_payloadLength_lt (hread : readHeader data = some h) : h.payloadLength < 128 := by
  rcases data with _ | ⟨first, _ | ⟨second, rest⟩⟩
  · simp [readHeader] at hread
  · simp [readHeader] at hread
  · simp only [readHeader, Option.some.injEq] at hread
    subst hread
    exact Nat.mod_lt _ (by simp)

/-- Without an extended length the header holds the length. -/
theorem payloadLength_of_extBytes (hread : readHeader data = some h) (hext : h.extBytes = 0) :
    WebSocketMessagePayloadLength data = some h.payloadLength := by
  revert hext
  simp only [WebSocketMessagePayloadLength, hread, Option.bind_some, bind,
    WebSocketMessageHeader.extBytes]
  split <;> simp

theorem payloadLength_lt {len : Nat} (hlen : WebSocketMessagePayloadLength data = some len) :
    len < 2 ^ 64 := by
  cases hread : readHeader data with
  | none => simp [WebSocketMessagePayloadLength, hread] at hlen
  | some h =>
    have h7 := readHeader_payloadLength_lt hread
    simp only [WebSocketMessagePayloadLength, hread, Option.bind_some, bind] at hlen
    split at hlen
    · obtain ⟨word, hload, rfl⟩ := Option.map_eq_some_iff.mp hlen
      obtain ⟨hbound, rfl⟩ := load_eq_some.mp hload
      have hlen8 : ((data.drop 2).take 8).length = 8 := by simp; omega
      simpa [ntoh64_ofLE hlen8, hlen8] using ofBE_lt ((data.drop 2).take 8)
    · obtain ⟨word, -, rfl⟩ := Option.map_eq_some_iff.mp hlen
      exact Nat.lt_trans (swap_lt 2 word) (by simp)
    · have heq := Option.some.inj hlen
      omega

/-! ## What unmasking does -/

theorem unmaskBytes_eq {key : List UInt8} (hkey : key.length = 4) (i n : Nat) (mem : List UInt8) :
    unmaskBytes key i n mem =
      if n ≤ mem.length then some (xorFrom key i (mem.take n) ++ mem.drop n) else none := by
  induction n generalizing i mem with
  | zero => simp [unmaskBytes, xorFrom]
  | succ n ih =>
    cases mem with
    | nil => simp [unmaskBytes]
    | cons b mem =>
      simp only [unmaskBytes, ih, List.length_cons, Nat.add_le_add_iff_right]
      split <;> simp [xorFrom, hkey]

theorem unmaskWords_eq (maskingKey n : Nat) {i : Nat} (hi : 4 ∣ i) (mem : List UInt8) :
    unmaskWords maskingKey n mem =
      if 4 * n ≤ mem.length then
        some (xorFrom (toLE 4 maskingKey) i (mem.take (4 * n)), mem.drop (4 * n))
      else none := by
  induction n generalizing i mem with
  | zero => simp [unmaskWords, xorFrom]
  | succ n ih =>
    by_cases hword : 4 ≤ mem.length
    · have hload : load 4 0 mem = some (ofLE (mem.take 4)) := by simp [load, hword]
      have hlen : (mem.take 4).length = 4 := by simp [hword]
      -- one word is four bytes of the key
      have hxor : toLE 4 (ofLE (mem.take 4) ^^^ maskingKey) =
          xorFrom (toLE 4 maskingKey) i (mem.take 4) := by
        have hbytes : toLE 4 (ofLE (mem.take 4)) = mem.take 4 := by
          simpa [hlen] using toLE_ofLE (mem.take 4)
        rw [toLE_xor, hbytes, xorFrom_word (by simpa using hi) (by simp [hword])]
      have hsplit : mem.take (4 * (n + 1)) = mem.take 4 ++ (mem.drop 4).take (4 * n) := by
        rw [Nat.mul_add_one, Nat.add_comm, List.take_add]
      simp only [unmaskWords, hload, bind, Option.bind_some, hxor,
        ih (i := i + 4) (by omega), List.length_drop]
      by_cases hrest : 4 * (n + 1) ≤ mem.length
      · rw [if_pos (by omega), if_pos hrest, Option.bind_some, hsplit, xorFrom_append, hlen,
          List.drop_drop, Nat.mul_add_one, Nat.add_comm 4]
      · rw [if_neg (by omega), if_neg hrest, Option.bind_none]
    · have hload : load 4 0 mem = none := load_eq_none.mpr (by omega)
      rw [if_neg (by omega)]
      simp [unmaskWords, hload]

/-- Words and bytes together unmask the payload, where all of it is there. -/
theorem unmaskPayload_eq (mem : List UInt8) (payloadLength maskingKey : Nat) :
    WebSocketMessageUnmaskPayload mem payloadLength maskingKey =
      if payloadLength ≤ mem.length then
        some (xorFrom (toLE 4 maskingKey) 0 (mem.take payloadLength) ++ mem.drop payloadLength)
      else none := by
  unfold WebSocketMessageUnmaskPayload
  generalize hwords : (payloadLength &&& 0xFFFFFFFC) / 4 = words
  have hle : 4 * words ≤ payloadLength := by
    have hand : payloadLength &&& 0xFFFFFFFC ≤ payloadLength := Nat.and_le_left
    omega
  simp only [unmaskWords_eq maskingKey words (Nat.dvd_zero 4), bind]
  by_cases hall : payloadLength ≤ mem.length
  · have htake : mem.take payloadLength =
        mem.take (4 * words) ++ (mem.drop (4 * words)).take (payloadLength - 4 * words) := by
      rw [← List.take_add, Nat.add_sub_cancel' hle]
    have hwlen : (mem.take (4 * words)).length = 4 * words := by simp; omega
    have hdrop : (mem.drop (4 * words)).drop (payloadLength - 4 * words) = mem.drop payloadLength := by
      rw [List.drop_drop, Nat.add_sub_cancel' hle]
    rw [if_pos (by omega), if_pos hall, Option.bind_some, unmaskBytes_eq (length_toLE 4 _),
      if_pos (by simp; omega), Option.bind_some, htake, xorFrom_append, hwlen, Nat.zero_add, hdrop,
      List.append_assoc]
  · rw [if_neg hall]
    split
    · rw [Option.bind_some, unmaskBytes_eq (length_toLE 4 _), if_neg (by simp; omega),
        Option.bind_none]
    · rfl

end Proxy
