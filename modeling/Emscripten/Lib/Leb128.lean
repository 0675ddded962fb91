-- SUMMARY: LEB128 encodings of any length, and the loops that read and write them.
import Mathlib.Algebra.Ring.Int.Defs
import Mathlib.Algebra.Ring.Nat
import Emscripten.Lib.Readers

/-!
# LEB128

A number is written with seven bits a byte, the lowest first; the highest bit of a byte says that another one follows.
An encoding need not be the shortest.
-/

namespace Leb128

inductive Encodes : List UInt8 → Nat → Prop
  | last {b : UInt8} (h : b.toNat < 128) : Encodes [b] b.toNat
  | more {b : UInt8} {bs : List UInt8} {n : Nat} (h : 128 ≤ b.toNat) (hrest : Encodes bs n) :
      Encodes (b :: bs) (b.toNat - 128 + 128 * n)

/-- The shortest encoding. -/
def encode (n : Nat) : List UInt8 := if 127 < n then UInt8.ofNat (n % 128 + 128) :: encode (n / 128) else [UInt8.ofNat n]

theorem encode_of_le {n : Nat} (h : n ≤ 127) : encode n = [UInt8.ofNat n] := by
  rw [encode, if_neg (Nat.not_lt.2 h)]

/-- By induction on the number, a digit less each time. -/
theorem encodes_encode (n : Nat) : Encodes (encode n) n := by
  induction n using Nat.strongRecOn with
  | ind n ih =>
    rw [encode]
    split
    · next h =>
      have hbyte : (UInt8.ofNat (n % 128 + 128)).toNat = n % 128 + 128 := UInt8.toNat_ofNat_of_lt' (show _ < 256 by omega)
      have hrest := Encodes.more (b := UInt8.ofNat (n % 128 + 128)) (by omega) (ih (n / 128) (by omega))
      have hvalue : n % 128 + 128 - 128 + 128 * (n / 128) = n := by omega
      rwa [hbyte, hvalue] at hrest
    · next h =>
      have hbyte : (UInt8.ofNat n).toNat = n := UInt8.toNat_ofNat_of_lt' (show _ < 256 by omega)
      have hlast := Encodes.last (b := UInt8.ofNat n) (by omega)
      rwa [hbyte] at hlast

/-- The digits behind count 128 times as much. -/
theorem shift_digit (n i : Nat) : n <<< (i + 7) = (128 * n) <<< i := by
  rw [Nat.shiftLeft_eq, Nat.shiftLeft_eq, Nat.pow_add, Nat.mul_comm 128, Nat.mul_assoc, Nat.mul_comm (2 ^ i)]

theorem add_shift (m n i : Nat) : m <<< i + n <<< i = (m + n) <<< i := by
  rw [Nat.shiftLeft_eq, Nat.shiftLeft_eq, Nat.shiftLeft_eq, Nat.add_mul]

/-! ## Reading with a sum and a shift -/

/-- What has been read is `n`, and the next byte counts `2 ^ shift`. -/
def readLoop : List UInt8 → Nat → Nat → Nat → Option (Nat × Nat)
  | [], _, _, _ => none
  | b :: bs, n, shift, pos =>
    if 128 ≤ b.toNat then readLoop bs (n ||| (b.toNat - 128) <<< shift) (shift + 7) (pos + 1)
    else some (n + b.toNat <<< shift, pos + 1)

theorem readLoop_encodes {bs : List UInt8} {n : Nat} (h : Encodes bs n) (rest : List UInt8) : ∀ acc shift pos,
    acc < 2 ^ shift → readLoop (bs ++ rest) acc shift pos = some (acc + n <<< shift, pos + bs.length) := by
  induction h with
  | last hb =>
    intro acc shift pos _
    exact if_neg (Nat.not_le.2 hb)
  | @more b bs n hb _ ih =>
    intro acc shift pos hacc
    have hor : acc ||| (b.toNat - 128) <<< shift = acc + (b.toNat - 128) <<< shift := by
      rw [Nat.or_comm, Nat.shiftLeft_eq, Nat.mul_comm, ← Nat.two_pow_add_eq_or_of_lt hacc, Nat.add_comm]
    have hnext : acc + (b.toNat - 128) <<< shift < 2 ^ (shift + 7) := by
      have hdigit : (b.toNat - 128 + 1) * 2 ^ shift ≤ 128 * 2 ^ shift :=
        Nat.mul_le_mul_right _ (by have := b.toNat_lt; omega)
      rw [Nat.shiftLeft_eq, Nat.pow_add, Nat.mul_comm (2 ^ shift)]
      rw [Nat.add_mul] at hdigit
      omega
    have hvalue : acc + (b.toNat - 128) <<< shift + n <<< (shift + 7) = acc + (b.toNat - 128 + 128 * n) <<< shift := by
      rw [shift_digit, Nat.add_assoc, add_shift]
    have hrest := ih _ (shift + 7) (pos + 1) hnext
    rw [List.cons_append, readLoop, if_pos hb, hor, hrest, hvalue, List.length_cons, Nat.add_right_comm, Nat.add_assoc]

/-! ## Collecting the bytes first -/

/-- The bytes up to the first that says that none follows. -/
def collect : List UInt8 → Option (List UInt8)
  | [] => none
  | b :: bs => if 128 ≤ b.toNat then (collect bs).map (b :: ·) else some [b]

/-- The sum of the digits from the `i`th on. -/
def decodeFrom (i r : Nat) : List UInt8 → Nat
  | [] => r
  | b :: bs => decodeFrom (i + 1) (r + (b.toNat % 128) <<< (i * 7)) bs

theorem collect_encodes {bs : List UInt8} {n : Nat} (h : Encodes bs n) (rest : List UInt8) :
    collect (bs ++ rest) = some bs := by
  induction h with
  | last hb => exact if_neg (Nat.not_le.2 hb)
  | more hb _ ih => rw [List.cons_append, collect, if_pos hb, ih, Option.map_some]

theorem decodeFrom_encodes {bs : List UInt8} {n : Nat} (h : Encodes bs n) : ∀ i r,
    decodeFrom i r bs = r + n <<< (i * 7) := by
  induction h with
  | last hb =>
    intro i r
    rw [decodeFrom, decodeFrom, Nat.mod_eq_of_lt hb]
  | @more b bs n hb _ ih =>
    intro i r
    have hdigit : b.toNat % 128 = b.toNat - 128 := by
      have hlt := b.toNat_lt
      omega
    have hnext : (i + 1) * 7 = i * 7 + 7 := Nat.succ_mul i 7
    rw [decodeFrom, ih, hdigit, hnext, shift_digit, Nat.add_assoc, add_shift]

/-- Read with `collect` at an offset of a text of bytes. -/
def collectAt (buf : List UInt8) : Reader Nat := fun pos =>
  (collect (buf.drop pos)).map fun bs => (decodeFrom 0 0 bs, pos + bs.length)

def readAt (buf : List UInt8) : Reader Nat := fun pos => readLoop (buf.drop pos) 0 0 pos

variable {buf bs rest : List UInt8} {n pos : Nat}

theorem readAt_encodes (h : Encodes bs n) (hbuf : buf.drop pos = bs ++ rest) :
    readAt buf pos = some (n, pos + bs.length) := by
  unfold readAt
  rw [hbuf, readLoop_encodes h rest 0 0 pos (by decide), Nat.zero_add]
  rfl

theorem collectAt_encodes (h : Encodes bs n) (hbuf : buf.drop pos = bs ++ rest) :
    collectAt buf pos = some (n, pos + bs.length) := by
  unfold collectAt
  rw [hbuf, collect_encodes h rest, Option.map_some, decodeFrom_encodes h, Nat.zero_add]
  rfl

end Leb128
