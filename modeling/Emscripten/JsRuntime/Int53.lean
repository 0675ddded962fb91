-- SUMMARY: Numbers as 64-bit integers in memory: what is stored and thrown at the ends of the ranges, and what is read back.
import Emscripten.Lib.Binary64
import Emscripten.Lib.Heap
import Emscripten.Lib.Words

/-!
# Integers of 53 bits

`writeI53ToI64` stores the low word of a number, and then the difference from it as the high word. The clamped and
signaling writers compare with literals that no number of double precision has, and so with the powers of two
above them.
-/

namespace Int53

open Binary64 Heap Words

/-! ## Words -/

def toUint32 (x : Int) : Nat := (trunc x % 2 ^ 32).toNat

/-- A store to `HEAPU32`. -/
def setU32 (heap : List UInt8) (ptr : Nat) (x : Int) : List UInt8 := put (4 * (ptr / 4)) (toLE 4 (toUint32 x)) heap

def getU32 (heap : List UInt8) (ptr : Nat) : Nat := ofLE ((heap.drop (4 * (ptr / 4))).take 4)

def getI32 (heap : List UInt8) (ptr : Nat) : Int :=
  if getU32 heap ptr < 2 ^ 31 then getU32 heap ptr else getU32 heap ptr - 2 ^ 32

/-! ## The functions of the library -/

def writeI53ToI64 (heap : List UInt8) (ptr : Nat) (num : Int) : List UInt8 :=
  let heap := setU32 heap ptr num
  let lower := ofInt (getU32 heap ptr)
  setU32 heap (ptr + 4) (div (sub num lower) (ofInt 4294967296))

def writeI53ToI64Clamped (heap : List UInt8) (ptr : Nat) (num : Int) : List UInt8 :=
  if num > ofInt 0x7FFFFFFFFFFFFFFF then
    setU32 (setU32 heap ptr (ofInt 0xFFFFFFFF)) (ptr + 4) (ofInt 0x7FFFFFFF)
  else if num < -ofInt 0x8000000000000000 then
    setU32 (setU32 heap ptr (ofInt 0)) (ptr + 4) (ofInt 0x80000000)
  else writeI53ToI64 heap ptr num

/-- `none` where it throws. -/
def writeI53ToI64Signaling (heap : List UInt8) (ptr : Nat) (num : Int) : Option (List UInt8) :=
  if num > ofInt 0x7FFFFFFFFFFFFFFF ∨ num < -ofInt 0x8000000000000000 then none
  else some (writeI53ToI64 heap ptr num)

def writeI53ToU64Clamped (heap : List UInt8) (ptr : Nat) (num : Int) : List UInt8 :=
  if num > ofInt 0xFFFFFFFFFFFFFFFF then
    setU32 (setU32 heap ptr (ofInt 0xFFFFFFFF)) (ptr + 4) (ofInt 0xFFFFFFFF)
  else if num < ofInt 0 then setU32 (setU32 heap ptr (ofInt 0)) (ptr + 4) (ofInt 0)
  else writeI53ToI64 heap ptr num

def writeI53ToU64Signaling (heap : List UInt8) (ptr : Nat) (num : Int) : Option (List UInt8) :=
  if num < ofInt 0 ∨ num > ofInt 0xFFFFFFFFFFFFFFFF then none else some (writeI53ToI64 heap ptr num)

def readI53FromI64 (heap : List UInt8) (ptr : Nat) : Int :=
  add (ofInt (getU32 heap ptr)) (mul (ofInt (getI32 heap (ptr + 4))) (ofInt 4294967296))

/-- `none` is `NaN`. -/
def convertI32PairToI53Checked (lo hi : Int) : Option Int :=
  if (hi + 0x200000) % 2 ^ 32 < 0x400001 - (if lo ≠ 0 then 1 else 0) then
    some (add (ofInt (lo % 2 ^ 32)) (mul (ofInt hi) (ofInt 4294967296)))
  else none

/-! ## Stores -/

/-- The bytes of an integer in two's complement. -/
def pattern (n : Int) : List UInt8 := toLE 8 (n % 2 ^ 64).toNat

variable (n : Int) {heap : List UInt8} {ptr : Nat}

theorem toUint32_mul_one : toUint32 (n * one) = (n % 2 ^ 32).toNat := by
  unfold toUint32
  rw [trunc_mul_one]

/-- The word of a literal. -/
theorem toUint32_ofInt {k : Int} {u : Nat} (hk : k.natAbs ≤ 2 ^ 53) (hu : (k % 2 ^ 32).toNat = u) :
    toUint32 (ofInt k) = u := by
  rw [ofInt_eq hk, toUint32_mul_one, hu]

/-- Two words one after the other. -/
theorem setU32_setU32 (hptr : ptr % 4 = 0) {x y n : Int} (hlow : toUint32 x = (n % 2 ^ 32).toNat)
    (hhigh : toUint32 y = (n / 2 ^ 32 % 2 ^ 32).toNat) :
    setU32 (setU32 heap ptr x) (ptr + 4) y = put ptr (pattern n) heap := by
  have hfirst : 4 * (ptr / 4) = ptr := by omega
  have hsecond : 4 * ((ptr + 4) / 4) = ptr + 4 := by omega
  have hlt : toUint32 x < 256 ^ 4 := by omega
  have hwhole : (n % 2 ^ 64).toNat = toUint32 x + 256 ^ 4 * toUint32 y := by omega
  have hbytes : pattern n = toLE 4 (toUint32 x) ++ toLE 4 (toUint32 y) := by
    unfold pattern
    rw [hwhole]
    exact toLE_add hlt 4 _
  unfold setU32
  rw [hfirst, hsecond, hbytes, put_append, length_toLE]

theorem getU32_put {u : Nat} (hptr : ptr % 4 = 0) (hroom : ptr + 4 ≤ heap.length) (hu : u < 2 ^ 32) :
    getU32 (put ptr (toLE 4 u) heap) ptr = u := by
  have hstart : 4 * (ptr / 4) = ptr := by omega
  have hread : ((put ptr (toLE 4 u) heap).drop ptr).take (toLE 4 u).length = toLE 4 u :=
    take_drop_put (by rwa [length_toLE])
  rw [length_toLE] at hread
  unfold getU32
  rw [hstart, hread, ofLE_toLE]
  exact Nat.mod_eq_of_lt hu

theorem ofInt_two_pow {n : Int} (i : Nat) (h : n = 2 ^ i) : ofInt n = n * one := by
  subst h
  have hrepresentable : Representable (2 ^ i * one) := by
    refine ⟨1, i + lowest, by decide, ?_⟩
    rw [Int.one_mul, Int.pow_add]
    norm_cast
  unfold ofInt
  simpa using round_exact Nat.one_pos hrepresentable

/-- The integers up to those that the range tests let through are stored. -/
theorem writeI53ToI64_eq (hptr : ptr % 4 = 0) (hroom : ptr + 8 ≤ heap.length) {n : Int} (hn : n.natAbs ≤ 2 ^ 64) :
    writeI53ToI64 heap ptr (n * one) = put ptr (pattern n) heap := by
  have hstart : 4 * (ptr / 4) = ptr := by omega
  have hlower : getU32 (setU32 heap ptr (n * one)) ptr = (n % 2 ^ 32).toNat := by
    unfold setU32
    rw [hstart, toUint32_mul_one]
    exact getU32_put hptr (by omega) (by omega)
  have hlow : ofInt ((n % 2 ^ 32).toNat : Int) = n % 2 ^ 32 * one := by
    rw [ofInt_eq (by omega), Int.toNat_of_nonneg (by omega)]
  -- the difference is a multiple of 2^32, of at most 33 bits
  have hdifference : n * one - n % 2 ^ 32 * one = n / 2 ^ 32 * (4294967296 : Nat) * one := by
    rw [← Int.sub_mul]
    congr 1
    omega
  have hrepresentable : Representable (n * one - n % 2 ^ 32 * one) := by
    refine ⟨n / 2 ^ 32, 32 + lowest, by omega, ?_⟩
    rw [hdifference, Int.mul_assoc, Int.pow_add]
    rfl
  have hquotient : div (sub (n * one) (n % 2 ^ 32 * one)) (ofInt 4294967296) = n / 2 ^ 32 * one := by
    rw [sub_exact hrepresentable, hdifference, ofInt_eq (by decide)]
    exact div_eq (by decide) (by omega)
  unfold writeI53ToI64
  dsimp only
  rw [hlower, hlow, hquotient]
  exact setU32_setU32 hptr (toUint32_mul_one n) (toUint32_mul_one _)

/-! ## The ends of the ranges -/

theorem int64_max : ofInt 0x7FFFFFFFFFFFFFFF = 2 ^ 63 * one := ofInt_pred_two_pow 9

theorem int64_min : ofInt 0x8000000000000000 = 2 ^ 63 * one := ofInt_two_pow 63 rfl

theorem uint64_max : ofInt 0xFFFFFFFFFFFFFFFF = 2 ^ 64 * one := ofInt_pred_two_pow 10

theorem mul_one_lt {a b : Int} : a * one < b * one ↔ a < b := by
  apply Int.mul_lt_mul_right
  have := one_pos
  omega

theorem above_int64 : n * one > ofInt 0x7FFFFFFFFFFFFFFF ↔ 2 ^ 63 < n := by
  rw [int64_max]
  exact mul_one_lt

theorem below_int64 : n * one < -ofInt 0x8000000000000000 ↔ n < -2 ^ 63 := by
  rw [int64_min, ← Int.neg_mul]
  exact mul_one_lt

theorem above_uint64 : n * one > ofInt 0xFFFFFFFFFFFFFFFF ↔ 2 ^ 64 < n := by
  rw [uint64_max]
  exact mul_one_lt

theorem below_uint64 : n * one < ofInt 0 ↔ n < 0 := by
  rw [ofInt_eq (by decide)]
  exact mul_one_lt

/-- A memory with room for eight bytes at an aligned address. -/
def Room (heap : List UInt8) (ptr : Nat) : Prop := ptr % 4 = 0 ∧ ptr + 8 ≤ heap.length

/-- A writer stores what the integer is clamped to. -/
def Clamps (write : List UInt8 → Nat → Int → List UInt8) (n clamped : Int) : Prop :=
  ∀ heap ptr, Room heap ptr → write heap ptr (n * one) = put ptr (pattern clamped) heap

/-- A writer stores the integer, or throws where it is outside the range. -/
def Signals (write : List UInt8 → Nat → Int → Option (List UInt8)) (n low high : Int) : Prop :=
  ∀ heap ptr, Room heap ptr →
    write heap ptr (n * one) = if low ≤ n ∧ n ≤ high then some (put ptr (pattern n) heap) else none

/-- A memory shows which integer was stored. -/
theorem stored_ne (hroom : Room heap ptr) {a b : Int} (h : a % 2 ^ 64 ≠ b % 2 ^ 64) :
    put ptr (pattern a) heap ≠ put ptr (pattern b) heap := by
  intro heq
  have hbytes : ∀ c : Int, ((put ptr (pattern c) heap).drop ptr).take 8 = pattern c := fun c =>
    @take_drop_put _ ptr (pattern c) heap hroom.2
  have hpattern : pattern a = pattern b := by rw [← hbytes a, heq, hbytes b]
  have hvalue := congrArg ofLE hpattern
  unfold pattern at hvalue
  rw [ofLE_toLE, ofLE_toLE] at hvalue
  omega

theorem room_replicate : Room (List.replicate 8 0) 0 := ⟨rfl, Nat.le_refl _⟩

theorem clampedI64_iff : Clamps writeI53ToI64Clamped n (min (max n (-2 ^ 63)) (2 ^ 63 - 1)) ↔ n ≠ 2 ^ 63 := by
  have hcode : ∀ heap ptr, Room heap ptr → writeI53ToI64Clamped heap ptr (n * one) =
      put ptr (pattern (if 2 ^ 63 < n then 2 ^ 63 - 1 else if n < -2 ^ 63 then -2 ^ 63 else n)) heap := by
    intro heap ptr hroom
    unfold writeI53ToI64Clamped
    simp only [above_int64, below_int64]
    split
    · exact setU32_setU32 hroom.1 (toUint32_ofInt (by decide) (by decide)) (toUint32_ofInt (by decide) (by decide))
    · split
      · exact setU32_setU32 hroom.1 (toUint32_ofInt (by decide) (by decide)) (toUint32_ofInt (by decide) (by decide))
      · exact writeI53ToI64_eq hroom.1 hroom.2 (by omega)
  constructor
  · rintro h rfl
    have hwrong := h _ _ room_replicate
    rw [hcode _ _ room_replicate] at hwrong
    exact stored_ne room_replicate (by decide) hwrong
  · intro hne heap ptr hroom
    rw [hcode heap ptr hroom]
    congr 2
    omega

theorem clampedU64_iff : Clamps writeI53ToU64Clamped n (min (max n 0) (2 ^ 64 - 1)) ↔ n ≠ 2 ^ 64 := by
  have hcode : ∀ heap ptr, Room heap ptr → writeI53ToU64Clamped heap ptr (n * one) =
      put ptr (pattern (if 2 ^ 64 < n then 2 ^ 64 - 1 else if n < 0 then 0 else n)) heap := by
    intro heap ptr hroom
    unfold writeI53ToU64Clamped
    simp only [above_uint64, below_uint64]
    split
    · exact setU32_setU32 hroom.1 (toUint32_ofInt (by decide) (by decide)) (toUint32_ofInt (by decide) (by decide))
    · split
      · exact setU32_setU32 hroom.1 (toUint32_ofInt (by decide) (by decide)) (toUint32_ofInt (by decide) (by decide))
      · exact writeI53ToI64_eq hroom.1 hroom.2 (by omega)
  constructor
  · rintro h rfl
    have hwrong := h _ _ room_replicate
    rw [hcode _ _ room_replicate] at hwrong
    exact stored_ne room_replicate (by decide) hwrong
  · intro hne heap ptr hroom
    rw [hcode heap ptr hroom]
    congr 2
    omega

theorem signalingI64_iff : Signals writeI53ToI64Signaling n (-2 ^ 63) (2 ^ 63 - 1) ↔ n ≠ 2 ^ 63 := by
  constructor
  · rintro h rfl
    have hthrown := h _ _ room_replicate
    unfold writeI53ToI64Signaling at hthrown
    simp only [above_int64, below_int64] at hthrown
    rw [if_neg (by decide), if_neg (by decide)] at hthrown
    cases hthrown
  · intro hne heap ptr hroom
    unfold writeI53ToI64Signaling
    simp only [above_int64, below_int64]
    split
    · rw [if_neg (by omega)]
    · rw [if_pos (by omega), writeI53ToI64_eq hroom.1 hroom.2 (by omega)]

theorem signalingU64_iff : Signals writeI53ToU64Signaling n 0 (2 ^ 64 - 1) ↔ n ≠ 2 ^ 64 := by
  constructor
  · rintro h rfl
    have hthrown := h _ _ room_replicate
    unfold writeI53ToU64Signaling at hthrown
    simp only [above_uint64, below_uint64] at hthrown
    rw [if_neg (by decide), if_neg (by decide)] at hthrown
    cases hthrown
  · intro hne heap ptr hroom
    unfold writeI53ToU64Signaling
    simp only [above_uint64, below_uint64]
    split
    · rw [if_neg (by omega)]
    · rw [if_pos (by omega), writeI53ToI64_eq hroom.1 hroom.2 (by omega)]

/-! ## Reading back -/

/-- Two words whose integer has 53 bits. -/
theorem join_eq {lo hi n : Int} (hlo : 0 ≤ lo ∧ lo < 2 ^ 32) (hn : lo + hi * 2 ^ 32 = n) (habs : n.natAbs ≤ 2 ^ 53) :
    add (ofInt lo) (mul (ofInt hi) (ofInt 4294967296)) = n * one := by
  have hhigh : (hi * 4294967296).natAbs ≤ 2 ^ 53 := by omega
  rw [ofInt_eq (by omega), @ofInt_eq hi (by omega), @ofInt_eq 4294967296 (by decide), mul_eq hhigh, add_eq (by omega)]
  congr 1

theorem readI53FromI64_put (hroom : Room heap ptr) {n : Int} (hn : n.natAbs ≤ 2 ^ 53) :
    readI53FromI64 (put ptr (pattern n) heap) ptr = n * one := by
  obtain ⟨hptr, hlength⟩ := hroom
  have hbytes : pattern n = toLE 4 (n % 2 ^ 32).toNat ++ toLE 4 (n / 2 ^ 32 % 2 ^ 32).toNat := by
    have hwhole : (n % 2 ^ 64).toNat = (n % 2 ^ 32).toNat + 256 ^ 4 * (n / 2 ^ 32 % 2 ^ 32).toNat := by omega
    unfold pattern
    rw [hwhole]
    exact toLE_add (by omega) 4 _
  have hsplit : put ptr (pattern n) heap =
      put (ptr + 4) (toLE 4 (n / 2 ^ 32 % 2 ^ 32).toNat) (put ptr (toLE 4 (n % 2 ^ 32).toNat) heap) := by
    rw [hbytes, put_append, length_toLE]
  have hhigh : getU32 (put ptr (pattern n) heap) (ptr + 4) = (n / 2 ^ 32 % 2 ^ 32).toNat := by
    rw [hsplit]
    exact getU32_put (by omega) (by rw [length_put]; omega) (by omega)
  have hlow : getU32 (put ptr (pattern n) heap) ptr = (n % 2 ^ 32).toNat := by
    have hstart : 4 * (ptr / 4) = ptr := by omega
    have hread : ((put ptr (pattern n) heap).drop ptr).take (pattern n).length = pattern n := take_drop_put hlength
    have htake : (((put ptr (pattern n) heap).drop ptr).take 8).take 4 = (pattern n).take 4 :=
      congrArg (List.take 4) hread
    rw [List.take_take] at htake
    unfold getU32
    rw [hstart]
    refine (congrArg ofLE htake).trans ?_
    rw [hbytes, List.take_left' (length_toLE ..), ofLE_toLE]
    exact Nat.mod_eq_of_lt (by omega)
  have hsigned : getI32 (put ptr (pattern n) heap) (ptr + 4) = n / 2 ^ 32 := by
    unfold getI32
    rw [hhigh]
    split
    · omega
    · omega
  unfold readI53FromI64
  rw [hlow, hsigned]
  exact join_eq (by omega) (by omega) hn

/-- The integer of a pair of words. -/
def pairValue (lo hi : Int) : Int := lo % 2 ^ 32 + hi * 2 ^ 32

theorem convertI32PairToI53Checked_eq {lo hi : Int} (hlo : -2 ^ 31 ≤ lo ∧ lo < 2 ^ 32)
    (hhi : -2 ^ 31 ≤ hi ∧ hi < 2 ^ 31) : convertI32PairToI53Checked lo hi =
      if (pairValue lo hi).natAbs ≤ 2 ^ 53 then some (pairValue lo hi * one) else none := by
  have htest : (hi + 0x200000) % 2 ^ 32 < 0x400001 - (if lo ≠ 0 then 1 else 0) ↔
      (pairValue lo hi).natAbs ≤ 2 ^ 53 := by
    unfold pairValue
    split
    · omega
    · omega
  unfold convertI32PairToI53Checked
  simp only [htest]
  split
  · next habs => exact congrArg some (join_eq (by omega) rfl habs)
  · rfl

/-- The writers do what they should with every integer but one: 2^63 with those for signed integers, 2^64 with the
others. Integers of 53 bits are read back, and the checked conversion has exactly those. -/
theorem int53_iff (n : Int) :
    (Clamps writeI53ToI64Clamped n (min (max n (-2 ^ 63)) (2 ^ 63 - 1)) ↔ n ≠ 2 ^ 63) ∧
    (Signals writeI53ToI64Signaling n (-2 ^ 63) (2 ^ 63 - 1) ↔ n ≠ 2 ^ 63) ∧
    (Clamps writeI53ToU64Clamped n (min (max n 0) (2 ^ 64 - 1)) ↔ n ≠ 2 ^ 64) ∧
    (Signals writeI53ToU64Signaling n 0 (2 ^ 64 - 1) ↔ n ≠ 2 ^ 64) ∧
    (n.natAbs ≤ 2 ^ 53 → convertI32PairToI53Checked (n % 2 ^ 32) (n / 2 ^ 32) = some (n * one) ∧
      ∀ heap ptr, Room heap ptr → readI53FromI64 (writeI53ToI64 heap ptr (n * one)) ptr = n * one) ∧
    ∀ lo hi, -2 ^ 31 ≤ lo ∧ lo < 2 ^ 32 → -2 ^ 31 ≤ hi ∧ hi < 2 ^ 31 → convertI32PairToI53Checked lo hi =
      if (pairValue lo hi).natAbs ≤ 2 ^ 53 then some (pairValue lo hi * one) else none := by
  refine ⟨clampedI64_iff n, signalingI64_iff n, clampedU64_iff n, signalingU64_iff n, fun hn => ⟨?_, fun heap ptr hroom => ?_⟩,
    fun lo hi hlo hhi => convertI32PairToI53Checked_eq hlo hhi⟩
  · have hvalue : pairValue (n % 2 ^ 32) (n / 2 ^ 32) = n := by
      unfold pairValue
      omega
    rw [convertI32PairToI53Checked_eq (by omega) (by omega), hvalue, if_pos hn]
  · rw [writeI53ToI64_eq hroom.1 hroom.2 (by omega)]
    exact readI53FromI64_put hroom hn

/-- 2^63 is stored as the least integer, and 2^64 as zero. -/
theorem int53_ends : writeI53ToI64Clamped (List.replicate 8 0) 0 (2 ^ 63 * one) = [0, 0, 0, 0, 0, 0, 0, 0x80] ∧
    ¬ Clamps writeI53ToI64Clamped (2 ^ 63) (min (max (2 ^ 63) (-2 ^ 63)) (2 ^ 63 - 1)) ∧
    writeI53ToU64Signaling (List.replicate 8 7) 0 (2 ^ 64 * one) = some [0, 0, 0, 0, 0, 0, 0, 0] ∧
    ¬ Signals writeI53ToU64Signaling (2 ^ 64) 0 (2 ^ 64 - 1) := by
  refine ⟨?_, fun h => (clampedI64_iff _).mp h rfl, ?_, fun h => (signalingU64_iff _).mp h rfl⟩
  · unfold writeI53ToI64Clamped
    rw [if_neg (by rw [above_int64]; decide), if_neg (by rw [below_int64]; decide),
      writeI53ToI64_eq rfl (by decide) (by decide)]
    decide
  · unfold writeI53ToU64Signaling
    rw [if_neg (by rw [above_uint64, below_uint64]; decide), writeI53ToI64_eq rfl (by decide) (by decide)]
    decide

end Int53
