-- SUMMARY: The two words that compile-time code makes of a number in builds without BigInt.
import Emscripten.JsRuntime.Int53

/-!
# Splitting numbers at compile time

`splitI64` makes two expressions of a number: one for the low word, and one for the high word that goes three ways, for
zero, positive and negative numbers. `makeSetValueImpl` stores their values one after the other.
-/

namespace ParseTools

open Binary64 Heap Int53

/-! ## Expressions -/

inductive Unary
  /-- `+(x)` -/
  | coerce
  /-- `~~(x)` -/
  | floatToInt
  /-- `x>>>0` -/
  | unsigned
  | abs
  | floor
  | ceil
deriving DecidableEq

inductive Binary
  | sub | div | ge | gt
deriving DecidableEq

inductive Expr
  | num (x : Int)
  | tempDouble
  | assign (value : Expr)
  | comma (first second : Expr)
  | unary (op : Unary) (x : Expr)
  | binary (op : Binary) (x y : Expr)
  | cond (test yes no : Expr)

/-- `x|0`, the integer of 32 bits with a sign. -/
def toInt32 (x : Int) : Int := if toUint32 x < 2 ^ 31 then toUint32 x else toUint32 x - 2 ^ 32

def Unary.eval (x : Int) : Unary → Int
  | coerce => x
  | floatToInt => toInt32 x * one
  | unsigned => toUint32 x * one
  | abs => x.natAbs
  | floor => Binary64.floor x * one
  | ceil => -(Binary64.floor (-x) * one)

/-- Of truth values only whether they are zero counts. -/
def Binary.eval (x y : Int) : Binary → Int
  | sub => Binary64.sub x y
  | div => Binary64.div x y
  | ge => if x ≥ y then one else 0
  | gt => if x > y then one else 0

/-- The value, and that of `tempDouble` behind it. -/
def Expr.eval (temp : Int) : Expr → Int × Int
  | num x => (x, temp)
  | tempDouble => (temp, temp)
  | assign value => ((value.eval temp).1, (value.eval temp).1)
  | comma first second => second.eval (first.eval temp).2
  | unary op x => (op.eval (x.eval temp).1, (x.eval temp).2)
  | binary op x y =>
    let l := x.eval temp
    let r := y.eval l.2
    (op.eval l.1 r.1, r.2)
  | cond test yes no =>
    let c := test.eval temp
    if c.1 ≠ 0 then yes.eval c.2 else no.eval c.2

/-! ## The functions of the source -/

/-- The value of a literal is put into a variable, which is then in the place of `VALUE`. -/
def makeInlineCalculation (expression : Expr → Expr) (value : Expr) : Expr :=
  .comma (.assign value) (expression .tempDouble)

/-- To `double`. -/
def asmCoercion (value : Expr) : Expr := .unary .coerce value

def asmEnsureFloat (n : Int) : Expr := .num (ofInt n)

def asmFloatToInt (x : Expr) : Expr := .unary .floatToInt x

/-- The high word of `VALUE`. -/
def highOf (value : Expr) : Expr :=
  .cond (.binary .ge (asmCoercion (.unary .abs value)) (asmEnsureFloat 1))
    (.cond (.binary .gt value (asmEnsureFloat 0))
      (.unary .unsigned (asmCoercion (.unary .floor (.binary .div value (asmEnsureFloat 4294967296)))))
      (.unary .unsigned (asmFloatToInt (asmCoercion (.unary .ceil (.binary .div
        (.binary .sub value (.unary .coerce (.unary .unsigned (asmFloatToInt value)))) (asmEnsureFloat 4294967296)))))))
    (.num 0)

/-- Of the text of a number. -/
def splitI64 (value : Int) : Expr × Expr :=
  (.unary .unsigned (.num value), makeInlineCalculation highOf (.num value))

/-- The store of an `i64`: `tempI64` has both values before the first is stored. -/
def makeSetValueImpl (heap : List UInt8) (temp : Int) (ptr pos : Nat) (value : Int) : List UInt8 :=
  let low := (splitI64 value).1.eval temp
  let high := (splitI64 value).2.eval low.2
  setU32 (setU32 heap (ptr + pos) low.1) (ptr + (pos + 4)) high.1

/-! ## The words -/

theorem toInt32_mod (x : Int) : toInt32 x % 2 ^ 32 = toUint32 x := by
  have hlt : toUint32 x < 2 ^ 32 := by
    unfold toUint32
    omega
  unfold toInt32
  split <;> omega

variable {v : Int}

/-- A number of at least 32 bits keeps its bits when it is divided by two to the power of 32. -/
theorem floor_div_word (hv : Representable v) :
    Binary64.floor (Binary64.div (v * one) (ofInt 4294967296)) = v / 2 ^ 32 := by
  obtain ⟨q, hq, hone⟩ : ∃ q : Nat, q = 2 ^ (lowest - 32) ∧ one = 2 ^ 32 * q := by
    refine ⟨_, rfl, ?_⟩
    unfold one
    rw [← Nat.pow_add, lowest_eq]
  have hpos : 0 < q := hq ▸ Nat.two_pow_pos _
  have hrepresentable : Representable (v * q) := by
    obtain ⟨m, i, hm, rfl⟩ := hv
    refine ⟨m, i + (lowest - 32), hm, ?_⟩
    rw [hq, Int.pow_add, Int.mul_assoc]
    norm_cast
  have hdivisor : ofInt 4294967296 = ((2 ^ 32 * one : Nat) : Int) := by
    rw [ofInt_eq (by decide)]
    norm_cast
  have hsign : ((2 ^ 32 * one : Nat) : Int).sign = 1 :=
    Int.sign_eq_one_of_pos (Int.natCast_pos.2 (Nat.mul_pos (by decide) Binary64.one_pos))
  have hquotient : Binary64.div (v * one) (ofInt 4294967296) = v * q := by
    have hproduct : v * one * one * 1 = ((2 ^ 32 * one : Nat) : Int) * (v * q) := by
      rw [Int.mul_one, Int.natCast_mul, hone, Int.natCast_mul]
      ac_rfl
    unfold Binary64.div
    rw [hdivisor, hsign, Int.natAbs_natCast, hproduct]
    exact round_exact (Nat.mul_pos (by decide) Binary64.one_pos) hrepresentable
  unfold Binary64.floor
  rw [hquotient, hone, Int.natCast_mul, Int.mul_ediv_mul_of_pos_left _ _ (by exact_mod_cast hpos)]
  rfl

/-- What is left of a negative number without its low word. -/
theorem div_rest (hv : -2 ^ 63 ≤ v) (hneg : v < 0) :
    Binary64.div (Binary64.sub (v * one) (v % 2 ^ 32 * one)) (ofInt 4294967296) = v / 2 ^ 32 * one := by
  have hdifference : v * one - v % 2 ^ 32 * one = v / 2 ^ 32 * (4294967296 : Nat) * one := by
    rw [← Int.sub_mul]
    congr 1
    omega
  have hrepresentable : Representable (v * one - v % 2 ^ 32 * one) := by
    refine ⟨v / 2 ^ 32, 32 + lowest, by omega, ?_⟩
    rw [hdifference, Int.mul_assoc, Int.pow_add]
    rfl
  rw [sub_exact hrepresentable, hdifference, ofInt_eq (by decide)]
  exact div_eq (by decide) (by omega)

theorem low_eq (v temp : Int) : ((splitI64 (v * one)).1.eval temp).1 = v % 2 ^ 32 * one := by
  change (toUint32 (v * one) : Int) * one = _
  rw [toUint32_mul_one, Int.toNat_of_nonneg (by omega)]

theorem test_ne_zero {c : Prop} [Decidable c] : (if c then (one : Int) else 0) ≠ 0 ↔ c := by
  have hpos := Binary64.one_pos
  split
  · next h => exact ⟨fun _ => h, fun _ => by omega⟩
  · next h => exact ⟨fun hne => absurd rfl hne, fun hc => absurd hc h⟩

/-- Each of the three ways gives the word. -/
theorem high_eq (hrange : -2 ^ 63 ≤ v ∧ v < 2 ^ 63) (hv : Representable v) (temp : Int) :
    ((splitI64 (v * one)).2.eval temp).1 = v / 2 ^ 32 % 2 ^ 32 * one := by
  have hword : ∀ x : Int, (toUint32 (x * one) : Int) = x % 2 ^ 32 := by
    intro x
    rw [toUint32_mul_one, Int.toNat_of_nonneg (by omega)]
  have htest : ((v * one).natAbs : Int) ≥ ofInt 1 ↔ v ≠ 0 := by
    rw [ofInt_eq (by decide), Int.natAbs_mul, Int.natAbs_natCast, Int.natCast_mul, ge_iff_le,
      Int.mul_le_mul_iff_of_pos_right (by exact_mod_cast Binary64.one_pos)]
    omega
  have hpositive : v * one > ofInt 0 ↔ 0 < v := by
    rw [ofInt_eq (by decide)]
    exact mul_one_lt
  unfold splitI64 makeInlineCalculation highOf asmCoercion asmEnsureFloat asmFloatToInt
  simp only [Expr.eval, Unary.eval, Binary.eval, test_ne_zero, htest, hpositive]
  by_cases hzero : v = 0
  · rw [if_neg (not_not.2 hzero), hzero]
    exact (Int.zero_mul _).symm
  · rw [if_pos hzero]
    by_cases hpos : 0 < v
    · rw [if_pos hpos, floor_div_word hv, hword]
    · rw [if_neg hpos]
      have hlow : (toUint32 (toInt32 (v * one) * one) : Int) = v % 2 ^ 32 := by
        rw [hword, toInt32_mod, hword]
      have hceil : -(Binary64.floor (-(v / 2 ^ 32 * one)) * one) = v / 2 ^ 32 * one := by
        have hneg : -(v / 2 ^ 32 * (one : Int)) = -(v / 2 ^ 32) * one := (Int.neg_mul ..).symm
        rw [hneg, floor_mul_one, Int.neg_mul, Int.neg_neg]
      rw [hlow, div_rest hrange.1 (by omega), hceil, hword, toInt32_mod, hword]

/-- The pair has the words of the integer, and stored they are its 64 bits. -/
theorem splitI64_words {v : Int} (hrange : -2 ^ 63 ≤ v ∧ v < 2 ^ 63) (hv : Representable v) (temp : Int) :
    ((splitI64 (v * one)).1.eval temp).1 = v % 2 ^ 32 * one ∧
    ((splitI64 (v * one)).2.eval temp).1 = v / 2 ^ 32 % 2 ^ 32 * one ∧
    ∀ heap ptr pos, (ptr + pos) % 4 = 0 →
      makeSetValueImpl heap temp ptr pos (v * one) = put (ptr + pos) (pattern v) heap := by
  refine ⟨low_eq v temp, high_eq hrange hv temp, fun heap ptr pos haligned => ?_⟩
  have hlow := low_eq v temp
  have hhigh := high_eq hrange hv ((splitI64 (v * one)).1.eval temp).2
  unfold makeSetValueImpl
  dsimp only
  rw [hlow, hhigh, ← Nat.add_assoc]
  apply setU32_setU32 haligned
  · rw [toUint32_mul_one, Int.emod_emod_of_dvd _ (Int.dvd_refl _)]
  · rw [toUint32_mul_one, Int.emod_emod_of_dvd _ (Int.dvd_refl _)]

/-- A negative multiple of two to the power of 32. -/
theorem splitI64_words_negative :
    ((splitI64 (-2 ^ 33 * one)).2.eval 0).1 = 4294967294 * one ∧
      makeSetValueImpl (List.replicate 8 0) 0 0 0 (-2 ^ 33 * one) = put 0 (pattern (-2 ^ 33)) (List.replicate 8 0) :=
  have h := splitI64_words (v := -2 ^ 33) (by decide) ⟨-1, 33, by decide, by decide⟩ 0
  ⟨h.2.1, h.2.2 _ 0 0 rfl⟩

end ParseTools
