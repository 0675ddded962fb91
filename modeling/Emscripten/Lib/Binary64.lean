-- SUMMARY: Double precision numbers as multiples of the smallest one: rounding to the nearest, and when it is exact.
import Mathlib.Algebra.Ring.Int.Defs
import Mathlib.Algebra.Ring.Nat

/-!
# Double precision numbers

A finite number of double precision is a multiple of `2^-1074`, and is known here by the integer that it
is a multiple with. Each operation rounds the exact result to the nearest number of 53 bits, and of two
that are nearest to the even one. Numbers beyond the largest are not considered.
-/

namespace Binary64

/-! ## Rounding -/

/-- The smallest number is two to the power of minus this. -/
def lowest : Nat := 1074

/-- The integer of the number one. -/
def one : Nat := 2 ^ lowest

/-- The place of the last of 53 bits of the fraction `n / d`. -/
def place (n d : Nat) : Nat := if n / (d * 2 ^ 53) = 0 then 0 else (n / (d * 2 ^ 53)).log2 + 1

/-- The integer that is nearest to `n / b`, and the even one of two. -/
def nearest (n b : Nat) : Nat :=
  if 2 * (n % b) < b ∨ 2 * (n % b) = b ∧ (n / b) % 2 = 0 then n / b else n / b + 1

def roundNat (n d : Nat) : Nat := nearest n (d * 2 ^ place n d) * 2 ^ place n d

/-- The number that is nearest to `n / d`. -/
def round (n : Int) (d : Nat) : Int := n.sign * roundNat n.natAbs d

/-- A number of at most 53 bits. -/
def Representable (x : Int) : Prop := ∃ (m : Int) (i : Nat), m.natAbs ≤ 2 ^ 53 ∧ x = m * 2 ^ i

theorem two_pow_53 : 2 ^ 53 = 2 ^ 52 * 2 := by decide

variable {d : Nat} {x y : Int} (n : Int) {m : Nat}

theorem le_of_place {n : Nat} (h : place n d ≠ 0) : d * 2 ^ 52 * 2 ^ place n d ≤ n := by
  unfold place at h ⊢
  split at h
  · exact absurd rfl h
  · rename_i hq
    rw [if_neg hq]
    have hlog : 2 ^ (n / (d * 2 ^ 53)).log2 ≤ n / (d * 2 ^ 53) := Nat.log2_self_le hq
    have hle : 2 ^ (n / (d * 2 ^ 53)).log2 * (d * 2 ^ 53) ≤ n :=
      Nat.le_trans (Nat.mul_le_mul_right _ hlog) (Nat.div_mul_le_self n _)
    have hsucc : 2 ^ ((n / (d * 2 ^ 53)).log2 + 1) = 2 ^ (n / (d * 2 ^ 53)).log2 * 2 := Nat.pow_succ ..
    rw [hsucc]
    generalize 2 ^ (n / (d * 2 ^ 53)).log2 = k at hle ⊢
    calc d * 2 ^ 52 * (k * 2) = k * (d * (2 ^ 52 * 2)) := by ac_rfl
      _ = k * (d * 2 ^ 53) := by rw [two_pow_53]
      _ ≤ n := hle

/-- No multiple of `b` is nearer to `n`. -/
theorem nearest_le {n b : Nat} (hb : 0 < b) (z : Nat) :
    ((b * nearest n b : Nat) - (n : Int)).natAbs ≤ ((b * z : Nat) - (n : Int)).natAbs := by
  have hn : b * (n / b) + n % b = n := Nat.div_add_mod n b
  have hr : n % b < b := Nat.mod_lt n hb
  have hz : z ≤ n / b ∨ n / b + 1 ≤ z := by omega
  -- the multiple is at or below the last one before `n`, or beyond it
  have hdist : n % b ≤ ((b * z : Nat) - (n : Int)).natAbs ∨
      b - n % b ≤ ((b * z : Nat) - (n : Int)).natAbs := by
    obtain hz | hz := hz
    · left
      have := Nat.mul_le_mul_left b hz
      omega
    · right
      have := Nat.mul_le_mul_left b hz
      rw [Nat.mul_succ] at this
      omega
  unfold nearest
  split
  · omega
  · rw [Nat.mul_succ]
    omega

theorem roundNat_nearest {n : Nat} (hd : 0 < d) (hm : m ≤ 2 ^ 53) (i : Nat) :
    ((d * roundNat n d : Nat) - (n : Int)).natAbs ≤ ((d * (m * 2 ^ i) : Nat) - (n : Int)).natAbs := by
  have hb : 0 < d * 2 ^ place n d := Nat.mul_pos hd (Nat.two_pow_pos _)
  have hround : d * roundNat n d = d * 2 ^ place n d * nearest n (d * 2 ^ place n d) := by
    unfold roundNat
    ac_rfl
  rw [hround]
  by_cases hi : place n d ≤ i
  · -- the number is a multiple of the last place
    have hmul : d * (m * 2 ^ i) = d * 2 ^ place n d * (m * 2 ^ (i - place n d)) := by
      have hpow : 2 ^ i = 2 ^ (i - place n d) * 2 ^ place n d := by
        rw [← Nat.pow_add, Nat.sub_add_cancel hi]
      rw [hpow]
      ac_rfl
    rw [hmul]
    exact nearest_le hb _
  · -- the number is at most the first of this place
    have hpl : place n d ≠ 0 := by omega
    have hn := le_of_place hpl
    have hle : d * (m * 2 ^ i) ≤ d * 2 ^ place n d * 2 ^ 52 := by
      calc d * (m * 2 ^ i) ≤ d * (2 ^ 53 * 2 ^ (place n d - 1)) := by
            apply Nat.mul_le_mul_left
            exact Nat.mul_le_mul hm (Nat.pow_le_pow_right (by decide) (by omega))
        _ = d * (2 ^ 52 * 2 ^ place n d) := by
            congr 1
            rw [← Nat.pow_add, ← Nat.pow_add]
            congr 1
            omega
        _ = d * 2 ^ place n d * 2 ^ 52 := by ac_rfl
    have hnear := nearest_le (n := n) hb (2 ^ 52)
    have hn' : d * 2 ^ place n d * 2 ^ 52 ≤ n := by
      rw [Nat.mul_right_comm]
      exact hn
    omega

/-- What has 53 bits is not rounded. -/
theorem roundNat_exact (hd : 0 < d) (hm : m ≤ 2 ^ 53) (i : Nat) : roundNat (d * (m * 2 ^ i)) d = m * 2 ^ i := by
  have hnear := roundNat_nearest (n := d * (m * 2 ^ i)) hd hm i
  have heq : d * roundNat (d * (m * 2 ^ i)) d = d * (m * 2 ^ i) := by omega
  exact Nat.eq_of_mul_eq_mul_left hd heq

theorem round_exact (hd : 0 < d) (hx : Representable x) : round (d * x) d = x := by
  obtain ⟨m, i, hm, rfl⟩ := hx
  have hd' : (d : Int).sign = 1 := Int.sign_eq_one_of_pos (by omega)
  have habs : ((d : Int) * (m * 2 ^ i)).natAbs = d * (m.natAbs * 2 ^ i) := by
    rw [Int.natAbs_mul, Int.natAbs_mul, Int.natAbs_pow]
    rfl
  have hsign : ((d : Int) * (m * 2 ^ i)).sign = m.sign := by
    rw [Int.sign_mul, Int.sign_mul, hd', Int.one_mul, Int.sign_eq_one_of_pos (Int.pow_pos (by decide)),
      Int.mul_one]
  unfold round
  rw [habs, hsign, roundNat_exact hd hm i, Int.natCast_mul, ← Int.mul_assoc, Int.sign_mul_natAbs]
  norm_cast

theorem round_neg (d : Nat) : round (-n) d = -round n d := by
  unfold round
  rw [Int.sign_neg, Int.natAbs_neg, Int.neg_mul]

/-- What is rounded has 53 bits. -/
theorem roundNat_bits (n : Nat) (hd : 0 < d) : nearest n (d * 2 ^ place n d) ≤ 2 ^ 53 := by
  have hquotient : n / (d * 2 ^ place n d) < 2 ^ 53 := by
    apply (Nat.div_lt_iff_lt_mul (Nat.mul_pos hd (Nat.two_pow_pos _))).2
    unfold place
    split
    · next hzero =>
      have hlt := (Nat.div_eq_zero_iff_lt (Nat.mul_pos hd (Nat.two_pow_pos 53))).1 hzero
      rw [Nat.pow_zero, Nat.mul_one, Nat.mul_comm]
      exact hlt
    · next hq =>
      have hlog : n / (d * 2 ^ 53) < 2 ^ ((n / (d * 2 ^ 53)).log2 + 1) := (Nat.log2_lt hq).1 (Nat.lt_succ_self _)
      have hlt := (Nat.div_lt_iff_lt_mul (Nat.mul_pos hd (Nat.two_pow_pos 53))).1 hlog
      have hcomm : ∀ a b c : Nat, a * (b * c) = c * (b * a) := fun a b c => by ac_rfl
      exact Nat.lt_of_lt_of_eq hlt (hcomm _ _ _)
  unfold nearest
  split
  · exact Nat.le_of_lt hquotient
  · exact hquotient

theorem representable_round (hd : 0 < d) : Representable (round n d) := by
  refine ⟨n.sign * nearest n.natAbs (d * 2 ^ place n.natAbs d), place n.natAbs d, ?_, ?_⟩
  · rw [Int.natAbs_mul, Int.natAbs_natCast]
    cases eq_or_ne n 0 with
    | inl hzero =>
      rw [hzero, Int.sign_zero, Int.natAbs_zero, Nat.zero_mul]
      exact Nat.zero_le _
    | inr hne =>
      rw [Int.natAbs_sign_of_ne_zero hne, Nat.one_mul]
      exact roundNat_bits n.natAbs hd
  · unfold round roundNat
    push_cast
    rw [Int.mul_assoc]

/-- Nothing but zero is rounded to zero. -/
theorem eq_zero_of_round {n : Int} (h : round n 1 = 0) : n = 0 := by
  by_contra hne
  have hpos : n.natAbs ≠ 0 := Int.natAbs_ne_zero.2 hne
  have hround : roundNat n.natAbs 1 = 0 := by
    cases Int.mul_eq_zero.1 h with
    | inl hsign => exact absurd (Int.sign_eq_zero_iff_zero.1 hsign) hne
    | inr hround => exact_mod_cast hround
  have hnear := roundNat_nearest (n := n.natAbs) (m := 1) Nat.one_pos (Nat.one_le_two_pow) n.natAbs.log2
  have hlog := Nat.log2_self_le hpos
  have hpower := Nat.two_pow_pos n.natAbs.log2
  rw [hround] at hnear
  omega

/-! ## Operations -/

def ofInt (n : Int) : Int := round (n * one) 1
def add (x y : Int) : Int := round (x + y) 1
def sub (x y : Int) : Int := round (x - y) 1
def mul (x y : Int) : Int := round (x * y) one
def div (x y : Int) : Int := round (x * one * y.sign) y.natAbs

/-- The conversion to an integer, which drops the fraction. -/
def trunc (x : Int) : Int := x.tdiv one

/-- The integer at or below a number. -/
def floor (x : Int) : Int := x / one

theorem lowest_eq : lowest = 1074 := rfl

attribute [irreducible] lowest

theorem one_pos : 0 < one := Nat.two_pow_pos lowest

theorem representable_mul_one {n : Int} (h : n.natAbs ≤ 2 ^ 53) : Representable (n * one) :=
  ⟨n, lowest, h, by simp [one]⟩

theorem ofInt_eq {n : Int} (h : n.natAbs ≤ 2 ^ 53) : ofInt n = n * one := by
  unfold ofInt
  simpa using round_exact Nat.one_pos (representable_mul_one h)

theorem add_eq (h : (x + y).natAbs ≤ 2 ^ 53) : add (x * one) (y * one) = (x + y) * one := by
  unfold add
  rw [← Int.add_mul]
  simpa using round_exact Nat.one_pos (representable_mul_one h)

theorem sub_eq (h : (x - y).natAbs ≤ 2 ^ 53) : sub (x * one) (y * one) = (x - y) * one := by
  unfold sub
  rw [← Int.sub_mul]
  simpa using round_exact Nat.one_pos (representable_mul_one h)

theorem mul_eq (h : (x * y).natAbs ≤ 2 ^ 53) : mul (x * one) (y * one) = x * y * one := by
  have hcomm : x * one * (y * one) = (one : Int) * (x * y * one) := by ac_rfl
  unfold mul
  rw [hcomm]
  exact round_exact one_pos (representable_mul_one h)

/-- A difference that has 53 bits is not rounded. -/
theorem sub_exact (h : Representable (x - y)) : sub x y = x - y := by
  unfold sub
  simpa using round_exact Nat.one_pos h

/-- A quotient without remainder. -/
theorem div_eq {y : Nat} (hy : 0 < y) (h : x.natAbs ≤ 2 ^ 53) : div (x * y * one) (y * one) = x * one := by
  have hpos : 0 < y * one := Nat.mul_pos hy one_pos
  have hsign : ((y : Int) * one).sign = 1 := Int.sign_eq_one_of_pos (by exact_mod_cast hpos)
  have habs : ((y : Int) * one).natAbs = y * one := by rw [← Int.natCast_mul, Int.natAbs_natCast]
  have hcomm : x * y * one * one * 1 = ((y * one : Nat) : Int) * (x * one) := by
    rw [Int.natCast_mul, Int.mul_one]
    ac_rfl
  unfold div
  rw [hsign, habs, hcomm]
  exact round_exact hpos (representable_mul_one h)

theorem trunc_mul_one : trunc (n * one) = n := by
  apply Int.mul_tdiv_cancel
  have := one_pos
  omega

theorem floor_mul_one : floor (n * one) = n := by
  apply Int.mul_ediv_cancel
  have := one_pos
  omega

/-- Rounding does not go below a number of 53 bits. -/
theorem le_natAbs_round (hd : 0 < d) (hm : m ≤ 2 ^ 53) (h : d * (m * one) ≤ x.natAbs) :
    m * one ≤ (round x d).natAbs := by
  cases eq_or_ne x 0 with
  | inl hzero =>
    rw [hzero] at h
    have hnone : m * one = 0 := by
      apply Nat.eq_zero_of_le_zero
      exact Nat.le_trans (Nat.le_mul_of_pos_left _ hd) h
    rw [hnone]
    exact Nat.zero_le _
  | inr hne =>
    have hnear := roundNat_nearest (n := x.natAbs) hd hm lowest
    have hone : (2 : Nat) ^ lowest = one := rfl
    have habs : (round x d).natAbs = roundNat x.natAbs d := by
      unfold round
      rw [Int.natAbs_mul, Int.natAbs_natCast, Int.natAbs_sign_of_ne_zero hne, Nat.one_mul]
    rw [habs]
    rw [hone] at hnear
    exact Nat.le_of_mul_le_mul_left (by omega) hd

/-! ## Quotients -/

theorem nearest_zero (b : Nat) : nearest 0 b = 0 := by
  unfold nearest
  rw [Nat.zero_mod, Nat.zero_div, if_pos (by omega)]

theorem roundNat_zero (d : Nat) : roundNat 0 d = 0 := by
  unfold roundNat
  rw [nearest_zero, Nat.zero_mul]

theorem round_natCast (n d : Nat) : round n d = roundNat n d := by
  unfold round
  rw [Int.natAbs_natCast]
  cases n with
  | zero => simp [roundNat_zero]
  | succ n => rw [Int.sign_eq_one_of_pos (by omega), Int.one_mul]

/-- `a` is no farther from `b` than `c` and `e` are. Then it is not before `c`, nor at `c + m`, which `e` is
closely before. -/
theorem squeeze {a b c e q : Nat} (hc : (a - (b : Int)).natAbs ≤ (c - (b : Int)).natAbs)
    (he : (a - (b : Int)).natAbs ≤ (e - (b : Int)).natAbs) (hcb : c ≤ b) (heq : e + q = c + m) (hq : 0 < q)
    (hgap : q < 2 * (c + m - b)) : c ≤ a ∧ a < c + m := by
  omega

/-- A quotient is rounded to a number between the integers that it is between. The hypotheses leave a number
just below the upper one that is nearer to the quotient. -/
theorem div_between {n p : Nat} (hp : p ≤ lowest) (hpos : 0 < d) (hd : d < 2 ^ (p + 1))
    (h : (n / d + 1) * 2 ^ p ≤ 2 ^ 53) :
    n / d * one ≤ roundNat (n * one * one) (d * one) ∧
      roundNat (n * one * one) (d * one) < (n / d + 1) * one := by
  have ho : 0 < one := one_pos
  have hone : 2 ^ p * 2 ^ (lowest - p) = one := by
    rw [← Nat.pow_add, Nat.add_sub_cancel' hp]
    rfl
  generalize hR : roundNat (n * one * one) (d * one) = R
  generalize hu : 2 ^ (lowest - p) = u at hone
  have hp0 : 1 ≤ 2 ^ p := Nat.one_le_two_pow
  have hk : n / d ≤ 2 ^ 53 := by
    have := Nat.mul_le_mul_left (n / d + 1) hp0
    omega
  -- the two numbers that the result is nearer than
  have near : ∀ m i, m ≤ 2 ^ 53 →
      ((d * R : Nat) - ((n * one : Nat) : Int)).natAbs ≤
        ((d * (m * 2 ^ i) : Nat) - ((n * one : Nat) : Int)).natAbs := by
    intro m i hm
    have hnear := roundNat_nearest (n := n * one * one) (d := d * one) (Nat.mul_pos hpos ho) hm i
    have hfactor : ∀ x : Nat, ((d * one * x : Nat) - ((n * one * one : Nat) : Int)).natAbs =
        one * ((d * x : Nat) - ((n * one : Nat) : Int)).natAbs := by
      intro x
      have hdiff : ((d * one * x : Nat) - ((n * one * one : Nat) : Int)) =
          (one : Int) * ((d * x : Nat) - ((n * one : Nat) : Int)) := by
        rw [Int.mul_sub, ← Int.natCast_mul, ← Int.natCast_mul]
        congr 2 <;> ac_rfl
      rw [hdiff, Int.natAbs_mul, Int.natAbs_natCast]
    rw [hR, hfactor, hfactor] at hnear
    exact Nat.le_of_mul_le_mul_left hnear ho
  have hlow := near (n / d) lowest hk
  have hhigh := near ((n / d + 1) * 2 ^ p - 1) (lowest - p) (by omega)
  have hone' : (2 : Nat) ^ lowest = one := rfl
  rw [hone'] at hlow
  rw [hu] at hhigh
  -- in units of the denominator
  have hc : d * (n / d * one) ≤ n * one := by
    rw [← Nat.mul_assoc]
    exact Nat.mul_le_mul_right one (Nat.mul_div_le n d)
  have hsucc : d * ((n / d + 1) * one) = d * (n / d * one) + d * one := by
    rw [Nat.succ_mul, Nat.mul_add]
  have hgap : n * one + one ≤ d * (n / d * one) + d * one := by
    rw [← hsucc, ← Nat.mul_assoc, ← Nat.succ_mul]
    apply Nat.mul_le_mul_right
    have := Nat.lt_mul_div_succ n hpos
    omega
  have hbelow : d * (((n / d + 1) * 2 ^ p - 1) * u) + d * u = d * ((n / d + 1) * one) := by
    have hge : 1 ≤ (n / d + 1) * 2 ^ p := Nat.mul_pos (Nat.succ_pos _) hp0
    rw [← Nat.mul_add, ← Nat.succ_mul, Nat.succ_eq_add_one, Nat.sub_add_cancel hge, Nat.mul_assoc, hone]
  have hu0 : 0 < u := by
    rw [← hu]
    exact Nat.two_pow_pos _
  have hdu : d * u < 2 * one := by
    have hlt : d * u < 2 ^ (p + 1) * u := Nat.mul_lt_mul_of_pos_right hd hu0
    rw [Nat.pow_succ, Nat.mul_right_comm, hone] at hlt
    omega
  obtain ⟨hle, hlt⟩ := squeeze hlow hhigh hc (hbelow.trans hsucc) (Nat.mul_pos hpos hu0)
    (Nat.lt_of_lt_of_le hdu (Nat.mul_le_mul_left 2 (Nat.le_sub_of_add_le' hgap)))
  rw [← hsucc] at hlt
  exact ⟨Nat.le_of_mul_le_mul_left hle hpos, Nat.lt_of_mul_lt_mul_left hlt⟩

theorem div_natCast (m : Nat) (hpos : 0 < d) :
    div ((m : Int) * one) (d * one) = (roundNat (m * one * one) (d * one) : Int) := by
  have hsign : ((d : Int) * one).sign = 1 :=
    Int.sign_eq_one_of_pos (by exact_mod_cast Nat.mul_pos hpos one_pos)
  have habs : ((d : Int) * one).natAbs = d * one := by rw [← Int.natCast_mul, Int.natAbs_natCast]
  unfold div
  rw [hsign, habs, Int.mul_one, ← Int.natCast_mul, ← Int.natCast_mul, round_natCast]

theorem floor_div {p : Nat} (hp : p ≤ lowest) (hpos : 0 < d) (hd : d < 2 ^ (p + 1))
    (h : (m / d + 1) * 2 ^ p ≤ 2 ^ 53) : floor (div ((m : Int) * one) (d * one)) = (m / d : Nat) := by
  obtain ⟨hlow, hhigh⟩ := div_between hp hpos hd h
  rw [div_natCast m hpos]
  unfold floor
  rw [← Int.natCast_ediv, Nat.div_eq_of_lt_le hlow hhigh]

/-- The same for any two numbers of 53 bits. -/
theorem quotient_between {n : Nat} (hpos : 0 < d) (hn : n ≤ 2 ^ 53) (hd : d ≤ 2 ^ 53) :
    n / d * one ≤ roundNat (n * one * one) (d * one) ∧
      roundNat (n * one * one) (d * one) < (n / d + 1) * one := by
  by_cases hdvd : d ∣ n
  · obtain ⟨q, rfl⟩ := hdvd
    have hq : (q : Int).natAbs ≤ 2 ^ 53 := Nat.le_trans (Nat.le_mul_of_pos_left q hpos) hn
    have hexact : ((roundNat (d * q * one * one) (d * one) : Nat) : Int) = q * one := by
      rw [← div_natCast _ hpos, Nat.mul_comm d q, Int.natCast_mul]
      exact div_eq hpos hq
    have hnat : roundNat (d * q * one * one) (d * one) = q * one := by exact_mod_cast hexact
    rw [hnat, Nat.mul_div_cancel_left q hpos]
    exact ⟨Nat.le_refl _, Nat.mul_lt_mul_of_pos_right (Nat.lt_succ_self q) one_pos⟩
  · have hlog : d.log2 ≤ 53 := by
      apply Nat.le_of_lt_succ
      exact (Nat.log2_lt (Nat.ne_of_gt hpos)).2 (Nat.lt_of_le_of_lt hd (Nat.pow_lt_pow_right Nat.one_lt_two (Nat.lt_succ_self _)))
    have hlow : 2 ^ d.log2 ≤ d := Nat.log2_self_le (Nat.ne_of_gt hpos)
    have hsplit : 2 ^ (53 - d.log2) * 2 ^ d.log2 = 2 ^ 53 := by rw [← Nat.pow_add, Nat.sub_add_cancel hlog]
    apply div_between (Nat.le_trans hlog (by rw [lowest_eq]; decide)) hpos Nat.lt_log2_self
    rw [← hsplit]
    apply Nat.mul_le_mul_right
    by_contra hmany
    -- then `n` and `d` are powers of two
    have hquot : 2 ^ (53 - d.log2) ≤ n / d := Nat.le_of_lt_succ (Nat.lt_of_not_le hmany)
    have hle : 2 ^ (53 - d.log2) * d ≤ n := (Nat.le_div_iff_mul_le hpos).1 hquot
    have hge : 2 ^ (53 - d.log2) * 2 ^ d.log2 ≤ 2 ^ (53 - d.log2) * d := Nat.mul_le_mul_left _ hlow
    apply hdvd
    exact ⟨2 ^ (53 - d.log2), by rw [Nat.mul_comm]; omega⟩

theorem div_neg_neg (x y : Int) : div (-x) (-y) = div x y := by
  unfold div
  rw [Int.natAbs_neg, Int.sign_neg, Int.neg_mul, Int.neg_mul_neg]

theorem dvd_of_tdiv_eq (hx : x ≤ 0) (hpos : 0 < d) (h : x.tdiv d = x.fdiv d) : (d : Int) ∣ x := by
  have hd : (0 : Int) < d := by exact_mod_cast hpos
  have htrunc : d * x.tdiv d + x.tmod d = x := Int.mul_tdiv_add_tmod x d
  have hfloor : d * (x / d) + x % d = x := Int.mul_ediv_add_emod x d
  have hup : x.tmod d ≤ 0 := by
    have hneg := Int.tmod_nonneg (a := -x) d (by omega)
    rw [Int.neg_tmod] at hneg
    omega
  have hdown : 0 ≤ x % d := Int.emod_nonneg x (Int.ne_of_gt hd)
  rw [Int.fdiv_eq_ediv_of_nonneg x (Int.le_of_lt hd)] at h
  apply Int.dvd_of_emod_eq_zero
  rw [h] at htrunc
  omega

/-- Where rounding up and rounding down agree, a rounded quotient has the integer part of the quotient below it. -/
theorem floor_div_natCast (hpos : 0 < d) (hx : x.natAbs ≤ 2 ^ 53) (hd : d ≤ 2 ^ 53) (h : x.tdiv d = x.fdiv d) :
    floor (div (x * one) (d * one)) = x.tdiv d ∧ (div (x * one) (d * one)).natAbs < (2 ^ 53 + 1) * one := by
  have hsucc : 2 ^ 53 * one < (2 ^ 53 + 1) * one := Nat.mul_lt_mul_of_pos_right (Nat.lt_succ_self _) one_pos
  obtain hneg | hnonneg := Int.lt_or_le x 0
  · obtain ⟨q, rfl⟩ := dvd_of_tdiv_eq (Int.le_of_lt hneg) hpos h
    have hne : (d : Int) ≠ 0 := by exact_mod_cast Nat.ne_of_gt hpos
    have hq : q.natAbs ≤ 2 ^ 53 := by
      rw [Int.natAbs_mul, Int.natAbs_natCast] at hx
      exact Nat.le_trans (Nat.le_mul_of_pos_left _ hpos) hx
    rw [Int.mul_comm (d : Int) q, div_eq hpos hq, floor_mul_one, Int.mul_tdiv_cancel _ hne]
    refine ⟨rfl, ?_⟩
    rw [Int.natAbs_mul, Int.natAbs_natCast]
    exact Nat.lt_of_le_of_lt (Nat.mul_le_mul_right one hq) hsucc
  · obtain ⟨n, rfl⟩ := Int.eq_ofNat_of_zero_le hnonneg
    rw [Int.natAbs_natCast] at hx
    obtain ⟨hlow, hhigh⟩ := quotient_between hpos hx hd
    rw [div_natCast n hpos]
    refine ⟨?_, ?_⟩
    · unfold floor
      rw [← Int.natCast_ediv, Nat.div_eq_of_lt_le hlow hhigh, Int.ofNat_tdiv]
    · rw [Int.natAbs_natCast]
      apply Nat.lt_of_lt_of_le hhigh
      exact Nat.mul_le_mul_right one (Nat.succ_le_succ (Nat.le_trans (Nat.div_le_self n d) hx))

theorem floor_div_eq (hy : y ≠ 0) (hx : x.natAbs ≤ 2 ^ 53) (hsmall : y.natAbs ≤ 2 ^ 53)
    (h : x.tdiv y = x.fdiv y) :
    floor (div (x * one) (y * one)) = x.tdiv y ∧ (div (x * one) (y * one)).natAbs < (2 ^ 53 + 1) * one := by
  have hpos : 0 < y.natAbs := Int.natAbs_pos.2 hy
  obtain heq | heq := Int.natAbs_eq y
  · rw [heq] at h ⊢
    exact floor_div_natCast hpos hx hsmall h
  · have hneg : y = -(y.natAbs : Int) := heq
    rw [hneg] at h ⊢
    have hflip : (-x).tdiv y.natAbs = (-x).fdiv y.natAbs := by
      rw [← Int.neg_tdiv_neg, ← Int.neg_fdiv_neg, Int.neg_neg]
      exact h
    have hquot := floor_div_natCast hpos (by rw [Int.natAbs_neg]; exact hx) hsmall hflip
    rw [← Int.neg_tdiv_neg x, ← div_neg_neg (x * one), ← Int.neg_mul, ← Int.neg_mul, Int.neg_neg]
    exact hquot

/-- The integer part of a rounded quotient is the integer part of the quotient. -/
theorem trunc_div {n : Int} {p : Nat} (hp : p ≤ lowest) (hpos : 0 < d) (hd : d < 2 ^ (p + 1))
    (h : (n.natAbs / d + 1) * 2 ^ p ≤ 2 ^ 53) : trunc (div (n * one) (d * one)) = n.tdiv d := by
  have hnat : ∀ m : Nat, (m / d + 1) * 2 ^ p ≤ 2 ^ 53 →
      trunc (div ((m : Int) * one) (d * one)) = (m : Int).tdiv d := by
    intro m hm
    obtain ⟨hlow, hhigh⟩ := div_between hp hpos hd hm
    rw [div_natCast m hpos]
    unfold trunc
    rw [← Int.ofNat_tdiv, ← Int.ofNat_tdiv]
    congr 1
    apply Nat.div_eq_of_lt_le
    · exact hlow
    · exact hhigh
  obtain hn | hn := Int.natAbs_eq n
  · rw [hn]
    exact hnat _ h
  · have hdiv : div (-(n.natAbs : Int) * one) (d * one) = -div ((n.natAbs : Int) * one) (d * one) := by
      unfold div
      rw [Int.neg_mul, Int.neg_mul, Int.neg_mul, round_neg]
    rw [hn, hdiv]
    unfold trunc at hnat ⊢
    rw [Int.neg_tdiv, Int.neg_tdiv, hnat _ h]

/-! ## Literals that have no 53 bits -/

theorem place_eq {n p : Nat} (hp : 0 < p) (hle : 2 ^ (52 + p) ≤ n) (hlt : n < 2 ^ (53 + p)) : place n 1 = p := by
  obtain ⟨k, rfl⟩ : ∃ k, p = k + 1 := ⟨p - 1, by omega⟩
  have hlow : 2 ^ k ≤ n / 2 ^ 53 := by
    rw [Nat.le_div_iff_mul_le (by decide), ← Nat.pow_add]
    have hexp : k + 53 = 52 + (k + 1) := by omega
    rwa [hexp]
  have hhigh : n / 2 ^ 53 < 2 ^ (k + 1) := by
    rwa [Nat.div_lt_iff_lt_mul (by decide), ← Nat.pow_add, Nat.add_comm]
  have hne : n / 2 ^ 53 ≠ 0 := Nat.ne_of_gt (Nat.lt_of_lt_of_le (Nat.two_pow_pos k) hlow)
  have hlog : (n / 2 ^ 53).log2 = k := (Nat.log2_eq_iff hne).mpr ⟨hlow, hhigh⟩
  unfold place
  rw [Nat.one_mul, if_neg hne, hlog]

/-- The number below a power of two beyond 53 bits is rounded to it. -/
theorem ofInt_pred_two_pow (j : Nat) : ofInt (2 ^ (54 + j) - 1) = 2 ^ (54 + j) * one := by
  have hstep : 1 ≤ 2 ^ j := Nat.two_pow_pos j
  have hsplit : (2 : Nat) ^ (54 + j) = 2 ^ 53 * (2 * 2 ^ j) := by
    rw [Nat.pow_add]
    omega
  have hpos := one_pos
  have hb : (2 : Nat) ^ (j + 1 + lowest) = 2 * 2 ^ j * one := by rw [Nat.pow_add, Nat.pow_succ, Nat.mul_comm _ 2]; rfl
  have hwhole : (2 ^ (54 + j) - 1) * one = (2 * 2 ^ j - 1) * one + 2 * 2 ^ j * one * (2 ^ 53 - 1) := by
    have hcount : 2 ^ (54 + j) - 1 = 2 * 2 ^ j - 1 + 2 * 2 ^ j * (2 ^ 53 - 1) := by omega
    rw [hcount, Nat.add_mul, Nat.mul_right_comm]
  have hsmall : (2 * 2 ^ j - 1) * one < 2 * 2 ^ j * one := Nat.mul_lt_mul_of_pos_right (by omega) hpos
  have hplace : place ((2 ^ (54 + j) - 1) * one) 1 = j + 1 + lowest := by
    have hlow : 2 ^ (52 + (j + 1 + lowest)) = 2 ^ 53 * 2 ^ j * one := by
      have hexp : 52 + (j + 1 + lowest) = 53 + j + lowest := by omega
      rw [hexp, Nat.pow_add, Nat.pow_add]
      rfl
    have hhigh : 2 ^ (53 + (j + 1 + lowest)) = 2 ^ (54 + j) * one := by
      have hexp : 53 + (j + 1 + lowest) = 54 + j + lowest := by omega
      rw [hexp, Nat.pow_add]
      rfl
    apply place_eq (by omega)
    · rw [hlow]
      exact Nat.mul_le_mul_right _ (by omega)
    · rw [hhigh]
      exact Nat.mul_lt_mul_of_pos_right (by omega) hpos
  have hquot : (2 ^ (54 + j) - 1) * one / (2 * 2 ^ j * one) = 2 ^ 53 - 1 := by
    rw [hwhole, Nat.add_mul_div_left _ _ (Nat.mul_pos (by omega) hpos), Nat.div_eq_of_lt hsmall, Nat.zero_add]
  have hrem : (2 ^ (54 + j) - 1) * one % (2 * 2 ^ j * one) = (2 * 2 ^ j - 1) * one := by
    rw [hwhole, Nat.add_mul_mod_self_left, Nat.mod_eq_of_lt hsmall]
  have hround : roundNat ((2 ^ (54 + j) - 1) * one) 1 = 2 ^ (54 + j) * one := by
    have hhalf : 2 * 2 ^ j * one ≤ 2 * ((2 * 2 ^ j - 1) * one) := by
      rw [← Nat.mul_assoc]
      exact Nat.mul_le_mul_right _ (by omega)
    unfold roundNat nearest
    rw [hplace, Nat.one_mul, hb, hquot, hrem, if_neg (by omega), hsplit, Nat.sub_add_cancel (by decide), Nat.mul_assoc (2 ^ 53)]
  have hcast : ((2 : Int) ^ (54 + j) - 1) * one = ((2 ^ (54 + j) - 1) * one : Nat) := by
    rw [Int.natCast_mul, Int.natCast_sub Nat.one_le_two_pow]
    norm_cast
  unfold ofInt
  rw [hcast, round_natCast, hround]
  norm_cast

end Binary64
