-- SUMMARY: The bucket that emmalloc files a free region under: an index from the size, and where it is ordered by size.
import Mathlib.Algebra.Ring.Int.Defs
import Mathlib.Data.Nat.Bitwise
import Mathlib.Data.Nat.Log

/-!
# Buckets of free regions

`compute_free_list_bucket` mixes arithmetic of `int` with that of `size_t`, and counts the leading zeros of an
`unsigned int`. Below 4 GiB the count is that of the size; above, it is that of its lower half only.
-/

namespace Emmalloc

/-! ## Size classes -/

/-- The logarithm of a size with `k` bits of the mantissa behind it. -/
def sizeClass (k p : Nat) : Nat := 2 ^ k * p.log2 + p / 2 ^ (p.log2 - k)

variable {p : Nat}

theorem mantissa_bounds {k : Nat} (hp : 2 ^ k ≤ p) :
    2 ^ k ≤ p / 2 ^ (p.log2 - k) ∧ p / 2 ^ (p.log2 - k) < 2 ^ (k + 1) := by
  have hpos : p ≠ 0 := Nat.ne_of_gt (Nat.lt_of_lt_of_le (Nat.two_pow_pos k) hp)
  have hk : k ≤ p.log2 := (Nat.le_log2 hpos).2 hp
  have hlow : 2 ^ p.log2 ≤ p := (Nat.le_log2 hpos).1 (Nat.le_refl _)
  have hhigh : p < 2 ^ (p.log2 + 1) := (Nat.log2_lt hpos).1 (Nat.lt_succ_self _)
  constructor
  · apply (Nat.le_div_iff_mul_le (Nat.two_pow_pos _)).2
    rwa [← Nat.pow_add, Nat.add_sub_cancel' hk]
  · apply (Nat.div_lt_iff_lt_mul (Nat.two_pow_pos _)).2
    rwa [← Nat.pow_add, Nat.add_right_comm, Nat.add_sub_cancel' hk]

/-- A larger size has the same logarithm and no smaller mantissa, or a larger logarithm. -/
theorem sizeClass_mono {k q : Nat} (hp : 2 ^ k ≤ p) (hpq : p ≤ q) : sizeClass k p ≤ sizeClass k q := by
  have hq := Nat.le_trans hp hpq
  have hq0 : q ≠ 0 := Nat.ne_of_gt (Nat.lt_of_lt_of_le (Nat.two_pow_pos k) hq)
  have hp0 : p ≠ 0 := Nat.ne_of_gt (Nat.lt_of_lt_of_le (Nat.two_pow_pos k) hp)
  have hlog : p.log2 ≤ q.log2 := (Nat.le_log2 hq0).2 (Nat.le_trans ((Nat.le_log2 hp0).1 (Nat.le_refl _)) hpq)
  unfold sizeClass
  cases Nat.lt_or_eq_of_le hlog with
  | inl hlt =>
    have hsmall := (mantissa_bounds hp).2
    have hlarge := (mantissa_bounds hq).1
    have hstep : 2 ^ k * (p.log2 + 1) ≤ 2 ^ k * q.log2 := Nat.mul_le_mul_left _ hlt
    rw [Nat.mul_succ] at hstep
    rw [Nat.pow_succ] at hsmall
    omega
  | inr heq =>
    rw [heq]
    exact Nat.add_le_add_left (Nat.div_le_div_right hpq) _

/-! ## The function of the source -/

inductive AddressSpace
  | wasm32 | wasm64
deriving DecidableEq, Repr

def AddressSpace.sizeofSize : AddressSpace → Nat
  | .wasm32 => 4
  | .wasm64 => 8

/-- `size_t` has this many values. -/
def AddressSpace.sizes (a : AddressSpace) : Nat := 2 ^ (8 * a.sizeofSize)

/-- `(size_t)x`. -/
def AddressSpace.size_t (a : AddressSpace) (x : Int) : Nat := (x % a.sizes).toNat

/-- `(int)x`. -/
def toInt (x : Nat) : Int := if x % 2 ^ 32 < 2 ^ 31 then (x % 2 ^ 32 : Nat) else (x % 2 ^ 32 : Nat) - 2 ^ 32

/-- Its argument is an `unsigned int`, and the result for 0 is undefined. -/
def builtin_clz (x : Nat) : Option Int := if x % 2 ^ 32 = 0 then none else some (31 - (x % 2 ^ 32).log2)

/-- A shift by a negative number is undefined. -/
def shiftRight (x : Nat) (k : Int) : Option Nat := if 0 ≤ k then some (x >>> k.toNat) else none

def NUM_FREE_BUCKETS : Nat := 64

def compute_free_list_bucket (a : AddressSpace) (allocSize : Nat) : Option Int :=
  if allocSize < 128 then some (toInt (a.size_t ((allocSize >>> 3 : Nat) - 1)))
  else do
    let clz ← builtin_clz allocSize
    if clz > 19 then do
      let m ← shiftRight allocSize (29 - clz)
      some (toInt (a.size_t (110 - clz * 4 + (m ^^^ 4 : Nat))))
    else do
      let m ← shiftRight allocSize (30 - clz)
      some (toInt (min (a.size_t (71 - clz * 2 + (m ^^^ 2 : Nat))) (NUM_FREE_BUCKETS - 1)))

/-- The payload of a region: between its two size fields there is room for two pointers, and all sizes are multiples
of a pointer's. -/
structure Holdable (a : AddressSpace) (p : Nat) : Prop where
  smallest : 2 * a.sizeofSize ≤ p
  aligned : a.sizeofSize ∣ p
  fits : p < a.sizes

/-! ## Below 4 GiB -/

/-- The index without the types of C. -/
def bucket (p : Nat) : Nat :=
  if p < 128 then p / 8 - 1 else if p < 4096 then sizeClass 2 p - 18 else min (sizeClass 1 p + 7) 63

theorem bucket_mono {q : Nat} (hpq : p ≤ q) : bucket p ≤ bucket q := by
  have hseam₁ : 128 ≤ q → 32 ≤ sizeClass 2 q := fun hq => sizeClass_mono (k := 2) (p := 128) (by decide) hq
  have hseam₂ : p < 4096 → 128 ≤ p → sizeClass 2 p ≤ 51 := fun hp hp' =>
    sizeClass_mono (k := 2) (q := 4095) (Nat.le_trans (by decide) hp') (Nat.le_of_lt_succ hp)
  have hseam₃ : 4096 ≤ q → 26 ≤ sizeClass 1 q := fun hq => sizeClass_mono (k := 1) (p := 4096) (by decide) hq
  have hmid : 128 ≤ p → sizeClass 2 p ≤ sizeClass 2 q := fun hp => sizeClass_mono (Nat.le_trans (by decide) hp) hpq
  have htop : 4096 ≤ p → sizeClass 1 p ≤ sizeClass 1 q := fun hp => sizeClass_mono (Nat.le_trans (by decide) hp) hpq
  unfold bucket
  split <;> split <;> (try split) <;> (try split) <;> omega

theorem bucket_of_last : bucket (2 ^ 27) = 63 := by decide

theorem bucket_lt (p : Nat) : bucket p < 64 := by
  have hmid : p < 4096 → 128 ≤ p → sizeClass 2 p ≤ 51 := fun hp hp' =>
    sizeClass_mono (k := 2) (q := 4095) (Nat.le_trans (by decide) hp') (Nat.le_of_lt_succ hp)
  unfold bucket
  split
  · omega
  · split <;> omega

theorem xor_four {m : Nat} (h : 4 ≤ m) (h' : m < 8) : m ^^^ 4 = m - 4 := by
  have hall : ∀ m < 8, 4 ≤ m → m ^^^ 4 = m - 4 := by decide
  exact hall m h' h

theorem xor_two {m : Nat} (h : 2 ≤ m) (h' : m < 4) : m ^^^ 2 = m - 2 := by
  have hall : ∀ m < 4, 2 ≤ m → m ^^^ 2 = m - 2 := by decide
  exact hall m h' h

theorem AddressSpace.sizes_ge (a : AddressSpace) : 2 ^ 32 ≤ a.sizes := by
  cases a <;> decide

variable {a : AddressSpace}

theorem AddressSpace.size_t_of_lt {x : Int} {n : Nat} (hx : x = n) (hn : n < a.sizes) : a.size_t x = n := by
  subst hx
  unfold AddressSpace.size_t
  rw [← Int.natCast_mod, Int.toNat_natCast, Nat.mod_eq_of_lt hn]

theorem toInt_of_lt {n : Nat} (hn : n < 2 ^ 31) : toInt n = n := by
  unfold toInt
  rw [Nat.mod_eq_of_lt (Nat.lt_trans hn (by decide)), if_pos hn]

theorem builtin_clz_of_log {x l : Nat} (hx : x % 2 ^ 32 ≠ 0) (hl : (x % 2 ^ 32).log2 = l) :
    builtin_clz x = some (31 - l : Int) := by
  unfold builtin_clz
  rw [if_neg hx, hl]

theorem shiftRight_of_eq {x k : Nat} {n : Int} (hn : n = k) : shiftRight x n = some (x / 2 ^ k) := by
  unfold shiftRight
  rw [if_pos (hn ▸ Int.natCast_nonneg k), hn, Int.toNat_natCast, Nat.shiftRight_eq_div_pow]

/-- What is computed where the lower half of the size has few leading zeros. -/
theorem compute_of_few {l : Nat} (hp : 128 ≤ p) (hlow : p % 2 ^ 32 ≠ 0) (hl : (p % 2 ^ 32).log2 = l)
    (hfew : 12 ≤ l) (hl' : l < 32) :
    compute_free_list_bucket a p =
      some (toInt (min (a.size_t (71 - (31 - l) * 2 + (p / 2 ^ (l - 1) ^^^ 2 : Nat))) 63)) := by
  have hclz := builtin_clz_of_log hlow hl
  have hfewer : ¬ (31 - l : Int) > 19 := by omega
  have hshift := shiftRight_of_eq (x := p) (k := l - 1) (n := 30 - (31 - l)) (by omega)
  unfold compute_free_list_bucket
  rw [if_neg (Nat.not_lt.2 hp), hclz]
  simp only [Option.bind_eq_bind, Option.bind_some, if_neg hfewer, hshift]
  rfl

theorem compute_of_many {l : Nat} (hp : 128 ≤ p) (hlow : p % 2 ^ 32 ≠ 0) (hl : (p % 2 ^ 32).log2 = l)
    (hmany : l < 12) (hl' : 2 ≤ l) :
    compute_free_list_bucket a p =
      some (toInt (a.size_t (110 - (31 - l) * 4 + (p / 2 ^ (l - 2) ^^^ 4 : Nat)))) := by
  have hclz := builtin_clz_of_log hlow hl
  have hmore : (31 - l : Int) > 19 := by omega
  have hshift := shiftRight_of_eq (x := p) (k := l - 2) (n := 29 - (31 - l)) (by omega)
  unfold compute_free_list_bucket
  rw [if_neg (Nat.not_lt.2 hp), hclz]
  simp only [Option.bind_eq_bind, Option.bind_some, if_pos hmore, hshift]

theorem compute_of_small (hpos : 8 ≤ p) (hp : p < 2 ^ 32) :
    compute_free_list_bucket a p = some (bucket p : Int) := by
  have hmod : p % 2 ^ 32 = p := Nat.mod_eq_of_lt hp
  have h0 : p ≠ 0 := by omega
  have hlt := bucket_lt p
  have hsizes := a.sizes_ge
  by_cases hsmall : p < 128
  · have hcast : ((p >>> 3 : Nat) : Int) - 1 = (p / 8 - 1 : Nat) := by
      rw [Nat.shiftRight_eq_div_pow]
      omega
    have hsize := AddressSpace.size_t_of_lt (a := a) hcast (by omega)
    unfold compute_free_list_bucket bucket
    rw [if_pos hsmall, if_pos hsmall, hsize, toInt_of_lt (by omega)]
  · have hlog : (p % 2 ^ 32).log2 = p.log2 := by rw [hmod]
    have hlow : p % 2 ^ 32 ≠ 0 := by rwa [hmod]
    have h7 : 7 ≤ p.log2 := (Nat.le_log2 h0).2 (Nat.not_lt.1 hsmall)
    by_cases hmid : p < 4096
    · have h12 : p.log2 < 12 := (Nat.log2_lt h0).2 hmid
      obtain ⟨hm, hm'⟩ := mantissa_bounds (k := 2) (p := p) (by omega)
      have hbucket : bucket p = sizeClass 2 p - 18 := by
        unfold bucket
        rw [if_neg hsmall, if_pos hmid]
      have hsum : (110 - (31 - p.log2) * 4 + (p / 2 ^ (p.log2 - 2) ^^^ 4 : Nat) : Int) = (bucket p : Nat) := by
        rw [xor_four hm hm', hbucket]
        unfold sizeClass
        omega
      have hsize := AddressSpace.size_t_of_lt (a := a) hsum (by omega)
      rw [compute_of_many (Nat.not_lt.1 hsmall) hlow hlog h12 (by omega), hsize, toInt_of_lt (by omega)]
    · have h12 : 12 ≤ p.log2 := (Nat.le_log2 h0).2 (Nat.not_lt.1 hmid)
      have h32 : p.log2 < 32 := (Nat.log2_lt h0).2 hp
      obtain ⟨hm, hm'⟩ := mantissa_bounds (k := 1) (p := p) (by omega)
      have hbucket : bucket p = min (sizeClass 1 p + 7) 63 := by
        unfold bucket
        rw [if_neg hsmall, if_neg hmid]
      have hsum : (71 - (31 - p.log2) * 2 + (p / 2 ^ (p.log2 - 1) ^^^ 2 : Nat) : Int) = (sizeClass 1 p + 7 : Nat) := by
        rw [xor_two hm hm']
        unfold sizeClass
        omega
      have hsize := AddressSpace.size_t_of_lt (a := a) hsum (by unfold sizeClass; omega)
      rw [compute_of_few (Nat.not_lt.1 hsmall) hlow hlog h12 h32, hsize, hbucket, toInt_of_lt (by omega)]

/-! ## From 4 GiB on -/

theorem le_xor_two_add (x : Nat) : x ≤ (x ^^^ 2) + 2 := by
  have hlow : x % 2 ^ 2 ≤ (x % 2 ^ 2 ^^^ 2) + 2 := by
    have hall : ∀ m < 4, m ≤ (m ^^^ 2) + 2 := by decide
    exact hall _ (Nat.mod_lt _ (by decide))
  have hdiv : (x ^^^ 2) / 2 ^ 2 = x / 2 ^ 2 := by
    rw [Nat.xor_div_two_pow]
    exact Nat.xor_zero _
  have hmod : (x ^^^ 2) % 2 ^ 2 = x % 2 ^ 2 ^^^ 2 := by
    rw [Nat.xor_mod_two_pow]
  omega

/-- The mantissa is far above the last bucket's where the size does not fit its lower half. -/
theorem compute_of_large (hp : 2 ^ 32 ≤ p) (hfits : p < a.sizes) (hlow : 4096 ≤ p % 2 ^ 32) :
    compute_free_list_bucket a p = some 63 := by
  have h0 : p % 2 ^ 32 ≠ 0 := by omega
  have hsizes : a.sizes ≤ 2 ^ 64 := by cases a <;> decide
  generalize hl : (p % 2 ^ 32).log2 = l
  have h12 : 12 ≤ l := hl ▸ (Nat.le_log2 h0).2 hlow
  have h32 : l < 32 := hl ▸ (Nat.log2_lt h0).2 (Nat.mod_lt _ (by decide))
  have hx : 2 * (32 - l) + 2 ≤ p / 2 ^ (l - 1) := by
    obtain ⟨n, hn⟩ : ∃ n, n = 32 - l := ⟨_, rfl⟩
    have hpow : 2 ^ (n + 1) * 2 ^ (l - 1) ≤ p := by
      rw [← Nat.pow_add]
      exact Nat.le_trans (Nat.pow_le_pow_right (by decide) (by omega)) hp
    have hdiv := (Nat.le_div_iff_mul_le (Nat.two_pow_pos (l - 1))).2 hpow
    have hlt := Nat.lt_two_pow_self (n := n)
    rw [Nat.pow_succ] at hdiv
    omega
  have hbound : (p / 2 ^ (l - 1) ^^^ 2) < 2 ^ 53 := by
    apply Nat.xor_lt_two_pow
    · apply (Nat.div_lt_iff_lt_mul (Nat.two_pow_pos _)).2
      rw [← Nat.pow_add]
      exact Nat.lt_of_lt_of_le (Nat.lt_of_lt_of_le hfits hsizes) (Nat.pow_le_pow_right (by decide) (by omega))
    · decide
  have hxor := le_xor_two_add (p / 2 ^ (l - 1))
  have hsum : (71 - (31 - l) * 2 + (p / 2 ^ (l - 1) ^^^ 2 : Nat) : Int) =
      (2 * l + 9 + (p / 2 ^ (l - 1) ^^^ 2) : Nat) := by omega
  have hroom : 2 * l + 9 + (p / 2 ^ (l - 1) ^^^ 2) < a.sizes := by
    have h64 : a.sizes = 2 ^ 64 := by
      cases a with
      | wasm32 => exact absurd (Nat.lt_of_le_of_lt hp hfits) (by decide)
      | wasm64 => rfl
    omega
  rw [compute_of_few (Nat.le_trans (by decide) hp) h0 hl h12 h32, AddressSpace.size_t_of_lt hsum hroom,
    Nat.min_eq_right (by omega)]
  rfl

theorem compute_of_zero (hp : 128 ≤ p) (hlow : p % 2 ^ 32 = 0) : compute_free_list_bucket a p = none := by
  unfold compute_free_list_bucket builtin_clz
  rw [if_neg (Nat.not_lt.2 hp), if_pos hlow]
  rfl

theorem size_t_mod (a : AddressSpace) (x : Int) : ((a.size_t x : Nat) : Int) % 2 ^ 23 = x % 2 ^ 23 := by
  unfold AddressSpace.size_t
  have hsizes : a.sizes = 2 ^ 32 ∨ a.sizes = 2 ^ 64 := by cases a <;> decide
  cases hsizes with
  | inl h => rw [h]; omega
  | inr h => rw [h]; omega

theorem toInt_mod (x : Nat) : toInt x % 2 ^ 23 = (x : Int) % 2 ^ 23 := by
  unfold toInt
  split <;> omega

/-- A size whose lower half is small has the last bits of that half's index, and those are not of the last bucket. -/
theorem compute_ne_last (hp : 128 ≤ p) (hsmall : 8 ≤ p % 2 ^ 32) (hlow : p % 2 ^ 32 < 4096) :
    compute_free_list_bucket a p ≠ some 63 := by
  have h0 : p % 2 ^ 32 ≠ 0 := by omega
  generalize hl : (p % 2 ^ 32).log2 = l
  have h3 : 3 ≤ l := hl ▸ (Nat.le_log2 h0).2 hsmall
  have h12 : l < 12 := hl ▸ (Nat.log2_lt h0).2 hlow
  obtain ⟨hm, hm'⟩ := mantissa_bounds (k := 2) (p := p % 2 ^ 32) (by omega)
  rw [hl] at hm hm'
  have hmantissa : p / 2 ^ (l - 2) % 2 ^ 23 = p % 2 ^ 32 / 2 ^ (l - 2) := by
    have hsplit : p % 2 ^ 32 = p % (2 ^ (l - 2) * 2 ^ 23) := by
      have hwhole : 2 ^ 32 = 2 ^ (l - 2) * 2 ^ 23 * 2 ^ (11 - l) := by
        rw [← Nat.pow_add, ← Nat.pow_add]
        congr 1
        omega
      have hfit : p % 2 ^ 32 < 2 ^ (l - 2) * 2 ^ 23 := by
        rw [← Nat.pow_add]
        exact Nat.lt_of_lt_of_le hlow (Nat.pow_le_pow_right (n := 2) (by decide) (show 12 ≤ l - 2 + 23 by omega))
      have hmod := Nat.mod_mod_of_dvd p (Dvd.intro _ hwhole.symm)
      rw [Nat.mod_eq_of_lt hfit] at hmod
      exact hmod
    rw [hsplit, Nat.mod_mul_right_div_self]
  have hxor : (p / 2 ^ (l - 2) ^^^ 4) % 2 ^ 23 = p % 2 ^ 32 / 2 ^ (l - 2) - 4 := by
    rw [Nat.xor_mod_two_pow, hmantissa]
    exact xor_four hm hm'
  rw [compute_of_many hp h0 hl h12 (Nat.le_of_succ_le h3)]
  intro heq
  have hmod := congrArg (· % (2 : Int) ^ 23) (Option.some.inj heq)
  simp only [toInt_mod, size_t_mod] at hmod
  omega

/-! ## Where the buckets are ordered by size -/

/-- Each size has a bucket; a larger one has no smaller bucket, and what is in a larger bucket is large enough. -/
def Bucketed (a : AddressSpace) (S : Nat → Prop) : Prop := ∀ p, S p →
  ∃ i, compute_free_list_bucket a p = some i ∧ 0 ≤ i ∧ i < NUM_FREE_BUCKETS ∧
    ∀ q j, S q → compute_free_list_bucket a q = some j → (q ≤ p → j ≤ i) ∧ (i < j → p ≤ q)

/-- The lower half of a size of 4 GiB or more does not look like a small size. -/
def Distinct (p : Nat) : Prop := p < 2 ^ 32 ∨ 4096 ≤ p % 2 ^ 32

theorem Holdable.ge_eight (h : Holdable a p) : 8 ≤ p := by
  have hsmall := h.smallest
  cases a <;> exact Nat.le_trans (by decide) hsmall

/-- The bucket of a size that is distinct. -/
theorem compute_of_distinct (h : Holdable a p) (hp : Distinct p) :
    compute_free_list_bucket a p = some (bucket p : Int) := by
  by_cases hsmall : p < 2 ^ 32
  · exact compute_of_small h.ge_eight hsmall
  · have hlarge := Nat.not_lt.1 hsmall
    have htop := bucket_mono (p := 2 ^ 27) (Nat.le_trans (by decide) hlarge)
    rw [bucket_of_last] at htop
    have hlast : bucket p = 63 := Nat.le_antisymm (Nat.le_of_lt_succ (bucket_lt p)) htop
    rw [hlast]
    exact compute_of_large hlarge h.fits (hp.resolve_left hsmall)

/-- Over sizes among which are all that a region below 4 GiB can have, the buckets are right exactly where each size is
below 4 GiB or has a lower half of at least 4096. -/
theorem compute_free_list_bucket_ordered (a : AddressSpace) (S : Nat → Prop) (hS : ∀ p, S p → Holdable a p)
    (hall : ∀ p, Holdable a p → p < 2 ^ 32 → S p) : Bucketed a S ↔ ∀ p, S p → Distinct p := by
  constructor
  · intro h p hp
    by_contra hnot
    obtain ⟨hlarge, hlow⟩ := not_or.1 hnot
    have hholds := hS p hp
    have h128 : 128 ≤ p := Nat.le_trans (by decide) (Nat.not_lt.1 hlarge)
    obtain ⟨i, hi, -, hlast, hmono⟩ := h p hp
    -- a size below 4 GiB in the last bucket
    have hwitness : Holdable a (2 ^ 27) := by
      cases a <;> exact ⟨by decide, by decide, by decide⟩
    have htop := compute_of_small (a := a) (p := 2 ^ 27) (by decide) (by decide)
    have hge := (hmono _ _ (hall _ hwitness (by decide)) htop).1 (Nat.le_trans (by decide) (Nat.not_lt.1 hlarge))
    have heq : i = 63 := by
      rw [bucket_of_last] at hge
      unfold NUM_FREE_BUCKETS at hlast
      omega
    subst heq
    by_cases hzero : p % 2 ^ 32 = 0
    · rw [compute_of_zero h128 hzero] at hi
      cases hi
    · have height : 8 ≤ p % 2 ^ 32 := by
        cases a with
        | wasm32 => exact absurd hholds.fits hlarge
        | wasm64 =>
          have haligned : 8 ∣ p := hholds.aligned
          omega
      exact compute_ne_last h128 height (Nat.not_le.1 hlow) hi
  · intro h p hp
    have hlt := bucket_lt p
    refine ⟨bucket p, compute_of_distinct (hS p hp) (h p hp), Int.natCast_nonneg _, Int.ofNat_lt.2 hlt, ?_⟩
    intro q j hq hj
    rw [compute_of_distinct (hS q hq) (h q hq)] at hj
    obtain rfl := Option.some.inj hj
    constructor
    · exact fun hle => Int.ofNat_le.2 (bucket_mono hle)
    · intro hgt
      by_contra hnot
      exact absurd (bucket_mono (Nat.le_of_lt (Nat.not_le.1 hnot))) (Nat.not_le.2 (Int.ofNat_lt.1 hgt))

theorem compute_free_list_bucket_ordered_below : Bucketed .wasm64 fun p => Holdable .wasm64 p ∧ p < 2 ^ 32 :=
  (compute_free_list_bucket_ordered .wasm64 (fun p => Holdable .wasm64 p ∧ p < 2 ^ 32) (fun _ h => h.1)
    fun _ h hlt => ⟨h, hlt⟩).2 fun _ h => .inl h.2

/-- The index of a size of 4 GiB and 16 bytes is far behind the last bucket. -/
theorem compute_free_list_bucket_outside :
    Holdable .wasm64 4294967312 ∧ compute_free_list_bucket .wasm64 4294967312 = some 1073741826 ∧
      ¬ Bucketed .wasm64 (Holdable .wasm64) := by
  have hholds : Holdable .wasm64 4294967312 := ⟨by decide, by decide, by decide⟩
  have hindex : compute_free_list_bucket .wasm64 4294967312 = some 1073741826 := by decide
  refine ⟨hholds, hindex, fun h => ?_⟩
  obtain ⟨i, hi, -, hlt, -⟩ := h _ hholds
  rw [hindex] at hi
  obtain rfl := Option.some.inj hi
  exact absurd hlt (by decide)

end Emmalloc
