-- SUMMARY: Areas of memory laid out one after another: rounding up to an alignment, order, and disjointness.
import Mathlib.Algebra.Ring.Int.Defs
import Mathlib.Algebra.Ring.Nat
import Mathlib.Data.List.Basic

/-!
# Areas of memory

An area has a start, a length and one address that is to be aligned. Areas that are laid out in order
lie inside their bounds and do not overlap.
-/

namespace Areas

/-! ## Alignment -/

/-- The next multiple of `a`. -/
def roundUp (x a : Nat) : Nat := (x + a - 1) / a * a

variable {x a : Nat}

theorem dvd_roundUp (x a : Nat) : a ∣ roundUp x a := Nat.dvd_mul_left a _

theorem le_roundUp (h : 0 < a) : x ≤ roundUp x a := by
  unfold roundUp
  have hdiv := Nat.div_add_mod (x + a - 1) a
  have hmod := Nat.mod_lt (x + a - 1) h
  rw [Nat.mul_comm] at hdiv
  omega

theorem roundUp_le (x a : Nat) : roundUp x a ≤ x + a - 1 := Nat.div_mul_le_self ..

/-- The padding is as large as it can be. -/
theorem roundUp_eq_iff : roundUp x a = x + a - 1 ↔ a ∣ x + a - 1 := by
  constructor
  · intro h
    rw [← h]
    exact dvd_roundUp x a
  · exact Nat.div_mul_cancel

/-! ## Order -/

structure Area where
  start : Nat
  length : Nat
  /-- The address that is to be aligned. -/
  anchor : Nat
  align : Nat
deriving DecidableEq, Repr

def Area.stop (r : Area) : Nat := r.start + r.length

/-- The areas lie between the bounds, each before the next one. -/
def InOrder : Nat → List Area → Nat → Prop
  | lo, [], hi => lo ≤ hi
  | lo, r :: rs, hi => lo ≤ r.start ∧ r.align ∣ r.anchor ∧ InOrder r.stop rs hi

variable {lo hi : Nat} {r : Area} {rs : List Area}

theorem InOrder.le (h : InOrder lo rs hi) : lo ≤ hi := by
  induction rs generalizing lo with
  | nil => exact h
  | cons r rs ih =>
    obtain ⟨hstart, -, hrest⟩ := h
    have := ih hrest
    unfold Area.stop at this
    omega

theorem InOrder.mono {hi' : Nat} (h : InOrder lo rs hi) (hle : hi ≤ hi') : InOrder lo rs hi' := by
  induction rs generalizing lo with
  | nil => exact Nat.le_trans h hle
  | cons r rs ih => exact ⟨h.1, h.2.1, ih h.2.2⟩

theorem InOrder.append {mid : Nat} {rs' : List Area} (h : InOrder lo rs mid) (h' : InOrder mid rs' hi) :
    InOrder lo (rs ++ rs') hi := by
  induction rs generalizing lo with
  | nil =>
    cases rs' with
    | nil => exact Nat.le_trans h h'
    | cons r' rs' => exact ⟨Nat.le_trans h h'.1, h'.2⟩
  | cons r rs ih => exact ⟨h.1, h.2.1, ih h.2.2⟩

/-- Every area is between the bounds and aligned. -/
theorem InOrder.mem (h : InOrder lo rs hi) (hr : r ∈ rs) :
    lo ≤ r.start ∧ r.stop ≤ hi ∧ r.align ∣ r.anchor := by
  induction rs generalizing lo with
  | nil => cases hr
  | cons r' rs ih =>
    obtain ⟨hstart, halign, hrest⟩ := h
    obtain rfl | hr := List.mem_cons.mp hr
    · exact ⟨hstart, hrest.le, halign⟩
    · obtain ⟨hlo, hhi, ha⟩ := ih hrest hr
      unfold Area.stop at hlo
      exact ⟨by omega, hhi, ha⟩

/-- No two areas overlap. -/
theorem InOrder.pairwise (h : InOrder lo rs hi) : rs.Pairwise fun r r' => r.stop ≤ r'.start := by
  induction rs generalizing lo with
  | nil => exact .nil
  | cons r rs ih =>
    obtain ⟨-, -, hrest⟩ := h
    exact .cons (fun r' hr' => (hrest.mem hr').1) (ih hrest)

/-- Areas that do not overlap are no longer than what they lie in. -/
theorem sum_length_le (hlo : lo ≤ hi) (hpair : rs.Pairwise fun r r' => r.stop ≤ r'.start)
    (hmem : ∀ r ∈ rs, lo ≤ r.start ∧ r.stop ≤ hi) : lo + (rs.map Area.length).sum ≤ hi := by
  induction rs generalizing lo with
  | nil => simpa using hlo
  | cons r rs ih =>
    obtain ⟨hr, hpair⟩ := List.pairwise_cons.mp hpair
    obtain ⟨⟨hstart, hstop⟩, hmem⟩ := List.forall_mem_cons.mp hmem
    have := ih hstop hpair fun r' hr' => ⟨hr r' hr', (hmem r' hr').2⟩
    rw [List.map_cons, List.sum_cons]
    unfold Area.stop at this
    omega

end Areas
