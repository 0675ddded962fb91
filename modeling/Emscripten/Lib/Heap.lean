-- SUMMARY: A memory of fixed size, in which stores beyond its end are lost.
import Mathlib.Logic.Basic

/-!
# Memory of fixed size

A store at an address that the memory does not have does nothing, and a load there gives nothing. Blocks of
bytes are stored one byte after the other.
-/

namespace Heap

variable {α : Type} {start i : Nat} {bs h : List α}

/-- Stores the elements one after the other. -/
def put : Nat → List α → List α → List α
  | _, [], h => h
  | start, b :: bs, h => put (start + 1) bs (h.set start b)

@[simp] theorem put_nil : put start [] h = h := rfl

@[simp] theorem length_put : (put start bs h).length = h.length := by
  induction bs generalizing start h with
  | nil => rfl
  | cons b bs ih => exact ih.trans (List.length_set ..)

theorem put_append (as : List α) : put start (as ++ bs) h = put (start + as.length) bs (put start as h) := by
  induction as generalizing start h with
  | nil => rfl
  | cons a as ih =>
    have hnext : start + (a :: as).length = start + 1 + as.length := by
      rw [List.length_cons]
      omega
    rw [hnext]
    exact ih

/-- What a block shows after it was stored, and what is around it. -/
theorem getElem?_put : (put start bs h)[i]? =
    if start ≤ i ∧ i < start + bs.length ∧ i < h.length then bs[i - start]? else h[i]? := by
  induction bs generalizing start h with
  | nil =>
    rw [if_neg (by simp; omega)]
    rfl
  | cons b bs ih =>
    have hput : put start (b :: bs) h = put (start + 1) bs (h.set start b) := rfl
    rw [hput, ih, List.length_set, List.getElem?_set, List.length_cons]
    cases Nat.lt_trichotomy i start with
    | inl hlt => rw [if_neg (by omega), if_neg (by omega), if_neg (by omega)]
    | inr hge =>
      cases hge with
      | inl heq =>
        subst heq
        rw [if_neg (by omega), if_pos rfl, Nat.sub_self, List.getElem?_cons_zero]
        split
        · rw [if_pos (by omega)]
        · next hout => rw [if_neg (by omega), List.getElem?_eq_none (Nat.le_of_not_lt hout)]
      | inr hgt =>
        have hback : i - start = i - (start + 1) + 1 := by omega
        rw [if_neg (Nat.ne_of_lt hgt), hback, List.getElem?_cons_succ]
        apply if_congr _ rfl rfl
        omega

/-- A block that fits into the memory. -/
theorem getElem?_put_of_le (hfits : start + bs.length ≤ h.length) : (put start bs h)[i]? =
    if start ≤ i ∧ i < start + bs.length then bs[i - start]? else h[i]? := by
  rw [getElem?_put]
  apply if_congr _ rfl rfl
  omega

/-- The block is read back. -/
theorem take_drop_put (hfits : start + bs.length ≤ h.length) : ((put start bs h).drop start).take bs.length = bs := by
  apply List.ext_getElem?
  intro k
  rw [List.getElem?_take, List.getElem?_drop, getElem?_put_of_le hfits, Nat.add_sub_cancel_left]
  split
  · rw [if_pos (by omega)]
  · next hout => rw [List.getElem?_eq_none (Nat.le_of_not_lt hout)]

end Heap
