-- SUMMARY: Circular buffers: the list that the cells from a head to a tail hold, when one is put in, taken out, or all are copied.
import Mathlib.Data.List.Basic
import Mathlib.Data.Nat.Basic
import Mathlib.Order.Basic

/-!
# Circular buffers

A buffer has `capacity` cells. What it holds starts at the head and goes on over the end of the
buffer at its beginning. One cell stays free, so that head and tail tell empty from full.
-/

namespace RingBuffer

variable {α : Type} {cells cells' : Nat → α} {capacity capacity' head head' tail count : Nat}

/-! ## Windows -/

/-- The cells that follow the head. -/
def window (cells : Nat → α) (capacity head count : Nat) : List α :=
  (List.range count).map fun i => cells ((head + i) % capacity)

@[simp] theorem length_window : (window cells capacity head count).length = count := by simp [window]

theorem window_congr (h : ∀ i < count, cells ((head + i) % capacity) = cells' ((head' + i) % capacity')) :
    window cells capacity head count = window cells' capacity' head' count := by
  apply List.map_congr_left
  intro i hi
  exact h i (List.mem_range.mp hi)

theorem window_succ : window cells capacity head (count + 1) =
    window cells capacity head count ++ [cells ((head + count) % capacity)] := by
  simp [window, List.range_succ]

theorem window_succ_cons : window cells capacity head (count + 1) =
    cells (head % capacity) :: window cells capacity ((head + 1) % capacity) count := by
  simp only [window, List.range_succ_eq_map, List.map_cons, List.map_map, Nat.add_zero]
  congr 1
  apply List.map_congr_left
  intro i _
  simp only [Function.comp, Nat.mod_add_mod]
  congr 2
  omega

/-- A cell behind the window is written. -/
theorem window_update (cells : Nat → α) (head : Nat) (x : α) (h : count < capacity) :
    window (Function.update cells ((head + count) % capacity) x) capacity head count =
      window cells capacity head count := by
  apply window_congr
  intro i hi
  apply Function.update_of_ne
  intro heq
  have hdiff : (head + count - (head + i)) % capacity = 0 := Nat.sub_mod_eq_zero_of_mod_eq heq.symm
  rw [Nat.mod_eq_of_lt] at hdiff <;> omega

/-! ## Head and tail -/

/-- How many cells there are from the head to the tail. -/
def occupied (capacity head tail : Nat) : Nat := if head ≤ tail then tail - head else capacity - head + tail

/-- What the cells from the head to the tail hold. -/
def contents (cells : Nat → α) (capacity head tail : Nat) : List α :=
  window cells capacity head (occupied capacity head tail)

variable {i : Nat}

/-- The cell after a cell. -/
theorem next_eq (hi : i < capacity) : (i + 1) % capacity = if i + 1 = capacity then 0 else i + 1 := by
  split
  · rename_i h
    rw [h, Nat.mod_self]
  · exact Nat.mod_eq_of_lt (by omega)

theorem occupied_lt (hh : head < capacity) (ht : tail < capacity) : occupied capacity head tail < capacity := by
  unfold occupied
  split <;> omega

theorem head_add_occupied (hh : head < capacity) (ht : tail < capacity) :
    (head + occupied capacity head tail) % capacity = tail := by
  unfold occupied
  split
  · rw [Nat.add_sub_cancel' (by assumption), Nat.mod_eq_of_lt ht]
  · rw [← Nat.add_assoc, Nat.add_sub_cancel' hh.le, Nat.add_mod_left, Nat.mod_eq_of_lt ht]

theorem occupied_eq_zero (tail : Nat) (hh : head < capacity) : occupied capacity head tail = 0 ↔ head = tail := by
  unfold occupied
  split <;> omega

theorem full_iff (hh : head < capacity) (ht : tail < capacity) :
    head = (tail + 1) % capacity ↔ occupied capacity head tail + 1 = capacity := by
  rw [next_eq ht]
  unfold occupied
  split <;> split <;> omega

theorem occupied_put (hh : head < capacity) (ht : tail < capacity) (hfull : head ≠ (tail + 1) % capacity) :
    occupied capacity head ((tail + 1) % capacity) = occupied capacity head tail + 1 := by
  rw [next_eq ht] at hfull ⊢
  by_cases hlast : tail + 1 = capacity
  · simp only [hlast, if_true] at hfull ⊢
    unfold occupied
    split <;> split <;> omega
  · simp only [hlast, if_false] at hfull ⊢
    unfold occupied
    split <;> split <;> omega

theorem occupied_take (hh : head < capacity) (ht : tail < capacity) (hne : head ≠ tail) :
    occupied capacity head tail = occupied capacity ((head + 1) % capacity) tail + 1 := by
  rw [next_eq hh]
  by_cases hlast : head + 1 = capacity
  · simp only [hlast, if_true]
    unfold occupied
    split <;> split <;> omega
  · simp only [hlast, if_false]
    unfold occupied
    split <;> split <;> omega

/-! ## Operations -/

theorem contents_eq_nil (hh : head < capacity) : contents cells capacity head tail = [] ↔ head = tail := by
  rw [← occupied_eq_zero tail hh, contents, ← List.length_eq_zero_iff, length_window]

@[simp] theorem length_contents : (contents cells capacity head tail).length = occupied capacity head tail :=
  length_window

/-- One is put in at the tail. -/
theorem contents_put {x : α} (hh : head < capacity) (ht : tail < capacity) (hfull : head ≠ (tail + 1) % capacity) :
    contents (Function.update cells tail x) capacity head ((tail + 1) % capacity) =
      contents cells capacity head tail ++ [x] := by
  have htail := head_add_occupied hh ht
  have hwindow := window_update cells head x (occupied_lt hh ht)
  rw [htail] at hwindow
  rw [contents, occupied_put hh ht hfull, window_succ, htail, hwindow, Function.update_self, contents]

/-- One is taken out at the head. -/
theorem contents_take (hh : head < capacity) (ht : tail < capacity) (hne : head ≠ tail) :
    contents cells capacity head tail = cells head :: contents cells capacity ((head + 1) % capacity) tail := by
  rw [contents, occupied_take hh ht hne, window_succ_cons, Nat.mod_eq_of_lt hh, contents]

/-! ## Copies -/

/-- `memcpy` of `count` cells of a source to the cells from `dest` on. -/
def copy (cells : Nat → α) (dest : Nat) (source : Nat → α) (start count : Nat) : Nat → α := fun i =>
  if dest ≤ i ∧ i < dest + count then source (start + (i - dest)) else cells i

/-- A window that is copied to the beginning of a larger buffer. -/
theorem contents_copy (hroom : occupied capacity head tail < capacity')
    (hcopy : ∀ i < occupied capacity head tail, cells' i = cells ((head + i) % capacity)) :
    contents cells' capacity' 0 (occupied capacity head tail) = contents cells capacity head tail := by
  have hocc : occupied capacity' 0 (occupied capacity head tail) = occupied capacity head tail := by
    simp [occupied]
  rw [contents, hocc, contents]
  apply window_congr
  intro i hi
  rw [Nat.zero_add, Nat.mod_eq_of_lt (hi.trans hroom), hcopy i hi]

/-- The copy in one piece. -/
theorem copy_straight {fresh : Nat → α} (ht : tail < capacity) (hle : head ≤ tail) (hi : i < tail - head) :
    copy fresh 0 cells head (tail - head) i = cells ((head + i) % capacity) := by
  rw [Nat.mod_eq_of_lt (by omega)]
  exact if_pos ⟨Nat.zero_le i, by omega⟩

/-- The copy in two pieces, of which the second comes from the beginning of the buffer. -/
theorem copy_wrapped {fresh : Nat → α} (hh : head < capacity) (ht : tail < head)
    (hi : i < capacity - head + tail) :
    copy (copy fresh 0 cells head (capacity - head)) (capacity - head) cells 0 tail i =
      cells ((head + i) % capacity) := by
  unfold copy
  by_cases hfirst : i < capacity - head
  · rw [if_neg (by omega), if_pos ⟨Nat.zero_le i, by omega⟩, Nat.mod_eq_of_lt (by omega), Nat.sub_zero]
  · have hmod : (head + i) % capacity = i - (capacity - head) := by
      rw [Nat.mod_eq_sub_mod (by omega), Nat.mod_eq_of_lt (by omega)]
      omega
    rw [if_pos (by omega), hmod, Nat.zero_add]

end RingBuffer
