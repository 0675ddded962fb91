-- SUMMARY: Byte sequences as growable buffers: resizing, writing and reading at an offset.
import Mathlib.Algebra.Ring.Int.Defs
import Mathlib.Algebra.Ring.Nat
import Mathlib.Data.List.Basic

/-!
# Byte sequences

A file's content is a list. `resize` is `std::vector::resize`, `splice` overwrites a
range that lies inside, `writeAt` is a write that grows the content where it has to,
with zeros in the gap, and `readAt` takes what there is.
-/

namespace ByteSeq

variable {α : Type} (zero : α)

/-! ## Operations -/

def resize (n : Nat) (l : List α) : List α := l.take n ++ List.replicate (n - l.length) zero

/-- Overwrite from `off` on, within the content. -/
def splice (off : Nat) (bs l : List α) : List α := l.take off ++ bs ++ l.drop (off + bs.length)

def writeAt (off : Nat) (bs l : List α) : List α :=
  splice off bs (if l.length < off + bs.length then resize zero (off + bs.length) l else l)

/-- A write that leaves the content alone where there is nothing to write. -/
def store (off : Nat) (bs l : List α) : List α := if bs.isEmpty then l else writeAt zero off bs l

def readAt (off n : Nat) (l : List α) : List α := (l.drop off).take n

/-! ## Resizing -/

theorem length_resize (n : Nat) (l : List α) : (resize zero n l).length = n := by
  unfold resize
  rw [List.length_append, List.length_take, List.length_replicate]
  omega

theorem getElem?_resize (n : Nat) (l : List α) (i : Nat) : (resize zero n l)[i]? =
    if i < n then (if i < l.length then l[i]? else some zero) else none := by
  unfold resize
  rw [List.getElem?_append, List.length_take, List.getElem?_take, List.getElem?_replicate]
  split_ifs <;> first | rfl | omega

/-! ## Writing -/

variable (off : Nat) (bs l : List α)

theorem getElem?_splice (h : off + bs.length ≤ l.length) (i : Nat) : (splice off bs l)[i]? =
    if i < off then l[i]? else if i < off + bs.length then bs[i - off]? else l[i]? := by
  unfold splice
  rw [List.append_assoc, List.getElem?_append, List.getElem?_append, List.length_take,
    List.getElem?_take, List.getElem?_drop, Nat.min_eq_left (Nat.le_trans (Nat.le_add_right _ _) h)]
  split_ifs <;> first | rfl | omega | exact congrArg (l[·]?) (by omega)

/-- What a write leaves at each place: what was there, zero in the gap, the new bytes. -/
theorem getElem?_writeAt (i : Nat) : (writeAt zero off bs l)[i]? =
    if i < off then (if i < l.length then l[i]? else some zero)
    else if i < off + bs.length then bs[i - off]? else l[i]? := by
  unfold writeAt
  split
  · next hlt =>
      rw [getElem?_splice off bs _ (Nat.le_of_eq (length_resize zero _ l).symm), getElem?_resize]
      have hnone : ¬ i < off + bs.length → none = l[i]? := fun h =>
        (List.getElem?_eq_none (by omega)).symm
      split_ifs <;> first | rfl | omega | exact hnone ‹_›
  · next hge =>
      rw [getElem?_splice off bs l (Nat.le_of_not_lt hge)]
      split_ifs <;> first | rfl | omega

theorem length_writeAt : (writeAt zero off bs l).length = max l.length (off + bs.length) := by
  have hsplice : ∀ k : List α, off + bs.length ≤ k.length → (splice off bs k).length = k.length := by
    intro k hk
    unfold splice
    rw [List.length_append, List.length_append, List.length_take, List.length_drop]
    omega
  unfold writeAt
  split
  · rw [hsplice _ (Nat.le_of_eq (length_resize zero _ l).symm), length_resize]
    omega
  · rw [hsplice l (by omega)]
    omega

/-- Two writes in a row are one write. -/
theorem writeAt_append (as : List α) : writeAt zero (off + as.length) bs (writeAt zero off as l) =
    writeAt zero off (as ++ bs) l := by
  refine List.ext_getElem? fun i => ?_
  rw [getElem?_writeAt, getElem?_writeAt, getElem?_writeAt, length_writeAt, List.length_append,
    List.getElem?_append]
  split_ifs <;> first | rfl | omega | exact congrArg (bs[·]?) (by omega)

@[simp] theorem store_nil : store zero off [] l = l := rfl

theorem store_of_ne_nil (h : bs ≠ []) : store zero off bs l = writeAt zero off bs l := by
  unfold store
  rw [if_neg (by simpa using h)]

theorem length_store_of_ne_nil (h : bs ≠ []) :
    (store zero off bs l).length = max l.length (off + bs.length) := by
  rw [store_of_ne_nil zero off bs l h, length_writeAt]

theorem store_append (as : List α) : store zero (off + as.length) bs (store zero off as l) =
    store zero off (as ++ bs) l := by
  cases as with
  | nil => rfl
  | cons a as =>
    cases bs with
    | nil => rw [store_nil, List.append_nil]
    | cons b bs =>
      rw [store_of_ne_nil _ _ (b :: bs) _ (by simp), store_of_ne_nil _ _ (a :: as) _ (by simp),
        store_of_ne_nil _ _ (a :: as ++ b :: bs) _ (by simp), writeAt_append]

/-! ## Reading -/

theorem readAt_add (n m : Nat) : readAt off (n + m) l = readAt off n l ++ readAt (off + n) m l := by
  unfold readAt
  rw [List.take_add, List.drop_drop]

theorem length_readAt (n : Nat) : (readAt off n l).length = min n (l.length - off) := by
  unfold readAt
  rw [List.length_take, List.length_drop]

/-- Behind a short read there is nothing. -/
theorem readAt_of_short {n : Nat} (m : Nat) (h : (readAt off n l).length < n) :
    readAt (off + n) m l = [] := by
  rw [length_readAt] at h
  refine List.eq_nil_of_length_eq_zero ?_
  rw [length_readAt]
  omega

end ByteSeq
