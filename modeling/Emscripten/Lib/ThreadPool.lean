-- SUMMARY: Sums over the local states of a finite pool of threads, and how one thread's step changes them.
import Mathlib.Data.Fintype.BigOperators
import Mathlib.Algebra.Order.BigOperators.Group.Finset

/-!
# Thread pools

A pool gives every thread of a finite type its local state. A quantity that every
thread holds a share of, such as a counter under a mutex, is the `total` of a
weight over the pool. A step of one thread changes the total by the change of its
own weight.
-/

namespace ThreadPool

variable {T L : Type} [Fintype T]

open scoped BigOperators in
/-- The sum of the threads' weights. -/
def total (w : L → Nat) (pool : T → L) : Nat := ∑ t, w (pool t)

theorem total_update [DecidableEq T] (w : L → Nat) (pool : T → L) (t : T) (l : L) :
    total w (Function.update pool t l) + w (pool t) = total w pool + w l := by
  have hsplit := fun p : T → L =>
    Finset.sum_erase_add Finset.univ (fun u => w (p u)) (Finset.mem_univ t)
  have hrest : ∑ u ∈ Finset.univ.erase t, w (Function.update pool t l u) =
      ∑ u ∈ Finset.univ.erase t, w (pool u) := by
    apply Finset.sum_congr rfl
    intro u hu
    rw [Function.update_of_ne (Finset.ne_of_mem_erase hu)]
  have h₁ := hsplit (Function.update pool t l)
  have h₂ := hsplit pool
  simp only [Function.update_self] at h₁
  unfold total
  omega

theorem le_total (w : L → Nat) (pool : T → L) (t : T) : w (pool t) ≤ total w pool :=
  Finset.single_le_sum (fun u _ => Nat.zero_le (w (pool u))) (Finset.mem_univ t)

/-- Nobody holds a share of an empty total. -/
theorem eq_zero_of_total {w : L → Nat} {pool : T → L} (h : total w pool = 0) (t : T) :
    w (pool t) = 0 :=
  Nat.eq_zero_of_le_zero (h ▸ le_total w pool t)

theorem total_eq_zero {w : L → Nat} {pool : T → L} (h : ∀ t, w (pool t) = 0) :
    total w pool = 0 := by
  unfold total
  exact Finset.sum_eq_zero (fun t _ => h t)

end ThreadPool
