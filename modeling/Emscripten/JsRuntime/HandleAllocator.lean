-- SUMMARY: The table of handles that promises and OPFS files are kept in, over any run of allocations and frees.
import Mathlib.Logic.Function.Basic
import Emscripten.Lib.Machine

/-!
# Handles

A `HandleAllocator` keeps values in the places of an array, and the places that were freed on a stack.
-/

open Machine

structure HandleAllocator (α : Type) where
  length : Nat
  allocated : Nat → Option α
  freelist : List Nat

namespace HandleAllocator

variable {α : Type} {s s' : HandleAllocator α}

def init : HandleAllocator α := ⟨1, fun _ => none, []⟩

def has (s : HandleAllocator α) (id : Nat) : Bool := (s.allocated id).isSome

/-- `freelist.pop() || allocated.length`, where 0 counts as an empty stack. -/
def next (s : HandleAllocator α) : Nat := (s.freelist.head?.filter (· ≠ 0)).getD s.length

def allocate (s : HandleAllocator α) (handle : α) : HandleAllocator α × Nat :=
  (⟨max s.length (s.next + 1), Function.update s.allocated s.next (some handle), s.freelist.tail⟩, s.next)

def free (s : HandleAllocator α) (id : Nat) : HandleAllocator α :=
  { s with allocated := Function.update s.allocated id none, freelist := id :: s.freelist }

inductive Action (α : Type)
  | allocate (handle : α)
  | free (id : Nat)

def step (s : HandleAllocator α) : Action α → Option (HandleAllocator α)
  | .allocate handle => some (s.allocate handle).1
  | .free id => some (s.free id)

/-- Only what is allocated is freed. -/
def Permits (s : HandleAllocator α) : Action α → Prop
  | .allocate _ => True
  | .free id => s.has id = true

structure Inv (s : HandleAllocator α) : Prop where
  nodup : s.freelist.Nodup
  inside : ∀ id, s.has id = true ∨ id ∈ s.freelist ↔ 0 < id ∧ id < s.length
  free : ∀ id ∈ s.freelist, s.has id = false
  length : 0 < s.length

/-- A new handle is a place behind the others, or the one that was freed last. -/
theorem Inv.next (hi : s.Inv) : s.next = s.length ∧ s.freelist = [] ∨
    ∃ rest, s.freelist = s.next :: rest ∧ 0 < s.next ∧ s.next < s.length := by
  unfold HandleAllocator.next
  cases hlist : s.freelist with
  | nil => exact .inl ⟨rfl, rfl⟩
  | cons id rest =>
    have hid : 0 < id ∧ id < s.length := (hi.inside id).mp (.inr (by simp [hlist]))
    have hne : id ≠ 0 := Nat.ne_of_gt hid.1
    exact .inr ⟨rest, by simpa [Option.filter, hne] using hid⟩

theorem Inv.step {a : Action α} (hi : s.Inv) (hc : s.Permits a) (hs : s.step a = some s') : s'.Inv := by
  have hnext := hi.next
  obtain ⟨hnodup, hinside, hfree, hlen⟩ := hi
  cases a with
  | allocate handle =>
    cases hs
    obtain ⟨hnext, hlist⟩ | ⟨rest, hlist, hpos, hlt⟩ := hnext
    · constructor <;> simp only [allocate, has, hnext, hlist] at * <;> grind
    · constructor <;> simp only [allocate, has, hlist, List.tail_cons] at * <;> grind
  | free id =>
    cases hs
    constructor <;> simp only [HandleAllocator.free, has, Permits] at * <;> grind

/-- A handle that is allocated is not in use, and each place of the array is in use, or is on the stack once. -/
theorem handles_sound (h : Reaches step Permits (init : HandleAllocator α) s) :
    0 < s.next ∧ s.has s.next = false ∧ s.freelist.Nodup ∧
      ∀ id, 0 < id → id < s.length → (id ∈ s.freelist ↔ s.has id = false) := by
  have hi : s.Inv := by
    refine h.invariant ?_ fun _ _ _ hi hc hs => hi.step hc hs
    constructor <;> simp [init, has] <;> omega
  have hnext := hi.next
  obtain ⟨hnodup, hinside, hfree, hlen⟩ := hi
  grind

theorem handles_sound_reused : ∃ s : HandleAllocator Bool, s.freelist = [1] ∧ s.has 2 = true ∧ s.has s.next = false :=
  ⟨_, rfl, rfl, (handles_sound (.next (.next (.next .init (.allocate true) trivial rfl) (.allocate true) trivial rfl)
    (.free 1) rfl rfl)).2.1⟩

end HandleAllocator
