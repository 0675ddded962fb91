-- SUMMARY: The break of the heap: threads that move it in a loop of compare-and-swap, over any interleaving.
import Mathlib.Algebra.Ring.Int.Defs
import Mathlib.Algebra.Ring.Nat
import Mathlib.Order.Basic
import Emscripten.Lib.Machine

/-!
# The break

`_sbrk64` reads the break, may grow the memory, and exchanges the break. Each access is one step;
another thread can move the break in between, and then the loop starts over.
-/

namespace Sbrk

open Machine

/-! ## Machine integers -/

/-- The width of addresses, and the size up to which the memory can grow. -/
structure Build where
  wasm64 : Bool
  heapMax : Nat
  heapMax_le : heapMax ≤ if wasm64 then 2 ^ 53 else 2 ^ 32

def Build.addressSpace (b : Build) : Nat := if b.wasm64 then 2 ^ 64 else 2 ^ 32

/-- `(int64_t)n`. -/
def int64 (n : Int) : Int := if n % 2 ^ 64 < 2 ^ 63 then n % 2 ^ 64 else n % 2 ^ 64 - 2 ^ 64

/-- `(uintptr_t)n`. -/
def Build.uintptr (b : Build) (n : Int) : Nat := (n % b.addressSpace).toNat

def SBRK_ALIGNMENT : Int := 8

/-- `n & ~(SBRK_ALIGNMENT - 1)`. -/
def alignDown (n : Int) : Int := n - n % SBRK_ALIGNMENT

/-- What the increment is rounded to. -/
def rounded (increment : Int) : Int :=
  if increment ≥ 0 then alignDown (int64 (increment + (SBRK_ALIGNMENT - 1)))
  else int64 (-alignDown (int64 (-increment)))

def new_brk64 (old_brk : Nat) (increment : Int) : Int := int64 (int64 old_brk + rounded increment)

def Build.new_brk (b : Build) (old_brk : Nat) (increment : Int) : Nat := b.uintptr (new_brk64 old_brk increment)

/-- The break would leave the address space. -/
def Build.overflows (b : Build) (old_brk : Nat) (increment : Int) : Bool :=
  new_brk64 old_brk increment ≠ int64 (b.new_brk old_brk increment)

inductive Entry
  | sbrk | _sbrk64
deriving DecidableEq, Repr

/-- The argument of `_sbrk64`. `sbrk` treats its own as unsigned in 32-bit builds. -/
def Build.argument (b : Build) (increment : Int) : Entry → Int
  | ._sbrk64 => int64 increment
  | .sbrk => if b.wasm64 then int64 increment else increment % 2 ^ 32

/-! ## Threads -/

/-- The next access of a thread. -/
inductive Pc
  | idle
  | load (increment : Int)
  /-- The break has been read, and the size of the heap is to be. -/
  | check (increment : Int) (old_brk : Nat)
  | resize (increment : Int) (old_brk : Nat)
  | exchange (increment : Int) (old_brk : Nat)
deriving DecidableEq, Repr

/-- Ghost: a successful call. -/
structure Grant where
  increment : Int
  old_brk : Nat
  new_brk : Nat
deriving DecidableEq, Repr

structure State (T : Type) where
  brk : Nat
  /-- The size of the memory in bytes. -/
  heap : Nat
  thread : T → Pc
  /-- Ghost: the successful calls, latest first. -/
  granted : List Grant

inductive Action (T : Type)
  | call (t : T) (entry : Entry) (increment : Int)
  | load (t : T)
  | check (t : T)
  /-- `emscripten_resize_heap` grows the memory to some size, or fails. -/
  | resize (t : T) (size : Option Nat)
  | exchange (t : T)
  /-- Other code grows the memory. -/
  | grow (size : Nat)

section Step

variable {T : Type} [DecidableEq T] (b : Build)

def State.goto (s : State T) (t : T) (pc : Pc) : State T := { s with thread := Function.update s.thread t pc }

/-- `emscripten_get_heap_size`, a number of the width of an address. -/
def heapSize (s : State T) : Nat := s.heap % b.addressSpace

/-- The test for overflow and for the size of the heap. A call that fails returns -1. -/
def checked (s : State T) (increment : Int) (old_brk : Nat) : Pc :=
  if b.overflows old_brk increment then .idle
  else if heapSize b s < b.new_brk old_brk increment then .resize increment old_brk
  else .exchange increment old_brk

def resize (s : State T) (t : T) (increment : Int) (old_brk : Nat) : Option Nat → Option (State T)
  | none => some (s.goto t .idle)
  | some size =>
    -- a request that the memory has met in the meantime is refused
    if s.heap < b.new_brk old_brk increment ∧ b.new_brk old_brk increment ≤ size ∧ size ≤ b.heapMax then
      some ({ s with heap := size }.goto t (.exchange increment old_brk))
    else none

def exchange (s : State T) (t : T) (increment : Int) (old_brk : Nat) : State T :=
  if s.brk = old_brk then
    let new_brk := b.new_brk old_brk increment
    { s with brk := new_brk, granted := ⟨increment, old_brk, new_brk⟩ :: s.granted }.goto t .idle
  else s.goto t (.load increment)

def step (s : State T) : Action T → Option (State T)
  | .call t entry increment =>
    match s.thread t with
    | .idle => some (s.goto t (.load (b.argument increment entry)))
    | _ => none
  | .load t =>
    match s.thread t with
    | .load increment => some (s.goto t (.check increment s.brk))
    | _ => none
  | .check t =>
    match s.thread t with
    | .check increment old_brk => some (s.goto t (checked b s increment old_brk))
    | _ => none
  | .resize t size =>
    match s.thread t with
    | .resize increment old_brk => resize b s t increment old_brk size
    | _ => none
  | .exchange t =>
    match s.thread t with
    | .exchange increment old_brk => some (exchange b s t increment old_brk)
    | _ => none
  | .grow size => if s.heap ≤ size ∧ size ≤ b.heapMax then some { s with heap := size } else none

/-- The program starts: the break is the aligned end of the static data. -/
structure Init (s : State T) : Prop where
  idle : ∀ t, s.thread t = .idle
  granted : s.granted = []
  aligned : SBRK_ALIGNMENT ∣ s.brk
  brk_le : s.brk ≤ s.heap
  heap_le : s.heap ≤ b.heapMax

end Step

/-! ## Arithmetic -/

theorem int64_range (n : Int) : -2 ^ 63 ≤ int64 n ∧ int64 n < 2 ^ 63 := by
  unfold int64
  omega

/-- The cast changes nothing, or what is outside the range comes out of it on the other side. -/
theorem int64_cases {n : Int} (h : -2 ^ 64 ≤ n) (h' : n < 2 ^ 64) :
    (-2 ^ 63 ≤ n ∧ n < 2 ^ 63 ∧ int64 n = n) ∨ (2 ^ 63 ≤ n ∧ int64 n = n - 2 ^ 64) ∨ (n < -2 ^ 63 ∧ int64 n = n + 2 ^ 64) := by
  unfold int64
  omega

theorem alignDown_spec (n : Int) : SBRK_ALIGNMENT ∣ alignDown n ∧ alignDown n ≤ n ∧ n < alignDown n + SBRK_ALIGNMENT := by
  unfold alignDown SBRK_ALIGNMENT
  omega

/-- An increment is rounded up, unless that leads out of the range. -/
theorem rounded_cases {increment : Int} (h : -2 ^ 63 ≤ increment) (h' : increment < 2 ^ 63) :
    (SBRK_ALIGNMENT ∣ rounded increment ∧ increment ≤ rounded increment ∧ rounded increment < increment + SBRK_ALIGNMENT) ∨
      rounded increment = -2 ^ 63 := by
  unfold rounded
  split
  · have hspec := alignDown_spec (int64 (increment + (SBRK_ALIGNMENT - 1)))
    have hcast := int64_cases (n := increment + (SBRK_ALIGNMENT - 1)) (by unfold SBRK_ALIGNMENT; omega)
      (by unfold SBRK_ALIGNMENT; omega)
    unfold SBRK_ALIGNMENT at *
    omega
  · have hcast := int64_cases (n := -increment) (by omega) (by omega)
    have hspec := alignDown_spec (int64 (-increment))
    simp only [SBRK_ALIGNMENT] at hspec ⊢
    have hcast' := int64_cases (n := -alignDown (int64 (-increment))) (by omega) (by omega)
    omega

/-- The break moves by the increment, rounded up. -/
def Moves (increment : Int) (old_brk new_brk : Nat) : Prop :=
  SBRK_ALIGNMENT ∣ (new_brk : Int) - old_brk ∧ increment ≤ (new_brk : Int) - old_brk ∧
    (new_brk : Int) - old_brk < increment + SBRK_ALIGNMENT

theorem Build.heapMax_lt (b : Build) : b.heapMax ≤ 2 ^ 53 := by
  have h := b.heapMax_le
  cases hb : b.wasm64 with
  | true => simpa only [hb, if_true] using h
  | false =>
    simp only [hb, Bool.false_eq_true, if_false] at h
    omega

variable {old_brk brk : Nat} {gs : List Grant}

/-- A break that passes the test for overflow and lies in the memory is computed without wrapping. -/
theorem Build.new_brk_eq (b : Build) {increment : Int} (hno : ¬ b.overflows old_brk increment)
    (hle : b.new_brk old_brk increment ≤ b.heapMax) :
    (b.new_brk old_brk increment : Int) = new_brk64 old_brk increment := by
  have hmax := b.heapMax_lt
  have hrange := int64_range (int64 old_brk + rounded increment)
  change -2 ^ 63 ≤ new_brk64 old_brk increment ∧ new_brk64 old_brk increment < 2 ^ 63 at hrange
  simp only [Build.overflows, ne_eq, decide_not, Bool.not_eq_true', decide_eq_false_iff_not, not_not] at hno
  have hcast := int64_cases (n := (b.new_brk old_brk increment : Int)) (by omega) (by omega)
  omega

theorem Build.moves (b : Build) {increment : Int} (h : -2 ^ 63 ≤ increment) (h' : increment < 2 ^ 63)
    (hold : old_brk ≤ b.heapMax) (hno : ¬ b.overflows old_brk increment)
    (hle : b.new_brk old_brk increment ≤ b.heapMax) :
    Moves increment old_brk (b.new_brk old_brk increment) := by
  have hmax := b.heapMax_lt
  have hnew := b.new_brk_eq hno hle
  have hold' := int64_cases (n := (old_brk : Int)) (by omega) (by omega)
  have hrounded := rounded_cases h h'
  have hsum := int64_cases (n := int64 old_brk + rounded increment) (by unfold SBRK_ALIGNMENT at hrounded; omega)
    (by unfold SBRK_ALIGNMENT at hrounded; omega)
  change (_ ∧ _ ∧ new_brk64 old_brk increment = _) ∨ (_ ∧ new_brk64 old_brk increment = _) ∨
    (_ ∧ new_brk64 old_brk increment = _) at hsum
  unfold Moves
  unfold SBRK_ALIGNMENT at *
  omega

attribute [irreducible] new_brk64 Build.new_brk Build.overflows

/-! ## The history of the break -/

/-- Each call has moved the break from where the call before it had left it. -/
def Linked (base : Nat) : List Grant → Nat → Prop
  | [], brk => brk = base
  | g :: gs, brk => brk = g.new_brk ∧ Linked base gs g.old_brk

theorem Linked.drop {base : Nat} {newer : List Grant} {g : Grant} {older : List Grant}
    (h : Linked base (newer ++ g :: older) brk) : Linked base older g.old_brk := by
  induction newer generalizing brk with
  | nil => exact h.2
  | cons g' newer ih => exact ih h.2

/-- A later call starts above what is not given back in between. -/
theorem Linked.le_of_kept {base : Nat} {mid : List Grant} {g : Grant} {older : List Grant}
    (h : Linked base (mid ++ g :: older) brk) (hkept : ∀ m ∈ mid, g.new_brk ≤ m.new_brk) : g.new_brk ≤ brk := by
  cases mid with
  | nil => exact h.1.ge
  | cons m mid => exact (hkept m List.mem_cons_self).trans h.1.ge

theorem Linked.le_of_nonneg {base : Nat} (h : Linked base gs brk)
    (hmoves : ∀ g ∈ gs, Moves g.increment g.old_brk g.new_brk) (hnonneg : ∀ g ∈ gs, 0 ≤ g.increment) :
    ∀ g ∈ gs, g.new_brk ≤ brk := by
  induction gs generalizing brk with
  | nil =>
    intro g hg
    cases hg
  | cons g' gs ih =>
    obtain ⟨hbrk, hrest⟩ := h
    intro g hg
    obtain rfl | hg := List.mem_cons.mp hg
    · exact hbrk.ge
    · have hle := ih hrest (fun g hg => hmoves g (List.mem_cons_of_mem g' hg))
        (fun g hg => hnonneg g (List.mem_cons_of_mem g' hg)) g hg
      have hmove := (hmoves g' List.mem_cons_self).2.1
      have hpos := hnonneg g' List.mem_cons_self
      omega

theorem Linked.pairwise {base : Nat} (h : Linked base gs brk)
    (hmoves : ∀ g ∈ gs, Moves g.increment g.old_brk g.new_brk) (hnonneg : ∀ g ∈ gs, 0 ≤ g.increment) :
    gs.Pairwise fun later earlier => earlier.new_brk ≤ later.old_brk := by
  induction gs generalizing brk with
  | nil => exact .nil
  | cons g gs ih =>
    have hmoves' : ∀ g' ∈ gs, Moves g'.increment g'.old_brk g'.new_brk := fun g' hg' => hmoves g' (List.mem_cons_of_mem g hg')
    have hnonneg' : ∀ g' ∈ gs, 0 ≤ g'.increment := fun g' hg' => hnonneg g' (List.mem_cons_of_mem g hg')
    exact .cons (h.2.le_of_nonneg hmoves' hnonneg') (ih h.2 hmoves' hnonneg')

theorem Linked.aligned {base : Nat} (h : Linked base gs brk)
    (hmoves : ∀ g ∈ gs, Moves g.increment g.old_brk g.new_brk) (hbase : SBRK_ALIGNMENT ∣ base) :
    SBRK_ALIGNMENT ∣ brk ∧ ∀ g ∈ gs, SBRK_ALIGNMENT ∣ g.old_brk ∧ SBRK_ALIGNMENT ∣ g.new_brk := by
  induction gs generalizing brk with
  | nil => exact ⟨h ▸ hbase, fun g hg => by cases hg⟩
  | cons g gs ih =>
    obtain ⟨rfl, hrest⟩ := h
    obtain ⟨hold, hgs⟩ := ih hrest fun g' hg' => hmoves g' (List.mem_cons_of_mem g hg')
    have hnew : SBRK_ALIGNMENT ∣ g.new_brk := by
      have hmove := (hmoves g List.mem_cons_self).1
      unfold SBRK_ALIGNMENT at *
      omega
    refine ⟨hnew, fun g' hg' => ?_⟩
    obtain rfl | hg' := List.mem_cons.mp hg'
    · exact ⟨hold, hnew⟩
    · exact hgs g' hg'

/-! ## The invariant -/

def InRange (increment : Int) : Prop := -2 ^ 63 ≤ increment ∧ increment < 2 ^ 63

/-- What a thread knows at an access: of the memory that it does not shrink, and of the break that
it has read that the new one does not leave the address space. -/
def Pc.Knows (b : Build) (heap : Nat) : Pc → Prop
  | .idle => True
  | .load increment => InRange increment
  | .check increment old_brk => InRange increment ∧ old_brk ≤ heap
  | .resize increment old_brk => InRange increment ∧ old_brk ≤ heap ∧ ¬ b.overflows old_brk increment
  | .exchange increment old_brk =>
    InRange increment ∧ old_brk ≤ heap ∧ ¬ b.overflows old_brk increment ∧ b.new_brk old_brk increment ≤ heap

theorem Pc.Knows.mono {b : Build} {heap heap' : Nat} {pc : Pc} (h : pc.Knows b heap) (hle : heap ≤ heap') :
    pc.Knows b heap' := by
  cases pc with
  | idle => trivial
  | load increment => exact h
  | check increment old_brk => exact ⟨h.1, h.2.trans hle⟩
  | resize increment old_brk => exact ⟨h.1, h.2.1.trans hle, h.2.2⟩
  | exchange increment old_brk => exact ⟨h.1, h.2.1.trans hle, h.2.2.1, h.2.2.2.trans hle⟩

structure Inv {T : Type} (b : Build) (base : Nat) (s : State T) : Prop where
  threads : ∀ t, (s.thread t).Knows b s.heap
  heap_le : s.heap ≤ b.heapMax
  brk_le : s.brk ≤ s.heap
  linked : Linked base s.granted s.brk
  moves : ∀ g ∈ s.granted, Moves g.increment g.old_brk g.new_brk
  inside : ∀ g ∈ s.granted, g.new_brk ≤ s.heap

section Invariant

variable {T : Type} [DecidableEq T] {b : Build} {base : Nat} {s s' : State T}

omit [DecidableEq T] in
theorem Init.inv (h : Init b s) : Inv b s.brk s where
  threads := fun t => by
    rw [h.idle t]
    trivial
  heap_le := h.heap_le
  brk_le := h.brk_le
  linked := by
    rw [h.granted]
    rfl
  moves := fun g hg => by
    rw [h.granted] at hg
    cases hg
  inside := fun g hg => by
    rw [h.granted] at hg
    cases hg

theorem Inv.goto (h : Inv b base s) {t : T} (pc : Pc) (hpc : pc.Knows b s.heap) : Inv b base (s.goto t pc) where
  threads := fun t' => by
    simp only [State.goto]
    by_cases ht : t' = t
    · subst ht
      rw [Function.update_self]
      exact hpc
    · rw [Function.update_of_ne ht]
      exact h.threads t'
  heap_le := h.heap_le
  brk_le := h.brk_le
  linked := h.linked
  moves := h.moves
  inside := h.inside

omit [DecidableEq T] in
theorem Inv.grow (h : Inv b base s) {size : Nat} (hle : s.heap ≤ size) (hmax : size ≤ b.heapMax) :
    Inv b base { s with heap := size } where
  threads := fun t => (h.threads t).mono hle
  heap_le := hmax
  brk_le := h.brk_le.trans hle
  linked := h.linked
  moves := h.moves
  inside := fun g hg => (h.inside g hg).trans hle

theorem argument_inRange (b : Build) (increment : Int) (entry : Entry) : InRange (b.argument increment entry) := by
  unfold Build.argument
  cases entry with
  | _sbrk64 => exact int64_range increment
  | sbrk =>
    dsimp only
    split
    · exact int64_range increment
    · unfold InRange
      omega

omit [DecidableEq T] in
theorem heapSize_le (b : Build) (s : State T) : heapSize b s ≤ s.heap := by
  unfold heapSize
  exact Nat.mod_le s.heap b.addressSpace

omit [DecidableEq T] in
theorem checked_knows {increment : Int} (hrange : InRange increment) (hold : old_brk ≤ s.heap) :
    (checked b s increment old_brk).Knows b s.heap := by
  unfold checked
  cases hno : b.overflows old_brk increment with
  | true => trivial
  | false =>
    simp only [Bool.false_eq_true, if_false]
    split
    · exact ⟨hrange, hold, Bool.eq_false_iff.mp hno⟩
    · rename_i hfits
      exact ⟨hrange, hold, Bool.eq_false_iff.mp hno, (Nat.le_of_not_lt hfits).trans (heapSize_le b s)⟩

theorem Inv.exchange (h : Inv b base s) {t : T} {increment : Int}
    (ht : s.thread t = .exchange increment old_brk) : Inv b base (exchange b s t increment old_brk) := by
  have hknows := h.threads t
  rw [ht] at hknows
  obtain ⟨hrange, hold, hno, hnew⟩ := hknows
  unfold Sbrk.exchange
  split
  · rename_i hbrk
    have hmoves := b.moves hrange.1 hrange.2 (hold.trans h.heap_le) hno (hnew.trans h.heap_le)
    refine Inv.goto ?_ .idle trivial
    constructor
    · exact h.threads
    · exact h.heap_le
    · exact hnew
    · exact ⟨rfl, hbrk ▸ h.linked⟩
    · intro g hg
      obtain rfl | hg := List.mem_cons.mp hg
      · exact hmoves
      · exact h.moves g hg
    · intro g hg
      obtain rfl | hg := List.mem_cons.mp hg
      · exact hnew
      · exact h.inside g hg
  · exact h.goto _ hrange

theorem Inv.resize (h : Inv b base s) {t : T} {increment : Int} {size : Option Nat}
    (ht : s.thread t = .resize increment old_brk) (hs : resize b s t increment old_brk size = some s') :
    Inv b base s' := by
  have hknows := h.threads t
  rw [ht] at hknows
  obtain ⟨hrange, hold, hno⟩ := hknows
  cases size with
  | none =>
    obtain rfl := Option.some.inj hs
    exact h.goto .idle trivial
  | some size =>
    simp only [Sbrk.resize] at hs
    split at hs
    · rename_i hsize
      obtain rfl := Option.some.inj hs
      have hle := (hsize.1.trans_le hsize.2.1).le
      exact (h.grow hle hsize.2.2).goto (.exchange increment old_brk) ⟨hrange, hold.trans hle, hno, hsize.2.1⟩
    · cases hs

theorem Inv.step {a : Action T} (h : Inv b base s) (hs : step b s a = some s') : Inv b base s' := by
  cases a with
  | call t entry increment =>
    simp only [Sbrk.step] at hs
    split at hs
    · obtain rfl := Option.some.inj hs
      exact h.goto (.load _) (argument_inRange b increment entry)
    · cases hs
  | load t =>
    simp only [Sbrk.step] at hs
    split at hs
    · rename_i increment ht
      obtain rfl := Option.some.inj hs
      have hknows := h.threads t
      rw [ht] at hknows
      exact h.goto (.check increment s.brk) ⟨hknows, h.brk_le⟩
    · cases hs
  | check t =>
    simp only [Sbrk.step] at hs
    split at hs
    · rename_i increment old_brk ht
      obtain rfl := Option.some.inj hs
      have hknows := h.threads t
      rw [ht] at hknows
      exact h.goto _ (checked_knows hknows.1 hknows.2)
    · cases hs
  | resize t size =>
    simp only [Sbrk.step] at hs
    split at hs
    · rename_i increment old_brk ht
      exact h.resize ht hs
    · cases hs
  | exchange t =>
    simp only [Sbrk.step] at hs
    split at hs
    · rename_i increment old_brk ht
      obtain rfl := Option.some.inj hs
      exact h.exchange ht
    · cases hs
  | grow size =>
    simp only [Sbrk.step] at hs
    split at hs
    · rename_i hsize
      obtain rfl := Option.some.inj hs
      exact h.grow hsize.1 hsize.2
    · cases hs

/-- A step moves the break only when it makes a call succeed. -/
theorem step_brk {a : Action T} (hs : step b s a = some s') :
    (s'.brk = s.brk ∧ s'.granted = s.granted) ∨
      ∃ t increment, a = .exchange t ∧ s.thread t = .exchange increment s.brk ∧
        s'.granted = ⟨increment, s.brk, s'.brk⟩ :: s.granted := by
  cases a with
  | call t entry increment =>
    simp only [Sbrk.step] at hs
    split at hs <;> cases hs
    exact .inl ⟨rfl, rfl⟩
  | load t =>
    simp only [Sbrk.step] at hs
    split at hs <;> cases hs
    exact .inl ⟨rfl, rfl⟩
  | check t =>
    simp only [Sbrk.step] at hs
    split at hs <;> cases hs
    exact .inl ⟨rfl, rfl⟩
  | resize t size =>
    simp only [Sbrk.step] at hs
    split at hs
    · cases size with
      | none =>
        cases hs
        exact .inl ⟨rfl, rfl⟩
      | some size =>
        simp only [Sbrk.resize] at hs
        split at hs <;> cases hs
        exact .inl ⟨rfl, rfl⟩
    · cases hs
  | exchange t =>
    simp only [Sbrk.step] at hs
    split at hs
    · rename_i increment old_brk ht
      obtain rfl := Option.some.inj hs
      by_cases hbrk : s.brk = old_brk
      · subst hbrk
        simp only [Sbrk.exchange, if_true]
        exact .inr ⟨t, increment, rfl, ht, rfl⟩
      · simp only [Sbrk.exchange, hbrk, if_false]
        exact .inl ⟨rfl, rfl⟩
    · cases hs
  | grow size =>
    simp only [Sbrk.step] at hs
    split at hs <;> cases hs
    exact .inl ⟨rfl, rfl⟩

end Invariant

/-! ## Safety -/

/-- What holds of the break over any interleaving. -/
structure Safe {T : Type} [DecidableEq T] (b : Build) (base : Nat) (s : State T) : Prop where
  aligned : SBRK_ALIGNMENT ∣ s.brk ∧ ∀ g ∈ s.granted, SBRK_ALIGNMENT ∣ g.old_brk ∧ SBRK_ALIGNMENT ∣ g.new_brk
  /-- The break does not wrap, and what is returned is as large as it was asked for. -/
  moves : ∀ g ∈ s.granted, Moves g.increment g.old_brk g.new_brk
  inside : s.brk ≤ s.heap ∧ ∀ g ∈ s.granted, g.new_brk ≤ s.heap
  /-- Only what is given back in between is returned again. -/
  disjoint : ∀ newer later mid earlier older, s.granted = newer ++ later :: (mid ++ earlier :: older) →
    (∀ m ∈ mid, earlier.new_brk ≤ m.new_brk) → earlier.new_brk ≤ later.old_brk
  pairwise : (∀ g ∈ s.granted, 0 ≤ g.increment) →
    s.granted.Pairwise fun later earlier => earlier.new_brk ≤ later.old_brk
  linked : Linked base s.granted s.brk
  unchanged : ∀ a s', step b s a = some s' → s'.brk = s.brk ∨
    ∃ t increment, a = .exchange t ∧ s.thread t = .exchange increment s.brk ∧
      s'.granted = ⟨increment, s.brk, s'.brk⟩ :: s.granted

theorem _sbrk64_safe {T : Type} [DecidableEq T] {b : Build} {s₀ s : State T} (hinit : Init b s₀)
    (h : Reaches (step b) Any s₀ s) : Safe b s₀.brk s := by
  have hinv : Inv b s₀.brk s := h.invariant hinit.inv fun _ _ _ hi _ hs => hi.step hs
  constructor
  · exact hinv.linked.aligned hinv.moves hinit.aligned
  · exact hinv.moves
  · exact ⟨hinv.brk_le, hinv.inside⟩
  · intro newer later mid earlier older heq hkept
    have hlinked := hinv.linked
    rw [heq] at hlinked
    exact hlinked.drop.le_of_kept hkept
  · exact fun hnonneg => hinv.linked.pairwise hinv.moves hnonneg
  · exact hinv.linked
  · intro a s' hs
    exact (step_brk hs).imp And.left id

/-! ## Memory that is given back -/

def smallBuild : Build := ⟨false, 2 ^ 20, by decide⟩

def start : State Unit := ⟨1024, 65536, fun _ => .idle, []⟩

/-- A call that no other thread gets in the way of. -/
def alone (increment : Int) : List (Action Unit) := [.call () ._sbrk64 increment, .load (), .check (), .exchange ()]

theorem start_init : Init smallBuild start where
  idle := fun _ => rfl
  granted := rfl
  aligned := by decide
  brk_le := by decide
  heap_le := by decide

theorem _sbrk64_safe_alone : ∃ s, Reaches (step smallBuild) Any start s ∧ s.granted = [⟨13, 1024, 1040⟩] ∧
    Safe smallBuild 1024 s := by
  have hrun : ∃ s, Reaches (step smallBuild) Any start s ∧ s.granted = [⟨13, 1024, 1040⟩] :=
    reaches_of_map (alone 13) (by decide +kernel)
  obtain ⟨s, hs, hgranted⟩ := hrun
  exact ⟨s, hs, hgranted, _sbrk64_safe start_init hs⟩

/-- Two calls of `_sbrk64(16)` with a call of `_sbrk64(-16)` in between return the same memory. -/
theorem _sbrk64_returns_again :
    ¬ ∀ (b : Build) (s₀ s : State Unit), Init b s₀ → Reaches (step b) Any s₀ s →
      s.granted.Pairwise fun later earlier => 0 ≤ later.increment → 0 ≤ earlier.increment →
        earlier.new_brk ≤ later.old_brk ∨ later.new_brk ≤ earlier.old_brk := by
  intro h
  have hrun : ∃ s, Reaches (step smallBuild) Any start s ∧
      s.granted = [⟨16, 1024, 1040⟩, ⟨-16, 1040, 1024⟩, ⟨16, 1024, 1040⟩] :=
    reaches_of_map (alone 16 ++ alone (-16) ++ alone 16) (by decide +kernel)
  obtain ⟨s, hs, hgranted⟩ := hrun
  have hpairwise := h smallBuild start s start_init hs
  rw [hgranted] at hpairwise
  revert hpairwise
  decide

end Sbrk
