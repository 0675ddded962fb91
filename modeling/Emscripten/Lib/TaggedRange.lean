-- SUMMARY: Finite maps from integers to tags, kept as lists of half-open ranges: separation, order and canonical form.
import Mathlib.Data.List.Sort

/-!
# Tagged ranges

A `TaggedRange τ` assigns one tag to the integers of `[start, stop)`, or of
`[start, ∞)` when it has no `stop`. A list of ranges that do not meet denotes a
partial map `tagAt` from the integers to `τ`. `Canonical` lists are sorted, have
no empty range, and join neighbours of one tag, so that a map has one
representation.
-/

structure TaggedRange (τ : Type) where
  tag : τ
  start : Int
  stop : Option Int
deriving DecidableEq, Repr

namespace TaggedRange

variable {τ : Type}

/-! ## Membership -/

/-- `x` lies in the range. -/
def Mem (r : TaggedRange τ) (x : Int) : Prop := r.start ≤ x ∧ ∀ e ∈ r.stop, x < e

instance (r : TaggedRange τ) (x : Int) : Decidable (r.Mem x) :=
  match h : r.stop with
  | none => decidable_of_iff (r.start ≤ x) (by simp [Mem, h])
  | some e => decidable_of_iff (r.start ≤ x ∧ x < e) (by simp [Mem, h])

def Nonempty (r : TaggedRange τ) : Prop := ∀ e ∈ r.stop, r.start < e

/-- The range has ended by `x`. -/
def EndsBy (r : TaggedRange τ) (x : Int) : Prop := ∃ e, r.stop = some e ∧ e ≤ x

variable {l : List (TaggedRange τ)} {r : TaggedRange τ} {x : Int} {t : τ}

theorem EndsBy.mono {y : Int} (h : r.EndsBy x) (hxy : x ≤ y) : r.EndsBy y := by
  obtain ⟨e, he, hle⟩ := h
  exact ⟨e, he, hle.trans hxy⟩

theorem EndsBy.not_mem (h : r.EndsBy x) : ¬ r.Mem x := by
  rintro ⟨_, hx⟩
  obtain ⟨e, he, hle⟩ := h
  have := hx e he
  omega

theorem Nonempty.mem_start (h : r.Nonempty) : r.Mem r.start := ⟨le_rfl, h⟩

/-! ## Separation and order -/

/-- The two ranges have no point in common, one being wholly before the other. -/
def Separate (a b : TaggedRange τ) : Prop := a.EndsBy b.start ∨ b.EndsBy a.start

theorem Separate.symm {a b : TaggedRange τ} (h : Separate a b) : Separate b a := Or.symm h

theorem Separate.not_mem {a b : TaggedRange τ} (h : Separate a b) (ha : a.Mem x) : ¬ b.Mem x := by
  intro hb
  rcases h with h | h
  · exact (h.mono hb.1).not_mem ha
  · exact (h.mono ha.1).not_mem hb

/-- The ranges stand one after the other, none of them empty. -/
def Ordered (l : List (TaggedRange τ)) : Prop :=
  (∀ r ∈ l, r.Nonempty) ∧ l.Pairwise (fun a b => a.EndsBy b.start)

/-- An ordered list in which no two touching ranges have one tag. -/
def Canonical (l : List (TaggedRange τ)) : Prop :=
  Ordered l ∧ l.Pairwise (fun a b => a.tag = b.tag → a.stop ≠ some b.start)

theorem Ordered.separate (h : Ordered l) : l.Pairwise Separate :=
  h.2.imp Or.inl

theorem Ordered.of_cons (h : Ordered (r :: l)) : Ordered l :=
  ⟨fun q hq => h.1 q (List.mem_cons_of_mem _ hq), (List.pairwise_cons.mp h.2).2⟩

/-- Separate nonempty ranges sorted by their starts are ordered. -/
theorem ordered_of_sorted (hne : ∀ r ∈ l, r.Nonempty) (hsep : l.Pairwise Separate)
    (hsort : l.Pairwise (fun a b => a.start ≤ b.start)) : Ordered l := by
  refine ⟨hne, ?_⟩
  have hand := hsep.and hsort
  refine hand.imp_of_mem ?_
  rintro a b _ hb ⟨hab | hab, hle⟩
  · exact hab
  · exact absurd (hne b hb).mem_start (hab.mono hle).not_mem

/-! ## The map a list denotes -/

/-- Some range of the list gives `x` the tag `t`. -/
def Covers (l : List (TaggedRange τ)) (x : Int) (t : τ) : Prop := ∃ r ∈ l, r.Mem x ∧ r.tag = t

/-- The tag of `x`, read off the first range that contains it. -/
def tagAt (l : List (TaggedRange τ)) (x : Int) : Option τ :=
  (l.find? (fun r => decide (r.Mem x))).map (·.tag)

theorem tagAt_eq_some_iff (h : l.Pairwise Separate) : tagAt l x = some t ↔ Covers l x t := by
  induction l with
  | nil => simp [tagAt, Covers]
  | cons r l ih =>
    obtain ⟨hr, hl⟩ := List.pairwise_cons.mp h
    by_cases hx : r.Mem x
    · have htag : tagAt (r :: l) x = some r.tag := by simp [tagAt, hx]
      rw [htag]
      constructor
      · rintro ⟨⟩
        exact ⟨r, List.mem_cons_self, hx, rfl⟩
      · rintro ⟨q, hq, hqx, rfl⟩
        rcases List.mem_cons.mp hq with rfl | hq
        · rfl
        · exact absurd hqx ((hr q hq).not_mem hx)
    · have htag : tagAt (r :: l) x = tagAt l x := by simp [tagAt, hx]
      rw [htag, ih hl]
      constructor
      · rintro ⟨q, hq, hqx⟩
        exact ⟨q, List.mem_cons_of_mem _ hq, hqx⟩
      · rintro ⟨q, hq, hqx, ht⟩
        rcases List.mem_cons.mp hq with rfl | hq
        · exact absurd hqx hx
        · exact ⟨q, hq, hqx, ht⟩

theorem Covers.perm {l' : List (TaggedRange τ)} (h : l.Perm l') : Covers l x t ↔ Covers l' x t := by
  simp only [Covers, h.mem_iff]

theorem covers_cons : Covers (r :: l) x t ↔ (r.Mem x ∧ r.tag = t) ∨ Covers l x t := by
  simp [Covers]

theorem covers_append {l' : List (TaggedRange τ)} : Covers (l ++ l') x t ↔ Covers l x t ∨ Covers l' x t := by
  simp only [Covers, List.mem_append, or_and_right, exists_or]

theorem covers_flatMap {f : TaggedRange τ → List (TaggedRange τ)} :
    Covers (l.flatMap f) x t ↔ ∃ r ∈ l, Covers (f r) x t := by
  simp only [Covers, List.mem_flatMap]
  constructor
  · rintro ⟨q, ⟨r, hr, hq⟩, h⟩
    exact ⟨r, hr, q, hq, h⟩
  · rintro ⟨r, hr, q, hq, h⟩
    exact ⟨q, ⟨r, hr, hq⟩, h⟩

/-! ## Joining two touching ranges -/

/-- A range followed by one of its tag that starts where it stops is one range. -/
theorem mem_join_iff {a b : TaggedRange τ} (ha : a.Nonempty) (hb : b.Nonempty) (hab : a.stop = some b.start) :
    ({ a with stop := b.stop } : TaggedRange τ).Mem x ↔ a.Mem x ∨ b.Mem x := by
  have hlt : a.start < b.start := ha b.start hab
  simp only [Mem, hab, Option.mem_def, Option.some.injEq, forall_eq']
  constructor
  · rintro ⟨hx, hend⟩
    by_cases h : x < b.start
    · exact Or.inl ⟨hx, h⟩
    · exact Or.inr ⟨by omega, hend⟩
  · rintro (⟨hx, hlt'⟩ | ⟨hx, hend⟩)
    · refine ⟨hx, fun e he => ?_⟩
      have := hb e he
      omega
    · exact ⟨by omega, hend⟩

/-- Replacing two touching neighbours of one tag by their join keeps the order. -/
theorem Ordered.join {a b : TaggedRange τ} (h : Ordered (a :: b :: l)) (hab : a.stop = some b.start) :
    Ordered ({ a with stop := b.stop } :: l) := by
  obtain ⟨hne, hpw⟩ := h
  have hb := (List.pairwise_cons.mp hpw).2
  refine ⟨?_, ?_⟩
  · rintro r hr
    rcases List.mem_cons.mp hr with rfl | hr
    · intro e he
      have h₁ : a.start < b.start := hne a List.mem_cons_self b.start hab
      have h₂ : b.start < e := hne b (by simp) e he
      exact h₁.trans h₂
    · exact hne r (by simp [hr])
  · refine List.pairwise_cons.mpr ⟨?_, (List.pairwise_cons.mp hb).2⟩
    intro r hr
    exact (List.pairwise_cons.mp hb).1 r hr

end TaggedRange
