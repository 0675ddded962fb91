-- SUMMARY: Association lists with unique keys: lookup, removal by key or by value, insertion at the end.
import Mathlib.Data.List.Nodup
import Mathlib.Data.List.Lookmap

/-!
# Association lists

A vector of key-value pairs that is searched from the front. Uniqueness of the keys,
or of the values, is a property of the list and not of its type: the lemmas ask for it
where they need it.
-/

namespace Assoc

variable {α β K V : Type}

/-! ## Removal by a projection -/

/-- Remove the first element whose image under `g` is `b`. -/
def dropFirst [DecidableEq β] (g : α → β) (b : β) (l : List α) : List α :=
  l.eraseP fun a => g a = b

theorem dropFirst_sublist [DecidableEq β] (g : α → β) (b : β) (l : List α) :
    (dropFirst g b l).Sublist l :=
  List.eraseP_sublist

variable {g : α → β} {l : List α}

/-- Where the images are distinct, the first such element is the only one. -/
theorem mem_dropFirst [DecidableEq β] {b : β} (h : (l.map g).Nodup) {a : α} :
    a ∈ dropFirst g b l ↔ a ∈ l ∧ g a ≠ b := by
  unfold dropFirst
  induction l with
  | nil => simp
  | cons x l ih =>
    rw [List.map_cons, List.nodup_cons] at h
    obtain ⟨hx, hl⟩ := h
    by_cases hb : g x = b
    · rw [List.eraseP_cons_of_pos (by simpa using hb)]
      refine ⟨?_, ?_⟩
      · intro ha
        refine ⟨List.mem_cons_of_mem _ ha, ?_⟩
        intro heq
        exact hx (List.mem_map.mpr ⟨a, ha, heq.trans hb.symm⟩)
      · rintro ⟨ha, hne⟩
        rcases List.mem_cons.mp ha with rfl | ha
        · exact absurd hb hne
        · exact ha
    · rw [List.eraseP_cons_of_neg (by simpa using hb), List.mem_cons, List.mem_cons, ih hl]
      refine ⟨?_, ?_⟩
      · rintro (rfl | ⟨ha, hne⟩)
        · exact ⟨.inl rfl, hb⟩
        · exact ⟨.inr ha, hne⟩
      · rintro ⟨rfl | ha, hne⟩
        · exact .inl rfl
        · exact .inr ⟨ha, hne⟩

theorem nodup_map_dropFirst [DecidableEq β] {γ : Type} {b : β} {k : α → γ} (h : (l.map k).Nodup) :
    ((dropFirst g b l).map k).Nodup :=
  h.sublist ((dropFirst_sublist g b l).map k)

/-- Where the images are distinct, an element is the only one with its image. -/
theorem filter_image [DecidableEq β] (h : (l.map g).Nodup) {a : α} (ha : a ∈ l) :
    (l.filter fun x => g x = g a) = [a] := by
  induction l with
  | nil => cases ha
  | cons x l ih =>
    rw [List.map_cons, List.nodup_cons] at h
    obtain ⟨hx, hl⟩ := h
    rcases List.mem_cons.mp ha with rfl | ha
    · rw [List.filter_cons_of_pos (by simp), List.filter_eq_nil_iff.mpr]
      intro y hy
      simp only [decide_eq_true_eq]
      intro heq
      exact hx (List.mem_map.mpr ⟨y, hy, heq⟩)
    · rw [List.filter_cons_of_neg, ih hl ha]
      simp only [decide_eq_true_eq]
      intro heq
      exact hx (List.mem_map.mpr ⟨a, ha, heq.symm⟩)

/-- Without the images of `a`, what is left is the list around it. -/
theorem filter_append [DecidableEq β] {l₁ l₂ : List α} {a : α} (h : ((l₁ ++ a :: l₂).map g).Nodup) :
    ((l₁ ++ a :: l₂).filter fun x => g x ≠ g a) = l₁ ++ l₂ := by
  rw [List.map_append, List.map_cons, List.nodup_middle, List.nodup_cons, ← List.map_append] at h
  have hkeep : ∀ x ∈ l₁ ++ l₂, g x ≠ g a := by
    intro x hx heq
    exact h.1 (List.mem_map.mpr ⟨x, hx, heq⟩)
  rw [List.filter_append, List.filter_cons_of_neg (by simp), ← List.filter_append,
    List.filter_eq_self.mpr (by simpa using hkeep)]

/-! ## Lookup -/

section Lookup

variable [BEq K] [LawfulBEq K] {l : List (K × V)} {k : K} {v : V}

theorem mem_of_lookup (h : l.lookup k = some v) : (k, v) ∈ l := by
  induction l with
  | nil => cases h
  | cons x l ih =>
    obtain ⟨k₀, v₀⟩ := x
    rw [List.lookup_cons] at h
    by_cases hk : k = k₀
    · subst hk
      simp only [BEq.rfl, Option.some.injEq] at h
      subst h
      exact List.mem_cons_self
    · simp only [beq_eq_false_iff_ne.mpr hk] at h
      exact List.mem_cons_of_mem _ (ih h)

theorem lookup_of_mem (hl : (l.map Prod.fst).Nodup) (h : (k, v) ∈ l) : l.lookup k = some v := by
  induction l with
  | nil => cases h
  | cons x l ih =>
    obtain ⟨k₀, v₀⟩ := x
    rw [List.map_cons, List.nodup_cons] at hl
    rw [List.lookup_cons]
    rcases List.mem_cons.mp h with heq | hmem
    · cases heq
      simp
    · have hne : k ≠ k₀ := by
        intro hk
        subst hk
        exact hl.1 (List.mem_map.mpr ⟨_, hmem, rfl⟩)
      simp only [beq_eq_false_iff_ne.mpr hne]
      exact ih hl.2 hmem

theorem lookup_iff (hl : (l.map Prod.fst).Nodup) : l.lookup k = some v ↔ (k, v) ∈ l :=
  ⟨mem_of_lookup, lookup_of_mem hl⟩

theorem lookup_eq_none : l.lookup k = none ↔ ∀ v, (k, v) ∉ l := by
  refine ⟨?_, ?_⟩
  · intro h v hmem
    induction l with
    | nil => cases hmem
    | cons x l ih =>
      obtain ⟨k₀, v₀⟩ := x
      rw [List.lookup_cons] at h
      by_cases hk : k = k₀
      · subst hk
        simp at h
      · simp only [beq_eq_false_iff_ne.mpr hk] at h
        rcases List.mem_cons.mp hmem with heq | hmem
        · cases heq
          exact hk rfl
        · exact ih h hmem
  · intro h
    cases hv : l.lookup k with
    | none => rfl
    | some v => exact absurd (mem_of_lookup hv) (h v)

theorem lookup_dropFirst [DecidableEq K] (hl : (l.map Prod.fst).Nodup) (k' : K) :
    (dropFirst Prod.fst k' l).lookup k = if k = k' then none else l.lookup k := by
  have hmem : ∀ x, x ∈ dropFirst Prod.fst k' l ↔ x ∈ l ∧ x.1 ≠ k' := fun x => mem_dropFirst hl
  by_cases hk : k = k'
  · rw [if_pos hk, lookup_eq_none]
    intro v hv
    exact ((hmem _).mp hv).2 hk
  · rw [if_neg hk]
    apply Option.ext
    intro v
    have hdrop : ((dropFirst Prod.fst k' l).map Prod.fst).Nodup := nodup_map_dropFirst hl
    rw [lookup_iff hdrop, lookup_iff hl, hmem]
    exact and_iff_left hk

end Lookup

end Assoc
