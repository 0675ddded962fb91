-- SUMMARY: Searches of a graph in depth: the frontier of a node, and what it becomes when a node is done.
import Mathlib.Logic.Relation

/-!
# Frontiers

A search of a graph marks a node as done after the nodes it leads to were visited. The frontier of
a node are the first nodes on the paths from it that are not done. Once it is empty, all that the
node leads to is done, also where the graph has cycles.
-/

namespace Frontier

variable {α : Type} {r : α → α → Prop} {black : α → Prop} {a b p x : α}

/-- An edge that starts at a node that is done. -/
def Via (r : α → α → Prop) (black : α → Prop) (a b : α) : Prop := black a ∧ r a b

/-- A path of nodes that are done leads to one that is not. -/
def Front (r : α → α → Prop) (black : α → Prop) (a x : α) : Prop :=
  Relation.ReflTransGen (Via r black) a x ∧ ¬ black x

theorem front_self (h : ¬ black a) : Front r black a a := ⟨.refl, h⟩

theorem Front.head (hb : black a) (hr : r a b) (h : Front r black b x) : Front r black a x :=
  ⟨.head ⟨hb, hr⟩ h.1, h.2⟩

/-- A node that is not done is its own frontier. -/
theorem Front.eq_of_not (h : Front r black a x) (ha : ¬ black a) : x = a := by
  obtain ⟨hpath, -⟩ := h
  cases hpath using Relation.ReflTransGen.head_induction_on with
  | refl => rfl
  | head hvia _ => exact absurd hvia.1 ha

theorem black_of_no_front (hf : ∀ x, ¬ Front r black a x)
    (h : Relation.ReflTransGen r a b) : black b := by
  have hblack : ∀ b, Relation.ReflTransGen (Via r black) a b → black b := fun b hpath =>
    Classical.byContradiction fun hb => hf b ⟨hpath, hb⟩
  have hpath : Relation.ReflTransGen (Via r black) a b := by
    induction h with
    | refl => exact .refl
    | tail _ hr ih => exact ih.tail ⟨hblack _ ih, hr⟩
  exact hblack b hpath

/-- When a node is done, what is beyond it joins the frontiers that it was in. -/
theorem Front.of_insert {black' : α → Prop} (hb : ∀ y, black' y ↔ y = p ∨ black y)
    (h : Front r black' a x) :
    x ≠ p ∧ (Front r black a x ∨ Front r black a p ∧ ∃ d, r p d ∧ Front r black d x) := by
  obtain ⟨hpath, hx⟩ := h
  have hxp : x ≠ p := fun he => hx ((hb x).mpr (.inl he))
  have hx' : ¬ black x := fun h => hx ((hb x).mpr (.inr h))
  refine ⟨hxp, ?_⟩
  induction hpath using Relation.ReflTransGen.head_induction_on with
  | refl => exact .inl (front_self hx')
  | @head a d hvia _ ih =>
    obtain ⟨ha, hr⟩ := hvia
    by_cases hba : black a
    · -- the edge was there before
      obtain h | ⟨hp, e, he, h⟩ := ih
      · exact .inl (h.head hba hr)
      · exact .inr ⟨hp.head hba hr, e, he, h⟩
    · -- the path starts at the node that is done now; its last visit there counts
      have hap : a = p := ((hb a).mp ha).resolve_right hba
      subst hap
      refine .inr ⟨front_self hba, ?_⟩
      obtain h | ⟨-, e, he, h⟩ := ih
      · exact ⟨d, hr, h⟩
      · exact ⟨e, he, h⟩

end Frontier
