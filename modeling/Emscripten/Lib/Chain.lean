-- SUMMARY: Chains of pointers: following a partial function until it ends or comes to its top.
import Mathlib.Data.Finset.Card

/-!
# Chains

Every node of a structure may point to one other node. A chain of pointers ends where a
node points to nothing, or at the top, which points to itself.
-/

namespace Chain

variable {α : Type}

/-- `x` points to `y`. -/
def Link (next : α → Option α) (x y : α) : Prop := next x = some y

/-- The chain from a node comes to an end. -/
inductive Ends (next : α → Option α) (top : α) : α → Prop
  | top : Ends next top top
  | stop {x : α} (h : next x = none) : Ends next top x
  | step {x y : α} (h : next x = some y) (hy : Ends next top y) : Ends next top x

variable {next next' : α → Option α} {top x : α}

/-- Pointers may be cleared, and others turned to nodes whose chains end. -/
theorem Ends.rewire (h : Ends next top x)
    (hnext : ∀ y, next' y = next y ∨ next' y = none ∨ ∃ q, next' y = some q ∧ Ends next' top q) :
    Ends next' top x := by
  induction h with
  | top => exact .top
  | stop h =>
    rcases hnext _ with hsame | hnone | ⟨q, hq, hends⟩
    · exact .stop (hsame.trans h)
    · exact .stop hnone
    · exact .step hq hends
  | step h _ ih =>
    rcases hnext _ with hsame | hnone | ⟨q, hq, hends⟩
    · exact .step (hsame.trans h) ih
    · exact .stop hnone
    · exact .step hq hends

theorem link_top (htop : next top = some top) (h : Relation.ReflTransGen (Link next) top x) :
    x = top := by
  induction h with
  | refl => rfl
  | tail _ hlink ih =>
    subst ih
    exact Option.some.inj (hlink.symm.trans htop)

/-- Only the top is on a cycle. -/
theorem Ends.eq_top_of_cycle (h : Ends next top x) (htop : next top = some top)
    (hcycle : Relation.TransGen (Link next) x x) : x = top := by
  induction h with
  | top => rfl
  | stop h =>
    obtain ⟨y, hlink, _⟩ := Relation.TransGen.head'_iff.mp hcycle
    rw [Link, h] at hlink
    cases hlink
  | @step x y h _ ih =>
    obtain ⟨y', hlink, hback⟩ := Relation.TransGen.head'_iff.mp hcycle
    obtain rfl : y = y' := Option.some.inj (h.symm.trans hlink)
    -- The node after `x` is on the cycle as well, and the top leads nowhere else.
    have hy : y = top := ih (Relation.TransGen.tail' hback hlink)
    subst hy
    exact link_top htop hback

/-! ## Reaching a node -/

/-- The chain from `x` comes to `y`. -/
def Reaches (next : α → Option α) (x y : α) : Prop := Relation.ReflTransGen (Link next) x y

theorem Reaches.refl (x : α) : Reaches next x x := Relation.ReflTransGen.refl

variable {y : α}

/-- The chain from a node other than `y` goes on. -/
theorem reaches_iff : Reaches next x y ↔ x = y ∨ ∃ z, next x = some z ∧ Reaches next z y := by
  refine Relation.ReflTransGen.cases_head_iff.trans (or_congr Iff.rfl ?_)
  exact Iff.rfl

theorem Reaches.eq_of_none (h : Reaches next x y) (hx : next x = none) : x = y := by
  rcases reaches_iff.mp h with heq | ⟨z, hz, _⟩
  · exact heq
  · rw [hx] at hz
    cases hz

theorem reaches_none (hy : ∀ z, next z ≠ some y) (h : Reaches next x y) : x = y := by
  rcases Relation.ReflTransGen.cases_tail h with heq | ⟨z, _, hz⟩
  · exact heq.symm
  · exact absurd hz (hy z)

/-! ## Changing pointers -/

/-- Some pointers have been cleared. -/
def Clears (next next' : α → Option α) : Prop := ∀ y, next' y = next y ∨ next' y = none

theorem Clears.reaches (h : Clears next next') (hy : Reaches next' x y) : Reaches next x y := by
  induction hy using Relation.ReflTransGen.head_induction_on with
  | refl => exact .refl y
  | head hlink _ ih =>
    rcases h _ with hsame | hnone
    · exact .head (hsame.symm.trans hlink) ih
    · rw [Link, hnone] at hlink
      cases hlink

theorem Clears.ends (h : Clears next next') (hx : Ends next top x) : Ends next' top x :=
  hx.rewire fun y => (h y).imp id .inl

/-- One pointer has been turned, from `c` to `q`, whose chain does not come to `c`; others
may have been cleared. -/
structure Attaches (next next' : α → Option α) (c q : α) : Prop where
  cases : ∀ y, next' y = next y ∨ next' y = none ∨ y = c ∧ next' y = some q
  apart : ¬ Reaches next q c

section Attaches

variable {c q : α}

theorem Attaches.ends (h : Attaches next next' c q) (hends : ∀ x, Ends next top x) (x : α) :
    Ends next' top x := by
  have havoid : ∀ y, Ends next top y → ¬ Reaches next y c → Ends next' top y := by
    intro y hy
    induction hy with
    | top => exact fun _ => .top
    | @stop z hz =>
      intro hno
      rcases h.cases z with hsame | hnone | ⟨rfl, _⟩
      · exact .stop (hsame.trans hz)
      · exact .stop hnone
      · exact absurd (.refl z) hno
    | @step z _ hz _ ih =>
      intro hno
      rcases h.cases z with hsame | hnone | ⟨rfl, _⟩
      · exact .step (hsame.trans hz) (ih fun hreach => hno (.head hz hreach))
      · exact .stop hnone
      · exact absurd (.refl z) hno
  refine (hends x).rewire fun y => ?_
  rcases h.cases y with hsame | hnone | ⟨rfl, hq⟩
  · exact .inl hsame
  · exact .inr (.inl hnone)
  · exact .inr (.inr ⟨q, hq, havoid q (hends q) h.apart⟩)

/-- A chain that is new comes through the pointer that was turned. -/
theorem Attaches.reaches (h : Attaches next next' c q) (hy : Reaches next' x y) :
    Reaches next x y ∨ Reaches next x c ∧ Reaches next q y := by
  induction hy using Relation.ReflTransGen.head_induction_on with
  | refl => exact .inl (.refl y)
  | @head x z hlink _ ih =>
    rcases h.cases x with hsame | hnone | ⟨rfl, hq⟩
    · have hold : next x = some z := hsame.symm.trans hlink
      exact ih.imp (fun hz => .head hold hz) (fun hz => ⟨.head hold hz.1, hz.2⟩)
    · rw [Link, hnone] at hlink
      cases hlink
    · obtain rfl : q = z := Option.some.inj (hq.symm.trans hlink)
      rcases ih with hz | ⟨hz, _⟩
      · exact .inr ⟨.refl x, hz⟩
      · exact absurd hz h.apart

end Attaches

/-! ## The length of a chain -/

/-- The chain from a node comes to an end within `k` pointers. -/
inductive EndsIn (next : α → Option α) (top : α) : Nat → α → Prop
  | top (k : Nat) : EndsIn next top k top
  | stop (k : Nat) {x : α} (h : next x = none) : EndsIn next top k x
  | step {k : Nat} {x y : α} (h : next x = some y) (hy : EndsIn next top k y) : EndsIn next top (k + 1) x

theorem EndsIn.mono {k k' : Nat} (h : EndsIn next top k x) (hk : k ≤ k') : EndsIn next top k' x := by
  induction h generalizing k' with
  | top => exact .top k'
  | stop _ h => exact .stop k' h
  | step h _ ih =>
    cases k' with
    | zero => exact absurd hk (Nat.not_succ_le_zero _)
    | succ k' => exact .step h (ih (Nat.le_of_succ_le_succ hk))

/-- A chain that ends comes to no node twice. -/
theorem Ends.exists_list (h : Ends next top x) (htop : next top = some top) :
    ∃ l : List α, l.Nodup ∧ (∀ y ∈ l, Reaches next x y ∧ next y ≠ none) ∧ EndsIn next top l.length x := by
  induction h with
  | top => exact ⟨[], List.nodup_nil, fun y hy => absurd hy List.not_mem_nil, .top 0⟩
  | stop h => exact ⟨[], List.nodup_nil, fun y hy => absurd hy List.not_mem_nil, .stop 0 h⟩
  | @step x y h hy ih =>
    by_cases hx : x = top
    · subst hx
      exact ⟨[], List.nodup_nil, fun y hy => absurd hy List.not_mem_nil, .top 0⟩
    · obtain ⟨l, hnodup, hl, hends⟩ := ih
      refine ⟨x :: l, List.nodup_cons.mpr ⟨fun hmem => hx ?_, hnodup⟩, ?_, .step h hends⟩
      · exact Ends.eq_top_of_cycle (.step h hy) htop (.head' h (hl x hmem).1)
      · intro z hz
        rcases List.mem_cons.mp hz with rfl | hz
        · exact ⟨.refl z, by rw [h]; simp⟩
        · exact ⟨.head h (hl z hz).1, (hl z hz).2⟩

/-- Among `n` nodes a chain that ends does so within `n` pointers. -/
theorem Ends.endsIn {next : Nat → Option Nat} {top x n : Nat} (h : Ends next top x)
    (htop : next top = some top) (hn : ∀ y, n ≤ y → next y = none) : EndsIn next top n x := by
  obtain ⟨l, hnodup, hl, hends⟩ := h.exists_list htop
  refine hends.mono ?_
  have hsub : l.toFinset ⊆ Finset.range n := by
    intro y hy
    refine Finset.mem_range.mpr (Nat.lt_of_not_le fun hle => ?_)
    exact (hl y (List.mem_toFinset.mp hy)).2 (hn y hle)
  have hcard := Finset.card_le_card hsub
  rwa [List.toFinset_card_of_nodup hnodup, Finset.card_range] at hcard

end Chain
