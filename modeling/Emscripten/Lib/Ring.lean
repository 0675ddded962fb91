-- SUMMARY: Circular doubly linked lists in two pointer functions: insertion, removal and rotation.
import Mathlib.Data.List.Chain
import Mathlib.Data.List.Nodup

/-!
# Rings

A ring is a circular doubly linked list. Its cells are pointed to by two partial functions;
a list of cells, in order from any one of them, says which ring it is.
-/

variable {α : Type} {next prev next' prev' : α → Option α} {a b c h x z : α} {l m init : List α}

/-- `b` comes after `a`. -/
def Linked (next prev : α → Option α) (a b : α) : Prop := next a = some b ∧ prev b = some a

/-- The cells of `l` are linked in order, and the last one to the first. -/
structure LinkedRing (next prev : α → Option α) (l : List α) : Prop where
  nodup : l.Nodup
  links : (l ++ l.take 1).IsChain (Linked next prev)

namespace LinkedRing

theorem nil : LinkedRing next prev [] := ⟨.nil, .nil⟩

/-! ## Links -/

/-- Links stay where the successors of all cells but the last and the predecessors of all
cells but the first do. -/
theorem chain_congr (h : l.IsChain (Linked next prev)) (hnext : ∀ a ∈ l.dropLast, next' a = next a)
    (hprev : ∀ b ∈ l.tail, prev' b = prev b) : l.IsChain (Linked next' prev') := by
  rw [List.isChain_iff_forall_rel_of_append_cons_cons] at h ⊢
  intro a b l₁ l₂ hl
  obtain ⟨hn, hp⟩ := h hl
  have ha : a ∈ l.dropLast := by
    rw [hl, List.dropLast_append_of_ne_nil (List.cons_ne_nil _ _), List.dropLast_cons_cons]
    exact List.mem_append_right _ List.mem_cons_self
  have hb : b ∈ l.tail := by
    rw [hl]
    cases l₁ with
    | nil => exact List.mem_cons_self
    | cons c l₁ => exact List.mem_append_right _ (List.mem_cons_of_mem _ List.mem_cons_self)
  exact ⟨(hnext a ha).trans hn, (hprev b hb).trans hp⟩

/-- The links of a ring from `h` to `z`: the list, and the one from the last to the first. -/
theorem links_iff (hz : h :: m = init ++ [z]) :
    (h :: m ++ [h]).IsChain (Linked next prev) ↔
      (h :: m).IsChain (Linked next prev) ∧ Linked next prev z h := by
  rw [hz, List.append_assoc]
  refine List.isChain_append_cons_cons.trans (and_congr_right fun _ => ?_)
  exact and_iff_left (.singleton h)

theorem singleton (hn : next a = some a) (hp : prev a = some a) : LinkedRing next prev [a] :=
  ⟨List.nodup_singleton a, .cons_cons ⟨hn, hp⟩ (.singleton a)⟩

theorem of_singleton (hr : LinkedRing next prev [a]) : next a = some a ∧ prev a = some a :=
  (List.isChain_cons_cons.mp hr.links).1

/-! ## Rotation -/

theorem rotate_cons (hr : LinkedRing next prev (a :: l)) : LinkedRing next prev (l ++ [a]) := by
  refine ⟨(List.perm_append_singleton a l).nodup_iff.mpr hr.nodup, ?_⟩
  cases l with
  | nil => exact hr.links
  | cons b l =>
    have hlinks : (a :: b :: (l ++ [a])).IsChain (Linked next prev) := hr.links
    obtain ⟨hab, hrest⟩ := List.isChain_cons_cons.mp hlinks
    have hgoal : (b :: l ++ a :: b :: []).IsChain (Linked next prev) :=
      List.isChain_append_cons_cons.mpr ⟨hrest, hab, .singleton b⟩
    simpa using hgoal

/-- A ring may be listed from any of its cells. -/
theorem rotate (hr : LinkedRing next prev (l ++ m)) : LinkedRing next prev (m ++ l) := by
  induction l generalizing m with
  | nil => simpa using hr
  | cons a l ih =>
    have hr' : LinkedRing next prev (l ++ (m ++ [a])) := by simpa using hr.rotate_cons
    simpa using ih hr'

/-- The neighbours of the first cell. -/
theorem of_cons_cons (hr : LinkedRing next prev (c :: b :: m)) (hz : b :: m = init ++ [z]) :
    next c = some b ∧ prev c = some z ∧ (b :: m).IsChain (Linked next prev) := by
  have hz' : c :: b :: m = c :: init ++ [z] := by rw [hz, List.cons_append]
  obtain ⟨hchain, hclose⟩ := (links_iff hz').mp hr.links
  obtain ⟨hcb, hrest⟩ := List.isChain_cons_cons.mp hchain
  exact ⟨hcb.1, hclose.2, hrest⟩

/-! ## Insertion -/

/-- A cell is put between the last one and the first. -/
theorem insert (hr : LinkedRing next prev (h :: m)) (hz : h :: m = init ++ [z]) (hx : x ∉ h :: m)
    (hnext : ∀ a ∈ init, next' a = next a) (hprev : ∀ a ∈ m, prev' a = prev a)
    (hzx : Linked next' prev' z x) (hxh : Linked next' prev' x h) :
    LinkedRing next' prev' (h :: m ++ [x]) := by
  have hold := ((links_iff hz).mp hr.links).1
  have hnew : (h :: m).IsChain (Linked next' prev') := by
    refine chain_congr hold (fun a ha => hnext a ?_) fun b hb => hprev b hb
    rwa [hz, List.dropLast_concat] at ha
  refine ⟨(List.perm_append_singleton x (h :: m)).nodup_iff.mpr (List.nodup_cons.mpr ⟨hx, hr.nodup⟩),
    ?_⟩
  have hlinks : (init ++ z :: x :: [h]).IsChain (Linked next' prev') := by
    refine List.isChain_append_cons_cons.mpr ⟨hz ▸ hnew, hzx, ?_⟩
    exact .cons_cons hxh (.singleton h)
  have hlist : h :: m ++ [x] ++ (h :: m ++ [x]).take 1 = init ++ z :: x :: [h] := by
    have hflat : h :: m ++ [x] ++ (h :: m ++ [x]).take 1 = h :: m ++ [x, h] := by simp
    rw [hflat, hz, List.append_assoc]
    rfl
  rw [hlist]
  exact hlinks

/-! ## Removal -/

/-- The first cell is taken out: its neighbours are linked. -/
theorem remove_first (hr : LinkedRing next prev (c :: b :: m)) (hz : b :: m = init ++ [z])
    (hnext : ∀ a ∈ init, next' a = next a) (hprev : ∀ a ∈ m, prev' a = prev a)
    (hzb : Linked next' prev' z b) : LinkedRing next' prev' (b :: m) := by
  obtain ⟨-, -, hchain⟩ := hr.of_cons_cons hz
  refine ⟨(List.nodup_cons.mp hr.nodup).2, ?_⟩
  refine (links_iff hz).mpr ⟨chain_congr hchain (fun a ha => hnext a ?_) fun a ha => hprev a ha, hzb⟩
  rwa [hz, List.dropLast_concat] at ha

/-- The cells around a cell that is not alone. -/
theorem neighbours [DecidableEq α] (hr : LinkedRing next prev l) (hc : c ∈ l) (hne : next c ≠ some c) :
    ∃ b z, next c = some b ∧ prev c = some z ∧ b ∈ l ∧ z ∈ l ∧ b ≠ c ∧ z ≠ c ∧
      ∀ next' prev' : α → Option α, (∀ a, a ≠ z → a ≠ c → next' a = next a) →
        (∀ a, a ≠ b → a ≠ c → prev' a = prev a) → Linked next' prev' z b →
        LinkedRing next' prev' (l.erase c) := by
  obtain ⟨l₁, l₂, rfl⟩ := List.append_of_mem hc
  have hcl : c ∉ l₁ := fun h => (List.nodup_append.mp hr.nodup).2.2 c h c List.mem_cons_self rfl
  have herase : (l₁ ++ c :: l₂).erase c = l₁ ++ l₂ := by
    rw [List.erase_append_right _ hcl, List.erase_cons_head]
  -- listed from the cell itself
  have hrot : LinkedRing next prev (c :: (l₂ ++ l₁)) := hr.rotate
  have hmem : ∀ a ∈ l₂ ++ l₁, a ∈ l₁ ++ c :: l₂ ∧ a ≠ c := by
    intro a ha
    refine ⟨?_, fun heq => (List.nodup_cons.mp hrot.nodup).1 (heq ▸ ha)⟩
    rcases List.mem_append.mp ha with h | h
    · exact List.mem_append_right _ (List.mem_cons_of_mem _ h)
    · exact List.mem_append_left _ h
  cases hrest : l₂ ++ l₁ with
  | nil =>
    rw [hrest] at hrot
    exact absurd hrot.of_singleton.1 hne
  | cons b m =>
    rw [hrest] at hrot hmem
    obtain ⟨init, z, hz⟩ := List.eq_nil_or_concat' (b :: m) |>.resolve_left (List.cons_ne_nil b m)
    obtain ⟨hcb, hcz, -⟩ := hrot.of_cons_cons hz
    have hb := hmem b List.mem_cons_self
    have hzm := hmem z (by rw [hz]; exact List.mem_append_right _ (List.mem_singleton_self z))
    refine ⟨b, z, hcb, hcz, hb.1, hzm.1, hb.2, hzm.2, fun next' prev' hnext hprev hzb => ?_⟩
    have hnodup := (List.nodup_cons.mp hrot.nodup).2
    have hnew : LinkedRing next' prev' (b :: m) := by
      refine hrot.remove_first hz (fun a ha => hnext a ?_ ?_) (fun a ha => hprev a ?_ ?_) hzb
      · rintro rfl
        rw [hz] at hnodup
        exact (List.nodup_append.mp hnodup).2.2 a ha a (List.mem_singleton_self a) rfl
      · exact (hmem a (by rw [hz]; exact List.mem_append_left _ ha)).2
      · rintro rfl
        exact (List.nodup_cons.mp hnodup).1 ha
      · exact (hmem a (List.mem_cons_of_mem _ ha)).2
    rw [herase]
    rw [← hrest] at hnew
    exact hnew.rotate

/-- A cell that follows itself is alone. -/
theorem eq_singleton (hr : LinkedRing next prev l) (hc : c ∈ l) (hself : next c = some c) : l = [c] := by
  obtain ⟨l₁, l₂, rfl⟩ := List.append_of_mem hc
  have hrot : LinkedRing next prev (c :: (l₂ ++ l₁)) := hr.rotate
  cases hrest : l₂ ++ l₁ with
  | nil =>
    obtain ⟨rfl, rfl⟩ := List.append_eq_nil_iff.mp hrest
    rfl
  | cons b m =>
    rw [hrest] at hrot
    obtain ⟨init, z, hz⟩ := List.eq_nil_or_concat' (b :: m) |>.resolve_left (List.cons_ne_nil b m)
    have hcb := (hrot.of_cons_cons hz).1
    have hbc : b = c := Option.some.inj (hcb.symm.trans hself)
    exact absurd (hbc ▸ List.mem_cons_self) (List.nodup_cons.mp hrot.nodup).1

end LinkedRing
