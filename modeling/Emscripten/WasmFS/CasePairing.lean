-- SUMMARY: The map of a case-insensitive directory, the entries of the directory it wraps and its mounts, kept in step.
import Emscripten.WasmFS.IgnoreCase

/-!
# Wrappers and wrapped directories

`Layers` keeps of a state what the operations on case-insensitive directories read and
write: the tree of all files, which file each wrapper wraps, and the maps of the
wrappers. `Layers.Paired` is what the operations keep as long as no mount is moved.
-/

namespace WasmFS

open Assoc

structure Layers where
  tree : Tree
  real : FileId → Option FileId
  child : FileId → Name → Option ChildInfo

namespace Layers

/-! ## Updates -/

def onTree (L : Layers) (g : Tree → Tree) : Layers := { L with tree := g L.tree }

def setChild (L : Layers) (d : FileId) (n : Name) (i : Option ChildInfo) : Layers :=
  { L with child := Function.update L.child d (Function.update (L.child d) n i) }

def setReal (L : Layers) (f r : FileId) : Layers :=
  { L with real := Function.update L.real f (some r) }

section Reading

variable (L : Layers)

theorem setChild_child (d d' : FileId) (n n' : Name) (i : Option ChildInfo) :
    (L.setChild d n i).child d' n' = if d' = d ∧ n' = n then i else L.child d' n' := by
  simp only [setChild, Function.update_apply]
  by_cases hd : d' = d
  · subst hd
    by_cases hn : n' = n
    · simp [hn]
    · simp [hn]
  · simp [hd]

theorem setReal_real (f g r : FileId) :
    (L.setReal f r).real g = if g = f then some r else L.real g := by
  simp [setReal, Function.update_apply]

end Reading

/-! ## The invariant -/

/-- `sp` is the name each file was last given. -/
structure Paired (L : Layers) (sp : FileId → Name) : Prop where
  real_plain : ∀ f r, L.real f = some r → L.real r = none
  real_inj : ∀ f g r, L.real f = some r → L.real g = some r → f = g
  names_nodup : ∀ D, ((L.tree.entries D).map Prod.fst).Nodup
  files_nodup : ∀ D, ((L.tree.entries D).map Prod.snd).Nodup
  entries_real : ∀ D n r, (n, r) ∈ L.tree.entries D → ∃ d, L.real d = some D
  entries_iff : ∀ d D n r, L.real d = some D →
    ((n, r) ∈ L.tree.entries D ↔ ∃ i, L.child d n = some i ∧ L.real i.child = some r)
  child_wrapped : ∀ d n i, L.child d n = some i → ∃ D r, L.real d = some D ∧
    L.real i.child = some r ∧ L.tree.parent r = some D
  child_parent : ∀ d n i, L.child d n = some i → L.tree.parent i.child = some d
  child_name : ∀ d n i, L.child d n = some i →
    normalize i.originalName = n ∧ sp i.child = i.originalName
  mount_kind : ∀ d n e, L.tree.mount d n = some e → e.kind = .mount
  mount_parent : ∀ d n e, L.tree.mount d n = some e → L.tree.parent e.file = some d
  mount_unique : ∀ d n n' e e', L.tree.mount d n = some e → L.tree.mount d n' = some e' →
    e.file = e'.file → n = n'
  mount_unwrapped : ∀ d n e, L.tree.mount d n = some e → ∀ f, L.real f ≠ some e.file
  mount_not_child : ∀ d n e, L.tree.mount d n = some e → ∀ d' n' i, L.child d' n' = some i →
    i.child ≠ e.file
  mount_name : ∀ d n e, L.tree.mount d n = some e → sp e.file = n
  real_mount : ∀ d D n, L.real d = some D → L.tree.mount D n = none

/-- All addresses are below `next`, and nothing is known of the others. -/
structure Within (L : Layers) (next : FileId) : Prop where
  real_lt : ∀ f r, L.real f = some r → f < next ∧ r < next
  mount_lt : ∀ d n e, L.tree.mount d n = some e → e.file < next
  blank_parent : ∀ f, next ≤ f → L.tree.parent f = none
  blank_entries : ∀ f, next ≤ f → L.tree.entries f = []
  blank_mount : ∀ f n, next ≤ f → L.tree.mount f n = none

/-- The file is in the map of no wrapper. -/
def NoChild (L : Layers) (f : FileId) : Prop := ∀ d n i, L.child d n = some i → i.child ≠ f

variable {L : Layers} {sp : FileId → Name} {next : FileId} {d D f g r : FileId} {n : Name}

namespace Paired

/-! ### Reading paired layers -/

theorem lookup_entries (h : L.Paired sp) (hd : L.real d = some D) :
    (L.tree.entries D).lookup n = (L.child d n).bind fun i => L.real i.child := by
  cases hi : L.child d n with
  | none =>
    rw [Option.bind_none, lookup_eq_none]
    intro r hmem
    obtain ⟨i, hi', _⟩ := (h.entries_iff d D n r hd).mp hmem
    rw [hi] at hi'
    cases hi'
  | some i =>
    obtain ⟨_, r, _, hr, _⟩ := h.child_wrapped d n i hi
    rw [Option.bind_some, hr]
    exact lookup_of_mem (h.names_nodup D) ((h.entries_iff d D n r hd).mpr ⟨i, hi, hr⟩)

/-- A file has one place in the maps. -/
theorem child_unique (h : L.Paired sp) {d' : FileId} {n' : Name} {i i' : ChildInfo}
    (h₁ : L.child d n = some i) (h₂ : L.child d' n' = some i') (heq : i.child = i'.child) :
    d = d' ∧ n = n' := by
  have hparent := h.child_parent d n i h₁
  rw [heq, h.child_parent d' n' i' h₂] at hparent
  cases hparent
  refine ⟨rfl, ?_⟩
  rw [← (h.child_name _ n i h₁).1, ← (h.child_name _ n' i' h₂).1, ← (h.child_name _ n i h₁).2,
    ← (h.child_name _ n' i' h₂).2, heq]

theorem noChild_of_real (h : L.Paired sp) (hr : L.real f = some r) : L.NoChild r := by
  rintro d n i hi rfl
  obtain ⟨_, _, _, hwrapped, _⟩ := h.child_wrapped d n i hi
  rw [h.real_plain f _ hr] at hwrapped
  cases hwrapped

theorem noEntry_of_noChild (h : L.Paired sp) (hf : L.NoChild f) (hr : L.real f = some r) (D : FileId)
    (n : Name) : (n, r) ∉ L.tree.entries D := by
  intro hmem
  obtain ⟨d, hd⟩ := h.entries_real D n r hmem
  obtain ⟨i, hi, hreal⟩ := (h.entries_iff d D n r hd).mp hmem
  exact hf d n i hi (h.real_inj _ _ _ hreal hr)

/-- A wrapper is in the entries of no directory. -/
theorem noEntry_of_wrapper (h : L.Paired sp) (hr : L.real f = some r) (D : FileId) (n : Name) :
    (n, f) ∉ L.tree.entries D := by
  intro hmem
  obtain ⟨d, hd⟩ := h.entries_real D n f hmem
  obtain ⟨i, _, hi⟩ := (h.entries_iff d D n f hd).mp hmem
  rw [h.real_plain _ _ hi] at hr
  cases hr

theorem ne_of_real (h : L.Paired sp) (hr : L.real f = some r) : f ≠ r := by
  rintro rfl
  rw [h.real_plain _ _ hr] at hr
  cases hr

/-! ### Updates that keep layers paired -/

/-- The parent pointer of a file that no directory holds. -/
theorem setParent (h : L.Paired sp) {p : Option FileId} (hchild : L.NoChild f)
    (hentry : ∀ D n, (n, f) ∉ L.tree.entries D) (hmount : ∀ d n e, L.tree.mount d n = some e → e.file ≠ f) :
    (L.onTree fun t => t.setParent f p).Paired sp := by
  have hother : ∀ g, g ≠ f → (L.tree.setParent f p).parent g = L.tree.parent g := by
    intro g hg
    rw [Tree.setParent_parent, if_neg hg]
  refine { h with child_wrapped := ?_, child_parent := ?_, mount_parent := ?_ }
  · intro d n i hi
    obtain ⟨D, r, hd, hr, hparent⟩ := h.child_wrapped d n i hi
    refine ⟨D, r, hd, hr, (hother r ?_).trans hparent⟩
    rintro rfl
    exact hentry D n ((h.entries_iff d D n r hd).mpr ⟨i, hi, hr⟩)
  · intro d n i hi
    exact (hother i.child (hchild d n i hi)).trans (h.child_parent d n i hi)
  · intro d n e he
    exact (hother e.file (hmount d n e he)).trans (h.mount_parent d n e he)

/-- A name leaves a map and the entries of the wrapped directory. -/
theorem remove (h : L.Paired sp) {es : List (Name × FileId)} (hd : L.real d = some D)
    (hes : es.Sublist (L.tree.entries D))
    (hmem : ∀ m g, (m, g) ∈ es ↔ (m, g) ∈ L.tree.entries D ∧ m ≠ n) :
    ((L.onTree fun t => t.setEntries D es).setChild d n none).Paired sp := by
  have hchild : ∀ {d' n' i}, ((L.onTree fun t => t.setEntries D es).setChild d n none).child d' n' = some i →
      L.child d' n' = some i := by
    intro d' n' i hi
    rw [setChild_child] at hi
    split at hi
    · cases hi
    · exact hi
  refine {
    real_plain := h.real_plain, real_inj := h.real_inj, names_nodup := ?_, files_nodup := ?_
    entries_real := ?_, entries_iff := ?_
    child_wrapped := fun d' n' i hi => h.child_wrapped d' n' i (hchild hi)
    child_parent := fun d' n' i hi => h.child_parent d' n' i (hchild hi)
    child_name := fun d' n' i hi => h.child_name d' n' i (hchild hi)
    mount_kind := h.mount_kind, mount_parent := h.mount_parent, mount_unique := h.mount_unique
    mount_unwrapped := h.mount_unwrapped
    mount_not_child := fun d' n' e he d₁ n₁ i hi => h.mount_not_child d' n' e he d₁ n₁ i (hchild hi)
    mount_name := h.mount_name, real_mount := h.real_mount }
  · intro D'
    change ((L.tree.setEntries D es).entries D').map Prod.fst |>.Nodup
    rw [Tree.setEntries_entries]
    split
    · exact (h.names_nodup D).sublist (hes.map _)
    · exact h.names_nodup D'
  · intro D'
    change ((L.tree.setEntries D es).entries D').map Prod.snd |>.Nodup
    rw [Tree.setEntries_entries]
    split
    · exact (h.files_nodup D).sublist (hes.map _)
    · exact h.files_nodup D'
  · intro D' m g hg
    change (m, g) ∈ (L.tree.setEntries D es).entries D' at hg
    rw [Tree.setEntries_entries] at hg
    split at hg
    · exact ⟨d, by rw [‹D' = D›]; exact hd⟩
    · exact h.entries_real D' m g hg
  · intro d' D' m g hd'
    change (m, g) ∈ (L.tree.setEntries D es).entries D' ↔ _
    rw [Tree.setEntries_entries]
    by_cases hD : D' = D
    · subst hD
      obtain rfl : d' = d := h.real_inj d' d D' hd' hd
      rw [if_pos rfl, hmem, h.entries_iff d' D' m g hd']
      simp only [setChild_child, true_and]
      by_cases hm : m = n
      · simp [hm]
      · rw [if_neg hm]
        exact and_iff_left hm
    · have hne : d' ≠ d := by
        rintro rfl
        rw [show L.real d' = some D' from hd'] at hd
        exact hD (Option.some.inj hd)
      rw [if_neg hD, h.entries_iff d' D' m g hd']
      simp only [setChild_child, hne, false_and, if_false]
      rfl

/-- A wrapper that is in no map enters one, and the file it wraps the wrapped directory. -/
theorem add (h : L.Paired sp) (name : Name) (hd : L.real d = some D) (hr : L.real f = some r)
    (hfree : L.child d (normalize name) = none) (hno : L.NoChild f)
    (hmount : ∀ d n e, L.tree.mount d n = some e → e.file ≠ f)
    (hf : L.tree.parent f = some d) (hr' : L.tree.parent r = some D) :
    ((L.onTree fun t => t.setEntries D (t.entries D ++ [(normalize name, r)])).setChild d
      (normalize name) (some ⟨name, f⟩)).Paired (Function.update sp f name) := by
  have hnew := h.noEntry_of_noChild hno hr
  have hunused : (normalize name) ∉ (L.tree.entries D).map Prod.fst := by
    intro hmem
    obtain ⟨⟨m, g⟩, hg, hm⟩ := List.mem_map.mp hmem
    obtain ⟨i, hi, _⟩ := (h.entries_iff d D m g hd).mp hg
    rw [show m = normalize name from hm, hfree] at hi
    cases hi
  have hchild : ∀ {d' n' i}, ((L.onTree fun t => t.setEntries D
      (t.entries D ++ [(normalize name, r)])).setChild d (normalize name) (some ⟨name, f⟩)).child d' n'
        = some i → (d' = d ∧ n' = normalize name ∧ i = ⟨name, f⟩) ∨ L.child d' n' = some i := by
    intro d' n' i hi
    rw [setChild_child] at hi
    split at hi
    · next heq => exact .inl ⟨heq.1, heq.2, (Option.some.inj hi).symm⟩
    · exact .inr hi
  have hspell : ∀ g, g ≠ f → Function.update sp f name g = sp g := by
    intro g hg
    exact Function.update_of_ne hg _ _
  refine {
    real_plain := h.real_plain, real_inj := h.real_inj, names_nodup := ?_, files_nodup := ?_
    entries_real := ?_, entries_iff := ?_, child_wrapped := ?_, child_parent := ?_, child_name := ?_
    mount_kind := h.mount_kind, mount_parent := h.mount_parent, mount_unique := h.mount_unique
    mount_unwrapped := h.mount_unwrapped, mount_not_child := ?_, mount_name := ?_
    real_mount := h.real_mount }
  · intro D'
    change ((L.tree.setEntries D _).entries D').map Prod.fst |>.Nodup
    rw [Tree.setEntries_entries]
    split
    · rw [List.map_append, List.nodup_append]
      refine ⟨h.names_nodup D, List.nodup_singleton _, ?_⟩
      rintro m hm _ hsingle rfl
      rw [List.mem_singleton.mp hsingle] at hm
      exact hunused hm
    · exact h.names_nodup D'
  · intro D'
    change ((L.tree.setEntries D _).entries D').map Prod.snd |>.Nodup
    rw [Tree.setEntries_entries]
    split
    · rw [List.map_append, List.nodup_append]
      refine ⟨h.files_nodup D, List.nodup_singleton _, ?_⟩
      rintro g hg _ hsingle rfl
      rw [List.mem_singleton.mp hsingle] at hg
      obtain ⟨⟨m, g'⟩, hmem, rfl⟩ := List.mem_map.mp hg
      exact hnew D m hmem
    · exact h.files_nodup D'
  · intro D' m g hg
    change (m, g) ∈ (L.tree.setEntries D _).entries D' at hg
    rw [Tree.setEntries_entries] at hg
    split at hg
    · exact ⟨d, by rw [‹D' = D›]; exact hd⟩
    · exact h.entries_real D' m g hg
  · intro d' D' m g hd'
    change (m, g) ∈ (L.tree.setEntries D _).entries D' ↔ _
    rw [Tree.setEntries_entries]
    by_cases hD : D' = D
    · subst hD
      obtain rfl : d' = d := h.real_inj d' d D' hd' hd
      rw [if_pos rfl, List.mem_append, h.entries_iff d' D' m g hd', List.mem_singleton, Prod.mk.injEq]
      simp only [setChild_child, true_and]
      by_cases hm : m = normalize name
      · rw [if_pos hm, hm, hfree]
        refine ⟨?_, ?_⟩
        · rintro (⟨i, hi, _⟩ | ⟨_, rfl⟩)
          · cases hi
          · exact ⟨_, rfl, hr⟩
        · rintro ⟨i, hi, hg⟩
          cases hi
          exact .inr ⟨rfl, Option.some.inj (hg.symm.trans hr)⟩
      · rw [if_neg hm]
        exact or_iff_left fun hnew => hm hnew.1
    · have hne : d' ≠ d := by
        rintro rfl
        rw [show L.real d' = some D' from hd'] at hd
        exact hD (Option.some.inj hd)
      rw [if_neg hD, h.entries_iff d' D' m g hd']
      simp only [setChild_child, hne, false_and, if_false]
      rfl
  · intro d' n' i hi
    rcases hchild hi with ⟨rfl, rfl, rfl⟩ | hold
    · exact ⟨D, r, hd, hr, hr'⟩
    · exact h.child_wrapped d' n' i hold
  · intro d' n' i hi
    rcases hchild hi with ⟨rfl, rfl, rfl⟩ | hold
    · exact hf
    · exact h.child_parent d' n' i hold
  · intro d' n' i hi
    rcases hchild hi with ⟨rfl, rfl, rfl⟩ | hold
    · exact ⟨rfl, Function.update_self f name sp⟩
    · rw [hspell i.child (hno d' n' i hold)]
      exact h.child_name d' n' i hold
  · intro d' n' e he d₁ n₁ i hi
    rcases hchild hi with ⟨rfl, rfl, rfl⟩ | hold
    · exact (hmount d' n' e he).symm
    · exact h.mount_not_child d' n' e he d₁ n₁ i hold
  · intro d' n' e he
    rw [hspell e.file (hmount d' n' e he)]
    exact h.mount_name d' n' e he

/-- A file that no directory holds is mounted. -/
theorem mount (h : L.Paired sp) {name : Name} (hfree : L.tree.mount d name = none)
    (hno : L.NoChild f) (hmount : ∀ d n e, L.tree.mount d n = some e → e.file ≠ f)
    (hunwrapped : ∀ g, L.real g ≠ some f) (hf : L.tree.parent f = some d)
    (hplain : ∀ g, L.real g ≠ some d) :
    (L.onTree fun t => t.setMount d name (some ⟨.mount, f⟩)).Paired (Function.update sp f name) := by
  have hspell : ∀ g, g ≠ f → Function.update sp f name g = sp g := by
    intro g hg
    exact Function.update_of_ne hg _ _
  have hcases : ∀ {d' n' e}, (L.tree.setMount d name (some ⟨.mount, f⟩)).mount d' n' = some e →
      (d' = d ∧ n' = name ∧ e = ⟨.mount, f⟩) ∨ L.tree.mount d' n' = some e := by
    intro d' n' e he
    rw [Tree.setMount_mount] at he
    split at he
    · next heq => exact .inl ⟨heq.1, heq.2, (Option.some.inj he).symm⟩
    · exact .inr he
  refine { h with child_name := ?_, mount_kind := ?_, mount_parent := ?_, mount_unique := ?_
                  mount_unwrapped := ?_, mount_not_child := ?_, mount_name := ?_, real_mount := ?_ }
  · intro d' n' i hi
    rw [hspell i.child (hno d' n' i hi)]
    exact h.child_name d' n' i hi
  · intro d' n' e he
    rcases hcases he with ⟨rfl, rfl, rfl⟩ | hold
    · rfl
    · exact h.mount_kind d' n' e hold
  · intro d' n' e he
    rcases hcases he with ⟨rfl, rfl, rfl⟩ | hold
    · exact hf
    · exact h.mount_parent d' n' e hold
  · intro d' n₁ n₂ e₁ e₂ he₁ he₂ heq
    rcases hcases he₁ with ⟨rfl, rfl, rfl⟩ | hold₁
    · rcases hcases he₂ with ⟨_, rfl, _⟩ | hold₂
      · rfl
      · exact absurd heq.symm (hmount _ _ _ hold₂)
    · rcases hcases he₂ with ⟨rfl, rfl, rfl⟩ | hold₂
      · exact absurd heq (hmount _ _ _ hold₁)
      · exact h.mount_unique d' n₁ n₂ e₁ e₂ hold₁ hold₂ heq
  · intro d' n' e he
    rcases hcases he with ⟨rfl, rfl, rfl⟩ | hold
    · exact hunwrapped
    · exact h.mount_unwrapped d' n' e hold
  · intro d' n' e he
    rcases hcases he with ⟨rfl, rfl, rfl⟩ | hold
    · exact hno
    · exact h.mount_not_child d' n' e hold
  · intro d' n' e he
    rcases hcases he with ⟨rfl, rfl, rfl⟩ | hold
    · exact Function.update_self f n' sp
    · rw [hspell e.file (hmount d' n' e hold)]
      exact h.mount_name d' n' e hold
  · intro g D' n' hg
    change (L.tree.setMount d name (some ⟨.mount, f⟩)).mount D' n' = none
    rw [Tree.setMount_mount, if_neg]
    · exact h.real_mount g D' n' hg
    · rintro ⟨rfl, _⟩
      exact hplain g hg

/-- A mount leaves its dcache; its parent pointer stays. -/
theorem unmount (h : L.Paired sp) : (L.onTree fun t => t.setMount d n none).Paired sp := by
  have hcases : ∀ {d' n' e}, (L.tree.setMount d n none).mount d' n' = some e →
      L.tree.mount d' n' = some e := by
    intro d' n' e he
    rw [Tree.setMount_mount] at he
    split at he
    · cases he
    · exact he
  refine { h with mount_kind := fun d' n' e he => h.mount_kind d' n' e (hcases he)
                  mount_parent := fun d' n' e he => h.mount_parent d' n' e (hcases he)
                  mount_unique := fun d' n₁ n₂ e₁ e₂ he₁ he₂ =>
                    h.mount_unique d' n₁ n₂ e₁ e₂ (hcases he₁) (hcases he₂)
                  mount_unwrapped := fun d' n' e he => h.mount_unwrapped d' n' e (hcases he)
                  mount_not_child := fun d' n' e he => h.mount_not_child d' n' e (hcases he)
                  mount_name := fun d' n' e he => h.mount_name d' n' e (hcases he)
                  real_mount := ?_ }
  intro g D' n' hg
  change (L.tree.setMount d n none).mount D' n' = none
  rw [Tree.setMount_mount]
  split
  · rfl
  · exact h.real_mount g D' n' hg

/-- A new wrapper for a file that is not wrapped and wraps nothing. -/
theorem wrap (h : L.Paired sp) (hw : L.Within next) (hnext : L.NoChild next)
    (hr : L.real r = none) (hfree : ∀ g, L.real g ≠ some r)
    (hentries : L.tree.entries r = []) (hchildren : ∀ n, L.child next n = none)
    (hmounts : ∀ n, L.tree.mount r n = none) (hr' : ∀ d n e, L.tree.mount d n = some e → e.file ≠ r)
    (hne : r ≠ next) : (L.setReal next r).Paired sp := by
  have hold : ∀ {g r'}, (L.setReal next r).real g = some r' → (g = next ∧ r' = r) ∨ L.real g = some r' := by
    intro g r' hg
    rw [setReal_real] at hg
    split at hg
    · next heq => exact .inl ⟨heq, (Option.some.inj hg).symm⟩
    · exact .inr hg
  have hkeep : ∀ {g r'}, L.real g = some r' → (L.setReal next r).real g = some r' := by
    intro g r' hg
    rw [setReal_real, if_neg (Nat.ne_of_lt (hw.real_lt g r' hg).1)]
    exact hg
  refine { h with real_plain := ?_, real_inj := ?_, entries_real := ?_, entries_iff := ?_
                  child_wrapped := ?_, mount_unwrapped := ?_, real_mount := ?_ }
  · intro g r' hg
    rw [setReal_real]
    rcases hold hg with ⟨rfl, rfl⟩ | hg
    · rw [if_neg hne, hr]
    · rw [if_neg (Nat.ne_of_lt (hw.real_lt g r' hg).2), h.real_plain g r' hg]
  · intro g g' r' hg hg'
    rcases hold hg with ⟨rfl, rfl⟩ | hL
    · rcases hold hg' with ⟨rfl, _⟩ | hL'
      · rfl
      · exact absurd hL' (hfree g')
    · rcases hold hg' with ⟨rfl, rfl⟩ | hL'
      · exact absurd hL (hfree g)
      · exact h.real_inj g g' r' hL hL'
  · intro D m g hg
    obtain ⟨d, hd⟩ := h.entries_real D m g hg
    exact ⟨d, hkeep hd⟩
  · intro d D m g hd
    rcases hold hd with ⟨rfl, rfl⟩ | hd
    · change (m, g) ∈ L.tree.entries D ↔ ∃ i, L.child d m = some i ∧ _
      rw [hentries, hchildren]
      simp
    · change (m, g) ∈ L.tree.entries D ↔ ∃ i, L.child d m = some i ∧ _
      rw [h.entries_iff d D m g hd]
      refine exists_congr fun i => and_congr_right fun hi => ?_
      rw [setReal_real, if_neg (hnext d m i hi)]
  · intro d m i hi
    obtain ⟨D, r', hd, hr', hp⟩ := h.child_wrapped d m i hi
    exact ⟨D, r', hkeep hd, hkeep hr', hp⟩
  · intro d m e he g hg
    rcases hold hg with ⟨rfl, heq⟩ | hg
    · exact hr' d m e he heq
    · exact h.mount_unwrapped d m e he g hg
  · intro d D m hd
    rcases hold hd with ⟨rfl, rfl⟩ | hd
    · exact hmounts m
    · exact h.real_mount d D m hd

/-- A new name for a file that no directory holds. -/
theorem spell (h : L.Paired sp) {name : Name} (hno : L.NoChild f)
    (hmount : ∀ d n e, L.tree.mount d n = some e → e.file ≠ f) :
    L.Paired (Function.update sp f name) := by
  refine { h with child_name := ?_, mount_name := ?_ }
  · intro d n i hi
    rw [Function.update_of_ne (hno d n i hi)]
    exact h.child_name d n i hi
  · intro d n e he
    rw [Function.update_of_ne (hmount d n e he)]
    exact h.mount_name d n e he

end Paired

/-! ### Addresses -/

namespace Within

theorem mono {next' : FileId} (h : L.Within next) (hle : next ≤ next') : L.Within next' where
  real_lt f r hf := ⟨(h.real_lt f r hf).1.trans_le hle, (h.real_lt f r hf).2.trans_le hle⟩
  mount_lt d n e he := (h.mount_lt d n e he).trans_le hle
  blank_parent f hf := h.blank_parent f (hle.trans hf)
  blank_entries f hf := h.blank_entries f (hle.trans hf)
  blank_mount f n hf := h.blank_mount f n (hle.trans hf)

theorem setParent (h : L.Within next) {p : Option FileId} (hf : f < next) :
    (L.onTree fun t => t.setParent f p).Within next := by
  refine { h with blank_parent := ?_ }
  intro g hg
  change (L.tree.setParent f p).parent g = none
  rw [Tree.setParent_parent, if_neg (Nat.ne_of_gt (hf.trans_le hg)), h.blank_parent g hg]

theorem setEntries (h : L.Within next) (es : List (Name × FileId)) (hD : D < next) :
    (L.onTree fun t => t.setEntries D es).Within next := by
  refine { h with blank_entries := ?_ }
  intro g hg
  change (L.tree.setEntries D es).entries g = []
  rw [Tree.setEntries_entries, if_neg (Nat.ne_of_gt (hD.trans_le hg)), h.blank_entries g hg]

theorem setMount (h : L.Within next) {i : Option DCacheEntry} (hd : d < next)
    (hi : ∀ e, i = some e → e.file < next) : (L.onTree fun t => t.setMount d n i).Within next := by
  refine { h with mount_lt := ?_, blank_mount := ?_ }
  · intro d' n' e he
    change (L.tree.setMount d n i).mount d' n' = some e at he
    rw [Tree.setMount_mount] at he
    split at he
    · exact hi e he
    · exact h.mount_lt d' n' e he
  · intro g n' hg
    change (L.tree.setMount d n i).mount g n' = none
    rw [Tree.setMount_mount, if_neg, h.blank_mount g n' hg]
    rintro ⟨rfl, _⟩
    exact absurd hd (Nat.not_lt.mpr hg)

theorem setReal (h : L.Within next) (hf : f < next) (hr : r < next) : (L.setReal f r).Within next := by
  refine { h with real_lt := ?_ }
  intro g r' hg
  rw [setReal_real] at hg
  split at hg
  · next heq =>
      cases hg
      exact ⟨heq ▸ hf, hr⟩
  · exact h.real_lt g r' hg

theorem setChild (h : L.Within next) (i : Option ChildInfo) : (L.setChild d n i).Within next :=
  { h with }

theorem noChild (h : L.Within next) (hp : L.Paired sp) (hf : next ≤ f) : L.NoChild f := by
  rintro d n i hi rfl
  obtain ⟨_, _, _, hr, _⟩ := hp.child_wrapped d n i hi
  exact absurd (h.real_lt _ _ hr).1 (Nat.not_lt.mpr hf)

theorem noMount (h : L.Within next) (hf : next ≤ f) (d : FileId) (n : Name) (e : DCacheEntry)
    (he : L.tree.mount d n = some e) : e.file ≠ f := by
  rintro rfl
  exact absurd (h.mount_lt d n e he) (Nat.not_lt.mpr hf)

theorem not_real (h : L.Within next) (hf : next ≤ f) (g : FileId) : L.real g ≠ some f := by
  intro hg
  exact absurd (h.real_lt g f hg).2 (Nat.not_lt.mpr hf)

theorem real_none (h : L.Within next) (hf : next ≤ f) : L.real f = none := by
  cases hr : L.real f with
  | none => rfl
  | some r => exact absurd (h.real_lt f r hr).1 (Nat.not_lt.mpr hf)

theorem child_none (h : L.Within next) (hp : L.Paired sp) (hd : next ≤ d) : L.child d n = none := by
  cases hi : L.child d n with
  | none => rfl
  | some i =>
    obtain ⟨_, _, hreal, _⟩ := hp.child_wrapped d n i hi
    rw [h.real_none hd] at hreal
    cases hreal

theorem no_entry (h : L.Within next) (hp : L.Paired sp) (hf : next ≤ f) (D : FileId) (n : Name) :
    (n, f) ∉ L.tree.entries D := by
  intro hmem
  obtain ⟨d, hd⟩ := hp.entries_real D n f hmem
  obtain ⟨i, _, hi⟩ := (hp.entries_iff d D n f hd).mp hmem
  exact h.not_real hf i.child hi

end Within

/-! ### A new file under a new wrapper -/

/-- The layers after an insertion: the backend makes the file `r`, and `c` wraps it. -/
def inserted (L : Layers) (d D : FileId) (name : Name) (r c : FileId) : Layers :=
  (((L.onTree fun t =>
      (t.setEntries D (t.entries D ++ [(normalize name, r)])).setParent r (some D)).setReal c r).setChild
    d (normalize name) (some ⟨name, c⟩)).onTree fun t => t.setParent c (some d)

theorem Paired.inserted (h : L.Paired sp) (hw : L.Within next) {name : Name} (hd : L.real d = some D)
    (hfree : L.child d (normalize name) = none) :
    (L.inserted d D name next (next + 1)).Paired (Function.update sp (next + 1) name) := by
  have hle : next ≤ next + 1 := Nat.le_succ next
  have hparent := h.setParent (p := some D) (hw.noChild h (Nat.le_refl next))
    (hw.no_entry h (Nat.le_refl next)) (hw.noMount (Nat.le_refl next))
  have hwparent := (hw.mono hle).setParent (p := some D) (Nat.lt_succ_self next)
  have hwrap := hparent.wrap hwparent (hwparent.noChild hparent (Nat.le_refl _))
    (hw.real_none (Nat.le_refl next)) (hw.not_real (Nat.le_refl next))
    (hw.blank_entries next (Nat.le_refl next)) (fun n => hwparent.child_none hparent (Nat.le_refl _))
    (fun n => hw.blank_mount next n (Nat.le_refl next)) (hw.noMount (Nat.le_refl next)) (Nat.ne_of_lt (Nat.lt_succ_self next))
  have hnext : next + 1 ≠ d := by
    rintro rfl
    rw [hw.real_none hle] at hd
    cases hd
  have hnoChild := hwparent.noChild hparent (Nat.le_refl (next + 1))
  have hfull := hwrap.setParent (p := some d) hnoChild
    (hwparent.no_entry hparent (Nat.le_refl _)) (hw.noMount hle)
  refine hfull.add name (D := D) (f := next + 1) (r := next) ?_ ?_ hfree hnoChild
    (hw.noMount hle) ?_ ?_
  · change (L.setReal (next + 1) next).real d = some D
    rw [setReal_real, if_neg hnext.symm]
    exact hd
  · change (L.setReal (next + 1) next).real (next + 1) = some next
    rw [setReal_real, if_pos rfl]
  · change ((L.tree.setParent next (some D)).setParent (next + 1) (some d)).parent (next + 1) = some d
    rw [Tree.setParent_parent, if_pos rfl]
  · change ((L.tree.setParent next (some D)).setParent (next + 1) (some d)).parent next = some D
    rw [Tree.setParent_parent, if_neg (Nat.ne_of_lt (Nat.lt_succ_self next)), Tree.setParent_parent,
      if_pos rfl]

theorem Within.inserted (hw : L.Within next) {name : Name} (hd : L.real d = some D) :
    (L.inserted d D name next (next + 1)).Within (next + 2) := by
  have hfirst : next < next + 2 := Nat.lt_add_of_pos_right Nat.two_pos
  have hsecond : next + 1 < next + 2 := Nat.lt_succ_self (next + 1)
  have hw' := hw.mono hfirst.le
  have hentries := hw'.setEntries (L.tree.entries D ++ [(normalize name, next)])
    ((hw.real_lt d D hd).2.trans hfirst)
  have hparent := hentries.setParent (p := some D) hfirst
  have hreal := hparent.setReal hsecond hfirst
  exact (hreal.setChild (d := d) (n := normalize name) (some ⟨name, next + 1⟩)).setParent
    (p := some d) hsecond

/-! ## Lookups -/

/-- What a lookup in a case-insensitive directory finds. -/
def find (L : Layers) (d : FileId) (name : Name) : Option FileId :=
  match L.tree.parent d with
  | none => none
  | some parent =>
    if name = dot then some d
    else if name = dotDot then some parent
    else match L.tree.mount d name with
      | some e => some e.file
      | none => (L.child d (normalize name)).map ChildInfo.child

end Layers

end WasmFS
