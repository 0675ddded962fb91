-- SUMMARY: The invariant of every reachable tree: entries, mounts and parent pointers that fit together.
import Emscripten.WasmFS.TreeView

/-!
# Linked trees

`Linked` is what holds of the tree in every state an instance can reach. It allows a
mount to have lost its parent pointer, a mount to be stored in the entry vector as
well, and an entry to be hidden behind a mount of the same name: removals and renames
of mounts lead to all three.

Each update of a directory operation keeps `Linked` under a condition of its own.
-/

namespace WasmFS

open Assoc

variable {n : Name} {d f d' : FileId} {n' : Name}

namespace Tree

structure Linked (t : Tree) : Prop where
  names_nodup : ∀ d, ((t.entries d).map Prod.fst).Nodup
  files_nodup : ∀ d, ((t.entries d).map Prod.snd).Nodup
  entry_parent : ∀ d n f, (n, f) ∈ t.entries d → t.parent f = some d
  mount_kind : ∀ d n e, t.mount d n = some e → e.kind = .mount
  mount_parent : ∀ d n e, t.mount d n = some e →
    t.parent e.file = some d ∨ t.parent e.file = none
  mount_unique : ∀ d d' n n' e e', t.mount d n = some e → t.mount d' n' = some e' →
    e.file = e'.file → d = d' ∧ n = n'
  entry_mount : ∀ d n n' e, (n, e.file) ∈ t.entries d → t.mount d n' = some e → n = n'
  root_parent : t.parent t.root = some t.root
  only_root : ∀ f, t.parent f = some f → f = t.root
  root_entry : ∀ d n, (n, t.root) ∉ t.entries d
  root_mount : ∀ d n e, t.mount d n = some e → e.file ≠ t.root

/-- The file is in no entry vector. -/
def NoEntry (t : Tree) (f : FileId) : Prop := ∀ d n, (n, f) ∉ t.entries d

/-- The file is in no dcache. -/
def NoMount (t : Tree) (f : FileId) : Prop := ∀ d n e, t.mount d n = some e → e.file ≠ f

/-- All addresses in the tree are below `next`, and nothing is known of the others. -/
structure Within (t : Tree) (next : FileId) : Prop where
  root_lt : t.root < next
  parent_lt : ∀ f p, t.parent f = some p → p < next
  mount_lt : ∀ d n e, t.mount d n = some e → e.file < next
  blank_parent : ∀ f, next ≤ f → t.parent f = none
  blank_entries : ∀ f, next ≤ f → t.entries f = []
  blank_mount : ∀ f n, next ≤ f → t.mount f n = none

variable {t : Tree}

/-! ## Reading a linked tree -/

theorem Linked.lookup_iff (h : t.Linked) : (t.entries d).lookup n = some f ↔ (n, f) ∈ t.entries d :=
  Assoc.lookup_iff (h.names_nodup d)

theorem Linked.noEntry_of_parent (h : t.Linked) (hf : t.parent f = none) : t.NoEntry f := by
  intro d n hmem
  rw [h.entry_parent d n f hmem] at hf
  cases hf

/-- A file is at most once in an entry vector. -/
theorem Linked.entry_unique (h : t.Linked) (h₁ : (n, f) ∈ t.entries d) (h₂ : (n', f) ∈ t.entries d') :
    d = d' ∧ n = n' := by
  have hparent := h.entry_parent d n f h₁
  rw [h.entry_parent d' n' f h₂] at hparent
  cases hparent
  have heq := List.inj_on_of_nodup_map (h.files_nodup _) h₁ h₂ rfl
  exact ⟨rfl, congrArg Prod.fst heq⟩

/-- An entry and a mount of one file are in the same place. -/
theorem Linked.entry_eq_mount (h : t.Linked) {e : DCacheEntry} (h₁ : (n, e.file) ∈ t.entries d)
    (h₂ : t.mount d' n' = some e) : d = d' ∧ n = n' := by
  have hparent := h.entry_parent d n e.file h₁
  rcases h.mount_parent d' n' e h₂ with hm | hm
  · rw [hparent] at hm
    cases hm
    exact ⟨rfl, h.entry_mount _ n n' e h₁ h₂⟩
  · rw [hparent] at hm
    cases hm

/-- What a name other than "." and ".." finds. -/
theorem child_eq_some (hdot : n ≠ dot) (hdots : n ≠ dotDot) :
    t.child d n = some f ↔ t.parent d ≠ none ∧
      ((∃ e, t.mount d n = some e ∧ e.file = f) ∨
        (t.mount d n = none ∧ (t.entries d).lookup n = some f)) := by
  unfold child
  cases t.parent d with
  | none => simp
  | some p =>
    simp only [if_neg hdot, if_neg hdots]
    cases t.mount d n with
    | none => simp
    | some e => simp

/-- No name is free but one that neither the dcache nor the backend has. -/
theorem child_eq_none (hd : t.parent d ≠ none) :
    t.child d n = none ↔ n ≠ dot ∧ n ≠ dotDot ∧ t.mount d n = none ∧
      (t.entries d).lookup n = none := by
  unfold child
  cases hp : t.parent d with
  | none => exact absurd hp hd
  | some p =>
    by_cases h₁ : n = dot
    · simp [h₁]
    · by_cases h₂ : n = dotDot
      · subst h₂
        simp [h₁]
      · simp only [if_neg h₁, if_neg h₂]
        cases t.mount d n with
        | none => simp [h₁, h₂]
        | some e => simp

theorem child_eq_none_of_parent (hd : t.parent d = none) : t.child d n = none := by
  unfold child
  rw [hd]

theorem child_dot {p : FileId} (hd : t.parent d = some p) : t.child d dot = some d := by
  unfold child
  rw [hd]
  simp

theorem child_dotDot {p : FileId} (hd : t.parent d = some p) : t.child d dotDot = some p := by
  unfold child
  rw [hd]
  simp [show dotDot ≠ dot by decide]

/-- A file is bound under one name at most. -/
theorem Linked.child_unique (h : t.Linked) (hn : n ≠ dot ∧ n ≠ dotDot) (hn' : n' ≠ dot ∧ n' ≠ dotDot)
    (h₁ : t.child d n = some f) (h₂ : t.child d' n' = some f) : d = d' ∧ n = n' := by
  rw [child_eq_some hn.1 hn.2] at h₁
  rw [child_eq_some hn'.1 hn'.2] at h₂
  rcases h₁.2 with ⟨e, he, rfl⟩ | ⟨_, he⟩
  · rcases h₂.2 with ⟨e', he', hfile⟩ | ⟨_, he'⟩
    · exact h.mount_unique d d' n n' e e' he he' hfile.symm
    · obtain ⟨hd, hname⟩ := h.entry_eq_mount (h.lookup_iff.mp he') he
      exact ⟨hd.symm, hname.symm⟩
  · rcases h₂.2 with ⟨e', he', rfl⟩ | ⟨_, he'⟩
    · exact h.entry_eq_mount (h.lookup_iff.mp he) he'
    · exact h.entry_unique (h.lookup_iff.mp he) (h.lookup_iff.mp he')

/-- Only files of the tree are found. -/
theorem Linked.child_lt (h : t.Linked) {next : FileId} (hw : t.Within next) (hd : d < next)
    (hf : t.child d n = some f) : f < next := by
  by_cases hdot : n = dot
  · subst hdot
    cases hp : t.parent d with
    | none => rw [child_eq_none_of_parent hp] at hf; cases hf
    | some p => rw [child_dot hp] at hf; cases hf; exact hd
  by_cases hdots : n = dotDot
  · subst hdots
    cases hp : t.parent d with
    | none => rw [child_eq_none_of_parent hp] at hf; cases hf
    | some p => rw [child_dotDot hp] at hf; cases hf; exact hw.parent_lt d _ hp
  obtain ⟨_, ⟨e, he, rfl⟩ | ⟨_, he⟩⟩ := (child_eq_some hdot hdots).mp hf
  · exact hw.mount_lt d n e he
  · by_contra hlt
    have hblank := hw.blank_parent f (Nat.le_of_not_lt hlt)
    exact h.noEntry_of_parent hblank d n (h.lookup_iff.mp he)

/-! ## Keeping the tree linked -/

theorem Linked.setParent (h : t.Linked) {p : Option FileId} (he : t.NoEntry f) (hm : t.NoMount f)
    (hroot : f ≠ t.root) (hp : p ≠ some f) : (t.setParent f p).Linked := by
  refine ⟨h.names_nodup, h.files_nodup, ?_, h.mount_kind, ?_, h.mount_unique, h.entry_mount, ?_, ?_,
    h.root_entry, h.root_mount⟩
  · intro d n g hg
    have hne : g ≠ f := by
      intro heq
      exact he d n (heq ▸ hg)
    rw [setParent_parent, if_neg hne]
    exact h.entry_parent d n g hg
  · intro d n e hg
    rw [setParent_parent, if_neg (hm d n e hg)]
    exact h.mount_parent d n e hg
  · rw [setParent_parent, setParent_root, if_neg hroot.symm]
    exact h.root_parent
  · intro g hg
    rw [setParent_parent] at hg
    split at hg
    · next heq => exact absurd (heq ▸ hg) hp
    · exact h.only_root g hg

/-- A file that no entry vector has may lose its parent, mounted or not. -/
theorem Linked.clearParent (h : t.Linked) (he : t.NoEntry f) (hroot : f ≠ t.root) :
    (t.setParent f none).Linked := by
  refine ⟨h.names_nodup, h.files_nodup, ?_, h.mount_kind, ?_, h.mount_unique, h.entry_mount, ?_, ?_,
    h.root_entry, h.root_mount⟩
  · intro d n g hg
    have hne : g ≠ f := by
      intro heq
      exact he d n (heq ▸ hg)
    rw [setParent_parent, if_neg hne]
    exact h.entry_parent d n g hg
  · intro d n e hg
    rw [setParent_parent]
    split
    · exact .inr rfl
    · exact h.mount_parent d n e hg
  · rw [setParent_parent, setParent_root, if_neg hroot.symm]
    exact h.root_parent
  · intro g hg
    rw [setParent_parent] at hg
    split at hg
    · cases hg
    · exact h.only_root g hg

/-- Entries may go away. -/
theorem Linked.dropEntries (h : t.Linked) {es : List (Name × FileId)} (hes : es.Sublist (t.entries d)) :
    (t.setEntries d es).Linked := by
  have hsub : ∀ d', ((t.setEntries d es).entries d').Sublist (t.entries d') := by
    intro d'
    rw [setEntries_entries]
    split
    · next heq => rw [heq]; exact hes
    · exact List.Sublist.refl _
  refine ⟨?_, ?_, ?_, h.mount_kind, h.mount_parent, h.mount_unique, ?_, h.root_parent, h.only_root, ?_,
    h.root_mount⟩
  · intro d'
    exact (h.names_nodup d').sublist ((hsub d').map _)
  · intro d'
    exact (h.files_nodup d').sublist ((hsub d').map _)
  · intro d' n f hf
    exact h.entry_parent d' n f ((hsub d').subset hf)
  · intro d' n n' e he hm
    exact h.entry_mount d' n n' e ((hsub d').subset he) hm
  · intro d' n hr
    exact h.root_entry d' n ((hsub d').subset hr)

theorem Linked.addEntry (h : t.Linked) (hp : t.parent f = some d) (he : t.NoEntry f)
    (hname : (t.entries d).lookup n = none) (hroot : f ≠ t.root)
    (hm : ∀ n' e, t.mount d n' = some e → e.file = f → n' = n) :
    (t.setEntries d (t.entries d ++ [(n, f)])).Linked := by
  have hmem : ∀ {d' n' g}, (n', g) ∈ (t.setEntries d (t.entries d ++ [(n, f)])).entries d' →
      (n', g) ∈ t.entries d' ∨ (d' = d ∧ n' = n ∧ g = f) := by
    intro d' n' g hg
    rw [setEntries_entries] at hg
    split at hg
    · next heq =>
        rcases List.mem_append.mp hg with hg | hg
        · exact .inl (heq ▸ hg)
        · simp only [List.mem_singleton, Prod.mk.injEq] at hg
          exact .inr ⟨heq, hg.1, hg.2⟩
    · exact .inl hg
  refine ⟨?_, ?_, ?_, h.mount_kind, h.mount_parent, h.mount_unique, ?_, h.root_parent, h.only_root, ?_,
    h.root_mount⟩
  · intro d'
    rw [setEntries_entries]
    split
    · rw [List.map_append, List.nodup_append]
      refine ⟨h.names_nodup d, List.nodup_singleton n, ?_⟩
      intro a ha b hb hab
      simp only [List.map_cons, List.map_nil, List.mem_singleton] at hb
      obtain ⟨⟨n', g⟩, hg, rfl⟩ := List.mem_map.mp ha
      have hfree := lookup_eq_none.mp hname g
      rw [← hb, ← hab] at hfree
      exact hfree hg
    · exact h.names_nodup d'
  · intro d'
    rw [setEntries_entries]
    split
    · rw [List.map_append, List.nodup_append]
      refine ⟨h.files_nodup d, List.nodup_singleton f, ?_⟩
      intro a ha b hb hab
      simp only [List.map_cons, List.map_nil, List.mem_singleton] at hb
      obtain ⟨⟨n', g⟩, hg, rfl⟩ := List.mem_map.mp ha
      have hunlisted := he d n'
      rw [← hb, ← hab] at hunlisted
      exact hunlisted hg
    · exact h.files_nodup d'
  · intro d' n' g hg
    rcases hmem hg with hg | ⟨rfl, rfl, rfl⟩
    · exact h.entry_parent d' n' g hg
    · exact hp
  · intro d' n' m e hg hmount
    rcases hmem hg with hg | ⟨rfl, rfl, hf⟩
    · exact h.entry_mount d' n' m e hg hmount
    · exact (hm m e hmount hf).symm
  · intro d' n' hg
    rcases hmem hg with hg | ⟨_, _, hf⟩
    · exact h.root_entry d' n' hg
    · exact hroot hf.symm

theorem Linked.dropMount (h : t.Linked) (d : FileId) (n : Name) : (t.setMount d n none).Linked := by
  have hsub : ∀ {d' n' e}, (t.setMount d n none).mount d' n' = some e → t.mount d' n' = some e := by
    intro d' n' e hg
    rw [setMount_mount] at hg
    split at hg
    · cases hg
    · exact hg
  refine ⟨h.names_nodup, h.files_nodup, h.entry_parent, ?_, ?_, ?_, ?_, h.root_parent, h.only_root,
    h.root_entry, ?_⟩
  · intro d' n' e he
    exact h.mount_kind d' n' e (hsub he)
  · intro d' n' e he
    exact h.mount_parent d' n' e (hsub he)
  · intro d₁ d₂ n₁ n₂ e₁ e₂ h₁ h₂
    exact h.mount_unique d₁ d₂ n₁ n₂ e₁ e₂ (hsub h₁) (hsub h₂)
  · intro d' n' m e hg he
    exact h.entry_mount d' n' m e hg (hsub he)
  · intro d' n' e he
    exact h.root_mount d' n' e (hsub he)

theorem Linked.addMount (h : t.Linked) {e : DCacheEntry} (hkind : e.kind = .mount)
    (hp : t.parent e.file = some d) (hm : t.NoMount e.file) (he : ∀ n', (n', e.file) ∈ t.entries d → n' = n)
    (hroot : e.file ≠ t.root) : (t.setMount d n (some e)).Linked := by
  have hmem : ∀ {d' n' e'}, (t.setMount d n (some e)).mount d' n' = some e' →
      (d' = d ∧ n' = n ∧ e' = e) ∨ t.mount d' n' = some e' := by
    intro d' n' e' hg
    rw [setMount_mount] at hg
    split at hg
    · next heq => exact .inl ⟨heq.1, heq.2, (Option.some.inj hg).symm⟩
    · exact .inr hg
  refine ⟨h.names_nodup, h.files_nodup, h.entry_parent, ?_, ?_, ?_, ?_, h.root_parent, h.only_root,
    h.root_entry, ?_⟩
  · intro d' n' e' hg
    rcases hmem hg with ⟨_, _, rfl⟩ | hg
    · exact hkind
    · exact h.mount_kind d' n' e' hg
  · intro d' n' e' hg
    rcases hmem hg with ⟨rfl, _, rfl⟩ | hg
    · exact .inl hp
    · exact h.mount_parent d' n' e' hg
  · intro d₁ d₂ n₁ n₂ e₁ e₂ h₁ h₂ hfile
    rcases hmem h₁ with ⟨hd₁, hn₁, he₁⟩ | hold₁
    · rcases hmem h₂ with ⟨hd₂, hn₂, _⟩ | hold₂
      · exact ⟨hd₁.trans hd₂.symm, hn₁.trans hn₂.symm⟩
      · exact absurd (hfile.symm.trans (congrArg _ he₁)) (hm d₂ n₂ e₂ hold₂)
    · rcases hmem h₂ with ⟨_, _, he₂⟩ | hold₂
      · exact absurd (hfile.trans (congrArg _ he₂)) (hm d₁ n₁ e₁ hold₁)
      · exact h.mount_unique d₁ d₂ n₁ n₂ e₁ e₂ hold₁ hold₂ hfile
  · intro d' n' m e' hg hmount
    rcases hmem hmount with ⟨rfl, rfl, rfl⟩ | hmount
    · exact he n' hg
    · exact h.entry_mount d' n' m e' hg hmount
  · intro d' n' e' hg
    rcases hmem hg with ⟨_, _, rfl⟩ | hg
    · exact hroot
    · exact h.root_mount d' n' e' hg

end Tree

end WasmFS
