-- SUMMARY: Consistent trees: every directory in use hangs below the root, and is listed where its parent pointer says.
import Emscripten.Lib.Chain
import Emscripten.WasmFS.Effects

/-!
# Consistent trees

`Linked` holds of every reachable tree. `Consistent` is what should hold beyond it, of
the files that are in use: the directories that list something are below the root, a
name is listed once, and the parent pointers tell who lists whom. Each update of the
tree keeps it under a condition of its own.
-/

namespace WasmFS

open Chain

variable {D g : FileId} {m : Name}

namespace Tree

/-- `d` lists `f` under the name `n`. -/
def Lists (t : Tree) (d : FileId) (n : Name) (f : FileId) : Prop :=
  (n, f) ∈ t.entries d ∨ ∃ e, t.mount d n = some e ∧ e.file = f

/-- The file is the root, or is listed below it. -/
inductive Rooted (t : Tree) : FileId → Prop
  | root : Rooted t t.root
  | listed (d : FileId) (n : Name) (f : FileId) (hd : Rooted t d) (h : t.Lists d n f) : Rooted t f

/-- The tree is consistent as far as the files of `H` are concerned. -/
structure Consistent (t : Tree) (H : FileId → Prop) : Prop where
  live : ∀ d, H d → t.Empty d ∨ t.Rooted d
  lists_parent : ∀ d n f, t.Rooted d → t.Lists d n f → t.parent f = some d
  apart : ∀ d n e f, t.Rooted d → t.mount d n = some e → (n, f) ∉ t.entries d
  names : ∀ d n f, t.Rooted d → t.Lists d n f → n ≠ dot ∧ n ≠ dotDot
  parent_lists : ∀ f d, H f → H d → f ≠ t.root → t.parent f = some d → ∃ n, t.Lists d n f
  ends : ∀ f, Ends t.parent t.root f

variable {t t' : Tree} {H H' : FileId → Prop} {d f : FileId} {n : Name}

/-! ## Reading a consistent tree -/

theorem empty_iff : t.Empty d ↔ ∀ n f, ¬ t.Lists d n f := by
  refine ⟨?_, ?_⟩
  · rintro ⟨hentries, hmount⟩ n f (hmem | ⟨e, he, _⟩)
    · rw [hentries] at hmem
      exact List.not_mem_nil hmem
    · rw [hmount n] at he
      cases he
  · intro h
    refine ⟨List.eq_nil_iff_forall_not_mem.mpr fun p hp => h p.1 p.2 (.inl hp), fun n => ?_⟩
    cases hm : t.mount d n with
    | none => rfl
    | some e => exact absurd (.inr ⟨e, hm, rfl⟩) (h n e.file)

theorem Lists.not_empty (h : t.Lists d n f) : ¬ t.Empty d := fun he => empty_iff.mp he n f h

/-- A file is listed at most once. -/
theorem Linked.lists_unique (h : t.Linked) {d' : FileId} {n' : Name} (h₁ : t.Lists d n f)
    (h₂ : t.Lists d' n' f) : d = d' ∧ n = n' := by
  rcases h₁ with h₁ | ⟨e, he, rfl⟩
  · rcases h₂ with h₂ | ⟨e, he, rfl⟩
    · exact h.entry_unique h₁ h₂
    · exact h.entry_eq_mount h₁ he
  · rcases h₂ with h₂ | ⟨e', he', hfile⟩
    · obtain ⟨hd, hn⟩ := h.entry_eq_mount h₂ he
      exact ⟨hd.symm, hn.symm⟩
    · exact h.mount_unique d d' n n' e e' he he' hfile.symm

/-- Below the root, a name is listed at most once. -/
theorem Consistent.name_unique (h : t.Consistent H) (hl : t.Linked) (hd : t.Rooted d) (h₁ : t.Lists d n f)
    (h₂ : t.Lists d n g) : f = g := by
  rcases h₁ with h₁ | ⟨e, he, rfl⟩
  · rcases h₂ with h₂ | ⟨e, he, rfl⟩
    · exact congrArg Prod.snd (List.inj_on_of_nodup_map (hl.names_nodup d) h₁ h₂ rfl)
    · exact absurd h₁ (h.apart d n e f hd he)
  · rcases h₂ with h₂ | ⟨e', he', rfl⟩
    · exact absurd h₂ (h.apart d n e g hd he)
    · rw [he] at he'
      cases he'
      rfl

theorem Linked.not_lists_root (h : t.Linked) (d : FileId) (n : Name) : ¬ t.Lists d n t.root := by
  rintro (hmem | ⟨e, he, hroot⟩)
  · exact h.root_entry d n hmem
  · exact h.root_mount d n e he hroot

/-- A directory in use that lists something is below the root. -/
theorem Consistent.rooted_of_lists (h : t.Consistent H) (hd : H d) (hf : t.Lists d n f) : t.Rooted d :=
  (h.live d hd).resolve_left hf.not_empty

/-- A directory that has a parent in use is below the root, listing something or not. -/
theorem Consistent.rooted (h : t.Consistent H) {p : FileId} (hd : H d) (hp : t.parent d = some p)
    (hH : H p) : t.Rooted d := by
  by_cases hroot : d = t.root
  · rw [hroot]
    exact .root
  · obtain ⟨n, hn⟩ := h.parent_lists d p hd hH hroot hp
    exact .listed p n d (h.rooted_of_lists hH hn) hn

/-- What a proper name finds below the root is what is listed. -/
theorem Consistent.child_iff (h : t.Consistent H) (hl : t.Linked) (hd : t.Rooted d)
    (hn : n ≠ dot ∧ n ≠ dotDot) (hp : t.parent d ≠ none) :
    t.child d n = some f ↔ t.Lists d n f := by
  rw [child_eq_some hn.1 hn.2]
  refine ⟨?_, ?_⟩
  · rintro ⟨_, hmount | ⟨_, hl'⟩⟩
    · exact .inr hmount
    · exact .inl (hl.lookup_iff.mp hl')
  · rintro (hmem | hmount)
    · refine ⟨hp, .inr ⟨?_, hl.lookup_iff.mpr hmem⟩⟩
      cases hm : t.mount d n with
      | none => rfl
      | some e => exact absurd hmem (h.apart d n e f hd hm)
    · exact ⟨hp, .inl hmount⟩

theorem Consistent.parent_ne_none (h : t.Consistent H) (hl : t.Linked) (hd : t.Rooted d) :
    t.parent d ≠ none := by
  cases hd with
  | root => rw [hl.root_parent]; simp
  | listed p n _ hp hn => rw [h.lists_parent p n d hp hn]; simp

/-! ## Fewer files, new files -/

theorem Consistent.mono (h : t.Consistent H) (hsub : ∀ f, H' f → H f) : t.Consistent H' where
  live d hd := h.live d (hsub d hd)
  lists_parent := h.lists_parent
  apart := h.apart
  names := h.names
  parent_lists f d hf hd := h.parent_lists f d (hsub f hf) (hsub d hd)
  ends := h.ends

theorem Within.empty {next : FileId} (hw : t.Within next) (hf : next ≤ f) : t.Empty f :=
  ⟨hw.blank_entries f hf, fun n => hw.blank_mount f n hf⟩

theorem Within.lister_lt {next : FileId} (hw : t.Within next) (h : t.Lists d n f) : d < next := by
  by_contra hge
  exact h.not_empty (hw.empty (Nat.le_of_not_lt hge))

theorem Linked.listed_lt {next : FileId} (h : t.Linked) (hw : t.Within next) (hf : t.Lists d n f) :
    f < next := by
  rcases hf with hmem | ⟨e, he, rfl⟩
  · by_contra hge
    exact h.noEntry_of_parent (hw.blank_parent f (Nat.le_of_not_lt hge)) d n hmem
  · exact hw.mount_lt d n e he

/-- Files that do not exist yet change nothing. -/
theorem Consistent.orNew {next : FileId} (h : t.Consistent H) (hw : t.Within next) :
    t.Consistent fun f => H f ∨ next ≤ f where
  live d hd := by
    rcases hd with hd | hnew
    · exact h.live d hd
    · exact .inl (hw.empty hnew)
  lists_parent := h.lists_parent
  apart := h.apart
  names := h.names
  parent_lists f d hf hd hroot hp := by
    have hold : H f := by
      refine hf.resolve_right fun hnew => ?_
      rw [hw.blank_parent f hnew] at hp
      cases hp
    exact h.parent_lists f d hold (hd.resolve_right (Nat.not_le.mpr (hw.parent_lt f d hp))) hroot hp
  ends := h.ends

/-! ## A new child -/

section Grow

variable {next c : FileId}

/-- `t'` is `t` with the new child `c` under the name `n` of `d`. -/
structure Grows (t t' : Tree) (d : FileId) (n : Name) (c : FileId) : Prop where
  root : t'.root = t.root
  parent : ∀ g, t'.parent g = if g = c then some d else t.parent g
  lists : ∀ D m g, t'.Lists D m g ↔ t.Lists D m g ∨ (D = d ∧ m = n ∧ g = c)
  apart : ∀ D m e g, t'.mount D m = some e → (m, g) ∈ t'.entries D →
    t.mount D m = some e ∧ (m, g) ∈ t.entries D

theorem mem_insertChild : (m, g) ∈ (t.insertChild d n c).entries D ↔
    (m, g) ∈ t.entries D ∨ (D = d ∧ m = n ∧ g = c) := by
  unfold insertChild
  rw [setEntries_entries, setParent_entries]
  split
  · next heq => rw [heq, List.mem_append, List.mem_singleton, Prod.mk.injEq]; simp
  · next hne => simp [hne]

theorem grows_insertChild (hm : t.mount d n = none) (c : FileId) :
    t.Grows (t.insertChild d n c) d n c where
  root := rfl
  parent g := setParent_parent t c g (some d)
  lists D m g := by
    unfold Lists
    rw [mem_insertChild]
    exact or_right_comm
  apart D m e g he hg := by
    rcases mem_insertChild.mp hg with hg | ⟨rfl, rfl, _⟩
    · exact ⟨he, hg⟩
    · exact absurd (hm.symm.trans he) (by simp)

theorem mountChild_mount {e : DCacheEntry} :
    (t.mountChild d n c).mount D m = some e ↔
      if D = d ∧ m = n then ⟨.mount, c⟩ = e else t.mount D m = some e := by
  unfold mountChild
  rw [setMount_mount, setParent_mount]
  split
  · rw [Option.some.injEq]
  · rfl

theorem grows_mountChild (hm : t.mount d n = none) (hfree : (t.entries d).lookup n = none)
    (c : FileId) : t.Grows (t.mountChild d n c) d n c where
  root := rfl
  parent g := setParent_parent t c g (some d)
  lists D m g := by
    unfold Lists
    simp only [mountChild_mount]
    change (m, g) ∈ t.entries D ∨ _ ↔ _
    by_cases hplace : D = d ∧ m = n
    · obtain ⟨rfl, rfl⟩ := hplace
      simp [hm, eq_comm]
    · have hne : ¬ (D = d ∧ m = n ∧ g = c) := fun heq => hplace ⟨heq.1, heq.2.1⟩
      simp only [if_neg hplace, hne, or_false]
  apart D m e g he hg := by
    rw [mountChild_mount] at he
    split at he
    · next heq =>
        obtain ⟨rfl, rfl⟩ := heq
        exact absurd hg (Assoc.lookup_eq_none.mp hfree g)
    · exact ⟨he, hg⟩

theorem Grows.rooted_of (h : t.Grows t' d n c) (hD : t.Rooted D) : t'.Rooted D := by
  induction hD with
  | root => rw [← h.root]; exact .root
  | listed D m g _ hm ih => exact .listed D m g ih ((h.lists D m g).mpr (.inl hm))

theorem Grows.of_rooted (h : t.Grows t' d n c) (hc : t.Empty c) (hD : t'.Rooted D) : t.Rooted D ∨ D = c := by
  induction hD with
  | root => rw [h.root]; exact .inl .root
  | listed D m g _ hm ih =>
    rcases (h.lists D m g).mp hm with hm | ⟨_, _, rfl⟩
    · rcases ih with hD | rfl
      · exact .inl (.listed D m g hD hm)
      · exact absurd hc hm.not_empty
    · exact .inr rfl

/-- A new file may come in under a free proper name of a directory below the root. -/
theorem Consistent.grow (h : t.Consistent H) (hl : t.Linked) (hw : t.Within next)
    (hg : t.Grows t' d n c) (hd : t.Rooted d) (hn : n ≠ dot ∧ n ≠ dotDot) (hc : next ≤ c) :
    t'.Consistent H := by
  have hempty := hw.empty hc
  have hold : ∀ {D m g}, t'.Rooted D → t'.Lists D m g →
      (t.Rooted D ∧ t.Lists D m g ∧ g ≠ c) ∨ (D = d ∧ m = n ∧ g = c) := by
    intro D m g hD hm
    rcases (hg.lists D m g).mp hm with hm | hnew
    · refine .inl ⟨?_, hm, fun heq => ?_⟩
      · rcases hg.of_rooted hempty hD with hD | rfl
        · exact hD
        · exact absurd hempty hm.not_empty
      · exact Nat.not_lt.mpr hc (heq ▸ hl.listed_lt hw hm)
    · exact .inr hnew
  refine ⟨?_, ?_, ?_, ?_, ?_, ?_⟩
  · intro D hD
    by_cases hDd : D = d
    · exact .inr (hDd ▸ hg.rooted_of hd)
    · rcases h.live D hD with hD | hD
      · refine .inl (empty_iff.mpr fun m g hm => ?_)
        rcases (hg.lists D m g).mp hm with hm | ⟨heq, _⟩
        · exact hm.not_empty hD
        · exact hDd heq
      · exact .inr (hg.rooted_of hD)
  · intro D m g hD hm
    rw [hg.parent]
    rcases hold hD hm with ⟨hD, hm, hne⟩ | ⟨rfl, _, heq⟩
    · rw [if_neg hne]
      exact h.lists_parent D m g hD hm
    · rw [if_pos heq]
  · intro D m e g hD he hmem
    obtain ⟨he, hmem⟩ := hg.apart D m e g he hmem
    rcases hg.of_rooted hempty hD with hD | rfl
    · exact h.apart D m e g hD he hmem
    · rw [hempty.1] at hmem
      exact List.not_mem_nil hmem
  · intro D m g hD hm
    rcases hold hD hm with ⟨hD, hm, _⟩ | ⟨_, rfl, _⟩
    · exact h.names D m g hD hm
    · exact hn
  · intro g D hgH hD hroot hp
    rw [hg.parent] at hp
    split at hp
    · next heq => exact ⟨n, (hg.lists D n g).mpr (.inr ⟨(Option.some.inj hp).symm, rfl, heq⟩)⟩
    · obtain ⟨m, hm⟩ := h.parent_lists g D hgH hD (hg.root ▸ hroot) hp
      exact ⟨m, (hg.lists D m g).mpr (.inl hm)⟩
  · intro g
    rw [hg.root]
    -- No chain comes through the new file.
    have hold : ∀ x, Ends t.parent t.root x → x ≠ c → Ends t'.parent t.root x := by
      intro x hx
      induction hx with
      | top => exact fun _ => .top
      | stop hx => exact fun hne => .stop (by rw [hg.parent, if_neg hne, hx])
      | step hx _ ih =>
        intro hne
        refine .step (by rw [hg.parent, if_neg hne, hx]) (ih fun heq => ?_)
        exact Nat.not_lt.mpr hc (heq ▸ hw.parent_lt _ _ hx)
    by_cases heq : g = c
    · refine .step (by rw [hg.parent, if_pos heq]) (hold d (h.ends d) fun hdc => ?_)
      exact h.parent_ne_none hl hd (hdc ▸ hw.blank_parent c hc)
    · exact hold g (h.ends g) heq

end Grow

/-! ## A name that goes away -/

section Shrink

/-- `t'` is `t` without the name `n` of `d`, which listed `f`. -/
structure Shrinks (t t' : Tree) (d : FileId) (n : Name) (f : FileId) : Prop where
  root : t'.root = t.root
  parent : ∀ g, t'.parent g = t.parent g ∨ g = f ∧ t'.parent g = none
  listed : t.Lists d n f
  lists : ∀ D m g, t'.Lists D m g ↔ t.Lists D m g ∧ ¬ (D = d ∧ m = n)
  mount : ∀ D m e, t'.mount D m = some e → t.mount D m = some e
  entries : ∀ D m g, (m, g) ∈ t'.entries D → (m, g) ∈ t.entries D

/-- No file of `H` hangs on `f`, or on a directory that is not in `H`, without being
empty. -/
def Releases (t : Tree) (H : FileId → Prop) (f : FileId) : Prop :=
  ¬ H f ∧ ∀ x p, H x → t.parent x = some p → ¬ H p → t.Empty x

theorem Shrinks.of_rooted (hs : t.Shrinks t' d n f) (hD : t'.Rooted D) : t.Rooted D := by
  induction hD with
  | root => rw [hs.root]; exact .root
  | listed D m g _ hm ih => exact .listed D m g ih ((hs.lists D m g).mp hm).1

theorem Shrinks.empty (hs : t.Shrinks t' d n f) (hD : t.Empty D) : t'.Empty D :=
  empty_iff.mpr fun m g hm => empty_iff.mp hD m g ((hs.lists D m g).mp hm).1

/-- The other links stay. -/
theorem Consistent.keeps_link (h : t.Consistent H) (hl : t.Linked) (hs : t.Shrinks t' d n f) (hD : t.Rooted D)
    (hm : t.Lists D m g) (hne : g ≠ f) : t'.Lists D m g := by
  refine (hs.lists D m g).mpr ⟨hm, ?_⟩
  rintro ⟨rfl, rfl⟩
  exact hne (h.name_unique hl hD hm hs.listed)

/-- All that an empty file takes with it is itself. -/
theorem Consistent.rooted_of_empty (h : t.Consistent H) (hl : t.Linked) (hs : t.Shrinks t' d n f)
    (hf : t.Empty f) (hD : t.Rooted D) : D = f ∨ t'.Rooted D := by
  induction hD with
  | root => rw [← hs.root]; exact .inr .root
  | listed D m g hD hm ih =>
    by_cases hgf : g = f
    · exact .inl hgf
    · rcases ih with rfl | hD'
      · exact absurd hf hm.not_empty
      · exact .inr (.listed D m g hD' (h.keeps_link hl hs hD hm hgf))

/-- What is left of a subtree that has been released is empty. -/
theorem Consistent.live_of_releases (h : t.Consistent H) (hl : t.Linked) (hs : t.Shrinks t' d n f)
    (hrel : t.Releases H' f) (hD : t.Rooted D) : H' D → t'.Empty D ∨ t'.Rooted D := by
  induction hD with
  | root => rw [← hs.root]; exact fun _ => .inr .root
  | listed D m g hD hm ih =>
    intro hg
    by_cases hHD : H' D
    · have hlink := h.keeps_link hl hs hD hm fun heq => hrel.1 (heq ▸ hg)
      rcases ih hHD with hempty | hD'
      · exact absurd hempty hlink.not_empty
      · exact .inr (.listed D m g hD' hlink)
    · exact .inl (hs.empty (hrel.2 g D hg (h.lists_parent D m g hD hm) hHD))

/-- A name may go away if its file is empty and loses its parent, or is released. -/
theorem Consistent.shrink (h : t.Consistent H) (hl : t.Linked) (hs : t.Shrinks t' d n f)
    (hsub : ∀ g, H' g → H g)
    (hf : (t.Empty f ∧ t'.parent f = none) ∨ t.Releases H' f) : t'.Consistent H' := by
  refine ⟨?_, ?_, ?_, ?_, ?_, ?_⟩
  · intro D hD
    rcases h.live D (hsub D hD) with hempty | hrooted
    · exact .inl (hs.empty hempty)
    · rcases hf with ⟨hempty, _⟩ | hrel
      · rcases h.rooted_of_empty hl hs hempty hrooted with rfl | hD'
        · exact .inl (hs.empty hempty)
        · exact .inr hD'
      · exact h.live_of_releases hl hs hrel hrooted hD
  · intro D m g hD hm
    obtain ⟨hm, hne⟩ := (hs.lists D m g).mp hm
    rcases hs.parent g with hp | ⟨rfl, _⟩
    · rw [hp]
      exact h.lists_parent D m g (hs.of_rooted hD) hm
    · exact absurd (hl.lists_unique hm hs.listed) hne
  · intro D m e g hD he hmem
    exact h.apart D m e g (hs.of_rooted hD) (hs.mount D m e he) (hs.entries D m g hmem)
  · intro D m g hD hm
    exact h.names D m g (hs.of_rooted hD) ((hs.lists D m g).mp hm).1
  · intro g D hg hD hroot hp
    have hne : g ≠ f := by
      rintro rfl
      rcases hf with ⟨_, hnone⟩ | hrel
      · rw [hnone] at hp
        cases hp
      · exact hrel.1 hg
    rcases hs.parent g with hsame | ⟨heq, _⟩
    · rw [hsame] at hp
      obtain ⟨m, hm⟩ := h.parent_lists g D (hsub g hg) (hsub D hD) (hs.root ▸ hroot) hp
      refine ⟨m, (hs.lists D m g).mpr ⟨hm, ?_⟩⟩
      rintro ⟨rfl, rfl⟩
      exact hne (h.name_unique hl (h.rooted_of_lists (hsub D hD) hm) hm hs.listed)
    · exact absurd heq hne
  · intro g
    rw [hs.root]
    refine (h.ends g).rewire fun y => ?_
    rcases hs.parent y with hsame | ⟨_, hnone⟩
    · exact .inl hsame
    · exact .inr (.inl hnone)

end Shrink

/-! ## A move -/

section Move

variable {R Q : FileId} {a b : Name}

/-- `t'` is `t` after the entry `f` has moved to the name `b` of `Q`, over an empty
entry at most. -/
structure Moves (t t' : Tree) (f Q : FileId) (b : Name) : Prop where
  root : t'.root = t.root
  parent_moved : t'.parent f = some Q
  parent_replaced : ∀ g, (b, g) ∈ t.entries Q → g ≠ f → t'.parent g = none
  parent_other : ∀ g, g ≠ f → t'.parent g = t.parent g ∨ t'.parent g = none ∧ (b, g) ∈ t.entries Q
  entries : ∀ D n g, (n, g) ∈ t'.entries D ↔
    (D = Q ∧ n = b ∧ g = f) ∨ ((n, g) ∈ t.entries D ∧ g ≠ f ∧ ¬ (D = Q ∧ n = b))
  mount : t'.mount = t.mount
  no_mount : t.NoMount f
  free : t.mount Q b = none
  replaced : ∀ g, (b, g) ∈ t.entries Q → t.Empty g

theorem Moves.lists (hm : t.Moves t' f Q b) {n : Name} : t'.Lists D n g ↔
    (D = Q ∧ n = b ∧ g = f) ∨ (t.Lists D n g ∧ g ≠ f ∧ ¬ (D = Q ∧ n = b)) := by
  unfold Lists
  rw [hm.entries, hm.mount]
  refine ⟨?_, ?_⟩
  · rintro ((hnew | ⟨hold, hne⟩) | ⟨e, he, rfl⟩)
    · exact .inl hnew
    · exact .inr ⟨.inl hold, hne⟩
    · refine .inr ⟨.inr ⟨e, he, rfl⟩, hm.no_mount D n e he, ?_⟩
      rintro ⟨rfl, rfl⟩
      exact absurd (hm.free.symm.trans he) (by simp)
  · rintro (hnew | ⟨hold | hold, hne⟩)
    · exact .inl (.inl hnew)
    · exact .inl (.inr ⟨hold, hne⟩)
    · exact .inr hold

/-- What the new name lists is an entry. -/
theorem Moves.entry (hm : t.Moves t' f Q b) (hg : t.Lists Q b g) : (b, g) ∈ t.entries Q := by
  rcases hg with hmem | ⟨e, he, _⟩
  · exact hmem
  · exact absurd (hm.free.symm.trans he) (by simp)

theorem Moves.of_rooted (hm : t.Moves t' f Q b) (hf : t.Rooted f) (hD : t'.Rooted D) : t.Rooted D := by
  induction hD with
  | root => rw [hm.root]; exact .root
  | listed D n g _ hn ih =>
    rcases hm.lists.mp hn with ⟨_, _, rfl⟩ | ⟨hold, _⟩
    · exact hf
    · exact .listed D n g ih hold

/-- A directory that the parent pointers leave without coming past `f` stays below the
root. -/
theorem Consistent.rooted_of_climbs (h : t.Consistent H) (hm : t.Moves t' f Q b) (hclimb : t.Climbs f D) :
    t.Rooted D → ¬ t.Lists Q b D → t'.Rooted D := by
  induction hclimb with
  | root => exact fun _ _ => hm.root ▸ .root
  | @step D p hne hp _ ih =>
    intro hD hnot
    cases hD with
    | root => exact hm.root ▸ .root
    | listed P n _ hP hn =>
      have hPp : P = p := Option.some.inj ((h.lists_parent P n D hP hn).symm.trans hp)
      subst hPp
      have hP' := ih hP fun hgone => hn.not_empty (hm.replaced _ (hm.entry hgone))
      refine .listed P n D hP' (hm.lists.mpr (.inr ⟨hn, hne, ?_⟩))
      rintro ⟨rfl, rfl⟩
      exact hnot hn

theorem Moves.rooted (hm : t.Moves t' f Q b) (hQ : t'.Rooted Q) (hD : t.Rooted D) :
    ¬ t.Lists Q b D → t'.Rooted D := by
  induction hD with
  | root => exact fun _ => hm.root ▸ .root
  | listed P n D _ hn ih =>
    intro hnot
    by_cases hDf : D = f
    · exact .listed Q b D hQ (hm.lists.mpr (.inl ⟨rfl, rfl, hDf⟩))
    · have hP' := ih fun hgone => hn.not_empty (hm.replaced _ (hm.entry hgone))
      refine .listed P n D hP' (hm.lists.mpr (.inr ⟨hn, hDf, ?_⟩))
      rintro ⟨rfl, rfl⟩
      exact hnot hn

/-- An entry below the root may move to a proper name of a directory below the root, if
the parent pointers do not lead from there to itself. -/
theorem Consistent.move (h : t.Consistent H) (hl : t.Linked) (hm : t.Moves t' f Q b)
    (hf : t.Rooted f) (hQ : t.Rooted Q) (hclimb : t.Climbs f Q)
    (hb : b ≠ dot ∧ b ≠ dotDot) : t'.Consistent H := by
  have hQQ : ¬ t.Lists Q b Q := by
    intro hself
    have hp := h.lists_parent Q b Q hQ hself
    exact hl.not_lists_root Q b (hl.only_root Q hp ▸ hself)
  have hQ' := h.rooted_of_climbs hm hclimb hQ hQQ
  have hparent : ∀ {D n g}, t.Rooted D → t.Lists D n g → g ≠ f → ¬ (D = Q ∧ n = b) →
      t'.parent g = t.parent g := by
    intro D n g hD hn hne hplace
    rcases hm.parent_other g hne with hsame | ⟨_, hmem⟩
    · exact hsame
    · exact absurd (hl.lists_unique hn (.inl hmem)) hplace
  refine ⟨?_, ?_, ?_, ?_, ?_, ?_⟩
  · intro D hD
    by_cases hDQ : D = Q
    · exact .inr (hDQ ▸ hQ')
    · have hempty : t.Empty D → t'.Empty D := by
        intro he
        refine empty_iff.mpr fun n g hn => ?_
        rcases hm.lists.mp hn with ⟨heq, _⟩ | ⟨hold, _⟩
        · exact hDQ heq
        · exact hold.not_empty he
      rcases h.live D hD with he | hrooted
      · exact .inl (hempty he)
      · by_cases hgone : t.Lists Q b D
        · exact .inl (hempty (hm.replaced D (hm.entry hgone)))
        · exact .inr (hm.rooted hQ' hrooted hgone)
  · intro D n g hD hn
    rcases hm.lists.mp hn with ⟨rfl, _, rfl⟩ | ⟨hold, hne, hplace⟩
    · exact hm.parent_moved
    · have hrooted := hm.of_rooted hf hD
      rw [hparent hrooted hold hne hplace]
      exact h.lists_parent D n g hrooted hold
  · intro D n e g hD he hmem
    rw [hm.mount] at he
    rcases (hm.entries D n g).mp hmem with ⟨rfl, rfl, _⟩ | ⟨hold, _⟩
    · exact absurd (hm.free.symm.trans he) (by simp)
    · exact h.apart D n e g (hm.of_rooted hf hD) he hold
  · intro D n g hD hn
    rcases hm.lists.mp hn with ⟨_, rfl, _⟩ | ⟨hold, _⟩
    · exact hb
    · exact h.names D n g (hm.of_rooted hf hD) hold
  · intro g D hg hD hgroot hp
    by_cases hgf : g = f
    · rw [hgf, hm.parent_moved] at hp
      exact ⟨b, hm.lists.mpr (.inl ⟨(Option.some.inj hp).symm, rfl, hgf⟩)⟩
    · rcases hm.parent_other g hgf with hsame | ⟨hnone, _⟩
      · rw [hsame] at hp
        obtain ⟨n, hn⟩ := h.parent_lists g D hg hD (hm.root ▸ hgroot) hp
        refine ⟨n, hm.lists.mpr (.inr ⟨hn, hgf, ?_⟩)⟩
        -- What the move replaces has lost its parent.
        rintro ⟨rfl, rfl⟩
        rw [← hsame, hm.parent_replaced g (hm.entry hn) hgf] at hp
        cases hp
      · rw [hnone] at hp
        cases hp
  · intro g
    rw [hm.root]
    have hother : ∀ y, y ≠ f → t'.parent y = t.parent y ∨ t'.parent y = none := fun y hy =>
      (hm.parent_other y hy).imp id And.left
    have hends : ∀ D, t.Climbs f D → Ends t'.parent t.root D := by
      intro D hD
      induction hD with
      | root => exact .top
      | step hne hp _ ih =>
        rcases hother _ hne with hsame | hnone
        · exact .step (hsame.trans hp) ih
        · exact .stop hnone
    refine (h.ends g).rewire fun y => ?_
    by_cases hy : y = f
    · exact .inr (.inr ⟨Q, hy ▸ hm.parent_moved, hends Q hclimb⟩)
    · exact (hother y hy).imp id .inl

end Move

/-! ## A directory that nobody holds -/

section Drop

/-- `t'` is `t` without what `d` lists and without the pointers to it. -/
structure Drops (t t' : Tree) (d : FileId) : Prop where
  root : t'.root = t.root
  parent : ∀ g, t'.parent g = if t.parent g = some d then none else t.parent g
  lists : ∀ D n g, t'.Lists D n g ↔ D ≠ d ∧ t.Lists D n g
  mount : ∀ D n e, t'.mount D n = some e → t.mount D n = some e
  entries : ∀ D n g, (n, g) ∈ t'.entries D → (n, g) ∈ t.entries D

theorem Drops.rooted (hdrop : t.Drops t' d) (hd : ¬ t.Rooted d) : t'.Rooted D ↔ t.Rooted D := by
  refine ⟨?_, ?_⟩
  · intro hD
    induction hD with
    | root => rw [hdrop.root]; exact .root
    | listed D n g _ hn ih => exact .listed D n g ih ((hdrop.lists D n g).mp hn).2
  · intro hD
    induction hD with
    | root => rw [← hdrop.root]; exact .root
    | listed D n g hD hn ih =>
      refine .listed D n g ih ((hdrop.lists D n g).mpr ⟨?_, hn⟩)
      rintro rfl
      exact hd hD

/-- A directory that is not in use may go. -/
theorem Consistent.drop (h : t.Consistent H) (hdrop : t.Drops t' d) (hd : ¬ t.Rooted d)
    (hH : ¬ H d) : t'.Consistent H := by
  have hparent : ∀ {g p}, t'.parent g = some p → t.parent g = some p := by
    intro g p hp
    rw [hdrop.parent] at hp
    split at hp
    · cases hp
    · exact hp
  refine ⟨?_, ?_, ?_, ?_, ?_, ?_⟩
  · intro D hD
    rcases h.live D hD with hempty | hrooted
    · exact .inl (empty_iff.mpr fun n g hn => empty_iff.mp hempty n g ((hdrop.lists D n g).mp hn).2)
    · exact .inr ((hdrop.rooted hd).mpr hrooted)
  · intro D n g hD hn
    obtain ⟨hne, hn⟩ := (hdrop.lists D n g).mp hn
    have hp := h.lists_parent D n g ((hdrop.rooted hd).mp hD) hn
    rw [hdrop.parent, hp, if_neg fun heq => hne (Option.some.inj heq)]
  · intro D n e g hD he hmem
    exact h.apart D n e g ((hdrop.rooted hd).mp hD) (hdrop.mount D n e he) (hdrop.entries D n g hmem)
  · intro D n g hD hn
    exact h.names D n g ((hdrop.rooted hd).mp hD) ((hdrop.lists D n g).mp hn).2
  · intro g D hg hD hroot hp
    obtain ⟨n, hn⟩ := h.parent_lists g D hg hD (hdrop.root ▸ hroot) (hparent hp)
    refine ⟨n, (hdrop.lists D n g).mpr ⟨?_, hn⟩⟩
    rintro rfl
    exact hH hD
  · intro g
    rw [hdrop.root]
    refine (h.ends g).rewire fun y => ?_
    rw [hdrop.parent]
    split
    · exact .inr (.inl rfl)
    · exact .inl rfl

end Drop

end Tree

end WasmFS
