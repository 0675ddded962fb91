-- SUMMARY: When rename does what it should: the names it moves, replaces and leaves alone, for every reachable tree.
import Emscripten.WasmFS.Runs

/-!
# Renaming

A rename should move one binding of the tree and leave all others alone. It does so
unless one of the names is "." or "..", the new name is a mount and the old one is not,
or the old name is a mount that hides an entry of the backend.
-/

namespace WasmFS

open Assoc

variable {D : FileId} {n : Name}

namespace Tree

/-! ## The bindings of a tree -/

/-- The name `n` of `d` is bound to `f`. -/
def Binds (t : Tree) (d : FileId) (n : Name) (f : FileId) : Prop :=
  n ≠ dot ∧ n ≠ dotDot ∧ t.child d n = some f

/-- Some path of names leads from the root to the file. -/
inductive ByName (t : Tree) : FileId → Prop
  | root : ByName t t.root
  | child (d : FileId) (n : Name) (f : FileId) (hd : ByName t d) (h : t.Binds d n f) : ByName t f

/-- `t'` is `t` after a rename of the name `a` of `P` to the name `b` of `Q`. -/
structure Renamed (t t' : Tree) (P : FileId) (a : Name) (Q : FileId) (b : Name) : Prop where
  new : t'.child Q b = t.child P a
  old : t'.child P a = none
  replaced : ∀ g, t.child Q b = some g → ∀ D n, ¬ t'.Binds D n g
  others : ∀ D n, t.ByName D → n ≠ dot → n ≠ dotDot → (D, n) ≠ (P, a) → (D, n) ≠ (Q, b) →
    t'.child D n = t.child D n

/-- The names that a rename handles. -/
structure Renamable (t : Tree) (P : FileId) (a : Name) (Q : FileId) (b : Name) : Prop where
  old_name : a ≠ dot ∧ a ≠ dotDot
  new_name : b ≠ dot ∧ b ≠ dotDot
  /-- A mount is only replaced by a mount. -/
  target : t.mount Q b ≠ none → t.mount P a ≠ none
  /-- A mount that leaves uncovers no entry, unless its directory is the entry that the
  rename removes behind the new name. -/
  source : t.mount P a ≠ none → (∀ x, (a, x) ∈ t.entries P → t.child P a = some x) ∨
    (b, P) ∈ t.entries Q

section Child

variable {t : Tree} {d : FileId} {n : Name}

theorem child_of_mount (hp : t.parent d ≠ none) (hn : n ≠ dot ∧ n ≠ dotDot) {e : DCacheEntry}
    (he : t.mount d n = some e) : t.child d n = some e.file :=
  (child_eq_some hn.1 hn.2).mpr ⟨hp, .inl ⟨e, he, rfl⟩⟩

theorem child_of_entry (hp : t.parent d ≠ none) (hn : n ≠ dot ∧ n ≠ dotDot)
    (hm : t.mount d n = none) : t.child d n = (t.entries d).lookup n := by
  cases hl : (t.entries d).lookup n with
  | none => exact (child_eq_none hp).mpr ⟨hn.1, hn.2, hm, hl⟩
  | some f => exact (child_eq_some hn.1 hn.2).mpr ⟨hp, .inr ⟨hm, hl⟩⟩

/-- Two trees agree on a name where the directory, the mounts and the entries do. -/
theorem child_congr {t' : Tree} (hn : n ≠ dot ∧ n ≠ dotDot)
    (hp : t'.parent d = none ↔ t.parent d = none) (hm : t'.mount d n = t.mount d n)
    (he : (t'.entries d).lookup n = (t.entries d).lookup n) : t'.child d n = t.child d n := by
  by_cases hnone : t.parent d = none
  · rw [child_eq_none_of_parent hnone, child_eq_none_of_parent (hp.mpr hnone)]
  · have hnone' : t'.parent d ≠ none := fun h => hnone (hp.mp h)
    cases hmount : t.mount d n with
    | none => rw [child_of_entry hnone hn hmount, child_of_entry hnone' hn (hm.trans hmount), he]
    | some e => rw [child_of_mount hnone hn hmount, child_of_mount hnone' hn (hm.trans hmount)]

end Child

/-! ## A move, name by name -/

/-- A move that `__syscall_renameat` makes after its checks. -/
structure RenameMove (t t' : Tree) (P : FileId) (a : Name) (f R Q : FileId) (b : Name) : Prop where
  linked : t.Linked
  moved : t.Moved t' R Q b f
  found : t.child P a = some f
  differs : t.child Q b ≠ some f
  parent : t.parent f = some R
  not_unlinked : t.parent Q ≠ none
  ne : f ≠ Q
  not_root : f ≠ t.root
  target_not_root : t.child Q b ≠ some t.root
  empty : ∀ g, t.child Q b = some g → t.Empty g

namespace RenameMove

variable {t t' : Tree} {P f R Q : FileId} {a b : Name}

/-- The new directory replaces no file by itself. -/
theorem parent_target (h : RenameMove t t' P a f R Q b) : t'.parent Q = t.parent Q := by
  rcases h.moved.parent_other Q h.ne.symm with hsame | ⟨_, hentry | ⟨_, o, ho, hfile⟩⟩
  · exact hsame
  · have hroot := h.linked.only_root Q (h.linked.entry_parent Q b Q hentry)
    exact absurd (hroot ▸ hentry) (h.linked.root_entry _ b)
  · rcases h.linked.mount_parent Q b o ho with hp | hp
    · rw [hfile] at hp
      exact absurd (hfile.trans (h.linked.only_root Q hp)) (h.linked.root_mount Q b o ho)
    · exact absurd (hfile ▸ hp) h.not_unlinked

/-- The old name is in the directory that the file names as its parent: as an entry, and
the move leaves the mounts alone, or as a mount, and the move takes it along. -/
theorem source (h : RenameMove t t' P a f R Q b) (ha : a ≠ dot ∧ a ≠ dotDot) :
    P = R ∧ ((t.NoMount f ∧ t.mount P a = none ∧ (a, f) ∈ t.entries P ∧
        ∀ D n, t'.mount D n = t.mount D n) ∨
      ∃ e, t.mount P a = some e ∧ e.file = f ∧ ∀ D n, t'.mount D n =
        if D = Q ∧ n = b then some e else if D = P ∧ n = a then none else t.mount D n) := by
  obtain ⟨_, ⟨e, he, hfile⟩ | ⟨hm, hl⟩⟩ := (child_eq_some ha.1 ha.2).mp h.found
  · have hPR : P = R := by
      rcases h.linked.mount_parent P a e he with hp | hp
      · rw [hfile, h.parent] at hp
        exact (Option.some.inj hp).symm
      · rw [hfile, h.parent] at hp
        cases hp
    subst hPR
    refine ⟨rfl, .inr ⟨e, he, hfile, ?_⟩⟩
    rcases h.moved.mount with ⟨hno, _⟩ | ⟨a', e', he', hfile', hmount⟩
    · exact absurd hfile (hno P a e he)
    · obtain ⟨_, rfl⟩ := h.linked.mount_unique P P a a' e e' he he' (hfile.trans hfile'.symm)
      rw [he] at he'
      cases he'
      exact hmount
  · have hmem := h.linked.lookup_iff.mp hl
    have hp := h.linked.entry_parent P a f hmem
    rw [h.parent] at hp
    have hno : t.NoMount f := by
      rintro D n e he rfl
      obtain ⟨rfl, rfl⟩ := h.linked.entry_eq_mount hmem he
      rw [hm] at he
      cases he
    refine ⟨(Option.some.inj hp).symm, .inl ⟨hno, hm, hmem, ?_⟩⟩
    rcases h.moved.mount with ⟨_, hmount⟩ | ⟨a', e', he', hfile', _⟩
    · exact hmount
    · exact absurd hfile' (hno R a' e' he')

/-- Away from the new name, the entry vectors lose the moved file only. -/
theorem lookup_other (h : RenameMove t t' P a f R Q b) (hnew : ¬ (D = Q ∧ n = b)) (hold : (n, f) ∉ t.entries D) :
    (t'.entries D).lookup n = (t.entries D).lookup n := by
  apply Option.ext
  intro x
  rw [h.moved.linked.lookup_iff, h.linked.lookup_iff, h.moved.entries]
  refine ⟨?_, ?_⟩
  · rintro (⟨hD, hn, _⟩ | ⟨hx, _, _⟩)
    · exact absurd ⟨hD, hn⟩ hnew
    · exact hx
  · intro hx
    refine .inr ⟨hx, ?_, hnew⟩
    rintro rfl
    exact hold hx

theorem lookup_new (h : RenameMove t t' P a f R Q b) : (t'.entries Q).lookup b = some f := by
  rw [h.moved.linked.lookup_iff, h.moved.entries]
  exact .inl ⟨rfl, rfl, rfl⟩

/-! ### A name that is "." or ".." -/

theorem parent_old (h : RenameMove t t' P a f R Q b) (ha : a = dot ∨ a = dotDot) :
    t'.parent P ≠ none := by
  rcases ha with rfl | rfl
  · -- `P` is the moved file.
    have hP : P = f := by
      cases hp : t.parent P with
      | none => exact absurd h.found (by rw [child_eq_none_of_parent hp]; simp)
      | some p => exact Option.some.inj ((child_dot hp).symm.trans h.found)
    rw [hP, h.moved.parent_moved]
    simp
  · -- `P` is a child of the moved file, so it is not what is replaced.
    have hpf : t.parent P = some f := by
      cases hp : t.parent P with
      | none => exact absurd h.found (by rw [child_eq_none_of_parent hp]; simp)
      | some p => exact (child_dotDot hp).symm.trans h.found
    by_cases hPf : P = f
    · rw [hPf, h.moved.parent_moved]
      simp
    · rcases h.moved.parent_other P hPf with hsame | ⟨_, hentry | ⟨_, o, ho, hfile⟩⟩
      · rw [hsame, hpf]
        simp
      · have hQ := h.linked.entry_parent Q b P hentry
        rw [hpf] at hQ
        exact absurd (Option.some.inj hQ) h.ne
      · rcases h.linked.mount_parent Q b o ho with hp | hp
        · rw [hfile, hpf] at hp
          exact absurd (Option.some.inj hp) h.ne
        · rw [hfile, hpf] at hp
          cases hp

theorem not_renamed_old (h : RenameMove t t' P a f R Q b) (ha : a = dot ∨ a = dotDot) :
    ¬ t.Renamed t' P a Q b := by
  intro hren
  have hnone := hren.old
  cases hp : t'.parent P with
  | none => exact h.parent_old ha hp
  | some p =>
    rcases ha with rfl | rfl
    · rw [child_dot hp] at hnone
      cases hnone
    · rw [child_dotDot hp] at hnone
      cases hnone

theorem not_renamed_new (h : RenameMove t t' P a f R Q b) (hb : b = dot ∨ b = dotDot) :
    ¬ t.Renamed t' P a Q b := by
  intro hren
  have hnew := hren.new
  rw [h.found] at hnew
  have hsame : t'.child Q b = t.child Q b := by
    cases hp : t.parent Q with
    | none => exact absurd hp h.not_unlinked
    | some p =>
      have hp' := h.parent_target.trans hp
      rcases hb with rfl | rfl
      · rw [child_dot hp, child_dot hp']
      · rw [child_dotDot hp, child_dotDot hp']
  exact h.differs (hsame.symm.trans hnew)

/-! ### Proper names -/

/-- The new name leads to the moved file, unless a mount stays in front of it. -/
theorem new_iff (h : RenameMove t t' P a f R Q b) (ha : a ≠ dot ∧ a ≠ dotDot)
    (hb : b ≠ dot ∧ b ≠ dotDot) :
    t'.child Q b = some f ↔ (t.mount Q b ≠ none → t.mount P a ≠ none) := by
  have hparent : t'.parent Q ≠ none := by
    rw [h.parent_target]
    exact h.not_unlinked
  obtain ⟨_, ⟨hno, hPa, _, hmount⟩ | ⟨e, he, hfile, hmount⟩⟩ := h.source ha
  · cases ho : t.mount Q b with
    | none =>
      rw [child_of_entry hparent hb ((hmount Q b).trans ho), h.lookup_new]
      simp
    | some o =>
      rw [child_of_mount hparent hb ((hmount Q b).trans ho), hPa]
      refine ⟨fun heq => absurd (Option.some.inj heq) (hno Q b o ho), ?_⟩
      intro himp
      exact absurd rfl (himp (by simp))
  · have hnew : t'.mount Q b = some e := by rw [hmount, if_pos ⟨rfl, rfl⟩]
    rw [child_of_mount hparent hb hnew, hfile, he]
    simp

/-- The mounts that a move leaves in other places. -/
theorem mount_other (h : RenameMove t t' P a f R Q b) (ha : a ≠ dot ∧ a ≠ dotDot) (hnew : ¬ (D = Q ∧ n = b))
    (hold : ¬ (D = P ∧ n = a)) : t'.mount D n = t.mount D n := by
  obtain ⟨_, ⟨_, _, _, hmount⟩ | ⟨e, _, _, hmount⟩⟩ := h.source ha
  · exact hmount D n
  · rw [hmount, if_neg hnew, if_neg hold]

/-- The old name is free of mounts. -/
theorem mount_old (h : RenameMove t t' P a f R Q b) (ha : a ≠ dot ∧ a ≠ dotDot)
    (hne : (P, a) ≠ (Q, b)) : t'.mount P a = none := by
  have hnew : ¬ (P = Q ∧ a = b) := fun heq => hne (Prod.ext heq.1 heq.2)
  obtain ⟨_, ⟨_, hPa, _, hmount⟩ | ⟨e, _, _, hmount⟩⟩ := h.source ha
  · exact (hmount P a).trans hPa
  · rw [hmount, if_neg hnew, if_pos ⟨rfl, rfl⟩]

/-- The directory of the old name goes away where it is an entry behind the new name. -/
theorem parent_source (h : RenameMove t t' P a f R Q b) (ha : a ≠ dot ∧ a ≠ dotDot)
    (hb : b ≠ dot ∧ b ≠ dotDot) : t'.parent P = none ↔ (b, P) ∈ t.entries Q := by
  have hPf : P ≠ f := by
    obtain ⟨hPR, _⟩ := h.source ha
    intro heq
    have hself := h.parent
    rw [← hPR, heq] at hself
    exact h.not_root (h.linked.only_root f hself)
  have hp : t.parent P ≠ none := ((child_eq_some ha.1 ha.2).mp h.found).1
  refine ⟨?_, fun hentry => h.moved.parent_replaced P hentry hPf⟩
  intro hnone
  rcases h.moved.parent_other P hPf with hsame | ⟨_, hentry | ⟨hmount, o, ho, hfile⟩⟩
  · exact absurd (hsame.symm.trans hnone) hp
  · exact hentry
  · -- The directory would be the replaced mount, which lists nothing.
    have hempty := h.empty P (hfile ▸ child_of_mount h.not_unlinked hb ho)
    obtain ⟨_, ⟨_, _, hmem, _⟩ | ⟨e, he, _⟩⟩ := h.source ha
    · rw [hempty.1] at hmem
      exact absurd hmem List.not_mem_nil
    · rw [hempty.2] at he
      cases he

/-- The old name is free after the move, unless the mount that has left it hid an entry. -/
theorem old_iff (h : RenameMove t t' P a f R Q b) (ha : a ≠ dot ∧ a ≠ dotDot)
    (hb : b ≠ dot ∧ b ≠ dotDot) (hne : (P, a) ≠ (Q, b)) :
    t'.child P a = none ↔ (t.mount P a ≠ none →
      (∀ x, (a, x) ∈ t.entries P → t.child P a = some x) ∨ (b, P) ∈ t.entries Q) := by
  have hnew : ¬ (P = Q ∧ a = b) := fun heq => hne (Prod.ext heq.1 heq.2)
  have hlookup : (t'.entries P).lookup a = none ↔ ∀ x, (a, x) ∈ t.entries P → t.child P a = some x := by
    rw [lookup_eq_none, h.found]
    simp only [h.moved.entries, Option.some.injEq]
    refine ⟨?_, ?_⟩
    · intro hfree x hx
      by_contra hxf
      exact hfree x (.inr ⟨hx, Ne.symm hxf, hnew⟩)
    · rintro hall x (⟨hP, ha', _⟩ | ⟨hx, hxf, _⟩)
      · exact hnew ⟨hP, ha'⟩
      · exact hxf (hall x hx).symm
  have hchild : t'.child P a = none ↔ (t'.entries P).lookup a = none ∨ (b, P) ∈ t.entries Q := by
    rw [← h.parent_source ha hb]
    by_cases hp : t'.parent P = none
    · simp [child_eq_none_of_parent hp, hp]
    · rw [child_of_entry hp ha (h.mount_old ha hne)]
      simp [hp]
  rw [hchild, hlookup]
  refine ⟨fun hfree _ => hfree, ?_⟩
  intro himp
  obtain ⟨_, ⟨_, _, hmem, _⟩ | ⟨e, he, _⟩⟩ := h.source ha
  · -- An entry hides nothing.
    refine .inl fun x hx => ?_
    have heq := List.inj_on_of_nodup_map (h.linked.names_nodup P) hx hmem rfl
    cases heq
    exact h.found
  · exact himp (by rw [he]; simp)

/-- What the tree can reach of the replaced files is the file under the new name. -/
theorem target_of_replaced (h : RenameMove t t' P a f R Q b) (hD : t.ByName D) (hentry : (b, D) ∈ t.entries Q) :
    t.child Q b = some D := by
  cases hD with
  | root => exact absurd hentry (h.linked.root_entry Q b)
  | child D' n' _ _ hbinds =>
    obtain ⟨hdot, hdots, hchild⟩ := hbinds
    have hplace : Q = D' ∧ b = n' := by
      obtain ⟨_, ⟨e, he, hfile⟩ | ⟨_, hl⟩⟩ := (child_eq_some hdot hdots).mp hchild
      · subst hfile
        exact h.linked.entry_eq_mount hentry he
      · exact h.linked.entry_unique hentry (h.linked.lookup_iff.mp hl)
    rw [hplace.1, hplace.2]
    exact hchild

theorem others (h : RenameMove t t' P a f R Q b) (ha : a ≠ dot ∧ a ≠ dotDot) (hb : b ≠ dot ∧ b ≠ dotDot)
    (hD : t.ByName D) (hn : n ≠ dot ∧ n ≠ dotDot) (hold : (D, n) ≠ (P, a)) (hnew : (D, n) ≠ (Q, b)) :
    t'.child D n = t.child D n := by
  have hold' : ¬ (D = P ∧ n = a) := fun heq => hold (Prod.ext heq.1 heq.2)
  have hnew' : ¬ (D = Q ∧ n = b) := fun heq => hnew (Prod.ext heq.1 heq.2)
  have hmoved : (n, f) ∉ t.entries D := by
    intro hmem
    obtain ⟨_, ⟨_, _, hsource, _⟩ | ⟨e, he, rfl, _⟩⟩ := h.source ha
    · exact hold' (h.linked.entry_unique hmem hsource)
    · exact hold' (h.linked.entry_eq_mount hmem he)
  have hcongr : (t'.parent D = none ↔ t.parent D = none) → t'.child D n = t.child D n := fun hp =>
    child_congr hn hp (h.mount_other ha hnew' hold') (h.lookup_other hnew' hmoved)
  -- A directory that has been replaced listed nothing.
  have hreplaced : t'.parent D = none → t.child Q b = some D → t'.child D n = t.child D n := by
    intro hnone hchild
    have hempty := h.empty D hchild
    rw [child_eq_none_of_parent hnone]
    by_cases hp : t.parent D = none
    · rw [child_eq_none_of_parent hp]
    · rw [child_of_entry hp hn (hempty.2 n), hempty.1]
      rfl
  by_cases hDf : D = f
  · apply hcongr
    rw [hDf, h.moved.parent_moved, h.parent]
    simp
  · rcases h.moved.parent_other D hDf with hsame | ⟨hnone, hentry | ⟨_, o, ho, hfile⟩⟩
    · exact hcongr (by rw [hsame])
    · exact hreplaced hnone (h.target_of_replaced hD hentry)
    · exact hreplaced hnone (hfile ▸ child_of_mount h.not_unlinked hb ho)

/-- The replaced file has lost its name. -/
theorem replaced (h : RenameMove t t' P a f R Q b) (ha : a ≠ dot ∧ a ≠ dotDot)
    (hb : b ≠ dot ∧ b ≠ dotDot) (htarget : t.mount Q b ≠ none → t.mount P a ≠ none) {g : FileId}
    (hg : t.child Q b = some g) (D : FileId) (n : Name) : ¬ t'.Binds D n g := by
  rintro ⟨hdot, hdots, hchild⟩
  have hgf : g ≠ f := by
    rintro rfl
    exact h.differs hg
  obtain ⟨_, hplace⟩ := (child_eq_some hb.1 hb.2).mp hg
  obtain ⟨_, ⟨e', he', hfile'⟩ | ⟨_, hl⟩⟩ := (child_eq_some hdot hdots).mp hchild
  · -- A mount of the replaced file was one before, and is not the one that was moved.
    have hold : t.mount D n = some e' ∧ (¬ (D = Q ∧ n = b) ∨ t.mount P a = none) := by
      obtain ⟨_, ⟨_, hPa, _, hmount⟩ | ⟨e, _, hfile, hmount⟩⟩ := h.source ha
      · exact ⟨(hmount D n).symm.trans he', .inr hPa⟩
      · rw [hmount] at he'
        split at he'
        · cases he'
          exact absurd (hfile'.symm.trans hfile) hgf
        · next hne =>
            split at he'
            · cases he'
            · exact ⟨he', .inl hne⟩
    obtain ⟨hm, hne⟩ := hold
    rcases hplace with ⟨o, ho, hfile⟩ | ⟨hmount, hl⟩
    · rcases hne with hne | hPa
      · exact hne (h.linked.mount_unique D Q n b e' o hm ho (hfile'.trans hfile.symm))
      · exact htarget (by rw [ho]; simp) hPa
    · have hentry := h.linked.lookup_iff.mp hl
      subst hfile'
      obtain ⟨rfl, rfl⟩ := h.linked.entry_eq_mount hentry hm
      rw [hmount] at hm
      cases hm
  · rcases (h.moved.entries D n g).mp (h.moved.linked.lookup_iff.mp hl) with
      ⟨_, _, hf⟩ | ⟨hmem, _, hne⟩
    · exact hgf hf
    · rcases hplace with ⟨o, ho, rfl⟩ | ⟨_, hlookup⟩
      · exact hne (h.linked.entry_eq_mount hmem ho)
      · exact hne (h.linked.entry_unique hmem (h.linked.lookup_iff.mp hlookup))

/-- A move between different names renames if and only if it can. -/
theorem renamed_iff (h : RenameMove t t' P a f R Q b) (hne : (P, a) ≠ (Q, b)) :
    t.Renamed t' P a Q b ↔ t.Renamable P a Q b := by
  by_cases ha : a ≠ dot ∧ a ≠ dotDot
  · by_cases hb : b ≠ dot ∧ b ≠ dotDot
    · refine ⟨?_, ?_⟩
      · intro hren
        refine ⟨ha, hb, ?_, ?_⟩
        · exact (h.new_iff ha hb).mp (hren.new.trans h.found)
        · exact (h.old_iff ha hb hne).mp hren.old
      · intro hcan
        refine ⟨?_, (h.old_iff ha hb hne).mpr hcan.source, ?_, ?_⟩
        · exact ((h.new_iff ha hb).mpr hcan.target).trans h.found.symm
        · intro g hg D n
          exact h.replaced ha hb hcan.target hg D n
        · intro D n hD hdot hdots hold hnew
          exact h.others ha hb hD ⟨hdot, hdots⟩ hold hnew
    · have hdots : b = dot ∨ b = dotDot := by
        by_contra hnot
        exact hb ⟨fun hd => hnot (.inl hd), fun hd => hnot (.inr hd)⟩
      exact iff_of_false (h.not_renamed_new hdots) fun hcan => hb hcan.new_name
  · have hdots : a = dot ∨ a = dotDot := by
      by_contra hnot
      exact ha ⟨fun hd => hnot (.inl hd), fun hd => hnot (.inr hd)⟩
    exact iff_of_false (h.not_renamed_old hdots) fun hcan => ha hcan.old_name

end RenameMove

end Tree

/-! ## The syscall -/

/-- What `Renames` knows, as facts of the tree. -/
theorem FS.Sound.renameMove {s s' : FS} (h : s.Sound) {c : Call} {P f Q R : FileId} {a b : Name}
    (hrenames : c.Renames s P a f Q b) (hR : s.tree.parent f = some R)
    (hmoved : s.tree.Moved s'.tree R Q b f) : Tree.RenameMove s.tree s'.tree P a f R Q b := by
  cases c with
  | renameat olddirfd oldpath newdirfd newpath =>
    obtain ⟨_, _, hfound, hdiffers, hQ, hcheck⟩ := hrenames
    have hmovable := (reads_renameCheck P Q f (s.tree.child Q b) s (.ok ()) hcheck).2 () rfl
    refine ⟨h.tree.linked, hmoved, hfound, hdiffers, hR, hQ, hmovable.ne, hmovable.not_root,
      hmovable.new_not_root, ?_⟩
    intro g hg
    by_cases hdir : (s.file g).kind = .directory
    · exact FS.getNumEntries_eq_zero (hmovable.replaceable g hg hdir).2 h.tree.linked
    · exact h.tree.leaf g hdir
  | _ => exact hrenames.elim

theorem FS.Leads.unique {s : FS} {path : Path} {dirfd : Int} {d d' : FileId} {n' : Name}
    (h : s.Leads path dirfd d n) (h' : s.Leads path dirfd d' n') : d = d' ∧ n = n' := by
  have heq := h.symm.trans h'
  cases heq
  exact ⟨rfl, rfl⟩

/-- A rename that returns 0 between different names does what it should if and only if the
names are ones it handles. -/
theorem rename_iff {s s' : FS} (hs : Reachable s) {olddirfd newdirfd : Int} {oldpath newpath : Path}
    {P Q : FileId} {a b : Name}
    (hr : (Call.renameat olddirfd oldpath newdirfd newpath).exec s = some (s', .ok ()))
    (hold : s.Leads oldpath olddirfd P a) (hnew : s.Leads newpath newdirfd Q b)
    (hne : (P, a) ≠ (Q, b)) :
    s.tree.Renamed s'.tree P a Q b ↔ s.tree.Renamable P a Q b := by
  have h := hs.sound
  rcases renameat_cases h.tree h.existing (fun _ => id) hr with
    ⟨e, _, herr⟩ | ⟨P', a', Q', b', f, hold', hnew', _, _, hf, _, hdone⟩
  · cases herr
  obtain ⟨rfl, rfl⟩ := hold.unique hold'
  obtain ⟨rfl, rfl⟩ := hnew.unique hnew'
  rcases hdone with ⟨rfl, hsame⟩ | ⟨hrenames, R, hR, _, _, _, hmoved⟩
  · -- Both names are of one file, and nothing has been done.
    refine iff_of_false (fun hren => ?_) fun hcan => ?_
    · have hnone := hren.old
      rw [hf] at hnone
      cases hnone
    · obtain ⟨hP, ha⟩ := h.tree.linked.child_unique hcan.old_name hcan.new_name hf hsame
      exact hne (Prod.ext hP ha)
  · exact (h.renameMove hrenames hR hmoved).renamed_iff hne

/-! ### Two directories -/

/-- An instance with the directories "x" and "y" in its root. -/
def withDirectories : FS :=
  ((FS.init 0 Env.quiet).after (.mkdirat AT_FDCWD "/x".toList 0o777)).after
    (.mkdirat AT_FDCWD "/y".toList 0o777)

theorem reachable_withDirectories : Reachable withDirectories :=
  ((Reachable.init 0 Env.quiet).after 1 _ rfl (by decide)).after 1 _ rfl (by decide)

/-- The last component "/x" leads to, and "/y/x" and "/y/." lead to. -/
theorem leads_withDirectories :
    withDirectories.Leads "/x".toList AT_FDCWD 3 "x".toList ∧
      withDirectories.Leads "/y/x".toList AT_FDCWD 10 "x".toList ∧
      withDirectories.Leads "/y/.".toList AT_FDCWD 10 dot := by
  have h := reachable_withDirectories.sound
  exact ⟨h.leads rfl, h.leads rfl, h.leads rfl⟩

/-- Renaming "/x" to "/y/x". -/
theorem rename_iff_into_directory :
    withDirectories.tree.Renamed (withDirectories.after
      (.renameat AT_FDCWD "/x".toList AT_FDCWD "/y/x".toList)).tree 3 "x".toList 10 "x".toList := by
  obtain ⟨hold, hnew, _⟩ := leads_withDirectories
  refine (rename_iff reachable_withDirectories (FS.exec_after rfl) hold hnew (by decide)).mpr ?_
  exact ⟨by decide, by decide, fun hm => absurd rfl hm, fun hm => absurd rfl hm⟩

/-- Renaming "/x" to "/y/." returns 0, and "/y/." does not name the moved directory. -/
theorem rename_onto_dot_loses_file :
    ¬ ∀ (s s' : FS), Reachable s → ∀ (olddirfd : Int) (oldpath : Path) (newdirfd : Int)
      (newpath : Path) (P : FileId) (a : Name) (Q : FileId) (b : Name),
      (Call.renameat olddirfd oldpath newdirfd newpath).exec s = some (s', .ok ()) →
      s.Leads oldpath olddirfd P a → s.Leads newpath newdirfd Q b → (P, a) ≠ (Q, b) →
      s.tree.Renamed s'.tree P a Q b := by
  intro hall
  obtain ⟨hold, _, hnew⟩ := leads_withDirectories
  have hren := hall withDirectories _ reachable_withDirectories _ _ _ _ _ _ _ _ (FS.exec_after rfl)
    hold hnew (by decide)
  have hfound := hren.new
  exact absurd hfound (by decide)

end WasmFS
