-- SUMMARY: The entries, mounts and parent pointers of a tree agree over every run without the removals and renames that break them.
import Emscripten.WasmFS.Rename
import Emscripten.WasmFS.Rooted

/-!
# Consistent runs

The removal of a mount leaves the parent pointer of the mounted file in place, and a
rename stores a mount a second time. A run whose calls do neither to a file in use
keeps the three stores of the tree in agreement.
-/

namespace WasmFS

open Chain Prog

/-! ## What is held -/

variable {n : Name} {d f : FileId} {c : Call}

section Held

variable {s : FS} {f : FileId}

theorem FS.Held.listed (hd : s.Held d) (h : s.tree.Lists d n f) : s.Held f := by
  rcases h with hmem | ⟨e, he, rfl⟩
  · exact .entry d f n hd hmem
  · exact .mount d e n hd he

/-- What is held is in every set that has the root, the working directory and the open
files, and that listing does not lead out of. -/
theorem FS.Held.of_closed {K : FileId → Prop} (hroot : K s.rootDirectory) (hcwd : K s.cwd)
    (hopened : ∀ o, some o ∈ s.fileTable → K (s.openFile o).file)
    (hlists : ∀ d n g, K d → s.tree.Lists d n g → K g) (h : s.Held f) : K f := by
  induction h with
  | root => exact hroot
  | cwd => exact hcwd
  | opened o ho => exact hopened o ho
  | entry d f n _ hmem ih => exact hlists d n f ih (.inl hmem)
  | mount d e n _ he ih => exact hlists d n e.file ih (.inr ⟨e, he, rfl⟩)

theorem FS.Held.of_rooted (h : s.tree.Rooted f) : s.Held f := by
  induction h with
  | root => exact .root
  | listed d n f _ hf ih => exact ih.listed hf

theorem FS.Sound.held_lt (h : s.Sound) (hf : s.Held f) : f < s.nextFile := by
  refine FS.Held.of_closed (K := fun f => f < s.nextFile) h.existing.root h.existing.cwd
    h.existing.opened ?_ hf
  intro d n g _ hg
  exact h.tree.linked.listed_lt h.tree.within hg

/-- Resolutions stay among the files that are held. -/
theorem FS.Sound.closed_held (h : s.Sound) (hsettled : s.Settled) : s.Closed s.Held where
  root := .root
  cwd := .cwd
  opened o ho := .opened o ho
  child d n c hd hc := by
    by_cases hn : n ≠ dot ∧ n ≠ dotDot
    · obtain ⟨_, hmount | ⟨_, hl⟩⟩ := (Tree.child_eq_some hn.1 hn.2).mp hc
      · exact hd.listed (.inr hmount)
      · exact hd.listed (.inl (h.tree.linked.lookup_iff.mp hl))
    · cases hp : s.tree.parent d with
      | none =>
        rw [Tree.child_eq_none_of_parent hp] at hc
        cases hc
      | some p =>
        by_cases hdot : n = dot
        · subst hdot
          rw [Tree.child_dot hp] at hc
          cases hc
          exact hd
        · have hdots : n = dotDot := by
            by_contra hne
            exact hn ⟨hdot, hne⟩
          subst hdots
          rw [Tree.child_dotDot hp] at hc
          exact Option.some.inj hc ▸ hsettled d p hp

theorem FS.Sound.leads_held (h : s.Sound) (hsettled : s.Settled) {path : Path} {dirfd : Int}
    (hlead : s.Leads path dirfd d n) : s.Held d :=
  ((Path.reads_parseParent h.tree (h.closed_held hsettled) path dirfd s _ hlead).2 _ rfl).1

theorem FS.Sound.orNew_listed (h : s.Sound) (hd : s.OrNew s.Held d) (hf : s.tree.Lists d n f) :
    s.OrNew s.Held f := by
  rcases hd with hd | hnew
  · exact .inl (hd.listed hf)
  · exact absurd (h.tree.within.lister_lt hf) (Nat.not_lt.mpr hnew)

end Held

/-- The invariant of the runs without the calls that break the tree. -/
structure FS.Consistent (s : FS) : Prop where
  sound : s.Sound
  tree : s.tree.Consistent s.Held

/-! ## The initial state -/

section Init

variable (root : Nat) (env : Env)

theorem init_lists (h : (FS.init root env).tree.Lists d n f) :
    (d = 3 ∧ (n, f) ∈ [("dev".toList, 4), ("tmp".toList, 8)]) ∨ (d = 4 ∧ (n, f) ∈ devices) := by
  rcases h with hmem | ⟨e, he, rfl⟩
  · rw [init_entries] at hmem
    split at hmem
    · next hd => exact .inl ⟨hd, hmem⟩
    · exact absurd hmem List.not_mem_nil
  · obtain ⟨hd, _, hdev⟩ := init_mount root env he
    exact .inr ⟨hd, hdev⟩

theorem init_mount_device (h : (n, f) ∈ devices) : (FS.init root env).tree.mount 4 n = some ⟨.mount, f⟩ := by
  refine AList.mem_lookup_iff.mpr ?_
  rw [init_dcache]
  exact List.mem_map.mpr ⟨(n, f), h, rfl⟩

theorem init_rooted_dev : (FS.init root env).tree.Rooted 4 :=
  .listed 3 "dev".toList 4 .root (.inl (by rw [init_entries, if_pos rfl]; exact List.mem_cons_self))

theorem init_parent_lists (hroot : f ≠ 3) (h : (FS.init root env).tree.parent f = some d) :
    ∃ n, (FS.init root env).tree.Lists d n f := by
  rw [init_parent] at h
  split at h
  · next hlt =>
      split at h
      · next hdir =>
          have hnames : ∀ g, g = 3 ∨ g = 4 ∨ g = 8 → g ≠ 3 →
              ∃ p ∈ [("dev".toList, 4), ("tmp".toList, 8)], p.2 = g := by
            rintro g (rfl | rfl | rfl)
            · exact fun hne => absurd rfl hne
            · exact fun _ => ⟨_, List.mem_cons_self, rfl⟩
            · exact fun _ => ⟨_, List.mem_cons_of_mem _ List.mem_cons_self, rfl⟩
          obtain ⟨⟨n, _⟩, hmem, rfl⟩ := hnames f hdir hroot
          refine ⟨n, .inl ?_⟩
          rw [init_entries, if_pos (Option.some.inj h).symm]
          exact hmem
      · next hdev =>
          have hnames : ∀ g, g < 9 → ¬ (g = 3 ∨ g = 4 ∨ g = 8) → ∃ p ∈ devices, p.2 = g := by decide
          obtain ⟨⟨n, _⟩, hmem, rfl⟩ := hnames f hlt hdev
          exact ⟨n, .inr ⟨_, Option.some.inj h ▸ init_mount_device root env hmem, rfl⟩⟩
  · cases h

theorem init_ends (f : FileId) : Ends (FS.init root env).tree.parent 3 f := by
  have hdev : Ends (FS.init root env).tree.parent 3 4 := .step (y := 3) rfl .top
  by_cases hlt : f < 9
  · by_cases hdir : f = 3 ∨ f = 4 ∨ f = 8
    · exact .step (y := 3) (by rw [init_parent, if_pos hlt, if_pos hdir]) .top
    · exact .step (y := 4) (by rw [init_parent, if_pos hlt, if_neg hdir]) hdev
  · exact .stop (by rw [init_parent, if_neg hlt])

theorem consistent_init : (FS.init root env).Consistent where
  sound := sound_init root env
  tree := {
    live := fun d _ => by
      by_cases hd : d = 3 ∨ d = 4
      · rcases hd with rfl | rfl
        · exact .inr .root
        · exact .inr (init_rooted_dev root env)
      · refine .inl (Tree.empty_iff.mpr fun n f hf => hd ?_)
        exact (init_lists root env hf).imp And.left And.left
    lists_parent := fun d n f _ hf => by
      rcases hf with hmem | ⟨e, he, rfl⟩
      · exact (linked_init root env).entry_parent d n f hmem
      · obtain ⟨rfl, _, hdev⟩ := init_mount root env he
        exact (devices_parent root env _ hdev).1
    apart := fun d n e f _ he hmem => by
      obtain ⟨rfl, _⟩ := init_mount root env he
      rw [init_entries, if_neg (by decide)] at hmem
      exact List.not_mem_nil hmem
    names := fun d n f _ hf => by
      have hroot : ∀ p ∈ [("dev".toList, 4), ("tmp".toList, 8)], p.1 ≠ dot ∧ p.1 ≠ dotDot := by decide
      have hdev : ∀ p ∈ devices, p.1 ≠ dot ∧ p.1 ≠ dotDot := by decide
      rcases init_lists root env hf with ⟨_, hmem⟩ | ⟨_, hmem⟩
      · exact hroot _ hmem
      · exact hdev _ hmem
    parent_lists := fun f d _ _ hroot hp => init_parent_lists root env hroot hp
    ends := init_ends root env }

end Init

/-! ## The calls that keep the tree consistent -/

/-- The state without the name `n` of `d`. -/
def FS.without (s : FS) (d : FileId) (n : Name) : FS :=
  (s.dcacheErase d n).modifyFile d fun x => { x with entries := Assoc.dropFirst Prod.fst n x.entries }

/-- The call breaks nothing that is in use. What it removes is an empty entry of the
backend, or nothing in use hangs on it; and it moves no mount, no file behind a mount,
and none to the name ".". -/
structure Call.Plain (c : Call) (s : FS) : Prop where
  removes : ∀ d n f, c.Removes s d n f → n ≠ dot → n ≠ dotDot →
    (s.tree.mount d n = none ∧ s.tree.Empty f) ∨ s.tree.Releases (s.without d n).Held f
  renames : ∀ P a f Q b, c.Renames s P a f Q b →
    s.tree.NoMount f ∧ s.tree.mount Q b = none ∧ b ≠ dot

/-- A step whose call, if it is one, is plain. -/
inductive PlainStep (s : FS) : FS → Prop
  | call (c : Call) (s' : FS) (r : Except Errno Unit) (hsettled : s.Settled) (hplain : c.Plain s)
      (h : c.exec s = some (s', r)) : PlainStep s s'
  | expire (d : FileId) (h : ¬ s.Held d) : PlainStep s (s.expire d)
  | other (s' : FS) (h : s.SameNames s') : PlainStep s s'

section Calls

variable {s s' : FS} {d f : FileId} {n : Name}

theorem FS.without_lists (h : s.tree.Linked) {D g : FileId} {m : Name} :
    (s.without d n).tree.Lists D m g ↔ s.tree.Lists D m g ∧ ¬ (D = d ∧ m = n) := by
  unfold FS.without Tree.Lists
  rw [FS.tree_modifyEntries, FS.tree_dcacheErase, Tree.setEntries_entries, Tree.setEntries_mount,
    Tree.setMount_mount, Tree.setMount_entries]
  by_cases hD : D = d
  · subst hD
    rw [if_pos rfl, Assoc.mem_dropFirst (h.names_nodup D)]
    by_cases hm : m = n
    · simp [hm]
    · simp [hm]
  · simp [hD]

/-- Nothing new is held after an edit that adds no name. -/
theorem FS.Edits.held (hedit : s.Edits s') {u : FS} (hu : s.Edits u)
    (hlists : ∀ D m g, s'.tree.Lists D m g → u.tree.Lists D m g) (hf : s'.Held f) : u.Held f := by
  refine FS.Held.of_closed ?_ ?_ ?_ (fun D m g hD hg => hD.listed (hlists D m g hg)) hf
  · rw [hedit.root, ← hu.root]
    exact .root
  · rw [hedit.cwd, ← hu.cwd]
    exact .cwd
  · intro o ho
    rw [hedit.table.openedFile, ← hu.table.openedFile]
    refine .opened o ?_
    rw [hu.table.fileTable, ← hedit.table.fileTable]
    exact ho

/-! ### Removal -/

/-- "." and ".." are not listed, and their removal removes nothing. -/
theorem Tree.Consistent.removeChild_dots {t : Tree} {H : FileId → Prop} (h : t.Consistent H)
    (hl : t.Linked) (hd : H d) (hn : ¬ (n ≠ dot ∧ n ≠ dotDot)) : t.removeChild d n = t := by
  have hnot : ∀ g, ¬ t.Lists d n g := fun g hg => hn (h.names d n g (h.rooted_of_lists hd hg) hg)
  unfold Tree.removeChild Tree.removeEntry
  cases hm : t.mount d n with
  | some e => exact absurd (.inr ⟨e, hm, rfl⟩) (hnot e.file)
  | none =>
    cases hc : (t.entries d).lookup n with
    | some c => exact absurd (.inl (hl.lookup_iff.mp hc)) (hnot c)
    | none => rfl

theorem Tree.Consistent.shrinks_removeChild {t : Tree} {H : FileId → Prop} (h : t.Consistent H)
    (hl : t.Linked) (hd : t.Rooted d) (hf : t.Lists d n f) : t.Shrinks (t.removeChild d n) d n f := by
  unfold Tree.removeChild
  cases hm : t.mount d n with
  | some e =>
    have hfree : ∀ g, (n, g) ∉ t.entries d := fun g => h.apart d n e g hd hm
    refine ⟨rfl, fun g => .inl rfl, hf, ?_, ?_, fun D m g hg => hg⟩
    · intro D m g
      unfold Tree.Lists
      simp only [Tree.setMount_entries, Tree.setMount_mount]
      by_cases hplace : D = d ∧ m = n
      · obtain ⟨rfl, rfl⟩ := hplace
        simp [hfree]
      · simp only [hplace, if_false, not_false_eq_true, and_true]
    · intro D m e' he
      simp only [Tree.setMount_mount] at he
      split at he
      · cases he
      · exact he
  | none =>
    refine ⟨Tree.removeEntry_root t d n, ?_, hf, ?_, ?_, ?_⟩
    · intro g
      rw [hl.removeEntry_parent]
      split
      · next hmem => exact .inr ⟨h.name_unique hl hd (.inl hmem) hf, rfl⟩
      · exact .inl rfl
    · intro D m g
      unfold Tree.Lists
      rw [hl.removeEntry_entries, Tree.removeEntry_mount]
      by_cases hplace : D = d ∧ m = n
      · obtain ⟨rfl, rfl⟩ := hplace
        simp [hm]
      · simp only [hplace, not_false_eq_true, and_true]
    · intro D m e he
      rw [Tree.removeEntry_mount] at he
      exact he
    · intro D m g hg
      exact ((hl.removeEntry_entries D m g).mp hg).1

theorem FS.edits_without (s : FS) (d : FileId) (n : Name) : s.Edits (s.without d n) :=
  (s.edits_modifyFile d rfl rfl).trans (FS.edits_modifyFile _ d rfl rfl)

theorem FS.Consistent.removed (h : s.Consistent) (hsettled : s.Settled) (hplain : c.Plain s)
    (hc : c.Removes s d n f) (hedit : s.Edits s') (htree : s'.tree = s.tree.removeChild d n) :
    s'.tree.Consistent s'.Held := by
  have hl := h.sound.tree.linked
  obtain ⟨hd, hchild⟩ : s.Held d ∧ s.tree.child d n = some f := by
    cases c with
    | unlinkat dirfd path flags => exact ⟨h.sound.leads_held hsettled hc.1, hc.2.1⟩
    | wasmfsUnmount path => exact ⟨h.sound.leads_held hsettled hc.1, hc.2.1⟩
    | _ => exact hc.elim
  by_cases hn : n ≠ dot ∧ n ≠ dotDot
  · obtain ⟨p, hp⟩ := Option.ne_none_iff_exists'.mp ((Tree.child_eq_some hn.1 hn.2).mp hchild).1
    have hrooted := h.tree.rooted hd hp (hsettled d p hp)
    have hlisted := (h.tree.child_iff hl hrooted hn (by rw [hp]; simp)).mp hchild
    have hshrinks := h.tree.shrinks_removeChild hl hrooted hlisted
    have hlists : ∀ D m g, s'.tree.Lists D m g → s.tree.Lists D m g ∧ ¬ (D = d ∧ m = n) :=
      fun D m g hg => (hshrinks.lists D m g).mp (htree ▸ hg)
    rcases hplain.removes d n f hc hn.1 hn.2 with ⟨hm, hempty⟩ | hrel
    · have hnone : (s.tree.removeChild d n).parent f = none := by
        have hmem : (n, f) ∈ s.tree.entries d := by
          rcases hlisted with hmem | ⟨e, he, _⟩
          · exact hmem
          · exact absurd (hm.symm.trans he) (by simp)
        unfold Tree.removeChild
        rw [hm]
        simp only []
        rw [hl.removeEntry_parent, if_pos hmem]
      rw [htree]
      exact h.tree.shrink hl hshrinks
        (fun g hg => hedit.held (.refl s) (fun D m g hg => (hlists D m g hg).1) hg) (.inl ⟨hempty, hnone⟩)
    · have hsub : ∀ g, (s.without d n).Held g → s.Held g := fun g hg =>
        (s.edits_without d n).held (.refl s) (fun D m g hg => ((FS.without_lists hl).mp hg).1) hg
      rw [htree]
      refine (h.tree.shrink hl hshrinks hsub (.inr hrel)).mono fun g hg => ?_
      exact hedit.held (s.edits_without d n) (fun D m g hg => (FS.without_lists hl).mpr (hlists D m g hg)) hg
  · have hsame := htree.trans (h.tree.removeChild_dots hl hd hn)
    rw [hsame]
    refine h.tree.mono fun g hg => hedit.held (.refl s) (fun D m g hg => ?_) hg
    rw [← hsame]
    exact hg

/-! ### Renaming -/

theorem FS.Consistent.renamed (h : s.Consistent) (hsettled : s.Settled) (hplain : c.Plain s) {P Q R : FileId}
    {a b : Name} (hc : c.Renames s P a f Q b) (hR : s.tree.parent f = some R) (hedit : s.Edits s')
    (hmoved : s.tree.Moved s'.tree R Q b f) : s'.tree.Consistent s'.Held := by
  have hl := h.sound.tree.linked
  have hmove := h.sound.renameMove hc hR hmoved
  obtain ⟨hno, hfree, hdot⟩ := hplain.renames P a f Q b hc
  obtain ⟨hP, hQ, hclimb⟩ : s.Held P ∧ s.Held Q ∧ s.tree.Climbs f Q := by
    cases c with
    | renameat olddirfd oldpath newdirfd newpath =>
      obtain ⟨hold, hnew, _, _, _, hcheck⟩ := hc
      have hmovable := (reads_renameCheck P Q f (s.tree.child Q b) s (.ok ()) hcheck).2 () rfl
      exact ⟨h.sound.leads_held hsettled hold, h.sound.leads_held hsettled hnew, hmovable.climbs⟩
    | _ => exact hc.elim
  have hf : s.Held f := (h.sound.closed_held hsettled).child P a f hP hmove.found
  have hrooted := h.tree.rooted hf hR (hsettled f R hR)
  obtain ⟨p, hp⟩ := Option.ne_none_iff_exists'.mp hmove.not_unlinked
  have hQrooted := h.tree.rooted hQ hp (hsettled Q p hp)
  have hdots : b ≠ dotDot := by
    rintro rfl
    have hchild := Tree.child_dotDot hp
    have hempty := hmove.empty p hchild
    by_cases hroot : Q = s.tree.root
    · rw [hroot, hl.root_parent] at hp
      exact hmove.target_not_root (hp ▸ hchild)
    · obtain ⟨m, hm⟩ := h.tree.parent_lists Q p hQ (hsettled Q p hp) hroot hp
      exact hm.not_empty hempty
  have hmoves : s.tree.Moves s'.tree f Q b := by
    refine ⟨hmoved.root, hmoved.parent_moved, hmoved.parent_replaced, ?_, hmoved.entries, ?_, hno, hfree,
      ?_⟩
    · intro g hg
      rcases hmoved.parent_other g hg with hsame | ⟨hnone, hentry | ⟨hmount, _⟩⟩
      · exact .inl hsame
      · exact .inr ⟨hnone, hentry⟩
      · exact absurd hno hmount
    · rcases hmoved.mount with ⟨_, hmount⟩ | ⟨a', e, he, hfile, _⟩
      · funext D n
        exact hmount D n
      · exact absurd hfile (hno R a' e he)
    · intro g hg
      refine hmove.empty g ?_
      exact (h.tree.child_iff hl hQrooted ⟨hdot, hdots⟩ hmove.not_unlinked).mpr (.inl hg)
  refine (h.tree.move hl hmoves hrooted hQrooted hclimb ⟨hdot, hdots⟩).mono fun g hg => ?_
  refine FS.Held.of_closed ?_ ?_ ?_ ?_ hg
  · rw [hedit.root]
    exact .root
  · rw [hedit.cwd]
    exact .cwd
  · intro o ho
    rw [hedit.table.openedFile]
    exact .opened o (hedit.table.fileTable ▸ ho)
  · intro D n x hD hx
    rcases hmoves.lists.mp hx with ⟨_, _, rfl⟩ | ⟨hold, _⟩
    · exact hf
    · exact hD.listed hold

/-! ### New children -/

theorem FS.Consistent.grown (h : s.Consistent) (hsettled : s.Settled) {path : Path} {dirfd : Int}
    (hlead : s.Leads path dirfd d n) (hgrown : s.Grown s' d n f) :
    s'.tree.Consistent (s.OrNew s.Held) ∧
      ∀ D m g, s.OrNew s.Held D → s'.tree.Lists D m g → s.OrNew s.Held g := by
  have hl := h.sound.tree.linked
  have hd := h.sound.leads_held hsettled hlead
  obtain ⟨p, hp⟩ := Option.ne_none_iff_exists'.mp hgrown.parent
  have hrooted := h.tree.rooted hd hp (hsettled d p hp)
  obtain ⟨hdot, hdots, hmount, hlookup⟩ := (Tree.child_eq_none hgrown.parent).mp hgrown.free
  have hgrows : s.tree.Grows s'.tree d n f := by
    rcases hgrown.tree with htree | htree
    · exact htree ▸ Tree.grows_insertChild hmount f
    · exact htree ▸ Tree.grows_mountChild hmount hlookup f
  refine ⟨?_, ?_⟩
  · exact (h.tree.orNew h.sound.tree.within).grow hl h.sound.tree.within hgrows hrooted ⟨hdot, hdots⟩
      hgrown.fresh
  · intro D m g hD hg
    rcases (hgrows.lists D m g).mp hg with hold | ⟨_, _, rfl⟩
    · exact h.sound.orNew_listed hD hold
    · exact .inr hgrown.fresh

/-! ### Calls -/

theorem Call.Enters.held (h : s.Sound) (hsettled : s.Settled) (hc : c.Enters s f) : s.Held f := by
  cases c with
  | chdir path =>
    have hK := h.closed_held hsettled
    exact (Path.reads_parseFile h.tree hK (Path.sensible_followLinks h.tree hK.stays) path AT_FDCWD s _ hc).2
      f rfl
  | fchdir fd =>
    obtain ⟨o, ho, rfl⟩ := hc
    exact .opened o (FS.mem_of_getEntry ho)
  | _ => exact hc.elim

/-- A plain call keeps the state consistent. -/
theorem FS.Consistent.call (h : s.Consistent) (hsettled : s.Settled) (hplain : c.Plain s)
    {r : Except Errno Unit} (hr : c.exec s = some (s', r)) : s'.Consistent := by
  have hK := h.sound.closed_held hsettled
  have hslots : Slots (s.OrNew s.Held) s.getEntry nothing s := h.sound.slots fun o ho => .inl (.opened o ho)
  obtain ⟨⟨_, heffect⟩, _, hslots'⟩ := WasmFS.exec_after h.sound.tree hK (fun _ => h.sound.held_lt) hslots hr
  refine ⟨(h.sound.call hr).1, ?_⟩
  have hopened : ∀ o, some o ∈ s'.fileTable → s.OrNew s.Held (s'.openFile o).file :=
    fun o ho => hslots'.held o (.inl ho)
  have hnew := h.tree.orNew h.sound.tree.within
  cases heffect with
  | kept hkept =>
    rw [hkept.tree]
    refine hnew.mono fun g hg => ?_
    refine FS.Held.of_closed ?_ ?_ hopened ?_ hg
    · rw [show s'.rootDirectory = s.rootDirectory from congrArg Tree.root hkept.tree]
      exact .inl .root
    · rw [hkept.cwd]
      exact .inl .cwd
    · intro D m x hD hx
      rw [hkept.tree] at hx
      exact h.sound.orNew_listed hD hx
  | grown path dirfd d n c hlead hgrown =>
    obtain ⟨htree, hlists⟩ := h.grown hsettled hlead hgrown
    have hroot : s'.tree.root = s.tree.root := by
      rcases hgrown.tree with htree | htree
      · rw [htree]
        rfl
      · rw [htree]
        rfl
    refine htree.mono fun g hg => FS.Held.of_closed ?_ ?_ hopened hlists hg
    · rw [show s'.rootDirectory = s.rootDirectory from hroot]
      exact .inl .root
    · rw [hgrown.cwd]
      exact .inl .cwd
  | removed d n f hc hedit _ htree => exact h.removed hsettled hplain hc hedit htree
  | renamed P a f Q b R hc hR hedit _ hmoved => exact h.renamed hsettled hplain hc hR hedit hmoved
  | entered f hc _ hs =>
    subst hs
    refine h.tree.mono fun g hg => FS.Held.of_closed ?_ ?_ ?_ ?_ hg
    · exact .root
    · exact hc.held h.sound hsettled
    · exact fun o ho => .opened o ho
    · exact fun D m x hD hx => hD.listed hx

/-! ### The other steps -/

theorem FS.Consistent.expire (h : s.Consistent) (hd : ¬ s.Held d) : (s.expire d).Consistent := by
  have hlists : ∀ D n g, (s.expire d).tree.Lists D n g ↔ D ≠ d ∧ s.tree.Lists D n g := by
    intro D n g
    unfold Tree.Lists
    rw [FS.expire_mount]
    change (n, g) ∈ (if D = d then [] else s.tree.entries D) ∨ _ ↔ _
    by_cases hD : D = d
    · simp [hD]
    · simp [hD]
  have hsub : ∀ g, (s.expire d).Held g → s.Held g := by
    intro g hg
    refine FS.Held.of_closed ?_ ?_ ?_ ?_ hg
    · exact .root
    · exact .cwd
    · exact fun o ho => .opened o ho
    · exact fun D n x hD hx => hD.listed ((hlists D n x).mp hx).2
  refine ⟨h.sound.expire hd, (h.tree.drop (d := d) ?_ (fun hr => hd (.of_rooted hr)) hd).mono hsub⟩
  exact ⟨rfl, s.expire_parent d, hlists, fun D n e he => (FS.of_expire_mount he).2,
    fun D n g hg => (FS.mem_expire_entries hg).2⟩

theorem FS.SameNames.held (hsame : s.SameNames s') (hf : s'.Held f) : s.Held f := by
  refine FS.Held.of_closed ?_ ?_ ?_ ?_ hf
  · rw [hsame.rootDirectory]
    exact .root
  · rw [hsame.cwd]
    exact .cwd
  · intro o ho
    rw [hsame.openedFile]
    exact .opened o (hsame.fileTable ▸ ho)
  · intro D n g hD hg
    rw [hsame.keepsTree.tree] at hg
    exact hD.listed hg

theorem FS.Consistent.step (h : s.Consistent) (hstep : PlainStep s s') : s'.Consistent := by
  cases hstep with
  | call c _ r hsettled hplain hr => exact h.call hsettled hplain hr
  | expire d hd => exact h.expire hd
  | other _ hsame =>
    refine ⟨h.sound.step (.other s' hsame), ?_⟩
    rw [hsame.keepsTree.tree]
    exact h.tree.mono fun _ => hsame.held

/-- Every state of a plain run is consistent. -/
theorem consistent_of_plain {root : Nat} {env : Env}
    (hrun : Relation.ReflTransGen PlainStep (FS.init root env) s) : s.Consistent := by
  induction hrun with
  | refl => exact consistent_init root env
  | tail _ hstep ih => exact ih.step hstep

end Calls

/-! ## What agrees -/

/-- The three stores of the tree agree on the files that are in use. The root is its own
parent, and is listed nowhere. -/
structure FS.Agrees (s : FS) : Prop where
  root : s.tree.parent s.rootDirectory = some s.rootDirectory ∧
    ∀ d n, (n, s.rootDirectory) ∉ s.listed d
  parent_iff : ∀ f d, s.Held f → s.Held d → f ≠ s.rootDirectory →
    (s.tree.parent f = some d ↔ ∃! n, (n, f) ∈ s.listed d)
  names_nodup : ∀ d, s.Held d → ((s.getEntries d).map Dirent.name).Nodup
  num_entries : ∀ d, s.Held d → s.getNumEntries d = (s.getEntries d).length
  child_iff : ∀ d n, s.Held d → n ≠ dot → n ≠ dotDot →
    ∃ c, Directory.getChild d n s = some (s, .ok c) ∧
      ∀ f, c = some f ↔ ⟨n, (s.file f).kind, some f⟩ ∈ s.getEntries d
  proper_names : ∀ d, s.Held d → ∀ e ∈ s.getEntries d, e.name ≠ dot ∧ e.name ≠ dotDot
  acyclic : ∀ f, Relation.TransGen (Link s.tree.parent) f f → f = s.rootDirectory
  to_root : ∀ f, s.tree.ByName f → Relation.ReflTransGen (Link s.tree.parent) f s.rootDirectory

section Agrees

variable {s : FS}

theorem FS.mem_mounts (h : s.tree.Linked) :
    (n, f) ∈ s.mounts d ↔ ∃ e, s.tree.mount d n = some e ∧ e.file = f := by
  unfold FS.mounts
  rw [List.mem_map]
  refine ⟨?_, ?_⟩
  · rintro ⟨⟨m, e⟩, hmem, heq⟩
    cases heq
    exact ⟨e, AList.mem_lookup_iff.mpr (List.mem_filter.mp hmem).1, rfl⟩
  · rintro ⟨e, he, rfl⟩
    have hkind := h.mount_kind d n e he
    exact ⟨⟨n, e⟩, List.mem_filter.mpr ⟨AList.mem_lookup_iff.mp he, by simpa using hkind⟩, rfl⟩

theorem FS.mem_listed (h : s.tree.Linked) : (n, f) ∈ s.listed d ↔ s.tree.Lists d n f := by
  unfold FS.listed Tree.Lists
  rw [List.mem_append, FS.mem_mounts h]
  rfl

theorem FS.mounts_nodup (s : FS) (d : FileId) : ((s.mounts d).map Prod.fst).Nodup := by
  unfold FS.mounts
  rw [List.map_map]
  refine List.Nodup.sublist (List.filter_sublist.map _) ?_
  exact (s.file d).dcache.nodupKeys

/-- Below the root no name is listed twice. -/
theorem FS.Consistent.listed_nodup (h : s.Consistent) (hd : s.Held d) : ((s.listed d).map Prod.fst).Nodup := by
  unfold FS.listed
  rw [List.map_append, List.nodup_append]
  refine ⟨h.sound.tree.linked.names_nodup d, s.mounts_nodup d, ?_⟩
  intro n hentry n' hmount heq
  obtain ⟨⟨m, f⟩, hmem, rfl⟩ := List.mem_map.mp hentry
  obtain ⟨⟨m', g⟩, hmem', rfl⟩ := List.mem_map.mp hmount
  obtain rfl : m = m' := heq
  obtain ⟨e, he, _⟩ := (FS.mem_mounts h.sound.tree.linked).mp hmem'
  exact h.tree.apart d m e f (h.tree.rooted_of_lists hd (.inl hmem)) he hmem

theorem FS.mem_getEntries : ⟨n, (s.file f).kind, some f⟩ ∈ s.getEntries d ↔ (n, f) ∈ s.listed d := by
  unfold FS.getEntries
  rw [List.mem_map]
  refine ⟨?_, fun h => ⟨_, h, rfl⟩⟩
  rintro ⟨⟨m, g⟩, hmem, heq⟩
  rw [Dirent.mk.injEq] at heq
  obtain ⟨rfl, _, hg⟩ := heq
  exact Option.some.inj hg ▸ hmem

theorem FS.mem_names {e : Dirent} (he : e ∈ s.getEntries d) : ∃ f, (e.name, f) ∈ s.listed d := by
  obtain ⟨⟨n, f⟩, hmem, rfl⟩ := List.mem_map.mp he
  exact ⟨f, hmem⟩

/-- The parent pointers lead from every file with a name to the root. -/
theorem FS.Consistent.to_root (h : s.Consistent) (hf : s.tree.ByName f) :
    s.tree.Rooted f ∧ Relation.ReflTransGen (Link s.tree.parent) f s.rootDirectory := by
  induction hf with
  | root => exact ⟨.root, .refl⟩
  | child d n f _ hbinds ih =>
    obtain ⟨hdot, hdots, hchild⟩ := hbinds
    obtain ⟨hd, hpath⟩ := ih
    have hl := h.sound.tree.linked
    have hlists := (h.tree.child_iff hl hd ⟨hdot, hdots⟩ (h.tree.parent_ne_none hl hd)).mp hchild
    exact ⟨.listed d n f hd hlists, .head (h.tree.lists_parent d n f hd hlists) hpath⟩

theorem FS.Consistent.parent_iff (h : s.Consistent) (hf : s.Held f) (hd : s.Held d)
    (hroot : f ≠ s.rootDirectory) : s.tree.parent f = some d ↔ ∃! n, (n, f) ∈ s.listed d := by
  have hl := h.sound.tree.linked
  refine ⟨?_, ?_⟩
  · intro hp
    obtain ⟨n, hn⟩ := h.tree.parent_lists f d hf hd hroot hp
    refine ⟨n, (FS.mem_listed hl).mpr hn, fun m hm => ?_⟩
    exact (hl.lists_unique ((FS.mem_listed hl).mp hm) hn).2
  · rintro ⟨n, hn, _⟩
    have hlists := (FS.mem_listed hl).mp hn
    exact h.tree.lists_parent d n f (h.tree.rooted_of_lists hd hlists) hlists

/-- A lookup finds what `getEntries` lists. -/
theorem FS.Consistent.child_iff (h : s.Consistent) (hd : s.Held d) (hn : n ≠ dot ∧ n ≠ dotDot) (f : FileId) :
    s.tree.child d n = some f ↔ ⟨n, (s.file f).kind, some f⟩ ∈ s.getEntries d := by
  have hl := h.sound.tree.linked
  rw [FS.mem_getEntries, FS.mem_listed hl]
  rcases h.tree.live d hd with hempty | hrooted
  · refine iff_of_false (fun hf => ?_) fun hf => hf.not_empty hempty
    obtain ⟨_, ⟨e, he, _⟩ | ⟨_, hlook⟩⟩ := (Tree.child_eq_some hn.1 hn.2).mp hf
    · rw [hempty.2] at he
      cases he
    · rw [hempty.1] at hlook
      cases hlook
  · exact h.tree.child_iff hl hrooted hn (h.tree.parent_ne_none hl hrooted)

theorem FS.Consistent.agrees (h : s.Consistent) : s.Agrees where
  root := ⟨h.sound.tree.linked.root_parent, fun d n hn =>
    h.sound.tree.linked.not_lists_root d n ((FS.mem_listed h.sound.tree.linked).mp hn)⟩
  parent_iff f d hf hd hroot := h.parent_iff hf hd hroot
  names_nodup d hd := by
    unfold FS.getEntries
    rw [List.map_map]
    exact h.listed_nodup hd
  num_entries d _ := by
    unfold FS.getNumEntries FS.getEntries FS.listed
    rw [List.length_map, List.length_append]
  child_iff d n hd hdot hdots :=
    ⟨_, getChild_eq h.sound.tree d n, h.child_iff hd ⟨hdot, hdots⟩⟩
  proper_names d hd e he := by
    obtain ⟨f, hmem⟩ := FS.mem_names he
    have hlists := (FS.mem_listed h.sound.tree.linked).mp hmem
    exact h.tree.names d e.name f (h.tree.rooted_of_lists hd hlists) hlists
  acyclic f hcycle := (h.tree.ends f).eq_top_of_cycle h.sound.tree.linked.root_parent hcycle
  to_root f hf := (h.to_root hf).2

end Agrees

/-- In every state of a run whose calls are all plain, the stores of the tree agree. -/
theorem tree_agrees_of_plain {root : Nat} {env : Env} {s : FS}
    (hrun : Relation.ReflTransGen PlainStep (FS.init root env) s) : s.Agrees :=
  (consistent_of_plain hrun).agrees

/-! ### A mounted directory -/

/-- Mounting a directory on a memory backend of its own. -/
def mountCall : Call := .wasmfsCreateDirectory "/m".toList 0o777 (some (.memory 1))

/-- An instance with a directory mounted in its root. -/
def withMount : FS := (FS.init 0 Env.quiet).after mountCall

theorem reachable_withMount : Reachable withMount := (Reachable.init 0 Env.quiet).after 1 _ rfl (by decide)

/-- Mounting is plain. -/
theorem tree_agrees_of_plain_mount : withMount.Agrees := by
  have hsettled := (treeSound_init 0 Env.quiet).settled (by decide : (FS.init 0 Env.quiet).SettledWithin 1)
  have hplain : mountCall.Plain (FS.init 0 Env.quiet) :=
    ⟨fun _ _ _ hremoves => hremoves.elim, fun _ _ _ _ _ hrenames => hrenames.elim⟩
  exact tree_agrees_of_plain (.tail .refl (.call mountCall _ _ hsettled hplain (FS.exec_after rfl)))

/-- The mounted directory, opened and detached while it is open. -/
def detached : FS :=
  (withMount.after (.openat AT_FDCWD "/m".toList O_RDONLY 0)).after (.wasmfsUnmount "/m".toList)

theorem reachable_detached : Reachable detached := (reachable_withMount.after 2 _ rfl (by decide)).after 2 _ rfl (by decide)

theorem unmount_keeps_parent : ¬ ∀ s, Reachable s → s.Agrees := by
  intro hall
  have hheld : detached.Held 9 := FS.held_of_mem 1 9 (by decide)
  have hiff := (hall detached reachable_detached).parent_iff 9 3 hheld .root (by decide)
  obtain ⟨n, hn, _⟩ := hiff.mp rfl
  have hlisted : ∀ p ∈ detached.listed 3, p.2 ≠ 9 := by decide
  exact hlisted _ hn rfl

end WasmFS
