-- SUMMARY: The chains of parent pointers in every reachable state, and the loops that climb them.
import Emscripten.WasmFS.WorkingDirectory

/-!
# Chains of parents

A call clears parent pointers, or turns one of them: that of a new file, or that of a
file it moves. It never closes a circle, so that every chain comes to the root or to a
file that has lost its parent, and the loops over `getParent` end.
-/

namespace WasmFS

open Chain Prog

namespace Tree

variable {t : Tree}

/-- `f` is `m`, or below it by the parent pointers. -/
def Below (t : Tree) (m f : FileId) : Prop := Reaches t.parent f m

theorem Linked.eq_root_of_below (h : t.Linked) {m : FileId} (hm : t.Below m t.root) : m = t.root :=
  link_top h.root_parent hm

/-- No chain comes to a file that does not exist yet. -/
theorem Within.eq_of_below {next m f : FileId} (h : t.Within next) (hm : next ≤ m) (hf : t.Below m f) :
    f = m :=
  reaches_none (fun z hz => Nat.not_lt.mpr hm (h.parent_lt z m hz)) hf

theorem below_of_parent {d f m : FileId} (hp : t.parent f = some d ∨ t.parent f = none)
    (hne : f ≠ m) (hbelow : t.Below m f) : t.Below m d := by
  rcases reaches_iff.mp hbelow with heq | ⟨z, hz, hreach⟩
  · exact absurd heq hne
  · rcases hp with hp | hp
    · exact Option.some.inj (hp.symm.trans hz) ▸ hreach
    · rw [hp] at hz
      cases hz

theorem Climbs.not_below {f d : FileId} (h : t.Climbs f d) (hl : t.Linked) (hf : f ≠ t.root) :
    ¬ t.Below f d := by
  induction h with
  | root => exact fun hbelow => hf (hl.eq_root_of_below hbelow)
  | step hne hp _ ih =>
    intro hbelow
    rcases reaches_iff.mp hbelow with heq | ⟨z, hz, hreach⟩
    · exact hne heq
    · obtain rfl := Option.some.inj (hp.symm.trans hz)
      exact ih hreach

theorem clears_removeChild (t : Tree) (d : FileId) (n : Name) :
    Clears t.parent (t.removeChild d n).parent := by
  intro g
  unfold removeChild
  split
  · exact .inl rfl
  · unfold removeEntry
    split
    · exact .inl rfl
    · rw [setEntries_parent, setParent_parent]
      split
      · exact .inr rfl
      · exact .inl rfl

theorem Moved.attaches {t' : Tree} {R Q f : FileId} {b : Name} (h : t.Moved t' R Q b f)
    (hapart : ¬ t.Below f Q) : Attaches t.parent t'.parent f Q where
  cases g := by
    by_cases hg : g = f
    · exact .inr (.inr ⟨hg, hg ▸ h.parent_moved⟩)
    · rcases h.parent_other g hg with hsame | ⟨hnone, _⟩
      · exact .inl hsame
      · exact .inr (.inl hnone)
  apart := hapart

end Tree

section Chains

variable {s s' : FS} {c : Call}

theorem FS.Grown.attaches {d f : FileId} {n : Name} (h : s.Grown s' d n f) (hs : s.TreeSound) :
    Attaches s.tree.parent s'.tree.parent f d where
  cases g := by
    have hparent : s'.tree.parent g = if g = f then some d else s.tree.parent g := by
      rcases h.tree with htree | htree
      · rw [htree]
        exact Tree.setParent_parent ..
      · rw [htree]
        exact Tree.setParent_parent ..
    rw [hparent]
    split
    · next heq => exact .inr (.inr ⟨heq, rfl⟩)
    · exact .inl rfl
  apart hbelow := by
    have heq := hs.within.eq_of_below h.fresh hbelow
    exact h.parent (heq ▸ hs.within.blank_parent f h.fresh)

theorem Call.Renames.movable {P Q f : FileId} {a b : Name} (hc : c.Renames s P a f Q b) :
    s.Movable Q f (s.tree.child Q b) := by
  cases c with
  | renameat olddirfd oldpath newdirfd newpath =>
    exact (reads_renameCheck P Q f (s.tree.child Q b) _ _ hc.2.2.2.2.2).2 () rfl
  | _ => exact hc.elim

/-- A call clears parent pointers, or turns one of them away from its own chain. -/
theorem Call.Effect.parents (heffect : c.Effect s s') (hs : s.TreeSound) :
    Clears s.tree.parent s'.tree.parent ∨ ∃ f q, Attaches s.tree.parent s'.tree.parent f q := by
  cases heffect with
  | kept hkept => exact .inl fun g => .inl (by rw [hkept.tree])
  | grown path dirfd d n f _ hgrown => exact .inr ⟨f, d, hgrown.attaches hs⟩
  | removed d n f _ _ _ htree =>
    rw [htree]
    exact .inl (s.tree.clears_removeChild d n)
  | renamed P a f Q b R hc _ _ _ hmoved =>
    have hmove := hc.movable
    exact .inr ⟨f, Q, hmoved.attaches (hmove.climbs.not_below hs.linked hmove.not_root)⟩
  | entered f _ _ hs => exact .inl fun g => .inl (by rw [hs]; rfl)

theorem Call.Effect.root (heffect : c.Effect s s') : s'.rootDirectory = s.rootDirectory := by
  cases heffect with
  | kept hkept => exact congrArg Tree.root hkept.tree
  | grown path dirfd d n f _ hgrown =>
    rcases hgrown.tree with htree | htree
    · exact congrArg Tree.root htree
    · exact congrArg Tree.root htree
  | removed d n f _ hedit _ _ => exact hedit.root
  | renamed P a f Q b R _ _ hedit _ _ => exact hedit.root
  | entered f _ _ hs => rw [hs]

theorem FS.clears_expire (s : FS) (d : FileId) : Clears s.tree.parent (s.expire d).tree.parent := by
  intro g
  rw [FS.expire_parent]
  split
  · exact .inr rfl
  · exact .inl rfl

/-- Every chain of parent pointers ends. -/
def FS.ChainsEnd (s : FS) : Prop := ∀ f, Ends s.tree.parent s.rootDirectory f

theorem FS.ChainsEnd.step (h : s.ChainsEnd) (hs : s.Sound) (hstep : Step s s') : s'.ChainsEnd := by
  intro f
  cases hstep with
  | call c _ r _ hr =>
    have heffect := (hs.call hr).2
    rw [heffect.root]
    rcases heffect.parents hs.tree with hclears | ⟨g, q, hattaches⟩
    · exact hclears.ends (h f)
    · exact hattaches.ends h f
  | expire d hd => exact (s.clears_expire d).ends (h f)
  | other _ hsame =>
    rw [hsame.rootDirectory, hsame.keepsTree.tree]
    exact h f

theorem Reachable.chainsEnd (h : Reachable s) : s.ChainsEnd := by
  obtain ⟨root, env, hrun⟩ := h
  have hboth : s.Sound ∧ s.ChainsEnd := by
    induction hrun with
    | refl => exact ⟨sound_init root env, init_ends root env⟩
    | tail _ hstep ih => exact ⟨ih.1.step hstep, ih.2.step ih.1 hstep⟩
  exact hboth.2

/-- No chain is longer than there are files. -/
theorem FS.ChainsEnd.endsIn (h : s.ChainsEnd) (hs : s.TreeSound) (f : FileId) :
    EndsIn s.tree.parent s.rootDirectory s.nextFile f :=
  (h f).endsIn hs.linked.root_parent hs.within.blank_parent

/-- Whatever calls are made: a file is in one directory under one name, its parent is the directory that lists it,
only directories list files, and no file but the root is above itself. -/
theorem tree_of_every_run (h : Reachable s) :
    (∀ d d' n n' f, (n, f) ∈ (s.file d).entries → (n', f) ∈ (s.file d').entries → d = d' ∧ n = n') ∧
    (∀ d n f, (n, f) ∈ (s.file d).entries →
      (s.file d).kind = .directory ∧ (s.file f).parent = some d ∧ f < s.nextFile) ∧
    ∀ f, Relation.TransGen (Link s.tree.parent) f f → f = s.rootDirectory := by
  have ht := h.sound.tree
  refine ⟨fun d d' n n' f hf hf' => ?_, fun d n f hf => ⟨?_, ?_, ?_⟩, fun f => ?_⟩
  · have hd := ht.linked.entry_parent d n f hf
    obtain rfl : d = d' := Option.some.inj (hd.symm.trans (ht.linked.entry_parent d' n' f hf'))
    exact ⟨rfl, congrArg Prod.fst (List.inj_on_of_nodup_map (ht.linked.files_nodup d) hf hf' rfl)⟩
  · by_contra hkind
    exact List.ne_nil_of_mem hf (ht.leaf d hkind).1
  · exact ht.linked.entry_parent d n f hf
  · by_contra hlt
    have hblank := ht.within.blank_parent f (Nat.le_of_not_lt hlt)
    simp [ht.linked.entry_parent d n f hf] at hblank
  · exact (h.chainsEnd f).eq_top_of_cycle ht.linked.root_parent

theorem tree_of_every_run_start : ((FS.init 0 Env.quiet).file 8).parent = some 3 ∧
    ∀ f, Relation.TransGen (Link (FS.init 0 Env.quiet).tree.parent) f f → f = 3 :=
  have h := tree_of_every_run (.init 0 Env.quiet)
  ⟨(h.2.1 3 "tmp".toList 8 (.tail _ (.head _))).2.1, h.2.2⟩

/-! ## The loops -/

/-- `cwdIsAtOrBelow` ends, and tells whether the chain comes to the directory. -/
theorem FS.cwdIsAtOrBelow_spec (hs : s.TreeSound) {k : Nat} {f : FileId}
    (hends : EndsIn s.tree.parent s.rootDirectory k f) (m : FileId) :
    ∃ below, s.cwdIsAtOrBelow m (k + 1) f = some below ∧ (below = true ↔ s.tree.Below m f) := by
  induction hends with
  | top k =>
    have hp : (s.file s.rootDirectory).parent = some s.rootDirectory := hs.linked.root_parent
    unfold FS.cwdIsAtOrBelow
    split
    · next heq => exact ⟨true, rfl, iff_of_true rfl (heq ▸ .refl _)⟩
    · next hne =>
        rw [hp]
        refine ⟨false, by simp, iff_of_false (by simp) fun hbelow => hne ?_⟩
        exact (hs.linked.eq_root_of_below hbelow).symm
  | @stop k x hx =>
    unfold FS.cwdIsAtOrBelow
    split
    · next heq => exact ⟨true, rfl, iff_of_true rfl (heq ▸ .refl _)⟩
    · next hne =>
        have hp : (s.file x).parent = none := hx
        rw [hp]
        exact ⟨false, rfl, iff_of_false (by simp) fun hbelow => hne (Reaches.eq_of_none hbelow hx)⟩
  | @step k x y hx _ ih =>
    have hp : (s.file x).parent = some y := hx
    unfold FS.cwdIsAtOrBelow
    split
    · next heq => exact ⟨true, rfl, iff_of_true rfl (heq ▸ .refl _)⟩
    · next hne =>
        rw [hp]
        have hiff : s.tree.Below m x ↔ s.tree.Below m y := by
          refine ⟨fun hbelow => ?_, fun hbelow => .head hx hbelow⟩
          rcases reaches_iff.mp hbelow with heq | ⟨z, hz, hreach⟩
          · exact absurd heq hne
          · exact Option.some.inj (hx.symm.trans hz) ▸ hreach
        by_cases hyx : y = x
        · refine ⟨false, by simp [hyx], iff_of_false (by simp) fun hbelow => hne ?_⟩
          exact (link_top (hyx ▸ hx) hbelow).symm
        · simp only [if_neg hyx, hiff]
          exact ih

end Chains

end WasmFS
