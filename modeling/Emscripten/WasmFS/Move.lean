-- SUMMARY: What insertMove does to a linked tree, with or without a mount on the way.
import Emscripten.WasmFS.Linked

/-!
# Moving a file

`insertMove` runs the backend's move and then moves the dcache entry of the file, if it
has one. A mount is moved by both, and is stored twice from then on; a file that is no
mount is moved by the backend alone, which leaves a mount under the new name in place.
-/

namespace WasmFS

open Assoc

namespace Tree

/-- `t'` is `t` after `f` has been moved from `R` to the name `b` in `Q`. -/
structure Moved (t t' : Tree) (R Q : FileId) (b : Name) (f : FileId) : Prop where
  linked : t'.Linked
  root : t'.root = t.root
  parent_moved : t'.parent f = some Q
  parent_replaced : ∀ g, (b, g) ∈ t.entries Q → g ≠ f → t'.parent g = none
  parent_other : ∀ g, g ≠ f → t'.parent g = t.parent g ∨ t'.parent g = none ∧
    ((b, g) ∈ t.entries Q ∨ ¬ t.NoMount f ∧ ∃ e, t.mount Q b = some e ∧ e.file = g)
  entries : ∀ D n g, (n, g) ∈ t'.entries D ↔
    (D = Q ∧ n = b ∧ g = f) ∨ ((n, g) ∈ t.entries D ∧ g ≠ f ∧ ¬ (D = Q ∧ n = b))
  mount : (t.NoMount f ∧ ∀ D n, t'.mount D n = t.mount D n) ∨
    ∃ a e, t.mount R a = some e ∧ e.file = f ∧ ∀ D n, t'.mount D n =
      if D = Q ∧ n = b then some e else if D = R ∧ n = a then none else t.mount D n

variable {t : Tree}

/-! ## The backend's part -/

section Backend

variable {d : FileId} {n : Name} {f : FileId}

@[simp] theorem removeEntry_mount (t : Tree) (d : FileId) (n : Name) :
    (t.removeEntry d n).mount = t.mount := by
  unfold removeEntry
  split <;> rfl

@[simp] theorem removeEntry_root (t : Tree) (d : FileId) (n : Name) :
    (t.removeEntry d n).root = t.root := by
  unfold removeEntry
  split <;> rfl

theorem Linked.removeEntry_entries (h : t.Linked) (D : FileId) (m : Name) (g : FileId) :
    (m, g) ∈ (t.removeEntry d n).entries D ↔ (m, g) ∈ t.entries D ∧ ¬ (D = d ∧ m = n) := by
  unfold removeEntry
  split
  · next hnone =>
      refine ⟨?_, fun hg => hg.1⟩
      intro hg
      refine ⟨hg, ?_⟩
      rintro ⟨rfl, rfl⟩
      exact lookup_eq_none.mp hnone g hg
  · rw [setEntries_entries]
    split
    · next heq =>
        subst heq
        rw [mem_dropFirst (h.names_nodup D)]
        simp
    · next hne => simp [hne]

theorem Linked.removeEntry_parent (h : t.Linked) (g : FileId) :
    (t.removeEntry d n).parent g = if (n, g) ∈ t.entries d then none else t.parent g := by
  unfold removeEntry
  split
  · next hnone => rw [if_neg (lookup_eq_none.mp hnone g)]
  · next c hc =>
      rw [setEntries_parent, setParent_parent]
      have hmem := h.lookup_iff.mp hc
      by_cases hg : g = c
      · rw [if_pos hg, if_pos (hg ▸ hmem)]
      · have hnot : (n, g) ∉ t.entries d := by
          intro hin
          have hg' := h.lookup_iff.mpr hin
          rw [hc] at hg'
          exact hg (Option.some.inj hg').symm
        rw [if_neg hg, if_neg hnot]

theorem Linked.removeEntry (h : t.Linked) (d : FileId) (n : Name) : (t.removeEntry d n).Linked := by
  unfold Tree.removeEntry
  split
  · exact h
  · next c hc =>
      have hmem := h.lookup_iff.mp hc
      have hdrop := h.dropEntries (dropFirst_sublist Prod.fst n (t.entries d))
      refine hdrop.clearParent (f := c) ?_ ?_
      · intro D m hm
        rw [setEntries_entries] at hm
        split at hm
        · next heq =>
            obtain ⟨hm, hne⟩ := (mem_dropFirst (h.names_nodup d)).mp hm
            exact hne (h.entry_unique hm hmem).2
        · next hne => exact hne (h.entry_unique hm hmem).1
      · rintro rfl
        exact h.root_entry d n hmem

end Backend

section Move

variable {R Q : FileId} {b : Name} {f : FileId}

/-- The tree after the move has taken `f` out and the replaced child away. -/
def cleared (t : Tree) (R Q : FileId) (b : Name) (f : FileId) : Tree :=
  (t.setEntries R (dropFirst Prod.snd f (t.entries R))).removeEntry Q b

theorem Linked.taken (h : t.Linked) (R f : FileId) :
    (t.setEntries R (dropFirst Prod.snd f (t.entries R))).Linked :=
  h.dropEntries (dropFirst_sublist Prod.snd f (t.entries R))

theorem Linked.taken_entries (h : t.Linked) (hf : t.parent f = some R) (D : FileId) (n : Name)
    (g : FileId) : (n, g) ∈ (t.setEntries R (dropFirst Prod.snd f (t.entries R))).entries D ↔
      (n, g) ∈ t.entries D ∧ g ≠ f := by
  rw [setEntries_entries]
  split
  · next heq =>
      subst heq
      exact mem_dropFirst (h.files_nodup D)
  · next hne =>
      refine ⟨?_, fun hg => hg.1⟩
      intro hg
      refine ⟨hg, ?_⟩
      rintro rfl
      have hparent := h.entry_parent D n g hg
      rw [hf] at hparent
      exact hne (Option.some.inj hparent).symm

theorem Linked.cleared (h : t.Linked) (R Q : FileId) (b : Name) (f : FileId) :
    (t.cleared R Q b f).Linked :=
  (h.taken R f).removeEntry Q b

theorem Linked.cleared_entries (h : t.Linked) (hf : t.parent f = some R) (D : FileId) (n : Name)
    (g : FileId) : (n, g) ∈ (t.cleared R Q b f).entries D ↔
      (n, g) ∈ t.entries D ∧ g ≠ f ∧ ¬ (D = Q ∧ n = b) := by
  unfold Tree.cleared
  rw [(h.taken R f).removeEntry_entries, h.taken_entries hf, and_assoc]

theorem Linked.cleared_parent (h : t.Linked) (hf : t.parent f = some R) (g : FileId) :
    (t.cleared R Q b f).parent g = if (b, g) ∈ t.entries Q ∧ g ≠ f then none else t.parent g := by
  unfold Tree.cleared
  rw [(h.taken R f).removeEntry_parent, setEntries_parent]
  simp only [h.taken_entries hf]

theorem cleared_mount (t : Tree) (R Q : FileId) (b : Name) (f : FileId) :
    (t.cleared R Q b f).mount = t.mount := by
  unfold cleared
  rw [removeEntry_mount, setEntries_mount]

theorem cleared_root (t : Tree) (R Q : FileId) (b : Name) (f : FileId) :
    (t.cleared R Q b f).root = t.root := by
  unfold cleared
  rw [removeEntry_root, setEntries_root]

theorem Linked.cleared_noEntry (h : t.Linked) (hf : t.parent f = some R) :
    (t.cleared R Q b f).NoEntry f := by
  intro D n hmem
  exact ((h.cleared_entries hf D n f).mp hmem).2.1 rfl

theorem Linked.cleared_free (h : t.Linked) (hf : t.parent f = some R) :
    ((t.cleared R Q b f).entries Q).lookup b = none := by
  rw [lookup_eq_none]
  intro g hmem
  exact ((h.cleared_entries hf Q b g).mp hmem).2.2 ⟨rfl, rfl⟩

/-- `f` enters `Q` under the free name `b`. -/
theorem moved_entries (h : t.Linked) (hf : t.parent f = some R) (D : FileId) (n : Name) (g : FileId) :
    (n, g) ∈ ((t.cleared R Q b f).setEntries Q ((t.cleared R Q b f).entries Q ++ [(b, f)])).entries D ↔
      (D = Q ∧ n = b ∧ g = f) ∨ ((n, g) ∈ t.entries D ∧ g ≠ f ∧ ¬ (D = Q ∧ n = b)) := by
  rw [setEntries_entries]
  split
  · next heq =>
      subst heq
      rw [List.mem_append, h.cleared_entries hf, List.mem_singleton, Prod.mk.injEq]
      refine ⟨?_, ?_⟩
      · rintro (hg | hg)
        · exact .inr hg
        · exact .inl ⟨rfl, hg⟩
      · rintro (hg | hg)
        · exact .inr hg.2
        · exact .inl hg
  · next hne =>
      rw [h.cleared_entries hf]
      refine ⟨.inr, ?_⟩
      rintro (hg | hg)
      · exact absurd hg.1 hne
      · exact hg

/-! ## A file that is no mount -/

theorem Linked.moveEntry (h : t.Linked) (hf : t.parent f = some R) (hm : t.NoMount f)
    (hroot : f ≠ t.root) (hQ : f ≠ Q) :
    t.Moved ((t.moveEntry Q b f R).setParent f (some Q)) R Q b f := by
  have hc := h.cleared R Q b f
  have hparented : ((t.cleared R Q b f).setParent f (some Q)).Linked := by
    refine hc.setParent (h.cleared_noEntry hf) ?_ ?_ ?_
    · intro D n e he
      rw [cleared_mount] at he
      exact hm D n e he
    · rwa [cleared_root]
    · intro heq
      exact hQ (Option.some.inj heq).symm
  have hlinked : ((t.moveEntry Q b f R).setParent f (some Q)).Linked := by
    refine hparented.addEntry ?_ (h.cleared_noEntry hf) (h.cleared_free hf) ?_ ?_
    · rw [setParent_parent, if_pos rfl]
    · rwa [setParent_root, cleared_root]
    · intro n e he hfile
      rw [setParent_mount, cleared_mount] at he
      exact absurd hfile (hm Q n e he)
  refine ⟨hlinked, ?_, ?_, ?_, ?_, moved_entries h hf, .inl ⟨hm, ?_⟩⟩
  · exact cleared_root t R Q b f
  · rw [setParent_parent, if_pos rfl]
  · intro g hg hne
    rw [setParent_parent, if_neg hne]
    change (t.cleared R Q b f).parent g = none
    rw [h.cleared_parent hf, if_pos ⟨hg, hne⟩]
  · intro g hne
    rw [setParent_parent, if_neg hne]
    change (t.cleared R Q b f).parent g = _ ∨ (t.cleared R Q b f).parent g = _ ∧ _
    rw [h.cleared_parent hf]
    split
    · next hg => exact .inr ⟨rfl, .inl hg.1⟩
    · exact .inl rfl
  · intro D n
    change (t.cleared R Q b f).mount D n = _
    rw [cleared_mount]

/-! ## A mount -/

theorem setMount_setMount (t : Tree) (d : FileId) (n : Name) (e e' : Option DCacheEntry) :
    (t.setMount d n e).setMount d n e' = t.setMount d n e' := by
  ext1
  · rfl
  · rfl
  · next d' n' =>
      simp only [setMount_mount]
      split <;> simp_all
  · rfl

/-- A mount can be detached with its parent pointer where it is not stored twice. -/
theorem Linked.detachMount (h : t.Linked) {d : FileId} {n : Name} {o : DCacheEntry}
    (ho : t.mount d n = some o) (hfree : (t.entries d).lookup n = none) :
    ((t.setMount d n none).setParent o.file none).Linked := by
  refine (h.dropMount d n).clearParent ?_ (h.root_mount d n o ho)
  intro D m hm
  rw [setMount_entries] at hm
  obtain ⟨rfl, rfl⟩ := h.entry_eq_mount hm ho
  exact lookup_eq_none.mp hfree o.file hm

variable {a : Name} {e : DCacheEntry}

theorem Linked.noMount_dropMount (h : t.Linked) (he : t.mount R a = some e) :
    (t.setMount R a none).NoMount e.file := by
  intro D n o ho hfile
  rw [setMount_mount] at ho
  split at ho
  · cases ho
  · next hne => exact hne (h.mount_unique D R n a o e ho he hfile)

/-- What `moveMount` leaves, before the moved mount is entered: the mount has left its
old place, and the one it overwrites is detached. -/
theorem moveMount_eq (h : t.Linked) (hfree : (t.entries Q).lookup b = none)
    (he : t.mount R a = some e) :
    ∃ u : Tree, u.Linked ∧ u.entries = t.entries ∧ u.root = t.root ∧ u.NoMount e.file ∧
      u.parent e.file = t.parent e.file ∧
      (∀ g, u.parent g = t.parent g ∨ u.parent g = none ∧ ∃ o, t.mount Q b = some o ∧ o.file = g) ∧
      (∀ D n, u.mount D n =
        if D = Q ∧ n = b then none else if D = R ∧ n = a then none else t.mount D n) ∧
      t.moveMount R a e Q b = u.setMount Q b (some e) := by
  have hdrop := h.dropMount R a
  unfold moveMount
  cases ho : (t.setMount R a none).mount Q b with
  | none =>
    refine ⟨t.setMount R a none, hdrop, rfl, rfl, h.noMount_dropMount he, rfl, fun g => .inl rfl, ?_,
      rfl⟩
    intro D n
    rw [setMount_mount] at ho ⊢
    by_cases hQ : D = Q ∧ n = b
    · rw [if_pos hQ, hQ.1, hQ.2]
      exact ho
    · rw [if_neg hQ]
  | some o =>
    have hnot : ¬ (Q = R ∧ b = a) := by
      rintro ⟨rfl, rfl⟩
      rw [setMount_mount, if_pos ⟨rfl, rfl⟩] at ho
      cases ho
    have hold : t.mount Q b = some o := by
      rwa [setMount_mount, if_neg hnot] at ho
    have hne := h.noMount_dropMount he Q b o ho
    refine ⟨((t.setMount R a none).setMount Q b none).setParent o.file none,
      hdrop.detachMount ho hfree, rfl, rfl, ?_, ?_, ?_, ?_, ?_⟩
    · intro D n o' ho'
      rw [setParent_mount, setMount_mount] at ho'
      split at ho'
      · cases ho'
      · exact h.noMount_dropMount he D n o' ho'
    · rw [setParent_parent, if_neg hne.symm]
      rfl
    · intro g
      rw [setParent_parent]
      split
      · next hg => exact .inr ⟨rfl, o, hold, hg.symm⟩
      · exact .inl rfl
    · intro D n
      simp only [setParent_mount, setMount_mount]
    · rw [show (((t.setMount R a none).setMount Q b none).setParent o.file none).setMount Q b (some e)
          = (((t.setMount R a none).setMount Q b none).setMount Q b (some e)).setParent o.file none
          from rfl, setMount_setMount]
      rfl

theorem Linked.moveMount (h : t.Linked) (hf : t.parent f = some R) (he : t.mount R a = some e)
    (hfile : e.file = f) (hroot : f ≠ t.root) (hQ : f ≠ Q) :
    t.Moved (((t.moveEntry Q b f R).moveMount R a e Q b).setParent f (some Q)) R Q b f := by
  subst hfile
  have hc := h.cleared R Q b e.file
  have hec : (t.cleared R Q b e.file).mount R a = some e := by rwa [cleared_mount]
  obtain ⟨u, hu, huentries, huroot, hunomount, huparent, huothers, humount, hueq⟩ :=
    moveMount_eq (Q := Q) (b := b) hc (h.cleared_free hf) hec
  have hunoentry : u.NoEntry e.file := by
    intro D n hmem
    rw [huentries] at hmem
    exact h.cleared_noEntry hf D n hmem
  have huroot' : e.file ≠ u.root := by rwa [huroot, cleared_root]
  -- The same tree with the updates in an order in which each keeps it linked.
  have hreorder : ((t.moveEntry Q b e.file R).moveMount R a e Q b).setParent e.file (some Q) =
      ((u.setParent e.file (some Q)).setEntries Q (u.entries Q ++ [(b, e.file)])).setMount Q b
        (some e) := by
    have hcomm : (t.moveEntry Q b e.file R).moveMount R a e Q b =
        ((t.cleared R Q b e.file).moveMount R a e Q b).setEntries Q
          ((t.cleared R Q b e.file).entries Q ++ [(b, e.file)]) := by
      unfold Tree.moveMount
      simp only [Tree.moveEntry, setMount_mount, setEntries_mount, Tree.cleared]
      split <;> rfl
    rw [hcomm, hueq, ← huentries]
    rfl
  have hlinked : (((t.moveEntry Q b e.file R).moveMount R a e Q b).setParent e.file (some Q)).Linked := by
    rw [hreorder]
    have hp := hu.setParent hunoentry hunomount huroot'
      (p := some Q) (fun heq => hQ (Option.some.inj heq).symm)
    have hentry := hp.addEntry (d := Q) (f := e.file) (n := b) (by rw [setParent_parent, if_pos rfl])
      hunoentry (by rw [setParent_entries, huentries]; exact h.cleared_free hf) huroot'
      (fun n o ho hfile => absurd hfile (hunomount Q n o ho))
    refine hentry.addMount (h.mount_kind R a e he) ?_ hunomount ?_ huroot'
    · rw [setEntries_parent, setParent_parent, if_pos rfl]
    · intro n hn
      rw [setEntries_entries, if_pos rfl] at hn
      rcases List.mem_append.mp hn with hn | hn
      · exact absurd hn (hunoentry Q n)
      · exact (Prod.mk.inj (List.mem_singleton.mp hn)).1
  have hnotNoMount : ¬ t.NoMount e.file := fun hno => hno R a e he rfl
  refine ⟨hlinked, ?_, ?_, ?_, ?_, ?_, .inr ⟨a, e, he, rfl, ?_⟩⟩
  · rw [hreorder]
    exact huroot.trans (cleared_root t R Q b e.file)
  · rw [setParent_parent, if_pos rfl]
  · intro g hg hne
    rw [hreorder]
    change (u.setParent e.file (some Q)).parent g = none
    rw [setParent_parent, if_neg hne]
    rcases huothers g with hsame | ⟨hnone, _⟩
    · rw [hsame, h.cleared_parent hf, if_pos ⟨hg, hne⟩]
    · exact hnone
  · intro g hne
    rw [hreorder]
    change (u.setParent e.file (some Q)).parent g = _ ∨ (u.setParent e.file (some Q)).parent g = _ ∧ _
    rw [setParent_parent, if_neg hne]
    rcases huothers g with hsame | ⟨hnone, o, ho, hog⟩
    · rw [hsame, h.cleared_parent hf]
      split
      · next hg => exact .inr ⟨rfl, .inl hg.1⟩
      · exact .inl rfl
    · rw [cleared_mount] at ho
      exact .inr ⟨hnone, .inr ⟨hnotNoMount, o, ho, hog⟩⟩
  · rw [hreorder]
    intro D n g
    change (n, g) ∈ (u.setEntries Q (u.entries Q ++ [(b, e.file)])).entries D ↔ _
    rw [← moved_entries h hf, setEntries_entries, setEntries_entries, huentries]
  · rw [hreorder]
    intro D n
    rw [setMount_mount, setEntries_mount, setParent_mount, humount, cleared_mount]
    split <;> rfl

end Move

end Tree

end WasmFS
