-- SUMMARY: The thread list under its lock, and threads over whole runs: cleanups, results of joins and the list.
import Emscripten.Pthread.ThreadBlocks

/-!
# Runs of threads

While a thread has the list lock, the links are those of a ring on which it has made some of
the assignments of its update. When it releases the lock it has made them all.
-/

namespace Pthread

open Machine

namespace Threads

variable {T R : Type}

/-- The list is of the threads that are alive. -/
def OnList (s : Threads T R) (l : List T) : Prop := ∀ t, t ∈ l ↔ (s.pc t).live = true

variable {c : JoinCall T}

section

variable [DecidableEq T]

def LockOk (s : Threads T R) : Prop :=
  match s.thread_list_lock with
  | none => (∀ t, (s.pc t).isEditing = false) ∧
      ∃ l, LinkedRing s.links.next s.links.prev l ∧ s.OnList l
  | some t => (∀ u, u ≠ t → (s.pc u).isEditing = false) ∧
      ∃ e n k l, s.pc t = .editing e n ∧ LinkedRing k.next k.prev l ∧ s.OnList l ∧
        ListEdit.run (e.writes.take n) k = some s.links

structure Inv (s : Threads T R) : Prop where
  blocks : s.Blocks
  count : s.tl_lock_count = 0
  lock : s.LockOk

variable {s s' : Threads T R} {t u new main : T} {p : ThreadPc T R} {e : ListEdit T} {n : Nat}

/-! ## The list lock -/

/-- A step that is no part of an update of the list. -/
theorem LockOk.of_same (hl : s.LockOk) (hlock : s'.thread_list_lock = s.thread_list_lock)
    (hlinks : s'.links = s.links) (hlive : ∀ u, (s'.pc u).live = (s.pc u).live)
    (hedit : ∀ u, (s'.pc u).isEditing = (s.pc u).isEditing)
    (hsame : ∀ u, (s.pc u).isEditing = true → s'.pc u = s.pc u) : s'.LockOk := by
  have hlist : ∀ l, s.OnList l → s'.OnList l := fun l hl u => by rw [hlive, hl]
  unfold LockOk at hl ⊢
  rw [hlock, hlinks]
  split at hl
  · obtain ⟨hnone, l, hring, honlist⟩ := hl
    exact ⟨fun u => (hedit u).trans (hnone u), l, hring, hlist l honlist⟩
  · obtain ⟨hothers, e, n, k, l, hpc, hring, honlist, hrun⟩ := hl
    refine ⟨fun u hu => (hedit u).trans (hothers u hu), e, n, k, l, ?_, hring, hlist l honlist, hrun⟩
    rw [hsame _ (by rw [hpc]; rfl), hpc]

/-- A thread without the lock goes on. -/
theorem LockOk.of_move (hl : s.LockOk) (hlock : s'.thread_list_lock = s.thread_list_lock)
    (hlinks : s'.links = s.links) (hpc : s'.pc = Function.update s.pc t p)
    (hlive : p.live = (s.pc t).live) (hedit : (s.pc t).isEditing = false)
    (hp : p.isEditing = false) : s'.LockOk := by
  refine hl.of_same hlock hlinks (fun u => ?_) (fun u => ?_) fun u hu => ?_
  · rw [hpc, Function.update_apply]
    split
    · next h => rw [h, hlive]
    · rfl
  · rw [hpc, Function.update_apply]
    split
    · next h => rw [h, hp, hedit]
    · rfl
  · rw [hpc, Function.update_of_ne]
    rintro rfl
    rw [hedit] at hu
    cases hu

/-- A thread that updates the list has the lock. -/
theorem LockOk.of_editing (hl : s.LockOk) (hpc : s.pc t = .editing e n) :
    s.thread_list_lock = some t ∧ (∀ u, u ≠ t → (s.pc u).isEditing = false) ∧
      ∃ k l, LinkedRing k.next k.prev l ∧ s.OnList l ∧
        ListEdit.run (e.writes.take n) k = some s.links := by
  unfold LockOk at hl
  split at hl
  · have hedit := hl.1 t
    rw [hpc] at hedit
    cases hedit
  · next owner howner =>
      obtain ⟨hothers, e', n', k, l, hpc', hring, honlist, hrun⟩ := hl
      have ht : t = owner := by
        by_contra hne
        have hedit := hothers t hne
        rw [hpc] at hedit
        cases hedit
      subst ht
      rw [hpc] at hpc'
      cases hpc'
      exact ⟨howner, hothers, k, l, hring, honlist, hrun⟩

theorem LockOk.lock (hl : s.LockOk) (hpc : s.pc t = .locking e) (h : s.tl_lock t = some s') :
    (s'.setPc t (.editing e 0)).LockOk ∧ s'.tl_lock_count = s.tl_lock_count ∧
      s' = { s with thread_list_lock := some t } := by
  unfold tl_lock at h
  split at h
  · next howner =>
      -- the owner is in its update
      unfold LockOk at hl
      rw [howner] at hl
      obtain ⟨-, e', n', k, l, hpc', -⟩ := hl
      exact nomatch hpc.symm.trans hpc'
  · split at h
    · next hnone =>
        cases h
        unfold LockOk at hl
        rw [hnone] at hl
        obtain ⟨hothers, l, hring, honlist⟩ := hl
        have hpcs : (Threads.setPc { s with thread_list_lock := some t } t (.editing e 0)).pc =
            Function.update s.pc t (.editing e 0) := rfl
        refine ⟨?_, rfl, rfl⟩
        unfold LockOk
        refine ⟨fun u hu => ?_, e, 0, s.links, l, Function.update_self .., hring, fun u => ?_, rfl⟩
        · rw [hpcs, Function.update_of_ne hu]
          exact hothers u
        · rw [hpcs, honlist, Function.update_apply]
          split
          · next h =>
              rw [h, hpc]
              exact Iff.rfl
          · exact Iff.rfl
    · cases h

theorem LockOk.write {w : Links T → Option (Links T)} {k' : Links T} (hl : s.LockOk)
    (hpc : s.pc t = .editing e n) (hw : e.writes[n]? = some w) (h : w s.links = some k') :
    (setPc { s with links := k' } t (.editing e (n + 1))).LockOk := by
  obtain ⟨howner, hothers, k, l, hring, honlist, hrun⟩ := hl.of_editing hpc
  have hpcs : (Threads.setPc { s with links := k' } t (.editing e (n + 1))).pc =
      Function.update s.pc t (.editing e (n + 1)) := rfl
  have howner' : (Threads.setPc { s with links := k' } t (.editing e (n + 1))).thread_list_lock =
      some t := howner
  unfold LockOk
  rw [howner']
  refine ⟨fun u hu => ?_, e, n + 1, k, l, Function.update_self .., hring, fun u => ?_, ?_⟩
  · rw [hpcs, Function.update_of_ne hu]
    exact hothers u hu
  · rw [hpcs, honlist, Function.update_apply]
    split
    · next h =>
        rw [h, hpc]
        exact Iff.rfl
    · exact Iff.rfl
  · rw [ListEdit.run_take_succ hw, hrun]
    exact h

omit [DecidableEq T] in
/-- An update that a thread plans fits the list of the threads that are alive. -/
theorem EditOk.fits {l : List T} (he : s.EditOk t e) (hlive : (s.pc t).live = true)
    (hl : s.OnList l) : e.Fits l := by
  cases e with
  | link self new =>
    obtain ⟨rfl, hnew, -⟩ := he
    refine ⟨(hl self).mpr hlive, fun h => ?_⟩
    have hnew' := (hl new).mp h
    rw [hnew] at hnew'
    cases hnew'
  | unlink u =>
    rcases he with ⟨rfl, -⟩ | ⟨-, hu, -⟩
    · exact (hl u).mpr hlive
    · refine (hl u).mpr ?_
      rw [hu]
      rfl

theorem Inv.editOk (hi : s.Inv) (hpc : s.pc t = .editing e n) : s.EditOk t e := by
  have hp := hi.blocks.plan t
  unfold PlanOk at hp
  rw [hpc] at hp
  exact hp

/-- The list when an update has been made. -/
theorem Inv.edited (hi : s.Inv) (hpc : s.pc t = .editing e e.writes.length) :
    ∃ l l', s.OnList l ∧ LinkedRing s.links.next s.links.prev l' ∧ ∀ u, u ∈ l' ↔ e.Member l u := by
  obtain ⟨-, -, k, l, hring, honlist, hrun⟩ := hi.lock.of_editing hpc
  have hfits := (hi.editOk hpc).fits (by rw [hpc]; rfl) honlist
  obtain ⟨k', l', hrun', hring', hmem⟩ := ListEdit.run_writes hring hfits
  rw [List.take_length, hrun'] at hrun
  cases hrun
  exact ⟨l, l', honlist, hring', hmem⟩

/-- No assignment of an update follows a null pointer. -/
theorem Inv.defined {w : Links T → Option (Links T)} (hi : s.Inv) (hpc : s.pc t = .editing e n)
    (hw : e.writes[n]? = some w) : w s.links ≠ none := by
  obtain ⟨-, -, k, l, hring, honlist, hrun⟩ := hi.lock.of_editing hpc
  have hfits := (hi.editOk hpc).fits (by rw [hpc]; rfl) honlist
  obtain ⟨k', l', hrun', -⟩ := ListEdit.run_writes hring hfits
  exact ListEdit.defined_of_run (by rw [hrun']; nofun) hrun hw

/-- The lock was released after an update of the list. -/
theorem LockOk.released {l' : List T} (hlock : s'.thread_list_lock = none)
    (hedit : ∀ u, (s'.pc u).isEditing = false) (hring : LinkedRing s'.links.next s'.links.prev l')
    (hlist : s'.OnList l') : s'.LockOk := by
  unfold LockOk
  rw [hlock]
  exact ⟨hedit, l', hring, hlist⟩

/-- The same, where the update was of a thread made by the one with the lock. -/
theorem LockOk.released_two {q : ThreadPc T R} {l' : List T} (hlock : s.thread_list_lock = none)
    (hothers : ∀ u, u ≠ t → (s.pc u).isEditing = false) (hne : new ≠ t)
    (hp : p.isEditing = false) (hq : q.isEditing = false)
    (hring : LinkedRing s.links.next s.links.prev l') (ht : t ∈ l' ↔ p.live = true)
    (hnew : new ∈ l' ↔ q.live = true)
    (hlist : ∀ u, u ≠ new → u ≠ t → (u ∈ l' ↔ (s.pc u).live = true)) :
    ((s.setPc new q).setPc t p).LockOk := by
  obtain ⟨hpcT, hpcNew, hpcOther⟩ := two_pcs (s := s) (p := p) (q := q) hne
  refine .released hlock (fun u => ?_) hring fun u => ?_
  · rcases eq_or_ne u t with rfl | hut
    · rw [hpcT, hp]
    rcases eq_or_ne u new with rfl | hun
    · rw [hpcNew, hq]
    · rw [hpcOther u hun hut]
      exact hothers u hut
  · rcases eq_or_ne u t with rfl | hut
    · rw [hpcT, ht]
    rcases eq_or_ne u new with rfl | hun
    · rw [hpcNew, hnew]
    · rw [hpcOther u hun hut]
      exact hlist u hun hut

omit [DecidableEq T] in
theorem Blocks.release (hi : s.Blocks) : Blocks { s with thread_list_lock := none } :=
  ⟨hi.block, hi.plan, fun t ht => ⟨(hi.fresh t ht).creator, (hi.fresh t ht).result,
    (hi.fresh t ht).exitValue⟩, hi.value, hi.delivered⟩

/-- A new thread is on the list. -/
theorem Inv.linked {self : T} (hi : s.Inv)
    (hpc : s.pc t = .editing (.link self new) (ListEdit.link self new).writes.length) :
    Inv ((setPc { s with thread_list_lock := none } new .created).setPc t (.starting new)) := by
  obtain ⟨-, hothers, -⟩ := hi.lock.of_editing hpc
  obtain ⟨l, l', honlist, hring, hmem⟩ := hi.edited hpc
  obtain ⟨-, hnew, hcreator⟩ := hi.editOk hpc
  have hne : new ≠ t := by
    rintro rfl
    exact nomatch hpc.symm.trans hnew
  obtain ⟨hpcT, hpcNew, -⟩ := two_pcs (s := { s with thread_list_lock := none })
    (p := .starting new) (q := .created) hne
  refine ⟨hi.blocks.release.setMade hcreator (by rw [hnew]; rfl) (by rw [hpc]; rfl)
    (by rw [hpc]; rfl) rfl rfl ?_ ?_, hi.count,
    .released_two rfl hothers hne rfl rfl hring ?_ ?_ fun u hun _ => ?_⟩
  · unfold PlanOk
    rw [hpcNew]
    trivial
  · unfold PlanOk
    rw [hpcT]
    exact ⟨hpcNew, hcreator⟩
  · refine (hmem t).trans (iff_of_true (.inl ((honlist t).mpr ?_)) rfl)
    rw [hpc]
    rfl
  · exact (hmem new).trans (iff_of_true (.inr rfl) rfl)
  · exact (hmem u).trans ((or_iff_left hun).trans (honlist u))

/-- A thread that could not be started is off the list. -/
theorem Inv.undone (hi : s.Inv)
    (hpc : s.pc t = .editing (.unlink new) (ListEdit.unlink new).writes.length) (hne : new ≠ t) :
    Inv ((setPc { s with thread_list_lock := none } new .failed).setPc t .running) := by
  obtain ⟨-, hothers, -⟩ := hi.lock.of_editing hpc
  obtain ⟨l, l', honlist, hring, hmem⟩ := hi.edited hpc
  obtain ⟨hself, -⟩ | ⟨-, hcreated, hcreator⟩ := hi.editOk hpc
  · exact absurd hself hne
  obtain ⟨hpcT, hpcNew, -⟩ := two_pcs (s := { s with thread_list_lock := none })
    (p := .running) (q := .failed) hne
  refine ⟨hi.blocks.release.setMade hcreator (by rw [hcreated]; rfl) (by rw [hpc]; rfl)
    (by rw [hpc]; rfl) rfl rfl ?_ ?_, hi.count,
    .released_two rfl hothers hne rfl rfl hring ?_ ?_ fun u hun _ => ?_⟩
  · unfold PlanOk
    rw [hpcNew]
    trivial
  · unfold PlanOk
    rw [hpcT]
    trivial
  · refine (hmem t).trans (iff_of_true ⟨(honlist t).mpr ?_, hne.symm⟩ rfl)
    rw [hpc]
    rfl
  · exact (hmem new).trans (iff_of_false (fun h => h.2 rfl) nofun)
  · exact (hmem u).trans ((and_iff_left hun).trans (honlist u))

/-- A thread that exits is off the list. -/
theorem Inv.unlinked (hi : s.Inv)
    (hpc : s.pc t = .editing (.unlink t) (ListEdit.unlink t).writes.length)
    (hp : p = .leaving ∨ p = .processExit) :
    Inv (setPc { s with thread_list_lock := none } t p) := by
  obtain ⟨-, hothers, -⟩ := hi.lock.of_editing hpc
  obtain ⟨l, l', honlist, hring, hmem⟩ := hi.edited hpc
  have hvalue : s.exitValue t ≠ none := by
    rcases hi.editOk hpc with ⟨-, hv⟩ | ⟨hne, -⟩
    · exact hv
    · exact absurd rfl hne
  have hpcs : (setPc { s with thread_list_lock := none } t p).pc = Function.update s.pc t p := rfl
  have hstage : p.stage = .attached ∧ p.live = false ∧ p.isEditing = false := by
    rcases hp with rfl | rfl
    · exact ⟨rfl, rfl, rfl⟩
    · exact ⟨rfl, rfl, rfl⟩
  obtain ⟨hstage, hlive, hedit⟩ := hstage
  refine ⟨hi.blocks.release.setPc (hstage.trans (by rw [hpc]; rfl)) (by rw [hpc]; rfl) ?_, hi.count,
    .released rfl (fun u => ?_) hring fun u => ?_⟩
  · unfold PlanOk
    rw [hpcs, Function.update_self]
    rcases hp with rfl | rfl
    · exact hvalue
    · trivial
  · rw [hpcs, Function.update_apply]
    split
    · exact hedit
    · next hu => exact hothers u hu
  · refine (hmem u).trans ?_
    rw [hpcs, Function.update_apply]
    split
    · next h =>
        rw [hlive]
        exact iff_of_false (fun hu => hu.2 h) nofun
    · next h => exact (and_iff_left h).trans (honlist u)

theorem Inv.unlock (hi : s.Inv) (h : s.unlock main t = some s') : s'.Inv := by
  unfold Threads.unlock at h
  split at h
  · next e n hpc =>
      split at h
      · next hn =>
          cases h
          subst hn
          have hunlock : s.tl_unlock = { s with thread_list_lock := none } :=
            if_neg (not_not.mpr hi.count)
          rw [hunlock]
          cases e with
          | link self new => exact hi.linked hpc
          | unlink w =>
            unfold afterEdit
            dsimp only
            by_cases hw : w = t
            · subst hw
              rw [if_pos rfl]
              refine hi.unlinked hpc ?_
              split
              · exact .inr rfl
              · exact .inl rfl
            · rw [if_neg hw]
              exact hi.undone hpc hw
      · cases h
  · cases h

/-! ## Steps -/

/-- A thread without the lock, and one that it has made, go on together. -/
theorem LockOk.of_two {q : ThreadPc T R} (hl : s.LockOk) (hne : new ≠ t)
    (hlock : s'.thread_list_lock = s.thread_list_lock) (hlinks : s'.links = s.links)
    (hpc : s'.pc = ((s.setPc new q).setPc t p).pc) (ht : (s.pc t).isEditing = false)
    (hnew : (s.pc new).isEditing = false) (hp : p.isEditing = false) (hq : q.isEditing = false)
    (hlive : p.live = (s.pc t).live) (hliveNew : q.live = (s.pc new).live) : s'.LockOk := by
  obtain ⟨hpcT, hpcNew, hpcOther⟩ := two_pcs (s := s) (p := p) (q := q) hne
  rw [← hpc] at hpcT hpcNew hpcOther
  refine hl.of_same hlock hlinks (fun u => ?_) (fun u => ?_) fun u hu => ?_
  · rcases eq_or_ne u t with rfl | hut
    · rw [hpcT, hlive]
    rcases eq_or_ne u new with rfl | hun
    · rw [hpcNew, hliveNew]
    · rw [hpcOther u hun hut]
  · rcases eq_or_ne u t with rfl | hut
    · rw [hpcT, hp, ht]
    rcases eq_or_ne u new with rfl | hun
    · rw [hpcNew, hq, hnew]
    · rw [hpcOther u hun hut]
  · refine hpcOther u ?_ ?_
    · rintro rfl
      rw [hnew] at hu
      cases hu
    · rintro rfl
      rw [ht] at hu
      cases hu

theorem Inv.create {b : Bool} (hi : s.Inv) (hpc : s.pc t = .running) (hnew : s.pc new = .absent) :
    (s.create t new b).Inv := by
  have hne : new ≠ t := by
    rintro rfl
    exact nomatch hpc.symm.trans hnew
  refine ⟨hi.blocks.create hpc hnew, hi.count, ?_⟩
  exact hi.lock.of_two (p := .locking (.link t new)) (q := .allocated) hne rfl rfl
    rfl (by rw [hpc]; rfl) (by rw [hnew]; rfl) rfl rfl (by rw [hpc]; rfl) (by rw [hnew]; rfl)

/-- A thread goes on without the lock, within a stage of its life. -/
theorem Inv.setPc (hi : s.Inv) (hstage : p.stage = (s.pc t).stage) (hmade : (s.pc t).made = false)
    (hlive : p.live = (s.pc t).live) (hedit : (s.pc t).isEditing = false) (hp : p.isEditing = false)
    (hplan : (s.setPc t p).PlanOk t) : (s.setPc t p).Inv :=
  ⟨hi.blocks.setPc hstage hmade hplan, hi.count, hi.lock.of_move rfl rfl rfl hlive hedit hp⟩

/-- A thread goes on with code of its own, or starts a call. -/
theorem Inv.setPc_live (hi : s.Inv) (ht : (s.pc t).live = true) (hmade : (s.pc t).made = false)
    (hedit : (s.pc t).isEditing = false) (hp : p.live = true) (hedit' : p.isEditing = false)
    (hplan : (s.setPc t p).PlanOk t) : (s.setPc t p).Inv := by
  have hstage : ∀ q : ThreadPc T R, q.live = true → q.stage = .attached := by
    intro q hq
    cases q with
    | absent => cases hq
    | cleaningUp => cases hq
    | publishing => cases hq
    | waking => cases hq
    | gone => cases hq
    | _ => rfl
  exact hi.setPc ((hstage p hp).trans (hstage _ ht).symm) hmade (hp.trans ht.symm) hedit hedit' hplan

/-- A thread keeps to its update. -/
theorem EditOk.setPc (he : s.EditOk t e) (hmade : (s.pc t).made = false) :
    (s.setPc t p).EditOk t e := by
  cases e with
  | link self new =>
    obtain ⟨hself, hnew, hcreator⟩ := he
    have hne : new ≠ t := by
      rintro rfl
      rw [hnew] at hmade
      cases hmade
    exact ⟨hself, (Function.update_of_ne hne ..).trans hnew, hcreator⟩
  | unlink u =>
    rcases he with h | ⟨hu, hcreated, hcreator⟩
    · exact .inl h
    · exact .inr ⟨hu, (Function.update_of_ne hu ..).trans hcreated, hcreator⟩

theorem Inv.acquire (hi : s.Inv) (h : s.lock t = some s') : s'.Inv := by
  unfold Threads.lock at h
  split at h
  · next e hpc =>
      obtain ⟨m, hm, rfl⟩ := Option.map_eq_some_iff.mp h
      obtain ⟨hlock, -, hsame⟩ := hi.lock.lock hpc hm
      subst hsame
      have hblocks : Blocks { s with thread_list_lock := some t } :=
        ⟨hi.blocks.block, hi.blocks.plan, fun u hu => ⟨(hi.blocks.fresh u hu).creator,
          (hi.blocks.fresh u hu).result, (hi.blocks.fresh u hu).exitValue⟩, hi.blocks.value,
          hi.blocks.delivered⟩
      have hplan := hi.blocks.plan t
      unfold PlanOk at hplan
      rw [hpc] at hplan
      have hedit : EditOk { s with thread_list_lock := some t } t e := hplan
      refine ⟨hblocks.setPc (by rw [hpc]; rfl) (by rw [hpc]; rfl) ?_, hi.count, hlock⟩
      unfold PlanOk
      rw [setPc_self]
      exact hedit.setPc (by rw [hpc]; rfl)
  · cases h

theorem Inv.write (hi : s.Inv) (h : s.write t = some s') : s'.Inv := by
  unfold Threads.write at h
  split at h
  · next e n hpc =>
      obtain ⟨w, hw, hk⟩ := Option.bind_eq_some_iff.mp h
      obtain ⟨k, hrun, rfl⟩ := Option.map_eq_some_iff.mp hk
      have hblocks : Blocks { s with links := k } :=
        ⟨hi.blocks.block, hi.blocks.plan, fun u hu => ⟨(hi.blocks.fresh u hu).creator,
          (hi.blocks.fresh u hu).result, (hi.blocks.fresh u hu).exitValue⟩, hi.blocks.value,
          hi.blocks.delivered⟩
      have hedit : EditOk { s with links := k } t e := hi.editOk hpc
      refine ⟨hblocks.setPc (by rw [hpc]; rfl) (by rw [hpc]; rfl) ?_, hi.count, hi.lock.write hpc hw hrun⟩
      unfold PlanOk
      rw [setPc_self]
      exact hedit.setPc (by rw [hpc]; rfl)
  · cases h

theorem Inv.start {b : Bool} (hi : s.Inv) (h : s.start t b = some s') : s'.Inv := by
  unfold Threads.start at h
  split at h
  · next new hpc =>
      have hplan := hi.blocks.plan t
      unfold PlanOk at hplan
      rw [hpc] at hplan
      obtain ⟨hcreated, hcreator⟩ := hplan
      have hne : new ≠ t := by
        rintro rfl
        exact nomatch hpc.symm.trans hcreated
      split at h
      · cases h
        obtain ⟨hpcT, hpcNew, -⟩ := two_pcs (s := s) (p := .running) (q := .running) hne
        refine ⟨hi.blocks.setMade hcreator (by rw [hcreated]; rfl) (by rw [hpc]; rfl)
          (by rw [hpc]; rfl) rfl rfl ?_ ?_, hi.count, ?_⟩
        · unfold PlanOk
          rw [hpcNew]
          trivial
        · unfold PlanOk
          rw [hpcT]
          trivial
        · exact hi.lock.of_two hne rfl rfl rfl (by rw [hpc]; rfl) (by rw [hcreated]; rfl) rfl rfl
            (by rw [hpc]; rfl) (by rw [hcreated]; rfl)
      · cases h
        refine hi.setPc_live (by rw [hpc]; rfl) (by rw [hpc]; rfl) (by rw [hpc]; rfl) rfl rfl ?_
        unfold PlanOk
        rw [setPc_self]
        exact .inr ⟨hne, (Function.update_of_ne hne ..).trans hcreated, hcreator⟩
  · cases h

/-! ## Exit -/

theorem Inv.leave (hi : s.Inv) (hpc : s.pc t = .running) (ht : s.exitValue t ≠ none) :
    (s.setPc t (.locking (.unlink t))).Inv := by
  refine hi.setPc_live (by rw [hpc]; rfl) (by rw [hpc]; rfl) (by rw [hpc]; rfl) rfl rfl ?_
  unfold PlanOk
  rw [setPc_self]
  exact .inl ⟨rfl, ht⟩

theorem Inv.exchange (hi : s.Inv) (hpc : s.pc t = .leaving) : (s.exchange t).Inv := by
  refine ⟨hi.blocks.exchange hpc, ?_, ?_⟩
  · unfold Threads.exchange
    split
    · exact hi.count
    · exact hi.count
    · exact hi.count
  · unfold Threads.exchange
    split
    · exact hi.lock.of_move (t := t) (p := .publishing) rfl rfl rfl (by rw [hpc]; rfl)
        (by rw [hpc]; rfl) rfl
    · exact hi.lock.of_move (t := t) (p := .cleaningUp) rfl rfl rfl (by rw [hpc]; rfl)
        (by rw [hpc]; rfl) rfl
    · exact hi.lock.of_move (t := t) (p := .publishing) rfl rfl rfl (by rw [hpc]; rfl)
        (by rw [hpc]; rfl) rfl

/-! ## Join and detach -/

/-- A call ends, or the thread goes on after it. -/
theorem Inv.setRunning (hi : s.Inv) (ht : (s.pc t).live = true) (hmade : (s.pc t).made = false)
    (hedit : (s.pc t).isEditing = false) : (s.setPc t .running).Inv := by
  refine hi.setPc_live ht hmade hedit rfl rfl ?_
  unfold PlanOk
  rw [setPc_self]
  trivial

theorem Inv.present_of_valid (hi : s.Inv) (ht : s.valid t = true) : s.pc t ≠ .absent := by
  intro hpc
  have hb := hi.blocks.block t
  unfold BlockOk at hb
  rw [hpc] at hb
  exact nomatch hb.1.symm.trans ht

theorem JoinOk.setPc {st : JoinPc R} (hj : s.JoinOk c st) (ht : (s.pc t).stage ≠ .ended) :
    (s.setPc t p).JoinOk c st := by
  have hstage : (s.pc c.target).stage = .ended → ((s.setPc t p).pc c.target).stage = .ended := by
    intro h
    have hne : c.target ≠ t := fun heq => ht (heq ▸ h)
    exact (congrArg _ (Function.update_of_ne hne ..)).trans h
  cases st with
  | check r => trivial
  | wait => trivial
  | sync => exact hstage hj
  | take => exact hstage hj
  | cleanup v => exact ⟨hstage hj.1, hj.2⟩

/-- A join goes on. -/
theorem Inv.setJoining {st : JoinPc R} (hi : s.Inv) (ht : (s.pc t).live = true) (hmade : (s.pc t).made = false)
    (hedit : (s.pc t).isEditing = false) (hpresent : s.pc c.target ≠ .absent)
    (hjoin : s.completed c.target = 0 → s.JoinOk c st) : (s.setPc t (.joining c st)).Inv := by
  have hended : (s.pc t).stage ≠ .ended := by
    intro h
    cases hpc : s.pc t with
    | waking =>
      rw [hpc] at ht
      cases ht
    | gone =>
      rw [hpc] at ht
      cases ht
    | _ =>
      rw [hpc] at h
      cases h
  refine hi.setPc_live ht hmade hedit rfl rfl ?_
  unfold PlanOk
  rw [setPc_self]
  refine ⟨?_, fun hc => (hjoin hc).setPc hended⟩
  change Function.update s.pc t (.joining c st) c.target ≠ .absent
  rw [Function.update_apply]
  split
  · nofun
  · exact hpresent

/-- A detach state that says so is of a thread that has ended. -/
theorem Inv.ended_of_exited (hi : s.Inv) (hpresent : s.pc u ≠ .absent)
    (hd : s.detach_state u = .exited) : (s.pc u).stage = .ended := by
  have hb := hi.blocks.block u
  unfold BlockOk at hb
  rw [hd] at hb
  split at hb
  · next h => exact absurd (stage_absent.mp h) hpresent
  · rcases hb.2.2 with ⟨h, -⟩ | ⟨h, -⟩
    · cases h
    · cases h
  · exact nomatch hb.2.2.1
  · exact nomatch hb.2.2.1
  · next h => exact h

/-- The result of a thread that nobody has joined. -/
theorem Inv.result_of_ended (hi : s.Inv) (hu : (s.pc u).stage = .ended)
    (hc : s.completed u = 0) : s.exitValue u ≠ none ∧ s.result u = s.exitValue u := by
  have hplan := hi.blocks.plan u
  unfold PlanOk at hplan
  refine ⟨?_, hi.blocks.value u ?_⟩
  · cases hpc : s.pc u with
    | waking =>
      rw [hpc] at hplan
      exact hplan
    | gone =>
      rw [hpc] at hplan
      exact hplan
    | _ =>
      rw [hpc] at hu
      cases hu
  · rcases (hi.blocks.block u).ended hu with ⟨hvalid, -⟩ | ⟨-, hc', -⟩
    · exact hvalid
    · exact nomatch hc.symm.trans hc'

theorem Inv.join (hi : s.Inv) (hpc : s.pc t = .running) : (s.join t c).Inv := by
  unfold Threads.join
  split
  · exact hi
  · next hvalid =>
      split
      · exact hi
      · refine hi.setJoining (by rw [hpc]; rfl) (by rw [hpc]; rfl) (by rw [hpc]; rfl) ?_
          fun _ => trivial
        exact hi.present_of_valid (Bool.not_eq_false _ ▸ hvalid)

theorem Inv.joinStep (hi : s.Inv)
    (hpermits : ∀ c v, s.pc t = .joining c (.cleanup v) → s.completed c.target = 0)
    (h : s.joinStep t = some s') : s'.Inv := by
  unfold Threads.joinStep at h
  split at h
  · next c r hpc =>
      cases h
      obtain ⟨hpresent, -⟩ := (hi.blocks.plan t).joining hpc
      unfold joinCheck
      split
      · next hd =>
          exact hi.setJoining (by rw [hpc]; rfl) (by rw [hpc]; rfl) (by rw [hpc]; rfl) hpresent
            fun _ => hi.ended_of_exited hpresent hd
      · exact hi.setJoining (by rw [hpc]; rfl) (by rw [hpc]; rfl) (by rw [hpc]; rfl) hpresent
          fun _ => trivial
      · exact hi.setJoining (by rw [hpc]; rfl) (by rw [hpc]; rfl) (by rw [hpc]; rfl) hpresent
          fun _ => trivial
      · exact hi.setRunning (by rw [hpc]; rfl) (by rw [hpc]; rfl) (by rw [hpc]; rfl)
  · next c hpc =>
      cases h
      obtain ⟨hpresent, hjoin⟩ := (hi.blocks.plan t).joining hpc
      exact hi.setJoining (by rw [hpc]; rfl) (by rw [hpc]; rfl) (by rw [hpc]; rfl) hpresent hjoin
  · next c hpc =>
      cases h
      obtain ⟨hpresent, hjoin⟩ := (hi.blocks.plan t).joining hpc
      refine hi.setJoining (by rw [hpc]; rfl) (by rw [hpc]; rfl) (by rw [hpc]; rfl) hpresent
        fun hc => ?_
      obtain ⟨hvalue, hresult⟩ := hi.result_of_ended (hjoin hc) hc
      exact ⟨hjoin hc, hvalue, hresult⟩
  · next c v hpc =>
      cases h
      refine ⟨hi.blocks.joinDone hpc (hpermits c v hpc), hi.count, ?_⟩
      exact hi.lock.of_move (t := t) (p := .running) rfl rfl rfl (by rw [hpc]; rfl)
        (by rw [hpc]; rfl) rfl
  · cases h

theorem Inv.joinWait {r : JoinWait} (hi : s.Inv) (h : s.joinWait t r = some s') : s'.Inv := by
  unfold Threads.joinWait at h
  split at h
  · next c hpc =>
      split at h
      · cases h
        obtain ⟨hpresent, -⟩ := (hi.blocks.plan t).joining hpc
        exact hi.setJoining (by rw [hpc]; rfl) (by rw [hpc]; rfl) (by rw [hpc]; rfl) hpresent
          fun _ => trivial
      · cases h
  · cases h

theorem Inv.cancelJoin (hi : s.Inv) (h : s.cancelJoin t = some s') : s'.Inv := by
  unfold Threads.cancelJoin at h
  split at h
  · next c hpc =>
      split at h
      · cases h
      · cases h
        exact hi.setRunning (by rw [hpc]; rfl) (by rw [hpc]; rfl) (by rw [hpc]; rfl)
  · cases h

theorem Inv.detach (hi : s.Inv) (hpc : s.pc t = .running) : (s.detach t u).Inv := by
  unfold Threads.detach
  split
  · exact hi
  · refine hi.setPc_live (by rw [hpc]; rfl) (by rw [hpc]; rfl) (by rw [hpc]; rfl) rfl rfl ?_
    unfold PlanOk
    rw [setPc_self]
    trivial

theorem Inv.detachExchange (hi : s.Inv) (h : s.detachExchange t = some s') : s'.Inv := by
  unfold Threads.detachExchange at h
  split at h
  · next w hpc =>
      have hrunning : (s.setPc t .running).Inv :=
        hi.setRunning (by rw [hpc]; rfl) (by rw [hpc]; rfl) (by rw [hpc]; rfl)
      split at h
      · next hd =>
          cases h
          refine ⟨hi.blocks.detached hpc hd, hi.count, ?_⟩
          exact hi.lock.of_move (t := t) (p := .running) rfl rfl rfl (by rw [hpc]; rfl)
            (by rw [hpc]; rfl) rfl
      · cases h
        exact hrunning
      · cases h
        exact hrunning.join setPc_self
  · cases h

/-! ## Runs -/

theorem init_inv : (init main : Threads T R).Inv := by
  have hpcs : ∀ u, (init main : Threads T R).pc u = if u = main then .running else .absent :=
    fun _ => rfl
  refine ⟨⟨fun u => ?_, fun u => ?_, fun u _ => ⟨rfl, rfl, rfl⟩, fun _ _ => rfl, nofun⟩, rfl, ?_⟩
  · unfold BlockOk
    rw [hpcs]
    by_cases hu : u = main
    · rw [if_pos hu]
      exact ⟨decide_eq_true hu, rfl, .inl ⟨if_pos hu, rfl⟩⟩
    · rw [if_neg hu]
      exact ⟨decide_eq_false hu, if_neg hu, rfl, rfl⟩
  · unfold PlanOk
    rw [hpcs]
    by_cases hu : u = main
    · rw [if_pos hu]
      trivial
    · rw [if_neg hu]
      trivial
  · have hring : LinkedRing (init main : Threads T R).links.next (init main : Threads T R).links.prev [main] :=
      .singleton (if_pos rfl) (if_pos rfl)
    refine .released rfl (fun u => ?_) hring fun u => ?_
    · rw [hpcs]
      split
      · rfl
      · rfl
    · rw [hpcs, List.mem_singleton]
      by_cases hu : u = main
      · rw [if_pos hu]
        exact iff_of_true hu rfl
      · rw [if_neg hu]
        exact iff_of_false hu nofun

section

variable [DecidableEq R] {q : ThreadPc T R}

theorem whenAt_eq_some {m : Threads T R} (h : s.whenAt t q m = some s') : s.pc t = q ∧ s' = m := by
  unfold whenAt at h
  split at h
  · next hpc => exact ⟨hpc, (Option.some.inj h).symm⟩
  · cases h

/-- A step that meets the condition keeps the invariant. -/
theorem Inv.step {a : ThreadAction T R} (hi : s.Inv) (hc : s.Permits a)
    (h : step main s a = some s') : s'.Inv := by
  cases a with
  | create t new b =>
    change (if s.pc new = .absent then _ else _) = some s' at h
    split at h
    · next hnew =>
        obtain ⟨hpc, rfl⟩ := whenAt_eq_some h
        exact hi.create hpc hnew
    · cases h
  | lock t => exact hi.acquire h
  | write t => exact hi.write h
  | unlock t => exact hi.unlock h
  | start t b => exact hi.start h
  | exit t v =>
    change (if s.exitValue t = none then _ else _) = some s' at h
    split at h
    · next hvalue =>
        obtain ⟨hpc, rfl⟩ := whenAt_eq_some h
        refine ⟨hi.blocks.exit hpc hvalue, hi.count, ?_⟩
        exact hi.lock.of_same rfl rfl (fun _ => rfl) (fun _ => rfl) fun _ _ => rfl
    · cases h
  | leave t =>
    change (if s.exitValue t = none then _ else _) = some s' at h
    split at h
    · cases h
    · next hvalue =>
        obtain ⟨hpc, rfl⟩ := whenAt_eq_some h
        exact hi.leave hpc hvalue
  | exchange t =>
    obtain ⟨hpc, rfl⟩ := whenAt_eq_some h
    exact hi.exchange hpc
  | cleanup t =>
    obtain ⟨hpc, rfl⟩ := whenAt_eq_some h
    refine ⟨hi.blocks.cleanup hpc, hi.count, ?_⟩
    exact hi.lock.of_move (t := t) (p := .gone) rfl rfl rfl (by rw [hpc]; rfl) (by rw [hpc]; rfl) rfl
  | publish t =>
    obtain ⟨hpc, rfl⟩ := whenAt_eq_some h
    refine ⟨hi.blocks.publish hpc, hi.count, ?_⟩
    exact hi.lock.of_move (t := t) (p := .waking) rfl rfl rfl (by rw [hpc]; rfl) (by rw [hpc]; rfl)
      rfl
  | wake t =>
    obtain ⟨hpc, rfl⟩ := whenAt_eq_some h
    refine hi.setPc (by rw [hpc]; rfl) (by rw [hpc]; rfl) (by rw [hpc]; rfl) (by rw [hpc]; rfl) rfl ?_
    have hplan := hi.blocks.plan t
    unfold PlanOk at hplan ⊢
    rw [hpc] at hplan
    rw [setPc_self]
    exact hplan
  | free t =>
    change (if s.cleanups t = 0 then _ else _) = some s' at h
    split at h
    · cases h
    · next ht =>
        cases h
        refine ⟨hi.blocks.free ht, hi.count, ?_⟩
        exact hi.lock.of_same rfl rfl (fun _ => rfl) (fun _ => rfl) fun _ _ => rfl
  | join t target timed =>
    obtain ⟨hpc, rfl⟩ := whenAt_eq_some h
    exact hi.join hpc
  | joinStep t => exact hi.joinStep hc h
  | joinWait t r => exact hi.joinWait h
  | cancelJoin t => exact hi.cancelJoin h
  | detach t target =>
    obtain ⟨hpc, rfl⟩ := whenAt_eq_some h
    exact hi.detach hpc
  | detachExchange t => exact hi.detachExchange h

theorem reaches_inv (h : Reaches (step main) Permits (init main) s) : s.Inv :=
  h.invariant init_inv fun _ _ _ hi hc hs => hi.step hc hs

end

/-- A block that was handed over is of a thread that has ended. -/
theorem Inv.ended_of_cleanups (hi : s.Inv) (ht : s.cleanups t ≠ 0) :
    (s.pc t).stage = .ended ∧ s.cleanups t = 1 := by
  have hb := hi.blocks.block t
  unfold BlockOk at hb
  split at hb
  · exact absurd hb.2.2.1 ht
  · exact absurd hb.2.1 ht
  · exact absurd hb.2.1 ht
  · exact absurd hb.2.1 ht
  · next hstage =>
      rcases hb with ⟨-, -, hk, -⟩ | ⟨hk, -⟩
      · exact absurd hk ht
      · exact ⟨hstage, hk⟩

theorem Inv.sound (hi : s.Inv) : s.Sound where
  once t := by
    by_cases ht : s.cleanups t = 0
    · rw [ht]
      exact Nat.zero_le 1
    · exact (hi.ended_of_cleanups ht).2.le
  cleaned t hpc hc := by
    rcases (hi.blocks.block t).ended (by rw [hpc]; rfl) with ⟨-, -, -, h⟩ | ⟨hk, -⟩
    · exact absurd h hc
    · exact hk
  after t ht := by
    have hstage := (hi.ended_of_cleanups ht).1
    cases hpc : s.pc t with
    | waking => exact ⟨rfl, rfl⟩
    | gone => exact ⟨rfl, rfl⟩
    | _ =>
      rw [hpc] at hstage
      cases hstage
  delivered x hx := hi.blocks.delivered x hx
  list hlock := by
    have hl := hi.lock
    unfold LockOk at hl
    rw [hlock] at hl
    exact hl.2
  defined t e n w hpc hw := hi.defined hpc hw

variable [DecidableEq R]

/-- In every run in which at most one join or detach of a thread is successful, its block is
handed over once, after it has left the list and done with the block, joins deliver its
result, and the list is a ring of the threads that are alive whenever its lock is free. -/
theorem threads_sound (h : Reaches (step main) Permits (init main) s) : s.Sound :=
  (reaches_inv h).sound

/-- A join times out and is tried again; the thread exits meanwhile. -/
theorem threads_sound_join :
    ∃ s : Threads Bool Nat, s.Sound ∧ s.delivered = [(true, some 7)] ∧ s.cleanups true = 1 := by
  have h₀ : Reaches (step false) Permits (init (T := Bool) (R := Nat) false) (init false) := .init
  have h₁ := h₀.next (.create false true false) trivial rfl
  have h₂ := h₁.next (.lock false) trivial rfl
  have h₃ := (((h₂.next (.write false) trivial rfl).next (.write false) trivial rfl).next
    (.write false) trivial rfl).next (.write false) trivial rfl
  have h₄ := (h₃.next (.unlock false) trivial rfl).next (.start false true) trivial rfl
  have h₅ := (h₄.next (.join false true true) trivial rfl).next (.joinStep false) nofun rfl
  have h₆ := (h₅.next (.joinWait false .timedOut) trivial rfl).next (.joinStep false) nofun rfl
  have h₇ := (h₆.next (.exit true 7) trivial rfl).next (.leave true) trivial rfl
  have h₈ := ((h₇.next (.lock true) trivial rfl).next (.write true) trivial rfl).next
    (.write true) trivial rfl
  have h₉ := (h₈.next (.write true) trivial rfl).next (.unlock true) trivial rfl
  have h₁₀ := (h₉.next (.exchange true) trivial rfl).next (.join false true false) trivial rfl
  have h₁₁ := (h₁₀.next (.joinStep false) nofun rfl).next (.publish true) trivial rfl
  have h₁₂ := (h₁₁.next (.joinWait false .ok) trivial rfl).next (.joinStep false) nofun rfl
  have h₁₃ := (h₁₂.next (.joinStep false) nofun rfl).next (.joinStep false) nofun rfl
  have h₁₄ := h₁₃.next (.joinStep false) (fun c v hpc => by cases hpc; rfl) rfl
  exact ⟨_, threads_sound (h₁₄.next (.wake true) trivial rfl), rfl, rfl⟩

end

end Threads

end Pthread
