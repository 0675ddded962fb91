-- SUMMARY: What holds of thread blocks at every step: detach states, hand-overs to the cleanup, and the plans of threads that make or join others.
import Emscripten.Pthread.Threads

/-!
# Thread blocks

Where a thread is in its life determines its detach state and whether its block was handed
over. A thread in a call relies on facts about other threads that only grow, or that only it
can change.
-/

namespace Pthread

open Machine

/-- The part of its life that a thread is in, as its block shows it. -/
inductive LifeStage
  | absent
  /-- Before the exchange of its detach state. -/
  | attached
  | cleaningUp
  | publishing
  | ended
deriving DecidableEq, Repr

namespace ThreadPc

variable {T R : Type}

def stage : ThreadPc T R → LifeStage
  | .absent => .absent
  | .cleaningUp => .cleaningUp
  | .publishing => .publishing
  | .waking => .ended
  | .gone => .ended
  | _ => .attached

/-- The thread is between its creation and its first step: its creator acts for it. -/
def made : ThreadPc T R → Bool
  | .allocated => true
  | .created => true
  | _ => false

def isEditing : ThreadPc T R → Bool
  | .editing _ _ => true
  | _ => false

end ThreadPc

namespace Threads

variable {T R : Type}

/-! ## Invariants -/

/-- What the block of a thread shows at a stage of its life. -/
def BlockOk (s : Threads T R) (t : T) : Prop :=
  match (s.pc t).stage with
  | .absent => s.valid t = false ∧ s.detach_state t = .exited ∧ s.cleanups t = 0 ∧ s.completed t = 0
  | .attached => s.valid t = true ∧ s.cleanups t = 0 ∧
      (s.detach_state t = .joinable ∧ s.completed t = 0 ∨
        s.detach_state t = .detached ∧ s.completed t = 1)
  | .cleaningUp => s.valid t = true ∧ s.cleanups t = 0 ∧ s.detach_state t = .detached ∧
      s.completed t = 1
  | .publishing => s.valid t = true ∧ s.cleanups t = 0 ∧ s.detach_state t = .exiting ∧
      s.completed t = 0
  | .ended => s.valid t = true ∧ s.detach_state t = .exited ∧ s.cleanups t = 0 ∧ s.completed t = 0 ∨
      s.cleanups t = 1 ∧ s.completed t = 1 ∧ s.detach_state t ≠ .joinable

/-- The update that thread `t` makes or waits to make. -/
def EditOk (s : Threads T R) (t : T) : ListEdit T → Prop
  | .link self new => self = t ∧ s.pc new = .allocated ∧ s.creator new = some t
  | .unlink u => u = t ∧ s.exitValue t ≠ none ∨
      u ≠ t ∧ s.pc u = .created ∧ s.creator u = some t

/-- What a join knows of its target, unless the target was joined or detached by another
thread. -/
def JoinOk (s : Threads T R) (c : JoinCall T) : JoinPc R → Prop
  | .check _ => True
  | .wait => True
  | .sync => (s.pc c.target).stage = .ended
  | .take => (s.pc c.target).stage = .ended
  | .cleanup v => (s.pc c.target).stage = .ended ∧ s.exitValue c.target ≠ none ∧
      v = s.exitValue c.target

def PlanOk (s : Threads T R) (t : T) : Prop :=
  match s.pc t with
  | .locking e => s.EditOk t e
  | .editing e _ => s.EditOk t e
  | .starting new => s.pc new = .created ∧ s.creator new = some t
  | .joining c st => s.pc c.target ≠ .absent ∧ (s.completed c.target = 0 → s.JoinOk c st)
  | .leaving => s.exitValue t ≠ none
  | .cleaningUp => s.exitValue t ≠ none
  | .publishing => s.exitValue t ≠ none
  | .waking => s.exitValue t ≠ none
  | .gone => s.exitValue t ≠ none
  | _ => True

structure Fresh (s : Threads T R) (t : T) : Prop where
  creator : s.creator t = none
  result : s.result t = none
  exitValue : s.exitValue t = none

structure Blocks (s : Threads T R) : Prop where
  block : ∀ t, s.BlockOk t
  plan : ∀ t, s.PlanOk t
  fresh : ∀ t, s.pc t = .absent → s.Fresh t
  value : ∀ t, s.valid t = true → s.result t = s.exitValue t
  delivered : ∀ x ∈ s.delivered, x.2 ≠ none ∧ x.2 = s.exitValue x.1

section

variable {s s' : Threads T R} {t u new : T} {p : ThreadPc T R} {c : JoinCall T} {e : ListEdit T}
  {v : R}

/-! ## Frames -/

/-- The block of `t` shows the same. -/
structure SameBlock (s s' : Threads T R) (t : T) : Prop where
  stage : (s'.pc t).stage = (s.pc t).stage
  valid : s'.valid t = s.valid t
  detach_state : s'.detach_state t = s.detach_state t
  cleanups : s'.cleanups t = s.cleanups t
  completed : s'.completed t = s.completed t

theorem BlockOk.of_same (hb : s.BlockOk t) (h : SameBlock s s' t) : s'.BlockOk t := by
  unfold BlockOk at hb ⊢
  rw [h.stage, h.valid, h.detach_state, h.cleanups, h.completed]
  exact hb

/-- What thread `u` relies on is kept. -/
structure Keeps (s s' : Threads T R) (u : T) : Prop where
  pc : s'.pc u = s.pc u
  creator : ∀ v, s.creator v = some u → s'.creator v = s.creator v
  made : ∀ v, s.creator v = some u → (s.pc v).made = true → s'.pc v = s.pc v
  present : ∀ v, s.pc v ≠ .absent → s'.pc v ≠ .absent
  ended : ∀ v, (s.pc v).stage = .ended → (s'.pc v).stage = .ended
  value : ∀ v, s.exitValue v ≠ none → s'.exitValue v = s.exitValue v
  completed : ∀ v, s'.completed v = 0 → s.completed v = 0

theorem EditOk.keeps (he : s.EditOk u e) (h : Keeps s s' u) : s'.EditOk u e := by
  cases e with
  | link self new =>
    obtain ⟨hself, hpc, hcreator⟩ := he
    exact ⟨hself, (h.made new hcreator (by rw [hpc]; rfl)).trans hpc,
      (h.creator new hcreator).trans hcreator⟩
  | unlink w =>
    rcases he with ⟨hw, hvalue⟩ | ⟨hw, hpc, hcreator⟩
    · exact .inl ⟨hw, by rw [h.value u hvalue]; exact hvalue⟩
    · exact .inr ⟨hw, (h.made w hcreator (by rw [hpc]; rfl)).trans hpc,
        (h.creator w hcreator).trans hcreator⟩

theorem JoinOk.keeps {st : JoinPc R} (hj : s.JoinOk c st) (h : Keeps s s' u) : s'.JoinOk c st := by
  cases st with
  | check r => trivial
  | wait => trivial
  | sync => exact h.ended _ hj
  | take => exact h.ended _ hj
  | cleanup v =>
    obtain ⟨hended, hvalue, hv⟩ := hj
    refine ⟨h.ended _ hended, ?_, ?_⟩
    · rw [h.value _ hvalue]
      exact hvalue
    · rw [h.value _ hvalue]
      exact hv

theorem PlanOk.keeps (hp : s.PlanOk u) (h : Keeps s s' u) : s'.PlanOk u := by
  unfold PlanOk at hp ⊢
  rw [h.pc]
  split at hp
  · exact hp.keeps h
  · exact hp.keeps h
  · exact ⟨(h.made _ hp.2 (by rw [hp.1]; rfl)).trans hp.1, (h.creator _ hp.2).trans hp.2⟩
  · exact ⟨h.present _ hp.1, fun hc => (hp.2 (h.completed _ hc)).keeps h⟩
  · rw [h.value u hp]
    exact hp
  · rw [h.value u hp]
    exact hp
  · rw [h.value u hp]
    exact hp
  · rw [h.value u hp]
    exact hp
  · rw [h.value u hp]
    exact hp
  · trivial

/-! ## Moves of one thread -/

variable [DecidableEq T]

@[simp] theorem setPc_self : (s.setPc t p).pc t = p := Function.update_self ..

/-- A step of another thread that is at work. -/
theorem Keeps.of_move (hu : u ≠ t) (hpc : s'.pc = Function.update s.pc t p)
    (hmade : (s.pc t).made = false) (hpresent : p ≠ .absent)
    (hended : (s.pc t).stage = .ended → p.stage = .ended) (hcreator : s'.creator = s.creator)
    (hvalue : s'.exitValue = s.exitValue) (hcompleted : ∀ v, s'.completed v = 0 → s.completed v = 0) :
    Keeps s s' u where
  pc := by rw [hpc, Function.update_of_ne hu]
  creator v _ := by rw [hcreator]
  made v _ hv := by
    rw [hpc, Function.update_of_ne]
    rintro rfl
    rw [hmade] at hv
    cases hv
  present v hv := by
    rw [hpc, Function.update_apply]
    split
    · exact hpresent
    · exact hv
  ended v hv := by
    rw [hpc, Function.update_apply]
    split
    · next h => exact hended (h ▸ hv)
    · exact hv
  value v _ := by rw [hvalue]
  completed := hcompleted

omit [DecidableEq T] in
theorem stage_absent : p.stage = .absent ↔ p = .absent := by
  refine ⟨fun h => ?_, fun h => by rw [h]; rfl⟩
  cases p with
  | absent => rfl
  | _ => cases h

/-- A thread goes on, within a stage of its life. -/
theorem Blocks.setPc (hi : s.Blocks) (hstage : p.stage = (s.pc t).stage)
    (hmade : (s.pc t).made = false) (hplan : (s.setPc t p).PlanOk t) : (s.setPc t p).Blocks := by
  have hpc : (s.setPc t p).pc = Function.update s.pc t p := rfl
  refine ⟨fun u => ?_, fun u => ?_, fun u hu => ?_, hi.value, hi.delivered⟩
  · refine (hi.block u).of_same ⟨?_, rfl, rfl, rfl, rfl⟩
    rw [hpc, Function.update_apply]
    split
    · next h => rw [h, hstage]
    · rfl
  · rcases eq_or_ne u t with rfl | hu
    · exact hplan
    · by_cases habsent : s.pc t = .absent
      · -- a name that is not in use stays so
        have hp : p = .absent := stage_absent.mp (hstage.trans (stage_absent.mpr habsent))
        have hsame : Function.update s.pc t p = s.pc := by
          rw [hp, ← habsent, Function.update_eq_self]
        have hs : s.setPc t p = s := by rw [Threads.setPc, hsame]
        rw [hs]
        exact hi.plan u
      · have hp : p ≠ .absent := fun h =>
          habsent (stage_absent.mp (hstage.symm.trans (stage_absent.mpr h)))
        exact (hi.plan u).keeps (.of_move hu hpc hmade hp (fun h => hstage.trans h) rfl rfl
          fun _ h => h)
  · have hu' : s.pc u = .absent := by
      rw [hpc, Function.update_apply] at hu
      split at hu
      · next h => rw [h]; exact stage_absent.mp (hstage.symm.trans (stage_absent.mpr hu))
      · exact hu
    have hf := hi.fresh u hu'
    exact ⟨hf.creator, hf.result, hf.exitValue⟩

/-- A step of a thread that is at work, after which the blocks and its own plan are in order. -/
theorem Blocks.of_step (hi : s.Blocks) (hpc : s'.pc = Function.update s.pc t p)
    (hmade : (s.pc t).made = false) (hpresent : p ≠ .absent) (habsent : s.pc t ≠ .absent)
    (hended : (s.pc t).stage = .ended → p.stage = .ended) (hcreator : s'.creator = s.creator)
    (hvalue : s'.exitValue = s.exitValue) (hresult : s'.result = s.result)
    (hvalid : s'.valid = s.valid) (hcompleted : ∀ v, s'.completed v = 0 → s.completed v = 0)
    (hblock : ∀ u, s'.BlockOk u) (hplan : s'.PlanOk t)
    (hdelivered : ∀ x ∈ s'.delivered, x.2 ≠ none ∧ x.2 = s.exitValue x.1) : s'.Blocks where
  block := hblock
  plan u := by
    rcases eq_or_ne u t with rfl | hu
    · exact hplan
    · exact (hi.plan u).keeps (.of_move hu hpc hmade hpresent hended hcreator hvalue hcompleted)
  fresh u hu := by
    have hu' : s.pc u = .absent := by
      rw [hpc, Function.update_apply] at hu
      split at hu
      · exact absurd hu hpresent
      · exact hu
    have hf := hi.fresh u hu'
    refine ⟨?_, ?_, ?_⟩
    · rw [hcreator]
      exact hf.creator
    · rw [hresult]
      exact hf.result
    · rw [hvalue]
      exact hf.exitValue
  value u hu := by
    rw [hvalid] at hu
    rw [hresult, hvalue]
    exact hi.value u hu
  delivered x hx := by
    rw [hvalue]
    exact hdelivered x hx

omit [DecidableEq T] in
/-- A step that changes one block. -/
theorem Blocks.block_of_one (hi : s.Blocks) (hsame : ∀ u, u ≠ t → SameBlock s s' u)
    (ht : s'.BlockOk t) (u : T) : s'.BlockOk u := by
  rcases eq_or_ne u t with rfl | hu
  · exact ht
  · exact (hi.block u).of_same (hsame u hu)

omit [DecidableEq T] in
theorem BlockOk.attached (hb : s.BlockOk t) (h : (s.pc t).stage = .attached) :
    s.valid t = true ∧ s.cleanups t = 0 ∧ (s.detach_state t = .joinable ∧ s.completed t = 0 ∨
      s.detach_state t = .detached ∧ s.completed t = 1) := by
  unfold BlockOk at hb
  rw [h] at hb
  exact hb

omit [DecidableEq T] in
theorem BlockOk.ended (hb : s.BlockOk t) (h : (s.pc t).stage = .ended) :
    s.valid t = true ∧ s.detach_state t = .exited ∧ s.cleanups t = 0 ∧ s.completed t = 0 ∨
      s.cleanups t = 1 ∧ s.completed t = 1 ∧ s.detach_state t ≠ .joinable := by
  unfold BlockOk at hb
  rw [h] at hb
  exact hb

/-- The exchange of the detach state finds what it can find. -/
theorem Blocks.exchange (hi : s.Blocks) (hpc : s.pc t = .leaving) : (s.exchange t).Blocks := by
  have hb := (hi.block t).attached (by rw [hpc]; rfl)
  have hvalue : s.exitValue t ≠ none := by
    have hp := hi.plan t
    unfold PlanOk at hp
    rw [hpc] at hp
    exact hp
  obtain ⟨hvalid, hcleanups, hstate⟩ := hb
  unfold Threads.exchange
  rcases hstate with ⟨hd, hc⟩ | ⟨hd, hc⟩
  · rw [hd]
    dsimp only
    have hpc' : ((s.setDetachState t .exiting).setPc t .publishing).pc t = .publishing :=
      Function.update_self ..
    refine hi.of_step (t := t) (p := .publishing) rfl (by rw [hpc]; rfl) nofun (by rw [hpc]; nofun)
      (by rw [hpc]; nofun) rfl rfl rfl rfl (fun _ h => h)
      (hi.block_of_one (t := t) (fun u hu => ?_) ?_) ?_ hi.delivered
    · refine ⟨congrArg _ (Function.update_of_ne hu ..), rfl, Function.update_of_ne hu .., rfl, rfl⟩
    · unfold BlockOk
      rw [hpc']
      exact ⟨hvalid, hcleanups, Function.update_self .., hc⟩
    · unfold PlanOk
      rw [hpc']
      exact hvalue
  · rw [hd]
    dsimp only
    have hpc' : (s.setPc t .cleaningUp).pc t = .cleaningUp := Function.update_self ..
    refine hi.of_step (t := t) (p := .cleaningUp) rfl (by rw [hpc]; rfl) nofun (by rw [hpc]; nofun)
      (by rw [hpc]; nofun) rfl rfl rfl rfl (fun _ h => h)
      (hi.block_of_one (t := t) (fun u hu => ?_) ?_) ?_ hi.delivered
    · exact ⟨congrArg _ (Function.update_of_ne hu ..), rfl, rfl, rfl, rfl⟩
    · unfold BlockOk
      rw [hpc']
      exact ⟨hvalid, hcleanups, hd, hc⟩
    · unfold PlanOk
      rw [hpc']
      exact hvalue

/-- A detached thread hands its own block over. -/
theorem Blocks.cleanup (hi : s.Blocks) (hpc : s.pc t = .cleaningUp) :
    ((s.thread_cleanup t).setPc t .gone).Blocks := by
  have hb := hi.block t
  have hvalue := hi.plan t
  unfold BlockOk at hb
  unfold PlanOk at hvalue
  rw [hpc] at hb hvalue
  obtain ⟨-, hcleanups, hd, hc⟩ := hb
  have hpc' : ((s.thread_cleanup t).setPc t .gone).pc t = .gone := Function.update_self ..
  have hcleanups' : ((s.thread_cleanup t).setPc t .gone).cleanups t = s.cleanups t + 1 :=
    Function.update_self ..
  refine hi.of_step (t := t) (p := .gone) rfl (by rw [hpc]; rfl) nofun (by rw [hpc]; nofun)
    (by rw [hpc]; nofun) rfl rfl rfl rfl (fun _ h => h)
    (hi.block_of_one (t := t) (fun u hu => ?_) ?_) ?_ hi.delivered
  · exact ⟨congrArg _ (Function.update_of_ne hu ..), rfl, rfl, Function.update_of_ne hu .., rfl⟩
  · unfold BlockOk
    rw [hpc']
    refine .inr ⟨?_, hc, ?_⟩
    · rw [hcleanups', hcleanups]
    · change s.detach_state t ≠ .joinable
      rw [hd]
      nofun
  · unfold PlanOk
    rw [hpc']
    exact hvalue

/-- A thread is marked as no longer running. -/
theorem Blocks.publish (hi : s.Blocks) (hpc : s.pc t = .publishing) :
    ((s.setDetachState t .exited).setPc t .waking).Blocks := by
  have hb := hi.block t
  have hvalue := hi.plan t
  unfold BlockOk at hb
  unfold PlanOk at hvalue
  rw [hpc] at hb hvalue
  obtain ⟨hvalid, hcleanups, -, hc⟩ := hb
  have hpc' : ((s.setDetachState t .exited).setPc t .waking).pc t = .waking :=
    Function.update_self ..
  refine hi.of_step (t := t) (p := .waking) rfl (by rw [hpc]; rfl) nofun (by rw [hpc]; nofun)
    (by rw [hpc]; nofun) rfl rfl rfl rfl (fun _ h => h)
    (hi.block_of_one (t := t) (fun u hu => ?_) ?_) ?_ hi.delivered
  · exact ⟨congrArg _ (Function.update_of_ne hu ..), rfl, Function.update_of_ne hu .., rfl, rfl⟩
  · unfold BlockOk
    rw [hpc']
    exact .inl ⟨hvalid, Function.update_self .., hcleanups, hc⟩
  · unfold PlanOk
    rw [hpc']
    exact hvalue

/-! ## Join and detach -/

omit [DecidableEq T] in
theorem PlanOk.joining {st : JoinPc R} (hp : s.PlanOk t) (hpc : s.pc t = .joining c st) :
    s.pc c.target ≠ .absent ∧ (s.completed c.target = 0 → s.JoinOk c st) := by
  unfold PlanOk at hp
  rw [hpc] at hp
  exact hp

/-- The first join that is successful hands the block over. -/
theorem Blocks.joinDone {v : Option R} (hi : s.Blocks) (hpc : s.pc t = .joining c (.cleanup v))
    (hfirst : s.completed c.target = 0) : (s.joinDone t c v).Blocks := by
  obtain ⟨-, hjoin⟩ := (hi.plan t).joining hpc
  obtain ⟨hended, hvalue, hv⟩ := hjoin hfirst
  have hcleanups : s.cleanups c.target = 0 ∧ s.detach_state c.target = .exited := by
    rcases (hi.block c.target).ended hended with ⟨-, hd, hk, -⟩ | ⟨-, hc, -⟩
    · exact ⟨hk, hd⟩
    · rw [hfirst] at hc
      cases hc
  have hne : c.target ≠ t := by
    intro h
    rw [h, hpc] at hended
    cases hended
  have hpc' : (s.joinDone t c v).pc = Function.update s.pc t .running := rfl
  refine hi.of_step (t := t) (p := .running) hpc' (by rw [hpc]; rfl) nofun (by rw [hpc]; nofun)
    (by rw [hpc]; nofun) rfl rfl rfl rfl (fun w hw => ?_) ?_ ?_ fun x hx => ?_
  · by_cases h : w = c.target
    · exact h ▸ hfirst
    · exact (Function.update_of_ne h ..).symm.trans hw
  · refine hi.block_of_one (t := c.target) (fun u hu => ?_) ?_
    · refine ⟨?_, rfl, rfl, Function.update_of_ne hu .., Function.update_of_ne hu ..⟩
      rw [hpc', Function.update_apply]
      split
      · next h => rw [h, hpc]; rfl
      · rfl
    · have hcleanups' : (s.joinDone t c v).cleanups c.target = s.cleanups c.target + 1 :=
        Function.update_self ..
      have hcompleted' : (s.joinDone t c v).completed c.target = s.completed c.target + 1 :=
        Function.update_self ..
      unfold BlockOk
      rw [hpc', Function.update_of_ne hne, hended, hcleanups', hcompleted', hcleanups.1, hfirst]
      refine .inr ⟨rfl, rfl, ?_⟩
      change s.detach_state c.target ≠ .joinable
      rw [hcleanups.2]
      nofun
  · unfold PlanOk
    rw [hpc', Function.update_self]
    trivial
  · change x ∈ (if c.detach then s.delivered else (c.target, v) :: s.delivered) at hx
    split at hx
    · exact hi.delivered x hx
    · rcases List.mem_cons.mp hx with rfl | hx
      · exact ⟨hv ▸ hvalue, hv⟩
      · exact hi.delivered x hx

/-- A joinable thread is detached. -/
theorem Blocks.detached {w : T} (hi : s.Blocks) (hpc : s.pc t = .detaching w)
    (hd : s.detach_state w = .joinable) :
    Blocks { (s.setDetachState w .detached).setPc t .running with
      completed := Function.update s.completed w (s.completed w + 1) } := by
  have hstage : (s.pc w).stage = .attached ∧ s.valid w = true ∧ s.cleanups w = 0 ∧
      s.completed w = 0 := by
    have hb := hi.block w
    unfold BlockOk at hb
    rw [hd] at hb
    split at hb
    · cases hb.2.1
    · next hattached =>
        rcases hb.2.2 with ⟨-, hc⟩ | ⟨h, -⟩
        · exact ⟨hattached, hb.1, hb.2.1, hc⟩
        · cases h
    · cases hb.2.2.1
    · cases hb.2.2.1
    · rcases hb with ⟨-, h, -⟩ | ⟨-, -, h⟩
      · cases h
      · exact absurd rfl h
  obtain ⟨hattached, hvalid, hcleanups, hc⟩ := hstage
  refine hi.of_step (t := t) (p := .running) rfl (by rw [hpc]; rfl) nofun (by rw [hpc]; nofun)
    (by rw [hpc]; nofun) rfl rfl rfl rfl (fun u hu => ?_) ?_ ?_ hi.delivered
  · by_cases h : u = w
    · exact h ▸ hc
    · exact (Function.update_of_ne h ..).symm.trans hu
  · have hpcs : ∀ u, (Function.update s.pc t .running u).stage = (s.pc u).stage := by
      intro u
      rw [Function.update_apply]
      split
      · next h => rw [h, hpc]; rfl
      · rfl
    refine hi.block_of_one (t := w) (fun u hu => ?_) ?_
    · exact ⟨hpcs u, rfl, Function.update_of_ne hu .., rfl, Function.update_of_ne hu ..⟩
    · unfold BlockOk
      dsimp only [Threads.setPc, Threads.setDetachState]
      rw [hpcs, hattached, Function.update_self, Function.update_self, hc]
      exact ⟨hvalid, hcleanups, .inr ⟨rfl, rfl⟩⟩
  · unfold PlanOk
    dsimp only [Threads.setPc, Threads.setDetachState]
    rw [Function.update_self]
    trivial

/-! ## Other steps -/

/-- A block that was handed over is freed. -/
theorem Blocks.free (hi : s.Blocks) (ht : s.cleanups t ≠ 0) : (s.thread_free_data t).Blocks := by
  have hb := hi.block t
  have hended : (s.pc t).stage = .ended ∧ s.cleanups t = 1 ∧ s.completed t = 1 := by
    unfold BlockOk at hb
    split at hb
    · exact absurd hb.2.2.1 ht
    · exact absurd hb.2.1 ht
    · exact absurd hb.2.1 ht
    · exact absurd hb.2.1 ht
    · next hstage =>
        rcases hb with ⟨-, -, hk, -⟩ | ⟨hk, hc, -⟩
        · exact absurd hk ht
        · exact ⟨hstage, hk, hc⟩
  obtain ⟨hstage, hcleanups, hcompleted⟩ := hended
  refine ⟨fun u => ?_, fun u => ?_, fun u hu => ?_, fun u hu => ?_, hi.delivered⟩
  · refine hi.block_of_one (t := t) (fun u hu => ?_) ?_ u
    · exact ⟨rfl, Function.update_of_ne hu .., Function.update_of_ne hu .., rfl, rfl⟩
    · have hd : (s.thread_free_data t).detach_state t = .exited := Function.update_self ..
      have hpc : ((s.thread_free_data t).pc t).stage = .ended := hstage
      unfold BlockOk
      rw [hpc, hd]
      exact .inr ⟨hcleanups, hcompleted, nofun⟩
  · exact (hi.plan u).keeps ⟨rfl, fun _ _ => rfl, fun _ _ _ => rfl, fun _ h => h, fun _ h => h,
      fun _ _ => rfl, fun _ h => h⟩
  · have hf := hi.fresh u hu
    refine ⟨hf.creator, ?_, hf.exitValue⟩
    change Function.update s.result t none u = none
    rw [Function.update_apply]
    split
    · rfl
    · exact hf.result
  · change Function.update s.valid t false u = true at hu
    rcases eq_or_ne u t with rfl | hne
    · rw [Function.update_self] at hu
      cases hu
    · rw [Function.update_of_ne hne] at hu
      exact (Function.update_of_ne hne ..).trans (hi.value u hu)

/-- A thread begins to exit. -/
theorem Blocks.exit (hi : s.Blocks) (hpc : s.pc t = .running) (ht : s.exitValue t = none) :
    (s.exit t v).Blocks := by
  have hvalue : ∀ u, s.exitValue u ≠ none → (s.exit t v).exitValue u = s.exitValue u := by
    intro u hu
    refine Function.update_of_ne ?_ ..
    rintro rfl
    exact hu ht
  refine ⟨fun u => ?_, fun u => ?_, fun u hu => ?_, fun u hu => ?_, fun x hx => ?_⟩
  · exact (hi.block u).of_same ⟨rfl, rfl, rfl, rfl, rfl⟩
  · exact (hi.plan u).keeps ⟨rfl, fun _ _ => rfl, fun _ _ _ => rfl, fun _ h => h, fun _ h => h,
      hvalue, fun _ h => h⟩
  · have hne : u ≠ t := by
      rintro rfl
      exact nomatch hpc.symm.trans hu
    have hf := hi.fresh u hu
    exact ⟨hf.creator, (Function.update_of_ne hne ..).trans hf.result,
      (Function.update_of_ne hne ..).trans hf.exitValue⟩
  · change Function.update s.result t (some v) u = Function.update s.exitValue t (some v) u
    rw [Function.update_apply, Function.update_apply]
    split
    · rfl
    · exact hi.value u hu
  · obtain ⟨hne, heq⟩ := hi.delivered x hx
    exact ⟨hne, heq.trans (hvalue x.1 (heq ▸ hne)).symm⟩

/-- A thread and one that it has made go on together. -/
theorem two_pcs {q : ThreadPc T R} (hne : new ≠ t) :
    ((s.setPc new q).setPc t p).pc t = p ∧ ((s.setPc new q).setPc t p).pc new = q ∧
      ∀ u, u ≠ new → u ≠ t → ((s.setPc new q).setPc t p).pc u = s.pc u := by
  refine ⟨Function.update_self .., ?_, fun u hun hut => ?_⟩
  · exact (Function.update_of_ne hne ..).trans (Function.update_self ..)
  · exact (Function.update_of_ne hut ..).trans (Function.update_of_ne hun ..)

/-- A block is made. -/
theorem Blocks.create {b : Bool} (hi : s.Blocks) (hpc : s.pc t = .running)
    (hnew : s.pc new = .absent) : (s.create t new b).Blocks := by
  have hne : new ≠ t := by
    rintro rfl
    exact nomatch hpc.symm.trans hnew
  have hf := hi.fresh new hnew
  obtain ⟨hpcT, hpcNew, hpcOther⟩ : (s.create t new b).pc t = .locking (.link t new) ∧
      (s.create t new b).pc new = .allocated ∧
      ∀ u, u ≠ new → u ≠ t → (s.create t new b).pc u = s.pc u := two_pcs hne
  have habsent : s.valid new = false ∧ s.detach_state new = .exited ∧ s.cleanups new = 0 ∧
      s.completed new = 0 := by
    have hb := hi.block new
    unfold BlockOk at hb
    rw [hnew] at hb
    exact hb
  refine ⟨fun u => ?_, fun u => ?_, fun u hu => ?_, fun u hu => ?_, hi.delivered⟩
  · refine hi.block_of_one (t := new) (fun u hu => ?_) ?_ u
    · refine ⟨?_, Function.update_of_ne hu .., Function.update_of_ne hu .., rfl,
        Function.update_of_ne hu ..⟩
      rcases eq_or_ne u t with rfl | hut
      · rw [hpcT, hpc]
        rfl
      · rw [hpcOther u hu hut]
    · have hd : (s.create t new b).detach_state new = if b then .detached else .joinable :=
        Function.update_self ..
      have hc : (s.create t new b).completed new = if b then 1 else 0 := Function.update_self ..
      unfold BlockOk
      rw [hpcNew, hd, hc]
      refine ⟨Function.update_self .., habsent.2.2.1, ?_⟩
      cases b with
      | true => exact .inr ⟨rfl, rfl⟩
      | false => exact .inl ⟨rfl, rfl⟩
  · rcases eq_or_ne u t with rfl | hut
    · unfold PlanOk
      rw [hpcT]
      exact ⟨rfl, hpcNew, Function.update_self ..⟩
    rcases eq_or_ne u new with rfl | hun
    · unfold PlanOk
      rw [hpcNew]
      trivial
    · refine (hi.plan u).keeps ⟨hpcOther u hun hut, fun w hw => ?_, fun w hw hm => ?_,
        fun w hw => ?_, fun w hw => ?_, fun _ _ => rfl, fun w hw => ?_⟩
      · refine Function.update_of_ne ?_ ..
        rintro rfl
        rw [hf.creator] at hw
        cases hw
      · refine hpcOther w ?_ ?_
        · rintro rfl
          rw [hnew] at hm
          cases hm
        · rintro rfl
          rw [hpc] at hm
          cases hm
      · rcases eq_or_ne w t with rfl | hwt
        · rw [hpcT]
          nofun
        · rw [hpcOther w (fun h => hw (h ▸ hnew)) hwt]
          exact hw
      · rw [hpcOther w ?_ ?_]
        · exact hw
        · rintro rfl
          rw [hnew] at hw
          cases hw
        · rintro rfl
          rw [hpc] at hw
          cases hw
      · by_cases hwn : w = new
        · exact hwn ▸ habsent.2.2.2
        · exact (Function.update_of_ne hwn ..).symm.trans hw
  · have hun : u ≠ new := by
      rintro rfl
      rw [hpcNew] at hu
      cases hu
    have hut : u ≠ t := by
      rintro rfl
      rw [hpcT] at hu
      cases hu
    have hf' := hi.fresh u ((hpcOther u hun hut).symm.trans hu)
    exact ⟨(Function.update_of_ne hun ..).trans hf'.creator, hf'.result, hf'.exitValue⟩
  · change s.result u = s.exitValue u
    rcases eq_or_ne u new with rfl | hun
    · rw [hf.result, hf.exitValue]
    · change Function.update s.valid new true u = true at hu
      rw [Function.update_of_ne hun] at hu
      exact hi.value u hu

/-- A thread acts for one that it has made. -/
theorem Blocks.setMade {q : ThreadPc T R} (hi : s.Blocks) (hcreator : s.creator new = some t)
    (hmade : (s.pc new).made = true) (ht : (s.pc t).made = false)
    (hstage : (s.pc t).stage = .attached) (hq : q.stage = .attached) (hp : p.stage = .attached)
    (hplanNew : ((s.setPc new q).setPc t p).PlanOk new)
    (hplan : ((s.setPc new q).setPc t p).PlanOk t) : ((s.setPc new q).setPc t p).Blocks := by
  have hne : new ≠ t := by
    rintro rfl
    rw [ht] at hmade
    cases hmade
  have hstageNew : (s.pc new).stage = .attached := by
    cases hpc : s.pc new with
    | allocated => rfl
    | created => rfl
    | _ =>
      rw [hpc] at hmade
      cases hmade
  obtain ⟨hpcT, hpcNew, hpcOther⟩ := two_pcs (s := s) (p := p) (q := q) hne
  have hstages : ∀ u, (((s.setPc new q).setPc t p).pc u).stage = (s.pc u).stage := by
    intro u
    rcases eq_or_ne u t with rfl | hut
    · rw [hpcT, hp, hstage]
    rcases eq_or_ne u new with rfl | hun
    · rw [hpcNew, hq, hstageNew]
    · rw [hpcOther u hun hut]
  have hpresent : ∀ u, ((s.setPc new q).setPc t p).pc u = .absent ↔ s.pc u = .absent := by
    intro u
    rw [← stage_absent, ← stage_absent, hstages]
  refine ⟨fun u => ?_, fun u => ?_, fun u hu => ?_, hi.value, hi.delivered⟩
  · exact (hi.block u).of_same ⟨hstages u, rfl, rfl, rfl, rfl⟩
  · rcases eq_or_ne u t with rfl | hut
    · exact hplan
    rcases eq_or_ne u new with rfl | hun
    · exact hplanNew
    · refine (hi.plan u).keeps ⟨hpcOther u hun hut, fun _ _ => rfl, fun w hw hm => ?_,
        fun w hw => fun h => hw ((hpresent w).mp h), fun w hw => (hstages w).trans hw,
        fun _ _ => rfl, fun _ h => h⟩
      refine hpcOther w ?_ ?_
      · rintro rfl
        rw [hcreator] at hw
        cases hw
        exact hut rfl
      · rintro rfl
        rw [ht] at hm
        cases hm
  · have hf := hi.fresh u ((hpresent u).mp hu)
    exact ⟨hf.creator, hf.result, hf.exitValue⟩

end

end Threads

end Pthread
