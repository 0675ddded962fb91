-- SUMMARY: The pool of Web Workers that host threads: spawning, cleanup, and the marks that retire a worker at its thread's cleanup.
import Mathlib.Data.List.Nodup

/-!
# The worker pool

The tables of `PThread` on the browser main thread. A worker is named by the order it was
allocated in. Every function here runs to completion before another one starts.
-/

namespace Pthread

def EAGAIN : Int := 6
def EBUSY : Int := 10
def EINVAL : Int := 28

/-! ## State -/

structure Worker where
  /-- The thread it runs, 0 for none. -/
  pthread_ptr : Nat
  retireOnExit : Bool
  retirementTicket : Nat
  /-- `terminate` was called and the message handler taken away. -/
  terminated : Bool
  /-- Ghost: how many threads it has been given. -/
  hosted : Nat
deriving DecidableEq, Repr

/-- A worker that has not been given a thread yet. -/
def Worker.fresh : Worker := ⟨0, false, 0, false, 0⟩

/-- Ghost: a retirement that was accepted while the worker ran `thread`, the last of the
`hosted` threads it had been given; `cleaned` once this thread is cleaned up. -/
structure Acceptance where
  worker : Nat
  thread : Nat
  hosted : Nat
  ticket : Nat
  cleaned : Bool
deriving DecidableEq, Repr

structure WorkerPool where
  allocated : Nat
  worker : Nat → Worker
  unusedWorkers : List Nat
  runningWorkers : List Nat
  pthreads : Nat → Option Nat
  /-- Whether the cleanup is acknowledged, for each ticket that was accepted. -/
  retirementTickets : Nat → Option Bool
  /-- Ghost: the tickets of all requests, and the requests that were accepted. -/
  requested : List Nat
  accepted : List Acceptance

variable {strict : Bool} {s' : WorkerPool} {l : List Nat} {t : Nat}

namespace WorkerPool

def init : WorkerPool := ⟨0, fun _ => .fresh, [], [], fun _ => none, fun _ => none, [], []⟩

/-! ## Operations -/

def setWorker (s : WorkerPool) (w : Nat) (x : Worker) : WorkerPool :=
  { s with worker := Function.update s.worker w x }

def allocateUnusedWorker (s : WorkerPool) : WorkerPool :=
  { s.setWorker s.allocated .fresh with
    allocated := s.allocated + 1
    unusedWorkers := s.unusedWorkers ++ [s.allocated] }

/-- `strict` is a `PTHREAD_POOL_SIZE_STRICT` of 2. -/
def getNewWorker (strict : Bool) (s : WorkerPool) : WorkerPool × Option Nat :=
  let s := if s.unusedWorkers.isEmpty ∧ ¬ strict then s.allocateUnusedWorker else s
  ({ s with unusedWorkers := s.unusedWorkers.dropLast }, s.unusedWorkers.getLast?)

/-- The worker is given the thread. -/
def run (s : WorkerPool) (pthread_ptr w : Nat) : WorkerPool :=
  { s.setWorker w { s.worker w with
      pthread_ptr := pthread_ptr, hosted := (s.worker w).hosted + 1 } with
    runningWorkers := s.runningWorkers ++ [w]
    pthreads := Function.update s.pthreads pthread_ptr (some w) }

def spawnThread (strict : Bool) (s : WorkerPool) (pthread_ptr : Nat) : WorkerPool × Int :=
  match s.getNewWorker strict with
  | (s, none) => (s, EAGAIN)
  | (s, some w) => (s.run pthread_ptr w, 0)

/-- `_emscripten_thread_retire_worker` where it accepts. -/
def accept (s : WorkerPool) (w thread ticket : Nat) : WorkerPool :=
  { s.setWorker w { s.worker w with retireOnExit := true, retirementTicket := ticket } with
    retirementTickets := Function.update s.retirementTickets ticket (some false)
    accepted := ⟨w, thread, (s.worker w).hosted, ticket, false⟩ :: s.accepted }

def retire_worker (s : WorkerPool) (thread ticket : Nat) : WorkerPool × Int :=
  let s := { s with requested := ticket :: s.requested }
  match s.pthreads thread with
  | none => (s, -EINVAL)
  | some w =>
    if (s.worker w).pthread_ptr ≠ thread ∨ ticket = 0 then (s, -EINVAL)
    else if (s.worker w).retireOnExit ∧ (s.worker w).retirementTicket ≠ ticket then (s, -EBUSY)
    else (s.accept w thread ticket, 0)

/-- `_emscripten_thread_retire_worker_status`. -/
def retire_worker_status (s : WorkerPool) (ticket : Nat) : Nat :=
  match s.retirementTickets ticket with
  | some true => 1
  | _ => 0

/-- `splice(indexOf(worker), 1)`: an index of -1 is that of the last one. -/
def splice (l : List Nat) (w : Nat) : List Nat := if w ∈ l then l.erase w else l.dropLast

/-- The worker is taken from its thread. -/
def detach (s : WorkerPool) (w : Nat) : WorkerPool :=
  { s.setWorker w { s.worker w with pthread_ptr := 0 } with
    pthreads := Function.update s.pthreads (s.worker w).pthread_ptr none
    runningWorkers := splice s.runningWorkers w
    accepted := s.accepted.map fun e =>
      if e.worker = w ∧ e.hosted = (s.worker w).hosted then { e with cleaned := true } else e }

def terminateWorker (s : WorkerPool) (w : Nat) : WorkerPool :=
  s.setWorker w { s.worker w with terminated := true }

/-- The acknowledgement of a retirement: nothing where there is no such ticket. -/
def acknowledge (s : WorkerPool) (ticket : Nat) : WorkerPool :=
  if ticket ≠ 0 ∧ (s.retirementTickets ticket).isSome then
    { s with retirementTickets := Function.update s.retirementTickets ticket (some true) }
  else s

/-- The part of `returnWorkerToPool` for a worker that retires. -/
def retire (s : WorkerPool) (w ticket : Nat) : WorkerPool :=
  let s := s.setWorker w { s.worker w with retireOnExit := false, retirementTicket := 0 }
  (s.terminateWorker w).acknowledge ticket

def returnWorkerToPool (s : WorkerPool) (w : Nat) : WorkerPool :=
  if (s.worker w).retireOnExit then (s.detach w).retire w (s.worker w).retirementTicket
  else { s.detach w with unusedWorkers := s.unusedWorkers ++ [w] }

/-- Only threads that have a worker are cleaned up. -/
def cleanupThread (s : WorkerPool) (pthread_ptr : Nat) : Option WorkerPool :=
  (s.pthreads pthread_ptr).map s.returnWorkerToPool

/-! ## The property -/

inductive Place
  | unused
  | running
  | terminated
deriving DecidableEq, Repr

def At (s : WorkerPool) (w : Nat) : Place → Prop
  | .unused => w ∈ s.unusedWorkers
  | .running => w ∈ s.runningWorkers
  | .terminated => (s.worker w).terminated = true

structure Sound (s : WorkerPool) : Prop where
  /-- Every worker is in one place, and once. -/
  place : ∀ w < s.allocated, ∃! p, s.At w p
  nodup : s.unusedWorkers.Nodup ∧ s.runningWorkers.Nodup
  allocated : ∀ w p, s.At w p → w < s.allocated
  pthreads : ∀ p w, s.pthreads p = some w ↔ s.At w .running ∧ (s.worker w).pthread_ptr = p
  /-- A worker that was to be retired still runs the thread it was to be retired after, or
  this thread is cleaned up and the worker terminated. No other thread was given to it. -/
  accepted : ∀ e ∈ s.accepted, (s.worker e.worker).hosted = e.hosted ∧
    if e.cleaned then s.At e.worker .terminated
    else s.At e.worker .running ∧ (s.worker e.worker).pthread_ptr = e.thread
  /-- No other worker is terminated. -/
  terminated : ∀ w, s.At w .terminated → ∃ e ∈ s.accepted, e.worker = w ∧ e.cleaned
  status : ∀ t, s.retire_worker_status t = 1 ↔ ∃ e ∈ s.accepted, e.ticket = t ∧ e.cleaned

/-! ## The invariant -/

section

variable {s : WorkerPool} {w v : Nat} {x : Worker}

theorem setWorker_self : (s.setWorker w x).worker w = x := Function.update_self ..

theorem setWorker_of_ne (h : v ≠ w) : (s.setWorker w x).worker v = s.worker v :=
  Function.update_of_ne h ..

end

/-- What the pool keeps for an accepted retirement. -/
structure Kept (s : WorkerPool) (e : Acceptance) : Prop where
  requested : e.ticket ∈ s.requested
  nonzero : e.ticket ≠ 0
  hosted : (s.worker e.worker).hosted = e.hosted
  ticket : s.retirementTickets e.ticket = some e.cleaned
  live : e.cleaned = false → e.worker ∈ s.runningWorkers ∧
    (s.worker e.worker).pthread_ptr = e.thread ∧ (s.worker e.worker).retireOnExit = true ∧
    (s.worker e.worker).retirementTicket = e.ticket
  gone : e.cleaned = true → (s.worker e.worker).terminated = true

structure Inv (s : WorkerPool) : Prop where
  nodup : s.unusedWorkers.Nodup ∧ s.runningWorkers.Nodup
  unused : ∀ w ∈ s.unusedWorkers, w < s.allocated ∧ (s.worker w).pthread_ptr = 0 ∧
    (s.worker w).retireOnExit = false ∧ (s.worker w).terminated = false
  running : ∀ w ∈ s.runningWorkers, w < s.allocated ∧ (s.worker w).pthread_ptr ≠ 0 ∧
    (s.worker w).terminated = false
  covered : ∀ w < s.allocated,
    w ∈ s.unusedWorkers ∨ w ∈ s.runningWorkers ∨ (s.worker w).terminated = true
  terminated : ∀ w, (s.worker w).terminated = true →
    w < s.allocated ∧ ∃ e ∈ s.accepted, e.worker = w ∧ e.cleaned
  pthreads : ∀ p w, s.pthreads p = some w ↔
    w ∈ s.runningWorkers ∧ (s.worker w).pthread_ptr = p
  marked : ∀ w, (s.worker w).retireOnExit = true →
    ∃ e ∈ s.accepted, e.worker = w ∧ e.cleaned = false ∧ e.ticket = (s.worker w).retirementTicket
  kept : ∀ e ∈ s.accepted, s.Kept e
  issued : ∀ t b, s.retirementTickets t = some b → ∃ e ∈ s.accepted, e.ticket = t
  unique : ∀ e ∈ s.accepted, ∀ f ∈ s.accepted, e.ticket = f.ticket → e.worker = f.worker

theorem init_inv : init.Inv where
  nodup := ⟨.nil, .nil⟩
  unused _ hw := (by cases hw)
  running _ hw := (by cases hw)
  covered _ hw := absurd hw (Nat.not_lt_zero _)
  terminated _ hw := (by cases hw)
  pthreads _ _ := ⟨fun h => (by cases h), fun h => (by cases h.1)⟩
  marked _ hw := (by cases hw)
  kept _ he := (by cases he)
  issued _ _ ht := (by cases ht)
  unique _ he := (by cases he)

section

variable {s : WorkerPool} {w p : Nat} {e : Acceptance}

theorem Inv.accepted_lt (hi : s.Inv) (he : e ∈ s.accepted) : e.worker < s.allocated := by
  have hk := hi.kept e he
  cases hc : e.cleaned with
  | false => exact (hi.running _ (hk.live hc).1).1
  | true => exact (hi.terminated _ (hk.gone hc)).1

/-- The tables say of each worker where it is. -/
theorem Inv.place (hi : s.Inv) (hw : w < s.allocated) : ∃! p, s.At w p := by
  have hunused : w ∈ s.unusedWorkers → w ∉ s.runningWorkers := fun h h' =>
    (hi.running w h').2.1 (hi.unused w h).2.1
  have hunterm : w ∈ s.unusedWorkers → (s.worker w).terminated = false := fun h =>
    (hi.unused w h).2.2.2
  have hrunterm : w ∈ s.runningWorkers → (s.worker w).terminated = false := fun h =>
    (hi.running w h).2.2
  rcases hi.covered w hw with h | h | h
  · refine ⟨.unused, h, ?_⟩
    rintro (_ | _ | _) hp
    · rfl
    · exact absurd hp (hunused h)
    · exact absurd hp (by rw [At, hunterm h]; exact Bool.false_ne_true)
  · refine ⟨.running, h, ?_⟩
    rintro (_ | _ | _) hp
    · exact absurd h (hunused hp)
    · rfl
    · exact absurd hp (by rw [At, hrunterm h]; exact Bool.false_ne_true)
  · refine ⟨.terminated, h, ?_⟩
    rintro (_ | _ | _) hp
    · exact absurd h (by rw [hunterm hp]; exact Bool.false_ne_true)
    · exact absurd h (by rw [hrunterm hp]; exact Bool.false_ne_true)
    · rfl

theorem status_eq_one : s.retire_worker_status t = 1 ↔ s.retirementTickets t = some true := by
  unfold retire_worker_status
  split
  · next h => exact ⟨fun _ => h, fun _ => rfl⟩
  · next h => exact ⟨fun h0 => absurd h0 (by decide), fun ht => absurd ht (h ·)⟩

theorem Inv.sound (hi : s.Inv) : s.Sound where
  place w hw := hi.place hw
  nodup := hi.nodup
  allocated w p hp := by
    cases p with
    | unused => exact (hi.unused w hp).1
    | running => exact (hi.running w hp).1
    | terminated => exact (hi.terminated w hp).1
  pthreads := hi.pthreads
  accepted e he := by
    have hk := hi.kept e he
    refine ⟨hk.hosted, ?_⟩
    cases hc : e.cleaned with
    | false => exact ⟨(hk.live hc).1, (hk.live hc).2.1⟩
    | true => exact hk.gone hc
  terminated w hw := (hi.terminated w hw).2
  status t := by
    rw [status_eq_one]
    constructor
    · intro ht
      obtain ⟨e, he, rfl⟩ := hi.issued t true ht
      exact ⟨e, he, rfl, Option.some.inj ((hi.kept e he).ticket.symm.trans ht)⟩
    · rintro ⟨e, he, rfl, hc⟩
      rw [(hi.kept e he).ticket, hc]

end

/-! ## Each operation keeps the invariant -/

section

variable {s : WorkerPool} {w p ticket : Nat}

theorem Inv.allocateUnusedWorker (hi : s.Inv) : s.allocateUnusedWorker.Inv := by
  have hother : ∀ w, w < s.allocated → s.allocateUnusedWorker.worker w = s.worker w := fun w hw =>
    setWorker_of_ne (Nat.ne_of_lt hw)
  have hself : s.allocateUnusedWorker.worker s.allocated = .fresh := setWorker_self
  have hmem : ∀ w, w ∈ s.allocateUnusedWorker.unusedWorkers →
      w ∈ s.unusedWorkers ∨ w = s.allocated := fun w hw =>
    (List.mem_append.mp hw).imp_right List.mem_singleton.mp
  have hworker : ∀ w, s.allocateUnusedWorker.worker w = s.worker w ∨
      w = s.allocated ∧ s.allocateUnusedWorker.worker w = .fresh := by
    intro w
    rcases eq_or_ne w s.allocated with rfl | hw
    · exact .inr ⟨rfl, hself⟩
    · exact .inl (setWorker_of_ne hw)
  refine ⟨⟨?_, hi.nodup.2⟩, ?_, ?_, ?_, ?_, ?_, ?_, ?_, hi.issued, hi.unique⟩
  · refine List.nodup_append.mpr ⟨hi.nodup.1, List.nodup_singleton _, ?_⟩
    rintro a ha b hb rfl
    exact absurd (hi.unused a ha).1 (by rw [List.mem_singleton.mp hb]; exact Nat.lt_irrefl _)
  · intro w hw
    rcases hmem w hw with h | rfl
    · obtain ⟨hlt, hrest⟩ := hi.unused w h
      rw [hother w hlt]
      exact ⟨Nat.lt_succ_of_lt hlt, hrest⟩
    · rw [hself]
      exact ⟨Nat.lt_succ_self _, rfl, rfl, rfl⟩
  · intro w hw
    obtain ⟨hlt, hrest⟩ := hi.running w hw
    rw [hother w hlt]
    exact ⟨Nat.lt_succ_of_lt hlt, hrest⟩
  · intro w hw
    rcases Nat.lt_succ_iff_lt_or_eq.mp hw with hlt | rfl
    · rw [hother w hlt]
      exact (hi.covered w hlt).imp_left (List.mem_append_left _)
    · exact .inl (List.mem_append_right _ (List.mem_singleton_self _))
  · intro w hw
    rcases hworker w with h | ⟨_, h⟩
    · rw [h] at hw
      exact (hi.terminated w hw).imp_left Nat.lt_succ_of_lt
    · rw [h] at hw
      cases hw
  · intro p w
    refine (hi.pthreads p w).trans (and_congr_right fun hw => ?_)
    rw [hother w (hi.running w hw).1]
  · intro w hw
    rcases hworker w with h | ⟨_, h⟩
    · rw [h] at hw ⊢
      exact hi.marked w hw
    · rw [h] at hw
      cases hw
  · intro e he
    have hk := hi.kept e he
    have hw := hother e.worker (hi.accepted_lt he)
    exact ⟨hk.requested, hk.nonzero, hw ▸ hk.hosted, hk.ticket,
      fun hc => hw ▸ hk.live hc, fun hc => hw ▸ hk.gone hc⟩

/-- What a spawn finds where there is a worker for it. -/
theorem Inv.getNewWorker (hi : s.Inv) (h : s.getNewWorker strict = (s', some w)) :
    ∃ s₀ : WorkerPool, s₀.Inv ∧ s₀.pthreads = s.pthreads ∧ s₀.unusedWorkers = s'.unusedWorkers ++ [w] ∧
      s' = { s₀ with unusedWorkers := s'.unusedWorkers } := by
  have hpop : ∀ s₀ : WorkerPool, ({ s₀ with unusedWorkers := s₀.unusedWorkers.dropLast },
      s₀.unusedWorkers.getLast?) = (s', some w) →
      s₀.unusedWorkers = s'.unusedWorkers ++ [w] ∧
        s' = { s₀ with unusedWorkers := s'.unusedWorkers } := by
    intro s₀ h₀
    obtain ⟨h₁, h₂⟩ := Prod.mk.inj h₀
    subst h₁
    exact ⟨(List.dropLast_append_getLast? w h₂).symm, rfl⟩
  unfold WorkerPool.getNewWorker at h
  split at h
  · exact ⟨s.allocateUnusedWorker, hi.allocateUnusedWorker, rfl, hpop _ h⟩
  · exact ⟨s, hi, rfl, hpop _ h⟩

/-- The last unused worker is given a thread. -/
theorem Inv.run (hi : s.Inv) (hl : s.unusedWorkers = l ++ [w]) (hp : p ≠ 0) (hfree : s.pthreads p = none) :
    ({ s with unusedWorkers := l }.run p w).Inv := by
  have hnodup := List.nodup_append.mp (hl ▸ hi.nodup.1)
  have hw : w ∈ s.unusedWorkers := hl ▸ List.mem_append_right l (List.mem_singleton_self w)
  obtain ⟨hlt, hzero, hmark, hterm⟩ := hi.unused w hw
  have hne : ∀ v ∈ l, v ≠ w := fun v hv => hnodup.2.2 v hv w (List.mem_singleton_self w)
  have hnotrun : w ∉ s.runningWorkers := fun h => (hi.running w h).2.1 hzero
  have hnerun : ∀ v ∈ s.runningWorkers, v ≠ w := fun v hv h => hnotrun (h ▸ hv)
  have hother : ∀ v, v ≠ w → ({ s with unusedWorkers := l }.run p w).worker v = s.worker v :=
    fun v hv => setWorker_of_ne hv
  have hself : ({ s with unusedWorkers := l }.run p w).worker w =
      { s.worker w with pthread_ptr := p, hosted := (s.worker w).hosted + 1 } := setWorker_self
  refine ⟨⟨hnodup.1, ?_⟩, ?_, ?_, ?_, ?_, ?_, ?_, ?_, hi.issued, hi.unique⟩
  · refine List.nodup_append.mpr ⟨hi.nodup.2, List.nodup_singleton _, ?_⟩
    rintro a ha b hb rfl
    exact hnerun a ha (List.mem_singleton.mp hb)
  · intro v hv
    rw [hother v (hne v hv)]
    exact hi.unused v (hl ▸ List.mem_append_left _ hv)
  · intro v hv
    rcases List.mem_append.mp hv with h | h
    · rw [hother v (hnerun v h)]
      exact hi.running v h
    · rw [List.mem_singleton.mp h, hself]
      exact ⟨hlt, hp, hterm⟩
  · intro v hv
    rcases eq_or_ne v w with rfl | hvw
    · exact .inr (.inl (List.mem_append_right _ (List.mem_singleton_self v)))
    · rw [hother v hvw]
      rcases hi.covered v hv with h | h
      · rw [hl] at h
        refine .inl ((List.mem_append.mp h).resolve_right fun h' => ?_)
        exact hvw (List.mem_singleton.mp h')
      · exact .inr (h.imp_left (List.mem_append_left _))
  · intro v hv
    rcases eq_or_ne v w with rfl | hvw
    · rw [hself] at hv
      exact absurd hv (by rw [hterm]; exact Bool.false_ne_true)
    · rw [hother v hvw] at hv
      exact hi.terminated v hv
  · intro q v
    change Function.update s.pthreads p (some w) q = some v ↔ v ∈ s.runningWorkers ++ [w] ∧ _
    rw [List.mem_append, List.mem_singleton]
    rcases eq_or_ne v w with rfl | hvw
    · rw [hself]
      rcases eq_or_ne q p with rfl | hqp
      · rw [Function.update_self]
        exact ⟨fun _ => ⟨.inr rfl, rfl⟩, fun _ => rfl⟩
      · rw [Function.update_of_ne hqp, hi.pthreads]
        exact ⟨fun h => absurd h.1 hnotrun, fun h => absurd h.2.symm hqp⟩
    · rw [hother v hvw]
      rcases eq_or_ne q p with rfl | hqp
      · rw [Function.update_self]
        refine ⟨fun h => absurd (Option.some.inj h).symm hvw, fun h => ?_⟩
        have := (hi.pthreads q v).mpr ⟨h.1.resolve_right hvw, h.2⟩
        rw [hfree] at this
        cases this
      · rw [Function.update_of_ne hqp, hi.pthreads]
        exact and_congr_left fun _ => (or_iff_left hvw).symm
  · intro v hv
    rcases eq_or_ne v w with rfl | hvw
    · rw [hself] at hv
      exact absurd hv (by rw [hmark]; exact Bool.false_ne_true)
    · rw [hother v hvw] at hv ⊢
      exact hi.marked v hv
  · intro e he
    have hk := hi.kept e he
    have hew : e.worker ≠ w := by
      intro heq
      cases hc : e.cleaned with
      | false => exact hnotrun (heq ▸ (hk.live hc).1)
      | true => exact Bool.false_ne_true (hterm.symm.trans (heq ▸ hk.gone hc))
    have hsame := hother e.worker hew
    refine ⟨hk.requested, hk.nonzero, hsame ▸ hk.hosted, hk.ticket, fun hc => ?_,
      fun hc => hsame ▸ hk.gone hc⟩
    exact ⟨List.mem_append_left _ (hk.live hc).1, hsame ▸ (hk.live hc).2⟩

theorem Inv.getNewWorker_none (hi : s.Inv) (h : s.getNewWorker strict = (s', none)) : s'.Inv := by
  have hpop : ∀ s₀ : WorkerPool, s₀.Inv → ({ s₀ with unusedWorkers := s₀.unusedWorkers.dropLast },
      s₀.unusedWorkers.getLast?) = (s', none) → s'.Inv := by
    intro s₀ hi₀ h₀
    obtain ⟨h₁, h₂⟩ := Prod.mk.inj h₀
    have hnil := List.getLast?_eq_none_iff.mp h₂
    have hsame : s₀.unusedWorkers.dropLast = s₀.unusedWorkers := by rw [hnil, List.dropLast_nil]
    rw [hsame] at h₁
    exact h₁ ▸ hi₀
  unfold WorkerPool.getNewWorker at h
  split at h
  · exact hpop _ hi.allocateUnusedWorker h
  · exact hpop _ hi h

theorem Inv.spawnThread (hi : s.Inv) (hp : p ≠ 0) (hfree : s.pthreads p = none) :
    (s.spawnThread strict p).1.Inv := by
  unfold WorkerPool.spawnThread
  split
  · next s' h => exact hi.getNewWorker_none h
  · next s' w h =>
      obtain ⟨s₀, hi₀, hpt, hl, hs'⟩ := hi.getNewWorker h
      rw [hs']
      exact hi₀.run hl hp (hpt ▸ hfree)

/-- A request whose ticket is new is accepted for a worker that has no mark. -/
theorem Inv.accept (hi : s.Inv) (hpt : s.pthreads p = some w) (hticket : ticket ≠ 0)
    (hreq : ticket ∈ s.requested) (hnew : s.retirementTickets ticket = none)
    (hmark : (s.worker w).retireOnExit = false) : (s.accept w p ticket).Inv := by
  obtain ⟨hrun, hptr⟩ := (hi.pthreads p w).mp hpt
  have hself : (s.accept w p ticket).worker w =
      { s.worker w with retireOnExit := true, retirementTicket := ticket } := setWorker_self
  have hother : ∀ v, v ≠ w → (s.accept w p ticket).worker v = s.worker v :=
    fun v hv => setWorker_of_ne hv
  have hsame : ∀ v, ((s.accept w p ticket).worker v).pthread_ptr = (s.worker v).pthread_ptr ∧
      ((s.accept w p ticket).worker v).terminated = (s.worker v).terminated ∧
      ((s.accept w p ticket).worker v).hosted = (s.worker v).hosted := by
    intro v
    rcases eq_or_ne v w with rfl | hv
    · rw [hself]
      exact ⟨rfl, rfl, rfl⟩
    · rw [hother v hv]
      exact ⟨rfl, rfl, rfl⟩
  have hold : ∀ e ∈ s.accepted, e.ticket ≠ ticket := by
    rintro e he rfl
    have := (hi.kept e he).ticket
    rw [hnew] at this
    cases this
  refine ⟨hi.nodup, ?_, ?_, ?_, ?_, ?_, ?_, ?_, ?_, ?_⟩
  · intro v hv
    have hvw : v ≠ w := by
      rintro rfl
      exact (hi.running v hrun).2.1 (hi.unused v hv).2.1
    rw [hother v hvw]
    exact hi.unused v hv
  · intro v hv
    rw [(hsame v).1, (hsame v).2.1]
    exact hi.running v hv
  · intro v hv
    rw [(hsame v).2.1]
    exact hi.covered v hv
  · intro v hv
    rw [(hsame v).2.1] at hv
    obtain ⟨hlt, e, he, h⟩ := hi.terminated v hv
    exact ⟨hlt, e, List.mem_cons_of_mem _ he, h⟩
  · intro q v
    rw [(hsame v).1]
    exact hi.pthreads q v
  · intro v hv
    rcases eq_or_ne v w with rfl | hvw
    · exact ⟨_, List.mem_cons_self, rfl, rfl, by rw [hself]⟩
    · rw [hother v hvw] at hv ⊢
      obtain ⟨e, he, h⟩ := hi.marked v hv
      exact ⟨e, List.mem_cons_of_mem _ he, h⟩
  · intro e he
    rcases List.mem_cons.mp he with rfl | he
    · refine ⟨hreq, hticket, (hsame w).2.2, Function.update_self .., fun _ => ?_, fun h => (by cases h)⟩
      exact ⟨hrun, (hsame w).1.trans hptr, by rw [hself], by rw [hself]⟩
    · have hk := hi.kept e he
      refine ⟨hk.requested, hk.nonzero, (hsame _).2.2.trans hk.hosted,
        (Function.update_of_ne (hold e he) ..).trans hk.ticket, fun hc => ?_,
        fun hc => (hsame _).2.1.trans (hk.gone hc)⟩
      have hew : e.worker ≠ w := by
        intro h
        exact Bool.false_ne_true (hmark.symm.trans (h ▸ (hk.live hc).2.2.1))
      rw [hother _ hew]
      exact hk.live hc
  · intro t b ht
    rcases eq_or_ne t ticket with rfl | htt
    · exact ⟨_, List.mem_cons_self, rfl⟩
    · obtain ⟨e, he, h⟩ := hi.issued t b ((Function.update_of_ne htt ..).symm.trans ht)
      exact ⟨e, List.mem_cons_of_mem _ he, h⟩
  · intro e he f hf hef
    rcases List.mem_cons.mp he with rfl | he <;> rcases List.mem_cons.mp hf with rfl | hf
    · rfl
    · exact absurd hef.symm (hold f hf)
    · exact absurd hef (hold e he)
    · exact hi.unique e he f hf hef

theorem Inv.request (hi : s.Inv) : { s with requested := ticket :: s.requested }.Inv where
  nodup := hi.nodup
  unused := hi.unused
  running := hi.running
  covered := hi.covered
  terminated := hi.terminated
  pthreads := hi.pthreads
  marked := hi.marked
  kept e he := { hi.kept e he with requested := List.mem_cons_of_mem _ (hi.kept e he).requested }
  issued := hi.issued
  unique := hi.unique

theorem Inv.fresh_ticket (hi : s.Inv) (hnew : ticket ∉ s.requested) :
    s.retirementTickets ticket = none := by
  refine Option.eq_none_iff_forall_ne_some.mpr fun b hb => ?_
  obtain ⟨e, he, rfl⟩ := hi.issued ticket b hb
  exact hnew (hi.kept e he).requested

theorem Inv.retire_worker (hi : s.Inv) (hnew : ticket ∉ s.requested) :
    (s.retire_worker p ticket).1.Inv := by
  have hir : { s with requested := ticket :: s.requested }.Inv := hi.request
  unfold WorkerPool.retire_worker
  dsimp only
  split
  · exact hir
  · next w hpt =>
      split
      · exact hir
      · next hok =>
          split
          · exact hir
          · next hmark =>
              rw [not_or] at hok
              rw [not_and, not_not] at hmark
              refine hir.accept hpt hok.2 List.mem_cons_self (hi.fresh_ticket hnew) ?_
              -- a mark would have the ticket of an earlier request
              refine Bool.eq_false_iff.mpr fun h => ?_
              obtain ⟨e, he, -, -, het⟩ := hi.marked w h
              exact hnew (hmark h ▸ het ▸ (hi.kept e he).requested)

end

/-! ## Cleanup -/

section

variable {s : WorkerPool} {w p q v ticket : Nat} {e : Acceptance}

theorem mem_splice (hl : l.Nodup) (hw : w ∈ l) : v ∈ splice l w ↔ v ≠ w ∧ v ∈ l := by
  rw [splice, if_pos hw]
  exact hl.mem_erase_iff

theorem nodup_splice (hl : l.Nodup) (hw : w ∈ l) : (splice l w).Nodup := by
  rw [splice, if_pos hw]
  exact hl.erase w

/-- A detached worker's thread is gone from the table, the others stay. -/
theorem Inv.detach_pthreads (hi : s.Inv) (hw : w ∈ s.runningWorkers) :
    (s.detach w).pthreads q = some v ↔
      v ∈ (s.detach w).runningWorkers ∧ (s.worker v).pthread_ptr = q := by
  have hpt := (hi.pthreads _ w).mpr ⟨hw, rfl⟩
  change Function.update s.pthreads (s.worker w).pthread_ptr none q = some v ↔
    v ∈ splice s.runningWorkers w ∧ _
  rw [mem_splice hi.nodup.2 hw]
  rcases eq_or_ne q (s.worker w).pthread_ptr with rfl | hq
  · rw [Function.update_self]
    refine ⟨fun h => (by cases h), fun ⟨⟨hvw, hv⟩, hptr⟩ => absurd ?_ hvw⟩
    have hv' := (hi.pthreads _ v).mpr ⟨hv, hptr⟩
    exact Option.some.inj (hv'.symm.trans hpt)
  · rw [Function.update_of_ne hq, hi.pthreads]
    refine and_congr_left fun hptr => (and_iff_right ?_).symm
    rintro rfl
    exact hq hptr.symm

/-- The cleanup is noted with what was accepted for the worker. -/
theorem Inv.mem_detach_accepted (hi : s.Inv) :
    e ∈ (s.detach w).accepted ↔
      ∃ f ∈ s.accepted, (if f.worker = w then { f with cleaned := true } else f) = e := by
  refine List.mem_map.trans (exists_congr fun f => and_congr_right fun hf => ?_)
  have hh : f.worker = w → f.hosted = (s.worker w).hosted := fun h => h ▸ (hi.kept f hf).hosted.symm
  rw [if_congr (and_iff_left_of_imp hh) rfl rfl]

/-- A worker without a mark has nothing accepted for it. -/
theorem Inv.not_accepted (hi : s.Inv) (hw : w ∈ s.runningWorkers)
    (hmark : (s.worker w).retireOnExit = false) (he : e ∈ s.accepted) : e.worker ≠ w := by
  rintro rfl
  cases hc : e.cleaned with
  | false => exact Bool.false_ne_true (hmark.symm.trans ((hi.kept e he).live hc).2.2.1)
  | true =>
    exact Bool.false_ne_true ((hi.running _ hw).2.2.symm.trans ((hi.kept e he).gone hc))

/-- A worker without a mark goes back to the pool. -/
theorem Inv.unmarked (hi : s.Inv) (hw : w ∈ s.runningWorkers)
    (hmark : (s.worker w).retireOnExit = false) :
    { s.detach w with unusedWorkers := s.unusedWorkers ++ [w] }.Inv := by
  obtain ⟨hlt, hptr, hterm⟩ := hi.running w hw
  have hself : (s.detach w).worker w = { s.worker w with pthread_ptr := 0 } := setWorker_self
  have hother : ∀ v, v ≠ w → (s.detach w).worker v = s.worker v := fun v hv => setWorker_of_ne hv
  have hsame : ∀ v, ((s.detach w).worker v).terminated = (s.worker v).terminated ∧
      ((s.detach w).worker v).retireOnExit = (s.worker v).retireOnExit := by
    intro v
    rcases eq_or_ne v w with rfl | hv
    · rw [hself]
      exact ⟨rfl, rfl⟩
    · rw [hother v hv]
      exact ⟨rfl, rfl⟩
  have hrun : ∀ v, v ∈ (s.detach w).runningWorkers ↔ v ≠ w ∧ v ∈ s.runningWorkers := fun v =>
    mem_splice hi.nodup.2 hw
  have haccepted : (s.detach w).accepted = s.accepted := by
    refine (List.map_congr_left fun e he => ?_).trans (List.map_id _)
    exact if_neg fun h => hi.not_accepted hw hmark he h.1
  have hnot : w ∉ s.unusedWorkers := fun h => hptr (hi.unused w h).2.1
  refine ⟨⟨?_, nodup_splice hi.nodup.2 hw⟩, ?_, ?_, ?_, ?_, ?_, ?_, ?_, ?_, ?_⟩
  · refine List.nodup_append.mpr ⟨hi.nodup.1, List.nodup_singleton _, ?_⟩
    rintro a ha b hb rfl
    exact hnot (List.mem_singleton.mp hb ▸ ha)
  · intro v hv
    change v < s.allocated ∧ ((s.detach w).worker v).pthread_ptr = 0 ∧
      ((s.detach w).worker v).retireOnExit = false ∧ ((s.detach w).worker v).terminated = false
    rcases List.mem_append.mp hv with h | h
    · have hvw : v ≠ w := fun h' => hnot (h' ▸ h)
      rw [hother v hvw]
      exact hi.unused v h
    · rw [List.mem_singleton.mp h, hself]
      exact ⟨hlt, rfl, hmark, hterm⟩
  · intro v hv
    obtain ⟨hvw, hv⟩ := (hrun v).mp hv
    change v < s.allocated ∧ ((s.detach w).worker v).pthread_ptr ≠ 0 ∧
      ((s.detach w).worker v).terminated = false
    rw [hother v hvw]
    exact hi.running v hv
  · intro v hv
    change v ∈ s.unusedWorkers ++ [w] ∨ v ∈ (s.detach w).runningWorkers ∨
      ((s.detach w).worker v).terminated = true
    rw [(hsame v).1, hrun, List.mem_append, List.mem_singleton]
    rcases eq_or_ne v w with rfl | hvw
    · exact .inl (.inr rfl)
    · exact (hi.covered v hv).imp .inl (.imp_left fun h => ⟨hvw, h⟩)
  · intro v hv
    change ((s.detach w).worker v).terminated = true at hv
    change _ ∧ ∃ e ∈ (s.detach w).accepted, _
    rw [(hsame v).1] at hv
    rw [haccepted]
    exact hi.terminated v hv
  · intro q v
    change (s.detach w).pthreads q = some v ↔ v ∈ (s.detach w).runningWorkers ∧
      ((s.detach w).worker v).pthread_ptr = q
    rw [hi.detach_pthreads hw]
    refine and_congr_right fun hv => ?_
    rw [hother v ((hrun v).mp hv).1]
  · intro v hv
    change ((s.detach w).worker v).retireOnExit = true at hv
    change ∃ e ∈ (s.detach w).accepted, e.worker = v ∧ e.cleaned = false ∧
      e.ticket = ((s.detach w).worker v).retirementTicket
    have hvw : v ≠ w := by
      rintro rfl
      exact Bool.false_ne_true (hmark.symm.trans ((hsame v).2.symm.trans hv))
    rw [hother v hvw] at hv ⊢
    rw [haccepted]
    exact hi.marked v hv
  · intro e he
    change e ∈ (s.detach w).accepted at he
    rw [haccepted] at he
    have hk := hi.kept e he
    have hew := hi.not_accepted hw hmark he
    have hwork := hother e.worker hew
    refine ⟨hk.requested, hk.nonzero, hwork ▸ hk.hosted, hk.ticket, fun hc => ?_,
      fun hc => hwork ▸ hk.gone hc⟩
    exact ⟨(hrun _).mpr ⟨hew, (hk.live hc).1⟩, hwork ▸ (hk.live hc).2⟩
  · intro t b ht
    change ∃ e ∈ (s.detach w).accepted, _
    rw [haccepted]
    exact hi.issued t b ht
  · intro e he f hf
    change e ∈ (s.detach w).accepted at he
    change f ∈ (s.detach w).accepted at hf
    rw [haccepted] at he hf
    exact hi.unique e he f hf

/-- A worker with a mark is terminated, and its ticket acknowledged. -/
theorem Inv.retire (hi : s.Inv) (hw : w ∈ s.runningWorkers)
    (hmark : (s.worker w).retireOnExit = true) :
    ((s.detach w).retire w (s.worker w).retirementTicket).Inv := by
  obtain ⟨hlt, hptr, hterm⟩ := hi.running w hw
  obtain ⟨e₀, he₀, hew₀, hc₀, het₀⟩ := hi.marked w hmark
  have hk₀ := hi.kept e₀ he₀
  have hretire : (s.detach w).retire w (s.worker w).retirementTicket =
      { ((s.detach w).setWorker w { (s.detach w).worker w with
          retireOnExit := false, retirementTicket := 0 }).terminateWorker w with
        retirementTickets :=
          Function.update s.retirementTickets (s.worker w).retirementTicket (some true) } := by
    refine if_pos ⟨het₀ ▸ hk₀.nonzero, ?_⟩
    change (s.retirementTickets _).isSome = true
    rw [← het₀, hk₀.ticket, Option.isSome_some]
  rw [hretire]
  generalize ht' : WorkerPool.mk .. = s'
  have hself : s'.worker w = ⟨0, false, 0, true, (s.worker w).hosted⟩ := by
    subst ht'
    change (setWorker _ w _).worker w = _
    rw [setWorker_self, setWorker_self]
    change Worker.mk ((s.detach w).worker w).pthread_ptr _ _ _ ((s.detach w).worker w).hosted = _
    rw [show (s.detach w).worker w = { s.worker w with pthread_ptr := 0 } from setWorker_self]
  have hother : ∀ v, v ≠ w → s'.worker v = s.worker v := by
    subst ht'
    intro v hv
    exact (setWorker_of_ne hv).trans ((setWorker_of_ne hv).trans (setWorker_of_ne hv))
  have htickets : s'.retirementTickets =
      Function.update s.retirementTickets e₀.ticket (some true) := by
    rw [het₀, ← ht']
  have hrun : ∀ v, v ∈ s'.runningWorkers ↔ v ≠ w ∧ v ∈ s.runningWorkers := by
    subst ht'
    exact fun v => mem_splice hi.nodup.2 hw
  have hmem : ∀ e, e ∈ s'.accepted ↔
      ∃ f ∈ s.accepted, (if f.worker = w then { f with cleaned := true } else f) = e := by
    subst ht'
    exact fun e => hi.mem_detach_accepted
  have hnew : ∀ f ∈ s.accepted, ∃ e ∈ s'.accepted, e.worker = f.worker ∧ e.ticket = f.ticket ∧
      (e.cleaned = true ↔ f.worker = w ∨ f.cleaned = true) := by
    intro f hf
    refine ⟨_, (hmem _).mpr ⟨f, hf, rfl⟩, ?_⟩
    split
    · next h => exact ⟨rfl, rfl, fun _ => .inl h, fun _ => rfl⟩
    · next h => exact ⟨rfl, rfl, .inr, (Or.resolve_left · h)⟩
  have hpt : ∀ q v, s'.pthreads q = some v ↔
      v ∈ s'.runningWorkers ∧ (s.worker v).pthread_ptr = q := by
    subst ht'
    exact fun q v => hi.detach_pthreads hw
  have hlists : s'.unusedWorkers = s.unusedWorkers ∧ s'.allocated = s.allocated ∧
      s'.requested = s.requested ∧ s'.runningWorkers.Nodup := by
    subst ht'
    exact ⟨rfl, rfl, rfl, nodup_splice hi.nodup.2 hw⟩
  obtain ⟨hunused, hallocated, hrequested, hnodup⟩ := hlists
  clear ht' hretire
  have hnot : w ∉ s.unusedWorkers := fun h => hptr (hi.unused w h).2.1
  refine ⟨⟨hunused ▸ hi.nodup.1, hnodup⟩, ?_, ?_, ?_, ?_, ?_, ?_, ?_, ?_, ?_⟩
  · intro v hv
    rw [hunused] at hv
    rw [hallocated, hother v fun h => hnot (h ▸ hv)]
    exact hi.unused v hv
  · intro v hv
    obtain ⟨hvw, hv⟩ := (hrun v).mp hv
    rw [hallocated, hother v hvw]
    exact hi.running v hv
  · intro v hv
    rw [hallocated] at hv
    rw [hunused, hrun]
    rcases eq_or_ne v w with rfl | hvw
    · rw [hself]
      exact .inr (.inr rfl)
    · rw [hother v hvw]
      exact (hi.covered v hv).imp_right (.imp_left fun h => ⟨hvw, h⟩)
  · intro v hv
    rw [hallocated]
    rcases eq_or_ne v w with rfl | hvw
    · obtain ⟨e, he, hwork, -, hc⟩ := hnew e₀ he₀
      exact ⟨hlt, e, he, hwork.trans hew₀, hc.mpr (.inl hew₀)⟩
    · rw [hother v hvw] at hv
      obtain ⟨hlt, f, hf, hfw, hfc⟩ := hi.terminated v hv
      obtain ⟨e, he, hwork, -, hc⟩ := hnew f hf
      exact ⟨hlt, e, he, hwork.trans hfw, hc.mpr (.inr hfc)⟩
  · intro q v
    rw [hpt]
    refine and_congr_right fun hv => ?_
    rw [hother v ((hrun v).mp hv).1]
  · intro v hv
    have hvw : v ≠ w := by
      rintro rfl
      rw [hself] at hv
      cases hv
    rw [hother v hvw] at hv ⊢
    obtain ⟨e, he, hew, h⟩ := hi.marked v hv
    exact ⟨e, (hmem e).mpr ⟨e, he, if_neg fun h' => hvw (hew.symm.trans h')⟩, hew, h⟩
  · intro e he
    obtain ⟨f, hf, rfl⟩ := (hmem e).mp he
    have hk := hi.kept f hf
    split
    · next hfw =>
        -- the worker's own acceptances have the ticket of its mark
        have hfc : f.cleaned = false := by
          refine Bool.eq_false_iff.mpr fun hc => Bool.false_ne_true ?_
          exact hterm.symm.trans (hfw ▸ hk.gone hc)
        have hticket : f.ticket = e₀.ticket := by
          rw [het₀, ← hfw]
          exact (hk.live hfc).2.2.2.symm
        refine ⟨hrequested ▸ hk.requested, hk.nonzero, ?_, ?_, fun h => (by cases h), fun _ => ?_⟩
        · change (s'.worker f.worker).hosted = f.hosted
          rw [← hk.hosted, hfw, hself]
        · change s'.retirementTickets f.ticket = some true
          rw [htickets, hticket, Function.update_self]
        · change (s'.worker f.worker).terminated = true
          rw [hfw, hself]
    · next hfw =>
        have hwork := hother f.worker hfw
        have hticket : f.ticket ≠ e₀.ticket := fun h =>
          hfw ((hi.unique f hf e₀ he₀ h).trans hew₀)
        refine ⟨hrequested ▸ hk.requested, hk.nonzero, hwork ▸ hk.hosted, ?_, fun hc => ?_,
          fun hc => hwork ▸ hk.gone hc⟩
        · rw [htickets, Function.update_of_ne hticket]
          exact hk.ticket
        · exact ⟨(hrun _).mpr ⟨hfw, (hk.live hc).1⟩, hwork ▸ (hk.live hc).2⟩
  · intro t b ht
    have hold : ∃ f ∈ s.accepted, f.ticket = t := by
      rcases eq_or_ne t e₀.ticket with rfl | hne
      · exact ⟨e₀, he₀, rfl⟩
      · rw [htickets, Function.update_of_ne hne] at ht
        exact hi.issued t b ht
    obtain ⟨f, hf, rfl⟩ := hold
    obtain ⟨e, he, -, htick, -⟩ := hnew f hf
    exact ⟨e, he, htick⟩
  · intro e he e' he' htick
    obtain ⟨f, hf, rfl⟩ := (hmem e).mp he
    obtain ⟨f', hf', rfl⟩ := (hmem e').mp he'
    have hsame : ∀ f : Acceptance,
        (if f.worker = w then { f with cleaned := true } else f).worker = f.worker ∧
          (if f.worker = w then { f with cleaned := true } else f).ticket = f.ticket := by
      intro f
      split
      · exact ⟨rfl, rfl⟩
      · exact ⟨rfl, rfl⟩
    rw [(hsame f).2, (hsame f').2] at htick
    rw [(hsame f).1, (hsame f').1]
    exact hi.unique f hf f' hf' htick

theorem Inv.cleanupThread (hi : s.Inv) (h : s.cleanupThread p = some s') : s'.Inv := by
  obtain ⟨w, hpt, rfl⟩ := Option.map_eq_some_iff.mp h
  have hw := ((hi.pthreads p w).mp hpt).1
  unfold WorkerPool.returnWorkerToPool
  split
  · next hmark => exact hi.retire hw hmark
  · next hmark => exact hi.unmarked hw (Bool.eq_false_iff.mpr hmark)

/-! ## Acknowledgements stay -/

theorem getNewWorker_tickets : (s.getNewWorker strict).1.retirementTickets = s.retirementTickets := by
  unfold WorkerPool.getNewWorker
  split
  · rfl
  · rfl

theorem spawnThread_tickets : (s.spawnThread strict p).1.retirementTickets = s.retirementTickets := by
  have hget : (s.getNewWorker strict).1.retirementTickets = _ := getNewWorker_tickets
  unfold WorkerPool.spawnThread
  split
  · next h => rwa [h] at hget
  · next h => rwa [h] at hget

theorem Inv.retire_worker_stays (hi : s.Inv) (hnew : ticket ∉ s.requested)
    (ht : s.retirementTickets t = some true) :
    (s.retire_worker p ticket).1.retirementTickets t = some true := by
  have hne : t ≠ ticket := by
    rintro rfl
    rw [hi.fresh_ticket hnew] at ht
    cases ht
  unfold WorkerPool.retire_worker
  dsimp only
  split
  · exact ht
  · split
    · exact ht
    · split
      · exact ht
      · exact (Function.update_of_ne hne ..).trans ht

theorem cleanupThread_stays (h : s.cleanupThread p = some s') (ht : s.retirementTickets t = some true) :
    s'.retirementTickets t = some true := by
  obtain ⟨w, -, rfl⟩ := Option.map_eq_some_iff.mp h
  unfold WorkerPool.returnWorkerToPool
  split
  · unfold WorkerPool.retire WorkerPool.acknowledge
    dsimp only
    split
    · rcases eq_or_ne t (s.worker w).retirementTicket with rfl | hne
      · exact Function.update_self ..
      · exact (Function.update_of_ne hne ..).trans ht
    · exact ht
  · exact ht

end

end WorkerPool

end Pthread
