-- SUMMARY: Dedicated workers: the fence before a retirement, the retirement that polls for its acknowledgement, and what a result of 0 tells.
import Mathlib.Algebra.Ring.Int.Defs
import Mathlib.Algebra.Ring.Nat
import Emscripten.Lib.Machine
import Emscripten.Pthread.WorkerPool

/-!
# Retirement of dedicated workers

A `ProxyWorker` owns a thread on a worker of the pool. Its methods are called by one
application thread at a time and see the pool through calls that run on the main thread,
so each of these calls is one step; other steps of the pool come in between.
-/

namespace Pthread

open Machine

def ETIMEDOUT : Int := 73
def ESHUTDOWN : Int := 140

def kRetries : Nat := 5000

/-! ## State -/

/-- Where a call of `retire` is. -/
inductive RetirePc
  | idle
  | joining
  /-- `waitForRetirementCleanup` with so many tries left. -/
  | polling (left : Nat)
deriving DecidableEq, Repr

structure ProxyWorker where
  native_handle : Nat
  joinable : Bool
  retirementTicket : Nat
  retirementFenced : Bool
  heartbeatStopped : Bool
  retired : Bool
  pc : RetirePc
deriving DecidableEq, Repr

/-- The state after the constructor, which starts the thread. -/
def ProxyWorker.new (thread : Nat) : ProxyWorker := ⟨thread, true, 0, false, false, false, .idle⟩

/-- Ghost: a call of `retire` that returned, its ticket and the ticket's status then. -/
structure Return where
  result : Int
  ticket : Nat
  status : Nat
deriving DecidableEq, Repr

structure Retirement (P : Type) where
  pool : WorkerPool
  proxy : P → Option ProxyWorker
  nextRetirementTicket : Nat
  /-- Ghost: the returns of `retire`, latest first. -/
  returns : List Return

inductive RetirementAction (P : Type)
  | allocateUnusedWorker
  | spawnThread (pthread_ptr : Nat)
  | cleanupThread (pthread_ptr : Nat)
  | retire_worker (thread ticket : Nat)
  | construct (x : P) (thread : Nat)
  | fenceForRetirement (x : P)
  | markHeartbeatStopped (x : P)
  | abandonScopedProfileWorker (x : P)
  | retire (x : P) (cancelError : Nat)
  | joined (x : P)
  | poll (x : P)

namespace Retirement

variable {P : Type} [DecidableEq P]

def init : Retirement P := ⟨.init, fun _ => none, 1, []⟩

def setProxy (s : Retirement P) (x : P) (w : ProxyWorker) : Retirement P :=
  { s with proxy := Function.update s.proxy x (some w) }

/-! ## The main thread -/

/-- A new thread has an address of its own. -/
def spawnThread (strict : Bool) (s : Retirement P) (pthread_ptr : Nat) : Option (Retirement P) :=
  if pthread_ptr ≠ 0 ∧ s.pool.pthreads pthread_ptr = none then
    some { s with pool := (s.pool.spawnThread strict pthread_ptr).1 }
  else none

/-- Every request has a ticket of its own. -/
def retire_worker (s : Retirement P) (thread ticket : Nat) : Option (Retirement P × Int) :=
  if ticket ∉ s.pool.requested then
    let r := s.pool.retire_worker thread ticket
    some ({ s with pool := r.1 }, r.2)
  else none

/-! ## A dedicated worker -/

def construct (s : Retirement P) (x : P) (thread : Nat) : Option (Retirement P) :=
  if s.proxy x = none ∧ s.pool.pthreads thread ≠ none then some (s.setProxy x (.new thread))
  else none

def normalizeError (error : Int) : Int := if error > 0 then -error else error

/-- The counter is a `uint32_t`, and 0 is no ticket. -/
def takeTicket (next : Nat) : Nat × Nat :=
  if next = 0 then (1, 2) else (next, (next + 1) % 2 ^ 32)

def fenceForRetirement (s : Retirement P) (x : P) (w : ProxyWorker) :
    Option (Retirement P × Int) :=
  if w.retirementFenced then some (s, 0)
  else if ¬ w.joinable then some (s, -ESHUTDOWN)
  else
    let t := takeTicket s.nextRetirementTicket
    match { s with nextRetirementTicket := t.2 }.retire_worker w.native_handle t.1 with
    | none => none
    | some (s, error) =>
      if error ≠ 0 then some (s, normalizeError error)
      else some (s.setProxy x { w with retirementTicket := t.1, retirementFenced := true }, 0)

/-- The queue is kept, the thread detached. -/
def abandonScopedProfileWorker (w : ProxyWorker) : ProxyWorker := { w with joinable := false }

/-- `retire` returns, and leaves `w`. -/
def finish (s : Retirement P) (x : P) (w : ProxyWorker) (result : Int) : Retirement P :=
  { s.setProxy x { w with pc := .idle } with
    returns := ⟨result, w.retirementTicket, s.pool.retire_worker_status w.retirementTicket⟩ ::
      s.returns }

/-- `retire` up to the join. -/
def retire (s : Retirement P) (x : P) (w : ProxyWorker) (cancelError : Nat) : Retirement P :=
  if w.retired then s.finish x w 0
  else if ¬ w.retirementFenced ∨ ¬ w.heartbeatStopped ∨ ¬ w.joinable then
    s.finish x w (-ESHUTDOWN)
  else if cancelError ≠ 0 then s.finish x (abandonScopedProfileWorker w) (-cancelError)
  else s.setProxy x { w with pc := .joining }

/-- A round of `waitForRetirementCleanup`. The worker counts as retired either way. -/
def poll (s : Retirement P) (x : P) (w : ProxyWorker) : Option (Retirement P) :=
  match w.pc with
  | .polling (left + 1) =>
    if s.pool.retire_worker_status w.retirementTicket ≠ 0 then
      some (s.finish x { w with retired := true } 0)
    else some (s.setProxy x { w with pc := .polling left })
  | .polling 0 => some (s.finish x { w with retired := true } (-ETIMEDOUT))
  | _ => none

/-- A method of a dedicated worker that is not in a call. -/
def method (s : Retirement P) (x : P) (f : ProxyWorker → Option (Retirement P)) :
    Option (Retirement P) :=
  match s.proxy x with
  | some w => if w.pc = .idle then f w else none
  | none => none

def joined (s : Retirement P) (x : P) : Option (Retirement P) :=
  match s.proxy x with
  | some w =>
    if w.pc = .joining then
      some (s.setProxy x { w with joinable := false, pc := .polling kRetries })
    else none
  | none => none

def step (strict : Bool) (s : Retirement P) : RetirementAction P → Option (Retirement P)
  | .allocateUnusedWorker => some { s with pool := s.pool.allocateUnusedWorker }
  | .spawnThread p => s.spawnThread strict p
  | .cleanupThread p => (s.pool.cleanupThread p).map fun pool => { s with pool := pool }
  | .retire_worker thread ticket => (s.retire_worker thread ticket).map Prod.fst
  | .construct x thread => s.construct x thread
  | .fenceForRetirement x => s.method x fun w => (s.fenceForRetirement x w).map Prod.fst
  | .markHeartbeatStopped x => s.method x fun w =>
    if w.retirementFenced then some (s.setProxy x { w with heartbeatStopped := true }) else none
  | .abandonScopedProfileWorker x => s.method x fun w =>
    some (s.setProxy x (abandonScopedProfileWorker w))
  | .retire x cancelError => s.method x fun w => some (s.retire x w cancelError)
  | .joined x => s.joined x
  | .poll x => (s.proxy x).bind (s.poll x)

/-! ## The property and its condition -/

/-- A worker that counts as retired is retired again only when its ticket is acknowledged. -/
def Permits (s : Retirement P) : RetirementAction P → Prop
  | .retire x _ => ∀ w, s.proxy x = some w → w.retired = true →
      s.pool.retire_worker_status w.retirementTicket = 1
  | _ => True

structure Sound (s : Retirement P) : Prop where
  pool : s.pool.Sound
  returns : ∀ r ∈ s.returns, r.result = 0 → r.status = 1

/-! ## Steps of the pool -/

section

variable {strict : Bool} {s s' : Retirement P} {x : P} {w : ProxyWorker}
  {a : RetirementAction P}

/-- The invariant is kept, and what is acknowledged stays so. -/
structure Advances (p p' : WorkerPool) : Prop where
  inv : p'.Inv
  stays : ∀ t, p.retirementTickets t = some true → p'.retirementTickets t = some true

omit [DecidableEq P] in
theorem Advances.refl (hi : s.pool.Inv) : Advances s.pool s.pool := ⟨hi, fun _ h => h⟩

omit [DecidableEq P] in
theorem method_some {f : ProxyWorker → Option (Retirement P)} (h : s.method x f = some s') :
    ∃ w, s.proxy x = some w ∧ w.pc = .idle ∧ f w = some s' := by
  unfold method at h
  split at h
  · next w hw =>
      split at h
      · next hpc => exact ⟨w, hw, hpc, h⟩
      · cases h
  · cases h

omit [DecidableEq P] in
theorem retire_worker_advances {thread ticket : Nat} {r : Retirement P × Int}
    (hi : s.pool.Inv) (h : s.retire_worker thread ticket = some r) :
    Advances s.pool r.1.pool ∧ r.1.returns = s.returns := by
  unfold retire_worker at h
  split at h
  · next hnew =>
      cases h
      exact ⟨⟨hi.retire_worker hnew, fun _ ht => hi.retire_worker_stays hnew ht⟩, rfl⟩
  · cases h

theorem fenceForRetirement_advances {r : Retirement P × Int} (hi : s.pool.Inv)
    (h : s.fenceForRetirement x w = some r) :
    Advances s.pool r.1.pool ∧ r.1.returns = s.returns := by
  unfold fenceForRetirement at h
  split at h
  · cases h
    exact ⟨.refl hi, rfl⟩
  · split at h
    · cases h
      exact ⟨.refl hi, rfl⟩
    · dsimp only at h
      split at h
      · cases h
      · next hreq =>
          have hadv := retire_worker_advances (by exact hi) hreq
          split at h
          · cases h
            exact hadv
          · cases h
            exact hadv

theorem retire_pool {cancelError : Nat} : (s.retire x w cancelError).pool = s.pool := by
  unfold retire
  split
  · rfl
  · split
    · rfl
    · split
      · rfl
      · rfl

theorem poll_pool (h : s.poll x w = some s') : s'.pool = s.pool := by
  unfold poll at h
  split at h
  · split at h
    · cases h
      rfl
    · cases h
      rfl
  · cases h
    rfl
  · cases h

/-- What a step does to the pool. -/
theorem step_advances (hi : s.pool.Inv) (hs : step strict s a = some s') :
    Advances s.pool s'.pool := by
  cases a with
  | allocateUnusedWorker =>
    cases hs
    exact ⟨hi.allocateUnusedWorker, fun _ h => h⟩
  | spawnThread p =>
    change s.spawnThread strict p = some s' at hs
    unfold spawnThread at hs
    split at hs
    · next hp =>
        cases hs
        refine ⟨hi.spawnThread hp.1 hp.2, fun t ht => ?_⟩
        change (s.pool.spawnThread strict p).1.retirementTickets t = _
        rwa [WorkerPool.spawnThread_tickets]
    · cases hs
  | cleanupThread p =>
    obtain ⟨pool, hclean, rfl⟩ := Option.map_eq_some_iff.mp hs
    exact ⟨hi.cleanupThread hclean, fun _ => WorkerPool.cleanupThread_stays hclean⟩
  | retire_worker thread ticket =>
    obtain ⟨r, hr, rfl⟩ := Option.map_eq_some_iff.mp hs
    exact (retire_worker_advances hi hr).1
  | construct x thread =>
    change s.construct x thread = some s' at hs
    unfold construct at hs
    split at hs
    · cases hs
      exact .refl hi
    · cases hs
  | fenceForRetirement x =>
    obtain ⟨w, -, -, hf⟩ := method_some hs
    obtain ⟨r, hr, rfl⟩ := Option.map_eq_some_iff.mp hf
    exact (fenceForRetirement_advances hi hr).1
  | markHeartbeatStopped x =>
    obtain ⟨w, -, -, hf⟩ := method_some hs
    split at hf
    · cases hf
      exact .refl hi
    · cases hf
  | abandonScopedProfileWorker x =>
    obtain ⟨w, -, -, hf⟩ := method_some hs
    cases hf
    exact .refl hi
  | retire x cancelError =>
    obtain ⟨w, -, -, hf⟩ := method_some hs
    cases hf
    rw [retire_pool]
    exact .refl hi
  | joined x =>
    change s.joined x = some s' at hs
    unfold joined at hs
    split at hs
    · split at hs
      · cases hs
        exact .refl hi
      · cases hs
    · cases hs
  | poll x =>
    obtain ⟨w, -, hf⟩ := Option.bind_eq_some_iff.mp hs
    rw [poll_pool hf]
    exact .refl hi

/-- The pool keeps its invariant in every run. -/
theorem pool_inv (h : Reaches (step strict) Any (init (P := P)) s) : s.pool.Inv :=
  h.invariant WorkerPool.init_inv fun _ _ _ hi _ hs => (step_advances hi hs).inv

/-- A ticket that is acknowledged stays so. -/
theorem status_stays {t : Nat} (hi : s.pool.Inv) (h : Reaches (step strict) Any s s')
    (ht : s.pool.retire_worker_status t = 1) : s'.pool.retire_worker_status t = 1 := by
  rw [WorkerPool.status_eq_one] at ht ⊢
  have hboth : s'.pool.Inv ∧ s'.pool.retirementTickets t = some true := by
    refine h.invariant (I := fun s => s.pool.Inv ∧ s.pool.retirementTickets t = some true)
      ⟨hi, ht⟩ fun s a s' hI _ hs => ?_
    have hadv := step_advances hI.1 hs
    exact ⟨hadv.inv, hadv.stays t hI.2⟩
  exact hboth.2

/-! ## What `retire` returns -/

/-- A return that tells no more than there is. -/
def Return.Honest (r : Return) : Prop := r.result = 0 → r.status = 1

theorem finish_honest {result : Int} (hret : ∀ r ∈ s.returns, Return.Honest r)
    (hresult : result = 0 → s.pool.retire_worker_status w.retirementTicket = 1) :
    ∀ r ∈ (s.finish x w result).returns, Return.Honest r := by
  intro r hr
  rcases List.mem_cons.mp hr with rfl | hr
  · exact hresult
  · exact hret r hr

theorem retire_honest {cancelError : Nat} (hret : ∀ r ∈ s.returns, Return.Honest r)
    (hc : w.retired = true → s.pool.retire_worker_status w.retirementTicket = 1) :
    ∀ r ∈ (s.retire x w cancelError).returns, Return.Honest r := by
  unfold retire
  split
  · next hretired => exact finish_honest hret fun _ => hc hretired
  · split
    · exact finish_honest hret fun h => absurd h (by decide)
    · split
      · next herr => exact finish_honest hret fun h => absurd h (by omega)
      · exact hret

omit [DecidableEq P] in
theorem status_cases {t : Nat} (h : s.pool.retire_worker_status t ≠ 0) :
    s.pool.retire_worker_status t = 1 := by
  unfold WorkerPool.retire_worker_status at h ⊢
  split
  · rfl
  · next hno =>
      split at h
      · next hyes => exact absurd hyes (hno ·)
      · exact absurd rfl h

theorem poll_honest (hret : ∀ r ∈ s.returns, Return.Honest r) (h : s.poll x w = some s') :
    ∀ r ∈ s'.returns, Return.Honest r := by
  unfold poll at h
  split at h
  · split at h
    · next hstatus =>
        cases h
        exact finish_honest hret fun _ => status_cases hstatus
    · cases h
      exact hret
  · cases h
    exact finish_honest hret fun h => absurd h (by decide)
  · cases h

/-- What a step that meets the condition adds to the returns. -/
theorem step_honest (hi : s.pool.Inv) (hret : ∀ r ∈ s.returns, Return.Honest r)
    (hc : s.Permits a) (hs : step strict s a = some s') : ∀ r ∈ s'.returns, Return.Honest r := by
  cases a with
  | allocateUnusedWorker =>
    cases hs
    exact hret
  | spawnThread p =>
    change s.spawnThread strict p = some s' at hs
    unfold spawnThread at hs
    split at hs
    · cases hs
      exact hret
    · cases hs
  | cleanupThread p =>
    obtain ⟨pool, -, rfl⟩ := Option.map_eq_some_iff.mp hs
    exact hret
  | retire_worker thread ticket =>
    obtain ⟨r, hr, rfl⟩ := Option.map_eq_some_iff.mp hs
    rw [(retire_worker_advances hi hr).2]
    exact hret
  | construct x thread =>
    change s.construct x thread = some s' at hs
    unfold construct at hs
    split at hs
    · cases hs
      exact hret
    · cases hs
  | fenceForRetirement x =>
    obtain ⟨w, -, -, hf⟩ := method_some hs
    obtain ⟨r, hr, rfl⟩ := Option.map_eq_some_iff.mp hf
    rw [(fenceForRetirement_advances hi hr).2]
    exact hret
  | markHeartbeatStopped x =>
    obtain ⟨w, -, -, hf⟩ := method_some hs
    split at hf
    · cases hf
      exact hret
    · cases hf
  | abandonScopedProfileWorker x =>
    obtain ⟨w, -, -, hf⟩ := method_some hs
    cases hf
    exact hret
  | retire x cancelError =>
    obtain ⟨w, hw, -, hf⟩ := method_some hs
    cases hf
    exact retire_honest hret (hc w hw)
  | joined x =>
    change s.joined x = some s' at hs
    unfold joined at hs
    split at hs
    · split at hs
      · cases hs
        exact hret
      · cases hs
    · cases hs
  | poll x =>
    obtain ⟨w, -, hf⟩ := Option.bind_eq_some_iff.mp hs
    exact poll_honest hret hf

end

/-! ## Results -/

section

variable {strict : Bool} {s : Retirement P}

/-- In a run in which no worker is retired again after a time-out, before its ticket is
acknowledged, the pool is sound, an acknowledgement is for good, and a result of 0 is one of
a worker whose ticket is acknowledged. -/
theorem retirement_sound (h : Reaches (step strict) Permits (init (P := P)) s) :
    s.Sound ∧ ∀ s' t, Reaches (step strict) Any s s' →
      s.pool.retire_worker_status t = 1 → s'.pool.retire_worker_status t = 1 := by
  have hpool := pool_inv h.any
  have hret : ∀ r ∈ s.returns, Return.Honest r := by
    refine h.invariant_of (J := fun s => ∀ r ∈ s.returns, Return.Honest r)
      (fun _ hr => pool_inv hr.any) (fun _ hr => by cases hr) fun s a s' hi hJ hc hs => ?_
    exact step_honest hi hJ hc hs
  exact ⟨⟨hpool.sound, hret⟩, fun s' t h' ht => status_stays hpool h' ht⟩

/-- A worker that hosts a second thread after a first, is fenced, terminated and retired. -/
theorem retirement_sound_retires :
    ∃ s : Retirement Unit, s.Sound ∧ s.returns = [⟨0, 1, 1⟩] := by
  have h₀ : Reaches (step false) Permits (init (P := Unit)) init := .init
  have h₁ := h₀.next (.spawnThread 4) trivial rfl
  have h₂ := h₁.next (.cleanupThread 4) trivial rfl
  have h₃ := h₂.next (.spawnThread 4) trivial rfl
  have h₄ := h₃.next (.construct () 4) trivial rfl
  have h₅ := h₄.next (.fenceForRetirement ()) trivial rfl
  have h₆ := h₅.next (.markHeartbeatStopped ()) trivial rfl
  have h₇ := h₆.next (.retire () 0) (fun w hw => by cases hw; exact fun h => (by cases h)) rfl
  have h₈ := h₇.next (.joined ()) trivial rfl
  have h₉ := h₈.next (.cleanupThread 4) trivial rfl
  have h₁₀ := h₉.next (.poll ()) trivial rfl
  exact ⟨_, (retirement_sound h₁₀).1, rfl⟩

/-- A call that finds no acknowledgement polls until its tries are used up. -/
theorem polls_reach {s₀ : Retirement P} {x : P} {w : ProxyWorker} {n : Nat}
    (h : Reaches (step strict) Any s₀ s)
    (hw : s.proxy x = some { w with pc := .polling n })
    (hstatus : s.pool.retire_worker_status w.retirementTicket = 0) :
    ∃ s', Reaches (step strict) Any s₀ s' ∧ s'.proxy x = some { w with pc := .polling 0 } ∧
      s'.pool = s.pool := by
  induction n generalizing s with
  | zero => exact ⟨s, h, hw, rfl⟩
  | succ n ih =>
    have hpoll : step strict s (.poll x) = some (s.setProxy x { w with pc := .polling n }) := by
      change (s.proxy x).bind (s.poll x) = _
      rw [hw]
      exact if_neg (not_not.mpr hstatus)
    exact ih (s := s.setProxy x { w with pc := .polling n }) (h.next _ trivial hpoll)
      (Function.update_self ..) hstatus

/-- A retirement times out before the cleanup of its thread, and the next one returns 0. -/
theorem retire_after_timeout :
    ∃ s : Retirement Unit, Reaches (step false) Any init s ∧ ⟨0, 1, 0⟩ ∈ s.returns ∧ ¬ s.Sound := by
  have h₆ : Reaches (step false) Any (init (P := Unit)) _ :=
    reaches_of_exec [.spawnThread 4, .construct () 4, .fenceForRetirement (), .markHeartbeatStopped (), .retire () 0,
      .joined ()] rfl (meets_any _)
  obtain ⟨s, hr, hw, hpool⟩ := polls_reach (x := ())
    (w := ⟨4, false, 1, true, true, false, .idle⟩) (n := kRetries) h₆ rfl rfl
  have hstatus : s.pool.retire_worker_status 1 = 0 := by
    rw [hpool]
    rfl
  have htimeout : step false s (.poll ()) =
      some (s.finish () ⟨4, false, 1, true, true, true, .polling 0⟩ (-ETIMEDOUT)) := by
    change (s.proxy ()).bind (s.poll ()) = _
    rw [hw]
    rfl
  have h₇ := hr.next _ trivial htimeout
  have hagain : step false (s.finish () ⟨4, false, 1, true, true, true, .polling 0⟩ (-ETIMEDOUT))
      (.retire () 0) = some ((s.finish () ⟨4, false, 1, true, true, true, .polling 0⟩
        (-ETIMEDOUT)).finish () ⟨4, false, 1, true, true, true, .idle⟩ 0) := rfl
  have h₈ := h₇.next _ trivial hagain
  have hmem : ⟨0, 1, 0⟩ ∈ ((s.finish () ⟨4, false, 1, true, true, true, .polling 0⟩
      (-ETIMEDOUT)).finish () ⟨4, false, 1, true, true, true, .idle⟩ 0).returns := by
    rw [← hstatus]
    exact List.mem_cons_self
  exact ⟨_, h₈, hmem, fun hs => absurd (hs.returns _ hmem rfl) (by decide)⟩

end

end Retirement

end Pthread
