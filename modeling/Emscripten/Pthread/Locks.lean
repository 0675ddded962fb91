-- SUMMARY: Locks and condition variables, one atomic access a step, over any interleaving of threads.
import Mathlib.Algebra.Ring.Nat
import Mathlib.Data.List.Nodup
import Emscripten.Lib.Machine

/-!
# Locks

A lock is a word that a thread exchanges from 0 to 1. A thread that finds it at 1 waits on it, spins or gives up. A
condition variable is a word that counts signals. The threads that wait on a word stand in a list, and are woken in
its order.
-/

namespace Pthread

open Machine

/-- The functions that take a lock. -/
inductive LockKind
  | try_acquire
  | wait_acquire
  | waitinf_acquire
  | busyspin_wait_acquire
  | busyspin_waitinf_acquire
deriving DecidableEq

/-- What a thread that waits for a signal has read. `since` is a ghost: the signals up to then. -/
structure CondvarRead where
  kind : LockKind
  val : Nat
  since : Nat
deriving DecidableEq

/-- The next access of a thread that is awake. `store` and `notify` are those of `emscripten_lock_release`, with what
comes after it. -/
inductive LockPc
  | idle
  | exchange (kind : LockKind)
  | wait (kind : LockKind) (val : Nat)
  | load (kind : LockKind)
  | store (next : Option CondvarRead)
  | notify (next : Option CondvarRead)
  | condvarWait (r : CondvarRead)
  | add (num : Nat)
  | condvarNotify (num : Nat)
deriving DecidableEq

structure LockState (T : Type) where
  lock : Nat
  condvar : Nat
  lockWaiters : List T
  condvarWaiters : List T
  pc : T → LockPc
  /-- Ghost: the thread has taken the lock, and not released it. -/
  owns : T → Bool
  /-- Ghost: how often the condition variable was signalled. -/
  signals : Nat
  /-- Ghost: for each sleep on the condition variable, the signals since its value was read. -/
  sleeps : List Nat

/-! ## Steps -/

/-- Where a thread goes that finds the lock taken; `left` tells whether it has time left. -/
def LockKind.retry (left : Bool) (val : Nat) : LockKind → LockPc
  | .try_acquire => .idle
  | .wait_acquire => if left then .wait .wait_acquire val else .idle
  | .waitinf_acquire => .wait .waitinf_acquire val
  | .busyspin_wait_acquire => if left then .exchange .busyspin_wait_acquire else .idle
  | .busyspin_waitinf_acquire => .exchange .busyspin_waitinf_acquire

inductive LockCall
  | acquire (kind : LockKind)
  | release
  | condvar_wait
  | condvar_waitinf
  | condvar_signal (numWaitersToSignal : Nat)

def LockCall.start : LockCall → LockPc
  | .acquire kind => .exchange kind
  | .release => .store none
  | .condvar_wait => .load .wait_acquire
  | .condvar_waitinf => .load .waitinf_acquire
  | .condvar_signal num => .add num

inductive LockAction (T : Type)
  | call (t : T) (c : LockCall)
  | access (t : T) (left : Bool)
  | timeout (t : T)

namespace LockState

variable {T : Type} [DecidableEq T] {s s' : LockState T} {t : T}

def init : LockState T := ⟨0, 0, [], [], fun _ => .idle, fun _ => false, 0, []⟩

def waiters (s : LockState T) : List T := s.lockWaiters ++ s.condvarWaiters

def goto (s : LockState T) (t : T) (pc : LockPc) : LockState T := { s with pc := Function.update s.pc t pc }

/-- A thread that goes to sleep tries to take the lock when it is woken. -/
def access (s : LockState T) (t : T) (left : Bool) : Option (LockState T) :=
  match s.pc t with
  | .idle => none
  | .exchange kind =>
    if s.lock = 0 then some { s.goto t .idle with lock := 1, owns := Function.update s.owns t true }
    else some (s.goto t (kind.retry left s.lock))
  | .wait kind val =>
    if s.lock = val then some { s.goto t (.exchange kind) with lockWaiters := s.lockWaiters ++ [t] }
    else some (s.goto t (.exchange kind))
  | .load kind => some (s.goto t (.store (some ⟨kind, s.condvar, s.signals⟩)))
  | .store next => some { s.goto t (.notify next) with lock := 0, owns := Function.update s.owns t false }
  | .notify next => some { s.goto t (next.elim .idle .condvarWait) with lockWaiters := s.lockWaiters.drop 1 }
  | .condvarWait r =>
    if s.condvar = r.val then
      some { s.goto t (.exchange r.kind) with
        condvarWaiters := s.condvarWaiters ++ [t]
        sleeps := (s.signals - r.since) :: s.sleeps }
    else some (s.goto t (.exchange r.kind))
  | .add num =>
    some { s.goto t (.condvarNotify num) with condvar := (s.condvar + 1) % 2 ^ 32, signals := s.signals + 1 }
  | .condvarNotify num => some { s.goto t .idle with condvarWaiters := s.condvarWaiters.drop num }

/-- A wait with a limit ends. After one on the condition variable the lock is not taken. -/
def timeout (s : LockState T) (t : T) : Option (LockState T) :=
  if s.pc t ≠ .exchange .wait_acquire then none
  else if t ∈ s.lockWaiters then some { s with lockWaiters := s.lockWaiters.erase t }
  else if t ∈ s.condvarWaiters then some { s.goto t .idle with condvarWaiters := s.condvarWaiters.erase t }
  else none

def step (s : LockState T) : LockAction T → Option (LockState T)
  | .call t c => if s.pc t = .idle then some (s.goto t c.start) else none
  | .access t left => if t ∈ s.waiters then none else s.access t left
  | .timeout t => s.timeout t

/-- Only the thread that has the lock releases it, or waits for a signal with it. -/
def Permits (s : LockState T) : LockAction T → Prop
  | .call t .release | .call t .condvar_wait | .call t .condvar_waitinf => s.owns t = true
  | _ => True

end LockState

/-! ## The invariant -/

def CondvarRead.Ok (signals : Nat) (r : CondvarRead) : Prop := r.since ≤ signals ∧ r.val = r.since % 2 ^ 32

/-- What a thread knows, and whether it has the lock. -/
def LockPc.Ok (signals : Nat) (owned : Bool) : LockPc → Prop
  | .wait _ val => val = 1
  | .load _ => owned = true
  | .store next => owned = true ∧ ∀ r ∈ next, r.Ok signals
  | .notify next => ∀ r ∈ next, r.Ok signals
  | .condvarWait r => r.Ok signals
  | _ => True

/-- What a thread does next that sleeps. -/
def LockPc.Exchanges : LockPc → Prop
  | .exchange _ => True
  | _ => False

/-- The thread is about to exchange the lock or to wake a thread that waits for it. -/
def LockPc.Pending : LockPc → Prop
  | .exchange _ | .notify _ => True
  | _ => False

theorem LockPc.Exchanges.pending {pc : LockPc} (h : pc.Exchanges) : pc.Pending := by
  cases pc with
  | exchange kind => trivial
  | _ => exact h.elim

theorem LockPc.Ok.mono {pc : LockPc} {signals : Nat} {owned : Bool} (h : pc.Ok signals owned) :
    pc.Ok (signals + 1) owned := by
  have hread : ∀ r : CondvarRead, r.Ok signals → r.Ok (signals + 1) := fun r hr => ⟨Nat.le_succ_of_le hr.1, hr.2⟩
  cases pc with
  | store next => exact ⟨h.1, fun r hr => hread r (h.2 r hr)⟩
  | notify next => exact fun r hr => hread r (h r hr)
  | condvarWait r => exact hread r h
  | _ => exact h

namespace LockState

variable {T : Type} [DecidableEq T] {s s' : LockState T} {t : T}

structure Inv (s : LockState T) : Prop where
  le_one : s.lock ≤ 1
  held : s.lock = 0 ↔ ∀ t, s.owns t = false
  one : ∀ t u, s.owns t = true → s.owns u = true → t = u
  condvar : s.condvar = s.signals % 2 ^ 32
  thread : ∀ t, (s.pc t).Ok s.signals (s.owns t)
  asleep : ∀ t ∈ s.waiters, (s.pc t).Exchanges
  nodup : s.waiters.Nodup
  awake : s.lockWaiters ≠ [] → s.lock = 0 → ∃ t, t ∉ s.waiters ∧ (s.pc t).Pending
  sleeps : ∀ n ∈ s.sleeps, 2 ^ 32 ∣ n

omit [DecidableEq T] in
theorem init_inv : (init : LockState T).Inv := by
  constructor <;> simp [init, waiters, LockPc.Ok]

theorem forall_goto {P : T → LockPc → Prop} {pc : LockPc} (h : ∀ u ≠ t, P u (s.pc u)) (ht : P t pc) (u : T) :
    P u ((s.goto t pc).pc u) := by
  simp only [goto, Function.update_apply]
  split
  · next hu => exact hu ▸ ht
  · next hu => exact h u hu

theorem goto_pc {pc : LockPc} {u : T} (hu : u ≠ t) : (s.goto t pc).pc u = s.pc u := Function.update_of_ne hu _ _

/-- A thread that is awake goes on. It is not missed if another one is about to look after the sleepers. -/
theorem Inv.goto {pc : LockPc} (hi : s.Inv) (ht : t ∉ s.waiters) (hpc : pc.Ok s.signals (s.owns t))
    (hpending : s.lockWaiters ≠ [] → s.lock = 0 → (s.pc t).Pending → pc.Pending ∨
      ∃ u ≠ t, u ∉ s.waiters ∧ (s.pc u).Pending) : (s.goto t pc).Inv := by
  refine { hi with
    thread := forall_goto (P := fun u pc => pc.Ok s.signals (s.owns u)) (fun u _ => hi.thread u) hpc
    asleep := forall_goto (P := fun u pc => u ∈ s.waiters → pc.Exchanges) (fun u _ => hi.asleep u) fun h => absurd h ht
    awake := fun hw h0 => ?_ }
  -- The thread that looks after the sleepers is this one, or another one that stays where it is.
  obtain ⟨u, hu, hup⟩ := hi.awake hw h0
  by_cases heq : u = t
  · obtain hp | ⟨v, hne, hv, hvp⟩ := hpending hw h0 (heq ▸ hup)
    · exact ⟨t, ht, by simpa [LockState.goto] using hp⟩
    · exact ⟨v, hv, (goto_pc hne).symm ▸ hvp⟩
  · exact ⟨u, hu, (goto_pc heq).symm ▸ hup⟩

omit [DecidableEq T] in
/-- Threads are woken. -/
theorem Inv.wake {ls cs : List T} (hi : s.Inv) (hl : ls.Sublist s.lockWaiters) (hc : cs.Sublist s.condvarWaiters) :
    Inv { s with lockWaiters := ls, condvarWaiters := cs } := by
  have hsub := hl.append hc
  refine { hi with
    asleep := fun u hu => hi.asleep u (hsub.subset hu), nodup := hi.nodup.sublist hsub, awake := fun hw h0 => ?_ }
  obtain ⟨u, hu, hup⟩ := hi.awake (fun hnil => hw (List.sublist_nil.mp (hnil ▸ hl))) h0
  exact ⟨u, fun hmem => hu (hsub.subset hmem), hup⟩

/-- A thread goes to sleep, on the lock only if that is taken. -/
theorem Inv.sleep {ls cs : List T} {kind : LockKind} {sleeps : List Nat} (hi : s.Inv) (ht : t ∉ s.waiters)
    (hpc : ¬ (s.pc t).Pending) (hperm : (ls ++ cs).Perm (t :: s.waiters)) (hl : ls ≠ [] → s.lock = 0 → s.lockWaiters ≠ [])
    (hs : ∀ n ∈ sleeps, 2 ^ 32 ∣ n) :
    Inv { s.goto t (.exchange kind) with lockWaiters := ls, condvarWaiters := cs, sleeps := sleeps } := by
  have hmem : ∀ u ≠ t, u ∈ ls ++ cs → u ∈ s.waiters := fun u hu h =>
    (List.mem_cons.mp (hperm.mem_iff.mp h)).resolve_left hu
  refine { hi with
    thread := forall_goto (P := fun u pc => pc.Ok s.signals (s.owns u)) (fun u _ => hi.thread u) trivial
    asleep := forall_goto (P := fun u pc => u ∈ ls ++ cs → pc.Exchanges) (fun u hu h => hi.asleep u (hmem u hu h))
      fun _ => trivial
    nodup := hperm.nodup_iff.mpr (List.nodup_cons.mpr ⟨ht, hi.nodup⟩), awake := fun hw h0 => ?_, sleeps := hs }
  obtain ⟨u, hu, hup⟩ := hi.awake (hl hw h0) h0
  have hne : u ≠ t := fun heq => hpc (heq ▸ hup)
  have hsame : (s.goto t (.exchange kind)).pc u = s.pc u := goto_pc hne
  exact ⟨u, fun h => hu (hmem u hne h), hsame.symm ▸ hup⟩

/-- The lock is taken or released by a thread, and no other one has it. -/
theorem Inv.setOwner {pc : LockPc} (b : Bool) (hi : s.Inv) (ht : t ∉ s.waiters) (hpc : pc.Ok s.signals b)
    (hothers : ∀ u ≠ t, s.owns u = false) (hpending : b = false → pc.Pending) :
    Inv { s.goto t pc with lock := b.toNat, owns := Function.update s.owns t b } := by
  have hself : Function.update s.owns t b t = b := Function.update_self ..
  have howns : ∀ u ≠ t, Function.update s.owns t b u = s.owns u := fun u hu => Function.update_of_ne hu _ _
  exact { hi with
    le_one := Bool.toNat_le b, held := by grind [Bool.toNat_eq_zero], one := by grind
    thread := forall_goto (P := fun u pc => pc.Ok s.signals (Function.update s.owns t b u))
      (fun u hu => (howns u hu).symm ▸ hi.thread u) (hself.symm ▸ hpc)
    asleep := forall_goto (P := fun u pc => u ∈ s.waiters → pc.Exchanges) (fun u _ => hi.asleep u) fun h => absurd h ht
    awake := fun _ h0 => ⟨t, ht, by simpa [LockState.goto] using hpending (Bool.toNat_eq_zero.mp h0)⟩ }

theorem Inv.notify {next : Option CondvarRead} (hi : s.Inv) (ht : t ∉ s.waiters) (hpc : s.pc t = .notify next) :
    Inv { s.goto t (next.elim .idle .condvarWait) with lockWaiters := s.lockWaiters.drop 1 } := by
  have hok := hi.thread t
  rw [hpc] at hok
  have hwake := hi.wake (List.drop_sublist 1 _) (List.Sublist.refl s.condvarWaiters)
  refine hwake.goto (fun h => ht (((List.drop_sublist 1 _).append (.refl _)).subset h)) ?_ fun hw _ _ => .inr ?_
  · cases next with
    | none => trivial
    | some r => exact hok r rfl
  · -- The first of the sleepers is awake now, and exchanges the lock.
    have hnodup := hi.nodup
    have hasleep := hi.asleep
    simp only [waiters] at hnodup hasleep ht ⊢
    cases hl : s.lockWaiters with
    | nil => simp [hl] at hw
    | cons w ws =>
      rw [hl] at hnodup hasleep ht
      refine ⟨w, fun heq => ht (heq ▸ by simp), (List.nodup_cons.mp hnodup).1, ?_⟩
      exact (hasleep w (by simp)).pending

theorem Inv.access {left : Bool} (hi : s.Inv) (ht : t ∉ s.waiters) (hs : s.access t left = some s') : s'.Inv := by
  have hok := hi.thread t
  have hle := hi.le_one
  unfold LockState.access at hs
  cases hpc : s.pc t <;> rw [hpc] at hs hok
  case idle => cases hs
  case exchange kind =>
    dsimp only at hs
    split at hs
    · next h0 =>
      cases hs
      exact hi.setOwner true ht trivial (fun u _ => hi.held.mp h0 u) (by simp)
    · next h0 =>
      -- A thread that waits then has found the value 1.
      have hretry : (kind.retry left s.lock).Ok s.signals (s.owns t) := by
        have : s.lock = 1 := by omega
        cases kind <;> cases left <;> trivial
      cases hs
      exact hi.goto ht hretry fun _ h => absurd h h0
  case wait kind val =>
    dsimp only at hs
    split at hs
    · next hval =>
      cases hs
      have hval' : val = 1 := hok
      refine hi.sleep ht (by simp [hpc, LockPc.Pending]) ?_ (by omega) hi.sleeps
      rw [List.append_assoc]
      exact List.perm_middle
    · cases hs
      exact hi.goto ht trivial fun _ _ _ => .inl trivial
  case load kind =>
    cases hs
    refine hi.goto ht ⟨hok, ?_⟩ (by simp [hpc, LockPc.Pending])
    rintro _ ⟨⟩
    exact ⟨Nat.le_refl _, hi.condvar⟩
  case store next =>
    cases hs
    -- The owner goes on to notify, and so it looks after the sleepers.
    refine hi.setOwner false ht hok.2 (fun u hu => ?_) fun _ => trivial
    exact Bool.eq_false_iff.mpr fun h => hu (hi.one u t h hok.1)
  case notify next =>
    cases hs
    exact hi.notify ht hpc
  case condvarWait r =>
    dsimp only at hs
    split at hs
    · next hval =>
      cases hs
      refine hi.sleep ht (by simp [hpc, LockPc.Pending]) ?_ (fun h _ => h) (List.forall_mem_cons.mpr ⟨?_, hi.sleeps⟩)
      · rw [← List.append_assoc]
        exact List.perm_append_singleton ..
      · -- The word has the value that was read: the signals since then make full rounds.
        obtain ⟨hsince, hread⟩ : r.Ok s.signals := hok
        have hcondvar := hi.condvar
        omega
    · cases hs
      exact hi.goto ht trivial fun _ _ _ => .inl trivial
  case add num =>
    cases hs
    have hgoto : (s.goto t (.condvarNotify num)).Inv := hi.goto ht trivial (by simp [hpc, LockPc.Pending])
    refine { hgoto with condvar := ?_, thread := fun u => (hgoto.thread u).mono }
    have hcondvar := hi.condvar
    change (s.condvar + 1) % 2 ^ 32 = (s.signals + 1) % 2 ^ 32
    omega
  case condvarNotify num =>
    cases hs
    have hsub := (List.Sublist.refl s.lockWaiters).append (List.drop_sublist num s.condvarWaiters)
    exact (hi.wake (.refl _) (List.drop_sublist num _)).goto (fun h => ht (hsub.subset h)) trivial
      (by simp [hpc, LockPc.Pending])

theorem Inv.timeout (hi : s.Inv) (hs : s.timeout t = some s') : s'.Inv := by
  unfold LockState.timeout at hs
  split at hs
  · cases hs
  · split at hs
    · cases hs
      exact hi.wake List.erase_sublist (.refl _)
    · next hl =>
      obtain ⟨hc, hs⟩ := Option.ite_none_right_eq_some.mp hs
      cases hs
      refine (hi.wake (.refl _) List.erase_sublist).goto ?_ trivial fun hw h0 _ => .inr ?_
      · have hnodup := (List.nodup_append.mp hi.nodup).2.1
        simpa [waiters, hl] using hnodup.not_mem_erase
      · -- The thread that looks after the sleepers was awake before.
        obtain ⟨u, hu, hup⟩ := hi.awake hw h0
        have hne : u ≠ t := fun heq => hu (heq ▸ List.mem_append_right _ hc)
        exact ⟨u, hne, fun h => hu (((List.Sublist.refl _).append List.erase_sublist).subset h), hup⟩

theorem Inv.step {a : LockAction T} (hi : s.Inv) (hc : s.Permits a) (hs : s.step a = some s') : s'.Inv := by
  cases a with
  | call t c =>
    obtain ⟨ht, hs⟩ := Option.ite_none_right_eq_some.mp hs
    have hok : c.start.Ok s.signals (s.owns t) := by
      cases c <;> first | trivial | exact ⟨hc, fun _ hr => by cases hr⟩
    have hawake : t ∉ s.waiters := fun h => by simpa [ht, LockPc.Exchanges] using hi.asleep t h
    cases hs
    exact hi.goto hawake hok (by simp [ht, LockPc.Pending])
  | access t left =>
    obtain ⟨ht, hs⟩ := Option.ite_none_left_eq_some.mp hs
    exact hi.access ht hs
  | timeout t => exact hi.timeout hs

theorem reaches_inv (h : Reaches step Permits (init (T := T)) s) : s.Inv :=
  h.invariant init_inv fun _ _ _ hi hc hs => hi.step hc hs

/-- One thread waits for a signal, the next one has the lock, and the last one waits for that. -/
theorem three_threads : ∃ s, Reaches step Permits (init (T := Nat)) s ∧ s.owns 1 = true ∧ 2 ∈ s.lockWaiters ∧
    s.sleeps = [0] :=
  ⟨_, .next (.next (.next (.next (.next (.next (.next (.next (.next (.next (.next (.next .init
    (.call 0 (.acquire .try_acquire)) trivial rfl) (.access 0 true) trivial rfl) (.call 0 .condvar_waitinf) rfl rfl)
    (.access 0 true) trivial rfl) (.access 0 true) trivial rfl) (.access 0 true) trivial rfl)
    (.access 0 true) trivial rfl) (.call 1 (.acquire .wait_acquire)) trivial rfl) (.access 1 true) trivial rfl)
    (.call 2 (.acquire .waitinf_acquire)) trivial rfl) (.access 2 true) trivial rfl) (.access 2 true) trivial rfl,
    rfl, List.mem_singleton_self 2, rfl⟩

/-- At most one thread has the lock, and the word tells whether one has it. -/
theorem lock_excludes (h : Reaches step Permits (init (T := T)) s) :
    (∀ t u, s.owns t = true → s.owns u = true → t = u) ∧ s.lock ≤ 1 ∧ (s.lock = 0 ↔ ∀ t, s.owns t = false) :=
  ⟨(reaches_inv h).one, (reaches_inv h).le_one, (reaches_inv h).held⟩

theorem lock_excludes_taken : ∃ s : LockState Nat, s.owns 1 = true ∧ ∀ t, s.owns t = true → t = 1 := by
  obtain ⟨s, h, hown, -⟩ := three_threads
  exact ⟨s, hown, fun t ht => (lock_excludes h).1 t 1 ht hown⟩

/-- No thread sleeps on a free lock, unless a thread that is awake is about to take it or to wake a sleeper. -/
theorem lock_wakes (h : Reaches step Permits (init (T := T)) s) (ht : t ∈ s.lockWaiters) :
    (∃ u, s.owns u = true) ∨ ∃ u, u ∉ s.waiters ∧ (s.pc u).Pending := by
  have hi := reaches_inv h
  by_cases h0 : s.lock = 0
  · exact .inr (hi.awake (List.ne_nil_of_mem ht) h0)
  · have hheld := hi.held.not.mp h0
    simp only [not_forall, Bool.not_eq_false] at hheld
    exact .inl hheld

theorem lock_wakes_contended : ∃ s : LockState Nat, 2 ∈ s.lockWaiters ∧
    ((∃ u, s.owns u = true) ∨ ∃ u, u ∉ s.waiters ∧ (s.pc u).Pending) := by
  obtain ⟨s, h, -, hmem, -⟩ := three_threads
  exact ⟨s, hmem, lock_wakes h hmem⟩

/-- A thread goes to sleep on the condition variable only if it was not signalled since the thread read it under the
lock, or so often that the counter has come round. -/
theorem condvar_sleeps (h : Reaches step Permits (init (T := T)) s) : ∀ n ∈ s.sleeps, 2 ^ 32 ∣ n :=
  (reaches_inv h).sleeps

theorem condvar_sleeps_unsignalled : ∃ s : LockState Nat, s.sleeps = [0] ∧ ∀ n ∈ s.sleeps, 2 ^ 32 ∣ n := by
  obtain ⟨s, h, -, -, hsleeps⟩ := three_threads
  exact ⟨s, hsleeps, condvar_sleeps h⟩

end LockState

end Pthread
