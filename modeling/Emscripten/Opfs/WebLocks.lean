-- SUMMARY: The profile lease of OPFS workers over Web Locks: overlapping asynchronous calls, and who holds the lock when they report.
import Emscripten.Opfs.Basic
import Emscripten.Lib.Machine

/-!
# Profile leases over Web Locks

A worker holds the lease of a profile by keeping a callback of Web Locks waiting on a
promise, `released`, that only the stored `release` function resolves. An asynchronous
function runs up to its first `await` when it is called, and goes on in jobs, which a
worker runs in the order they were queued. The browser acts at any time. It grants the
lock to a callback only while no other callback has it, and a callback has it until its
promise settles, which is when the callback returns.

Calls may overlap in every way; a call is known by what it waits for.
-/

namespace Opfs

open Machine

def ENOSYS : Int := 52

/-! ## One worker -/

/-- Where the callback of a request is. -/
inductive Phase
  | unused
  | requested
  /-- It waits on `released`. -/
  | held
  /-- `released` is resolved, and the callback will go on. -/
  | releasing
  | givenUp
  | unavailable
  | rejected
deriving DecidableEq, Repr

/-- A call that waits on a request, after it called the release function of `gave`. -/
structure Await where
  gave : Nat
  /-- The queue whose heartbeat the call stops, if it retires the context. -/
  queue : Option Nat
deriving DecidableEq, Repr

inductive Job
  /-- `await acquisition` is over. -/
  | acquired (n : Nat) (err : Int)
  /-- `await released` is over in the callback. -/
  | callback (n : Nat)
  /-- The handler of `request.catch`. -/
  | caught (n : Nat)
  /-- `await request` is over. -/
  | resumed (a : Await) (ok : Bool)
deriving DecidableEq, Repr

/-- What a call reports when it finishes, with the request whose release it called. -/
inductive Report
  | acquired (err : Int)
  | released (gave : Option Nat) (err : Int)
  | prepared (err : Int)
  | retired (gave : Option Nat) (leaseReleased : Bool) (err : Int)
deriving DecidableEq, Repr

structure Handles where
  directory : SlotTable Handle
  file : SlotTable Handle
  access : SlotTable Handle
  blob : SlotTable Handle

/-- The requests of a worker are numbered. -/
structure LeaseWorker where
  /-- Whether the realm has `navigator.locks`. -/
  hasLocks : Bool
  /-- `wasmfsOPFSProfileLease`. -/
  release : Option Nat
  request : Option Nat
  next : Nat
  phase : Nat → Phase
  acquisitionSettled : Nat → Bool
  /-- The promise of a request, once it has settled. -/
  settled : Nat → Option Bool
  /-- The calls that wait on a request. -/
  waiters : Nat → List Await
  jobs : List Job
  handles : Handles
  heartbeat : Nat → Bool

/-- `wasmfsOPFSHasLiveHandles`. -/
def hasLiveHandles (t : SlotTable Handle) : Bool := (t.slots.drop 1).any Option.isSome

/-- `wasmfsOPFSResetHandles`, of all tables. -/
def Handles.reset : Handles := ⟨.empty, .empty, .empty, .empty⟩

def Handles.live (h : Handles) : Bool := hasLiveHandles h.access || hasLiveHandles h.blob

namespace LeaseWorker

def enqueue (x : LeaseWorker) (jobs : List Job) : LeaseWorker := { x with jobs := x.jobs ++ jobs }

/-- `settleAcquisition`, where only the first result counts. -/
def settleAcquisition (x : LeaseWorker) (n : Nat) (err : Int) : LeaseWorker :=
  if x.acquisitionSettled n then x
  else { x with
    acquisitionSettled := Function.update x.acquisitionSettled n true
    jobs := x.jobs ++ [.acquired n err] }

/-- `_wasmfs_opfs_acquire_profile_lease` up to its `await`; `throws` if the request throws. -/
def acquire (x : LeaseWorker) (throws : Bool) : LeaseWorker × Option Report :=
  if ¬ x.hasLocks then (x, some (.acquired (-ENOSYS)))
  else if x.release ≠ none ∨ x.request ≠ none then (x, some (.acquired (-EBUSY)))
  else if throws then (x, some (.acquired (- EIO)))
  else ({ x with
    request := some x.next
    next := x.next + 1
    phase := Function.update x.phase x.next .requested }, none)

/-- The release function that the promise executor of request `n` has handed out. -/
def callRelease (x : LeaseWorker) (n : Nat) : LeaseWorker :=
  if x.phase n = .held then
    { x with phase := Function.update x.phase n .releasing, jobs := x.jobs ++ [.callback n] }
  else x

/-- `await request`. -/
def await (x : LeaseWorker) (m : Nat) (a : Await) : LeaseWorker :=
  match x.settled m with
  | none => { x with waiters := Function.update x.waiters m (x.waiters m ++ [a]) }
  | some ok => x.enqueue [.resumed a ok]

/-- `_wasmfs_opfs_release_profile_lease` up to its `await`. -/
def releaseLease (x : LeaseWorker) : LeaseWorker × Option Report :=
  match x.release, x.request with
  | some n, some m => ((x.callRelease n).await m ⟨n, none⟩, none)
  | _, _ => (x, some (.released none (- EIO)))

/-- `_wasmfs_opfs_prepare_profile_retirement`. -/
def prepare (x : LeaseWorker) : LeaseWorker × Option Report :=
  if x.release = none ∨ x.request = none ∨ x.handles.live then (x, some (.prepared (- EIO)))
  else (x, some (.prepared 0))

/-- `_wasmfs_opfs_release_profile_lease_and_retire_context` up to its `await`. -/
def retire (x : LeaseWorker) (queue : Nat) : LeaseWorker × Option Report :=
  match x.release, x.request with
  | some n, some m => ((x.callRelease n).await m ⟨n, some queue⟩, none)
  | _, _ => (x, some (.retired none false (- EIO)))

/-- The callback is called with the lock. -/
def granted (x : LeaseWorker) (n : Nat) : LeaseWorker :=
  { x with phase := Function.update x.phase n .held, release := some n }.settleAcquisition n 0

/-- The callback is called without the lock. -/
def refused (x : LeaseWorker) (n : Nat) : LeaseWorker :=
  { x with phase := Function.update x.phase n .unavailable }.settleAcquisition n (-EBUSY)

/-- The promise of a request settles, and the jobs that react to it are queued. -/
def settle (x : LeaseWorker) (n : Nat) (ok : Bool) : LeaseWorker :=
  { x with
    settled := Function.update x.settled n (some ok)
    waiters := Function.update x.waiters n []
    jobs := x.jobs ++ ((if ok then [] else [.caught n]) ++ (x.waiters n).map fun a => .resumed a ok) }

/-- The rest of the release and of the retirement of the context. -/
def resume (x : LeaseWorker) (a : Await) (ok : Bool) : LeaseWorker × Option Report :=
  match a.queue, ok with
  | none, true => (x, some (.released (some a.gave) 0))
  | none, false => (x, some (.released (some a.gave) (- EIO)))
  | some _, false => (x, some (.retired (some a.gave) false (- EIO)))
  | some queue, true =>
    -- The heartbeat goes on if there are handles that should not be there.
    ({ x with
      handles := .reset
      release := none
      request := none
      heartbeat := if x.handles.live then x.heartbeat else Function.update x.heartbeat queue false },
    some (.retired (some a.gave) true (if x.handles.live then - EIO else 0)))

def run (x : LeaseWorker) : Job → LeaseWorker × Option Report
  | .acquired _ err =>
    (if err ≠ 0 then { x with request := none } else x, some (.acquired err))
  | .callback n =>
    ({ x with release := none, request := none, phase := Function.update x.phase n .givenUp }, none)
  | .caught n => (x.settleAcquisition n (- EIO), none)
  | .resumed a ok => x.resume a ok

end LeaseWorker

/-! ## Workers and the browser -/

structure LeaseWorld (W : Type) where
  worker : W → LeaseWorker
  /-- The callback to which the browser has granted the lock. -/
  holder : Option (W × Nat)
  /-- Ghost: latest first. -/
  reports : List (W × Report)

inductive LeaseAction (W : Type)
  | acquire (w : W) (throws : Bool)
  | release (w : W)
  | prepare (w : W)
  | retire (w : W) (queue : Nat)
  /-- The worker takes its next job. -/
  | turn (w : W)
  | grant (w : W) (n : Nat)
  | refuse (w : W) (n : Nat)
  | reject (w : W) (n : Nat)
  /-- The promise of a request settles when its callback has returned. -/
  | settle (w : W) (n : Nat) (ok : Bool)
  /-- Operations on files, and the start of heartbeats. -/
  | work (w : W) (handles : Handles) (heartbeat : Nat → Bool)

namespace LeaseWorld

variable {W : Type} [DecidableEq W]

def put (s : LeaseWorld W) (w : W) (x : LeaseWorker × Option Report) : LeaseWorld W :=
  { s with
    worker := Function.update s.worker w x.1
    reports := x.2.toList.map (fun r => (w, r)) ++ s.reports }

def turn (s : LeaseWorld W) (w : W) : Option (LeaseWorld W) :=
  match (s.worker w).jobs with
  | [] => none
  | .callback n :: jobs =>
    -- The promise of the callback settles.
    some { s.put w ({ s.worker w with jobs := jobs }.run (.callback n)) with holder := none }
  | job :: jobs => some (s.put w ({ s.worker w with jobs := jobs }.run job))

def step (s : LeaseWorld W) : LeaseAction W → Option (LeaseWorld W)
  | .acquire w throws => some (s.put w ((s.worker w).acquire throws))
  | .release w => some (s.put w (s.worker w).releaseLease)
  | .prepare w => some (s.put w (s.worker w).prepare)
  | .retire w queue => some (s.put w ((s.worker w).retire queue))
  | .turn w => s.turn w
  | .grant w n =>
    if (s.worker w).phase n = .requested ∧ s.holder = none then
      some { s.put w ((s.worker w).granted n, none) with holder := some (w, n) }
    else none
  | .refuse w n =>
    if (s.worker w).phase n = .requested then some (s.put w ((s.worker w).refused n, none))
    else none
  | .reject w n =>
    if (s.worker w).phase n = .requested then
      some (s.put w ({ s.worker w with
        phase := Function.update (s.worker w).phase n .rejected }.settle n false, none))
    else none
  | .settle w n ok =>
    if ((s.worker w).phase n = .givenUp ∨ (s.worker w).phase n = .unavailable) ∧
        (s.worker w).settled n = none then
      some (s.put w ((s.worker w).settle n ok, none))
    else none
  | .work w handles heartbeat =>
    some (s.put w ({ s.worker w with handles := handles, heartbeat := heartbeat }, none))

def init (hasLocks : W → Bool) (handles : W → Handles) (heartbeat : W → Nat → Bool) :
    LeaseWorld W where
  worker w :=
    { hasLocks := hasLocks w, release := none, request := none, next := 0,
      phase := fun _ => .unused, acquisitionSettled := fun _ => false, settled := fun _ => none,
      waiters := fun _ => [], jobs := [], handles := handles w, heartbeat := heartbeat w }
  holder := none
  reports := []

end LeaseWorld

/-! ## The invariant of a worker -/

namespace LeaseWorker

/-- The callback of `n` has the lock. -/
def Active (x : LeaseWorker) (n : Nat) : Prop := x.phase n = .held ∨ x.phase n = .releasing

/-- The release function of `n` has been called. -/
def Given (x : LeaseWorker) (n : Nat) : Prop := x.phase n = .releasing ∨ x.phase n = .givenUp

end LeaseWorker

/-- In the queue of jobs, `j` may come before `k`: an acquisition is reported before its callback
goes on, and a call that released a request goes on after its callback. -/
def Job.Before : Job → Job → Prop
  | .callback n, k => k ≠ .callback n ∧ k ≠ .acquired n 0
  | .resumed a _, k => k ≠ .callback a.gave
  | _, _ => True

structure LeaseWorker.Inv (x : LeaseWorker) : Prop where
  fresh : ∀ n, x.next ≤ n → x.phase n = .unused
  release : ∀ n, x.release = some n → x.Active n
  ordered : x.jobs.Pairwise Job.Before
  acquired : ∀ n, .acquired n 0 ∈ x.jobs → x.Active n
  callback : ∀ n, .callback n ∈ x.jobs ↔ x.phase n = .releasing
  resumed : ∀ a ok, .resumed a ok ∈ x.jobs → x.Given a.gave
  waiting : ∀ m a, a ∈ x.waiters m → x.Given a.gave

/-- A job that may be queued at any time. -/
def Job.Plain (x : LeaseWorker) : Job → Prop
  | .acquired _ err => err ≠ 0
  | .callback _ => False
  | .caught _ => True
  | .resumed a _ => x.Given a.gave

variable {err : Int}

section

variable {x y : LeaseWorker} {n m : Nat} {a : Await} {j k : Job} {jobs : List Job} {ok : Bool}
  {r : Option Report}

theorem Job.Plain.before (hk : k.Plain x) : j.Before k := by
  cases j with
  | callback n =>
    refine ⟨?_, ?_⟩
    · rintro rfl
      exact hk
    · rintro rfl
      exact hk rfl
  | resumed a ok =>
    rintro rfl
    exact hk
  | acquired n err => trivial
  | caught n => trivial

namespace LeaseWorker

/-- The jobs and the phases are what matters, and the release function may be dropped. -/
theorem Inv.of_same (hx : x.Inv) (hnext : y.next = x.next) (hphase : y.phase = x.phase)
    (hrelease : ∀ n, y.release = some n → x.release = some n) (hjobs : y.jobs = x.jobs)
    (hwaiters : y.waiters = x.waiters) : y.Inv := by
  obtain ⟨hf, hr, ho, ha, hc, hres, hw⟩ := hx
  constructor
  · simpa only [hnext, hphase] using hf
  · intro n hn
    simpa only [Active, hphase] using hr n (hrelease n hn)
  · simpa only [hjobs] using ho
  · simpa only [Active, hjobs, hphase] using ha
  · simpa only [hjobs, hphase] using hc
  · simpa only [Given, hjobs, hphase] using hres
  · simpa only [Given, hwaiters, hphase] using hw

theorem Inv.enqueue (hx : x.Inv) (hplain : ∀ k ∈ jobs, k.Plain x) : (x.enqueue jobs).Inv where
  fresh := hx.fresh
  release := hx.release
  ordered := by
    refine List.pairwise_append.mpr ⟨hx.ordered, ?_, fun _ _ k hk => (hplain k hk).before⟩
    exact List.Pairwise.imp_of_mem (R := fun _ _ => True)
      (fun _ hk _ => (hplain _ hk).before) (List.pairwise_of_forall fun _ _ => trivial)
  acquired n hn := by
    rcases List.mem_append.mp hn with hn | hn
    · exact hx.acquired n hn
    · exact absurd rfl (hplain _ hn)
  callback n := by
    change _ ∈ x.jobs ++ jobs ↔ x.phase n = _
    rw [← hx.callback n, List.mem_append]
    exact or_iff_left fun hn => hplain _ hn
  resumed a ok ha := by
    rcases List.mem_append.mp ha with ha | ha
    · exact hx.resumed a ok ha
    · exact hplain _ ha
  waiting := hx.waiting

theorem Inv.settleAcquisition (hx : x.Inv) (herr : err ≠ 0) : (x.settleAcquisition n err).Inv := by
  unfold LeaseWorker.settleAcquisition
  split
  · exact hx
  · have hplain : ∀ k ∈ [Job.acquired n err], k.Plain x := by
      intro k hk
      rw [List.mem_singleton.mp hk]
      exact herr
    exact (hx.enqueue hplain).of_same rfl rfl (fun _ h => h) rfl rfl

theorem Inv.await (hx : x.Inv) (ha : x.Given a.gave) : (x.await m a).Inv := by
  unfold LeaseWorker.await
  split
  · refine ⟨hx.fresh, hx.release, hx.ordered, hx.acquired, hx.callback, hx.resumed, fun m' b hb => ?_⟩
    change b ∈ Function.update x.waiters m (x.waiters m ++ [a]) m' at hb
    by_cases hm : m' = m
    · subst hm
      rw [Function.update_self] at hb
      rcases List.mem_append.mp hb with hb | hb
      · exact hx.waiting m' b hb
      · rw [List.mem_singleton.mp hb]
        exact ha
    · rw [Function.update_of_ne hm] at hb
      exact hx.waiting m' b hb
  · refine hx.enqueue fun k hk => ?_
    rw [List.mem_singleton.mp hk]
    exact ha

theorem Inv.settle (hx : x.Inv) : (x.settle n ok).Inv := by
  have hplain : ∀ k ∈ (if ok then [] else [Job.caught n]) ++
      (x.waiters n).map fun a => Job.resumed a ok, k.Plain x := by
    intro k hk
    rcases List.mem_append.mp hk with hk | hk
    · split at hk
      · cases hk
      · rw [List.mem_singleton.mp hk]
        trivial
    · obtain ⟨a, ha, rfl⟩ := List.mem_map.mp hk
      exact hx.waiting n a ha
  obtain ⟨hf, hr, ho, ha, hc, hres, -⟩ := hx.enqueue hplain
  refine ⟨hf, hr, ho, ha, hc, hres, fun m a ha => ?_⟩
  change a ∈ Function.update x.waiters n [] m at ha
  by_cases hm : m = n
  · subst hm
    rw [Function.update_self] at ha
    cases ha
  · rw [Function.update_of_ne hm] at ha
    exact hx.waiting m a ha

/-! ### Phases -/

/-- A request that has not been granted changes to another such phase. -/
theorem Inv.setPhase {p : Phase} (hx : x.Inv) (hn : n < x.next)
    (hold : ¬ x.Active n ∧ ¬ x.Given n) (hp : p ≠ .held ∧ p ≠ .releasing ∧ p ≠ .givenUp) :
    Inv { x with phase := Function.update x.phase n p } := by
  have hactive : ∀ m, x.Active m → Active { x with phase := Function.update x.phase n p } m := by
    intro m hm
    have hne : m ≠ n := by
      rintro rfl
      exact hold.1 hm
    simpa only [Active, Function.update_of_ne hne] using hm
  have hgiven : ∀ m, x.Given m → Given { x with phase := Function.update x.phase n p } m := by
    intro m hm
    have hne : m ≠ n := by
      rintro rfl
      exact hold.2 hm
    simpa only [Given, Function.update_of_ne hne] using hm
  refine ⟨fun m hm => ?_, fun m hm => hactive m (hx.release m hm), hx.ordered,
    fun m hm => hactive m (hx.acquired m hm), fun m => ?_, fun a ok ha => hgiven _ (hx.resumed a ok ha),
    fun m a ha => hgiven _ (hx.waiting m a ha)⟩
  · have hne : m ≠ n := fun h => absurd hn (Nat.not_lt.mpr (h ▸ hm))
    exact (Function.update_of_ne hne ..).trans (hx.fresh m hm)
  · rw [hx.callback m]
    by_cases hm : m = n
    · subst hm
      simp only [Function.update_self]
      exact iff_of_false (fun h => hold.2 (.inl h)) hp.2.1
    · simp only [Function.update_of_ne hm]

theorem Inv.lt_next (hx : x.Inv) (hn : x.phase n ≠ .unused) : n < x.next :=
  Nat.lt_of_not_le fun hle => hn (hx.fresh n hle)

theorem idle_of_requested (hn : x.phase n = .requested) : ¬ x.Active n ∧ ¬ x.Given n := by
  simp [Active, Given, hn]

/-- The lock is granted: the release function is stored, and the acquisition reports success. -/
theorem Inv.granted (hx : x.Inv) (hn : x.phase n = .requested) : (x.granted n).Inv := by
  have hidle := idle_of_requested hn
  -- before the acquisition is settled
  have hheld : Inv { x with phase := Function.update x.phase n .held, release := some n } := by
    have hactive : ∀ m, x.Active m →
        Active { x with phase := Function.update x.phase n .held, release := some n } m := by
      intro m hm
      have hne : m ≠ n := by
        rintro rfl
        exact hidle.1 hm
      simpa only [Active, Function.update_of_ne hne] using hm
    have hgiven : ∀ m, x.Given m →
        Given { x with phase := Function.update x.phase n .held, release := some n } m := by
      intro m hm
      have hne : m ≠ n := by
        rintro rfl
        exact hidle.2 hm
      simpa only [Given, Function.update_of_ne hne] using hm
    refine ⟨fun m hm => ?_, fun m hm => ?_, hx.ordered, fun m hm => hactive m (hx.acquired m hm),
      fun m => ?_, fun a ok ha => hgiven _ (hx.resumed a ok ha),
      fun m a ha => hgiven _ (hx.waiting m a ha)⟩
    · have hlt := hx.lt_next (n := n) (by rw [hn]; nofun)
      have hne : m ≠ n := fun h => absurd hlt (Nat.not_lt.mpr (h ▸ hm))
      exact (Function.update_of_ne hne ..).trans (hx.fresh m hm)
    · cases hm
      exact .inl (Function.update_self ..)
    · rw [hx.callback m]
      by_cases hm : m = n
      · subst hm
        simp [hn]
      · simp only [Function.update_of_ne hm]
  have hactive : Active { x with phase := Function.update x.phase n .held, release := some n } n :=
    .inl (Function.update_self ..)
  have hnot : .callback n ∉ x.jobs := fun h => hidle.2 (.inl ((hx.callback n).mp h))
  unfold LeaseWorker.granted LeaseWorker.settleAcquisition
  split
  · exact hheld
  · obtain ⟨hf, hr, ho, ha, hc, hres, hw⟩ := hheld
    refine ⟨hf, hr, List.pairwise_append.mpr ⟨ho, List.pairwise_singleton .., fun j hj k hk => ?_⟩,
      fun m hm => ?_, fun m => ?_, fun a ok hm => ?_, hw⟩
    · rw [List.mem_singleton.mp hk]
      cases j with
      | callback m =>
        refine ⟨nofun, fun heq => ?_⟩
        cases heq
        exact hnot hj
      | resumed a ok => exact nofun
      | acquired m err => trivial
      | caught m => trivial
    · rcases List.mem_append.mp hm with hm | hm
      · exact ha m hm
      · cases List.mem_singleton.mp hm
        exact hactive
    · rw [← hc m]
      change _ ∈ x.jobs ++ _ ↔ _
      rw [List.mem_append]
      exact or_iff_left fun h => nomatch List.mem_singleton.mp h
    · rcases List.mem_append.mp hm with hm | hm
      · exact hres a ok hm
      · cases List.mem_singleton.mp hm

/-- The release function of the callback that has the lock is called. -/
theorem Inv.callRelease (hx : x.Inv) (hn : x.Active n) :
    (x.callRelease n).Inv ∧ (x.callRelease n).Given n := by
  unfold LeaseWorker.callRelease
  split
  · next hheld =>
      have hnot : ¬ x.Given n := by simp [Given, hheld]
      have hgiven : ∀ m, x.Given m → Given { x with
          phase := Function.update x.phase n .releasing, jobs := x.jobs ++ [.callback n] } m := by
        intro m hm
        have hne : m ≠ n := by
          rintro rfl
          exact hnot hm
        simpa only [Given, Function.update_of_ne hne] using hm
      have hactive : ∀ m, x.Active m → Active { x with
          phase := Function.update x.phase n .releasing, jobs := x.jobs ++ [.callback n] } m := by
        intro m hm
        by_cases hne : m = n
        · subst hne
          exact .inr (Function.update_self ..)
        · simpa only [Active, Function.update_of_ne hne] using hm
      refine ⟨⟨fun m hm => ?_, fun m hm => hactive m (hx.release m hm), ?_, fun m hm => ?_, fun m => ?_,
        fun a ok ha => ?_, fun m a ha => hgiven _ (hx.waiting m a ha)⟩, .inl (Function.update_self ..)⟩
      · have hlt := hx.lt_next (n := n) (by rw [hheld]; nofun)
        have hne : m ≠ n := fun h => absurd hlt (Nat.not_lt.mpr (h ▸ hm))
        exact (Function.update_of_ne hne ..).trans (hx.fresh m hm)
      · refine List.pairwise_append.mpr ⟨hx.ordered, List.pairwise_singleton .., fun j hj k hk => ?_⟩
        rw [List.mem_singleton.mp hk]
        cases j with
        | callback m =>
          refine ⟨fun heq => ?_, nofun⟩
          cases heq
          exact hnot (.inl ((hx.callback n).mp hj))
        | resumed a ok =>
          intro heq
          have hgave : n = a.gave := by
            cases heq
            rfl
          exact hnot (hgave ▸ hx.resumed a ok hj)
        | acquired m err => trivial
        | caught m => trivial
      · rcases List.mem_append.mp hm with hm | hm
        · exact hactive m (hx.acquired m hm)
        · cases List.mem_singleton.mp hm
      · simp only [List.mem_append, List.mem_singleton, Job.callback.injEq]
        by_cases hne : m = n
        · subst hne
          simp
        · simp [hne, hx.callback m]
      · rcases List.mem_append.mp ha with ha | ha
        · exact hgiven _ (hx.resumed a ok ha)
        · cases List.mem_singleton.mp ha
  · next hnot => exact ⟨hx, .inl (hn.resolve_left hnot)⟩

/-! ### Jobs -/

theorem Inv.ordered_tail (hx : x.Inv) (hj : x.jobs = j :: jobs) :
    (∀ k ∈ jobs, j.Before k) ∧ jobs.Pairwise Job.Before :=
  List.pairwise_cons.mp (hj ▸ hx.ordered)

/-- The next job is taken out of the queue, where it is no callback. -/
theorem Inv.next_job (hx : x.Inv) (hj : x.jobs = j :: jobs) (hnot : ∀ n, j ≠ .callback n) :
    Inv { x with jobs := jobs } := by
  have hmem : ∀ k ∈ jobs, k ∈ x.jobs := fun k hk => hj ▸ List.mem_cons_of_mem j hk
  refine ⟨hx.fresh, hx.release, (hx.ordered_tail hj).2, fun n hn => hx.acquired n (hmem _ hn),
    fun n => ?_, fun a ok ha => hx.resumed a ok (hmem _ ha), hx.waiting⟩
  refine Iff.trans ?_ (hx.callback n)
  rw [hj, List.mem_cons]
  exact (or_iff_right fun h => hnot n h.symm).symm

/-- The callback goes on, and its promise settles. -/
theorem Inv.run_callback (hx : x.Inv) (hj : x.jobs = .callback n :: jobs) :
    Inv ({ x with jobs := jobs }.run (.callback n)).1 := by
  have hmem : ∀ k ∈ jobs, k ∈ x.jobs := fun k hk => hj ▸ List.mem_cons_of_mem _ hk
  obtain ⟨hbefore, htail⟩ := hx.ordered_tail hj
  have hgiven : ∀ m, x.Given m → Given ({ x with jobs := jobs }.run (.callback n)).1 m := by
    intro m hm
    by_cases hne : m = n
    · subst hne
      exact .inr (Function.update_self ..)
    · simpa only [Given, LeaseWorker.run, Function.update_of_ne hne] using hm
  have hphase : x.phase n = .releasing := (hx.callback n).mp (hj ▸ List.mem_cons_self)
  refine ⟨fun m hm => ?_, nofun, htail, fun m hm => ?_, fun m => ?_,
    fun a ok ha => hgiven _ (hx.resumed a ok (hmem _ ha)), fun m a ha => hgiven _ (hx.waiting m a ha)⟩
  · have hlt := hx.lt_next (n := n) (by rw [hphase]; nofun)
    have hne : m ≠ n := fun h => absurd hlt (Nat.not_lt.mpr (h ▸ hm))
    exact (Function.update_of_ne hne ..).trans (hx.fresh m hm)
  · have hne : m ≠ n := by
      rintro rfl
      exact (hbefore _ hm).2 rfl
    simpa only [Active, LeaseWorker.run, Function.update_of_ne hne] using hx.acquired m (hmem _ hm)
  · by_cases hne : m = n
    · subst hne
      refine iff_of_false (fun h => (hbefore _ h).1 rfl) ?_
      simp [LeaseWorker.run]
    · have hcallback := hx.callback m
      rw [hj, List.mem_cons] at hcallback
      simp only [LeaseWorker.run, Function.update_of_ne hne]
      refine Iff.trans ?_ hcallback
      exact (or_iff_right fun h => hne (by cases h; rfl)).symm

/-- A call that goes on after its request finds the lock given up. -/
theorem Inv.given_up (hx : x.Inv) (hj : x.jobs = .resumed a ok :: jobs) :
    x.phase a.gave = .givenUp := by
  refine (hx.resumed a ok (hj ▸ List.mem_cons_self)).resolve_left fun hphase => ?_
  have hmem := (hx.callback a.gave).mpr hphase
  rw [hj] at hmem
  rcases List.mem_cons.mp hmem with h | h
  · cases h
  · exact (hx.ordered_tail hj).1 _ h rfl

end LeaseWorker

end

/-! ## Steps of a worker -/

/-- What a report of a worker says about it. -/
def Report.Ok (x : LeaseWorker) : Report → Prop
  | .acquired err => err = 0 → ∃ n, x.Active n
  | .released gave err => err = 0 → ∃ n, gave = some n ∧ x.phase n = .givenUp
  | .prepared _ => True
  | .retired gave leaseReleased err =>
    leaseReleased = true ∨ err = 0 → ∃ n, gave = some n ∧ x.phase n = .givenUp

/-- The handles and the heartbeats stay, unless a retirement that has released the lease reports
so; it clears the handles. -/
def CleansUp (x : LeaseWorker) (y : LeaseWorker × Option Report) : Prop :=
  y.1.handles = x.handles ∧ y.1.heartbeat = x.heartbeat ∨
    ∃ n err, y.2 = some (.retired (some n) true err) ∧ y.1.handles = .reset

structure LeaseWorker.Moves (x : LeaseWorker) (y : LeaseWorker × Option Report) : Prop where
  inv : y.1.Inv
  report : ∀ r, y.2 = some r → r.Ok y.1
  cleanup : CleansUp x y

/-- In most steps the lock stays where it is. -/
structure LeaseWorker.Stays (x : LeaseWorker) (y : LeaseWorker × Option Report) : Prop
    extends x.Moves y where
  active : ∀ n, y.1.Active n ↔ x.Active n

section

variable {x y : LeaseWorker} {n m : Nat} {a : Await} {j k : Job} {jobs : List Job} {ok : Bool}
  {r : Option Report}

namespace LeaseWorker

/-- A call that ends at once, with a failure or without a change. -/
theorem Inv.stays_same (hx : x.Inv) (hr : ∀ r', r = some r' → r'.Ok x) : x.Stays (x, r) :=
  ⟨⟨hx, hr, .inl ⟨rfl, rfl⟩⟩, fun _ => Iff.rfl⟩

theorem stays_silent (hy : y.Inv) (hactive : ∀ n, y.Active n ↔ x.Active n)
    (hhandles : y.handles = x.handles) (hbeat : y.heartbeat = x.heartbeat) : x.Stays (y, none) :=
  ⟨⟨hy, nofun, .inl ⟨hhandles, hbeat⟩⟩, hactive⟩

theorem active_setPhase {p : Phase} (hn : ¬ x.Active n) (hp : p ≠ .held ∧ p ≠ .releasing) (m : Nat) :
    Active { x with phase := Function.update x.phase n p } m ↔ x.Active m := by
  by_cases hm : m = n
  · subst hm
    refine iff_of_false ?_ hn
    simp [Active, hp.1, hp.2]
  · simp only [Active, Function.update_of_ne hm]

theorem active_settleAcquisition : (x.settleAcquisition n err).Active m ↔ x.Active m := by
  unfold LeaseWorker.settleAcquisition
  split <;> exact Iff.rfl

theorem settleAcquisition_state :
    (x.settleAcquisition n err).handles = x.handles ∧
      (x.settleAcquisition n err).heartbeat = x.heartbeat := by
  unfold LeaseWorker.settleAcquisition
  split <;> exact ⟨rfl, rfl⟩

theorem Inv.acquire {throws : Bool} (hx : x.Inv) : x.Stays (x.acquire throws) := by
  have hfail : ∀ err : Int, err ≠ 0 → x.Stays (x, some (.acquired err)) := by
    intro err herr
    refine hx.stays_same fun r' hr' => ?_
    cases hr'
    exact fun h => absurd h herr
  have hunused := hx.fresh x.next (Nat.le_refl _)
  have hidle : ¬ x.Active x.next ∧ ¬ x.Given x.next := by simp [Active, Given, hunused]
  -- one more request
  have hnext : Inv { x with next := x.next + 1 } :=
    ⟨fun m hm => hx.fresh m (Nat.le_of_succ_le hm), hx.release, hx.ordered, hx.acquired, hx.callback,
      hx.resumed, hx.waiting⟩
  have hphase := hnext.setPhase (n := x.next) (p := .requested) (Nat.lt_succ_self _) hidle
    ⟨nofun, nofun, nofun⟩
  unfold LeaseWorker.acquire
  split
  · exact hfail _ (by decide)
  · split
    · exact hfail _ (by decide)
    · split
      · exact hfail _ (by decide)
      · exact stays_silent (hphase.of_same rfl rfl (fun _ h => h) rfl rfl)
          (active_setPhase hidle.1 ⟨nofun, nofun⟩) rfl rfl

theorem active_callRelease : (x.callRelease n).Active m ↔ x.Active m := by
  unfold LeaseWorker.callRelease
  split
  · next hheld =>
      by_cases hm : m = n
      · subst hm
        exact iff_of_true (.inr (Function.update_self ..)) (.inl hheld)
      · simp only [Active, Function.update_of_ne hm]
  · exact Iff.rfl

theorem callRelease_state :
    (x.callRelease n).handles = x.handles ∧ (x.callRelease n).heartbeat = x.heartbeat := by
  unfold LeaseWorker.callRelease
  split <;> exact ⟨rfl, rfl⟩

theorem await_state : (x.await m a).phase = x.phase ∧ (x.await m a).handles = x.handles ∧
    (x.await m a).heartbeat = x.heartbeat := by
  unfold LeaseWorker.await
  split <;> exact ⟨rfl, rfl, rfl⟩

/-- The two halves of a release. -/
theorem Inv.release_await {queue : Option Nat} (hx : x.Inv) (hn : x.release = some n) :
    x.Stays ((x.callRelease n).await m ⟨n, queue⟩, none) := by
  obtain ⟨hcalled, hgiven⟩ := hx.callRelease (hx.release n hn)
  obtain ⟨hphase, hhandles, hbeat⟩ := await_state (x := x.callRelease n) (m := m) (a := ⟨n, queue⟩)
  refine stays_silent (hcalled.await hgiven) (fun k => ?_) (hhandles.trans callRelease_state.1)
    (hbeat.trans callRelease_state.2)
  rw [Active, hphase]
  exact active_callRelease

theorem Inv.releaseLease (hx : x.Inv) : x.Stays x.releaseLease := by
  unfold LeaseWorker.releaseLease
  split
  · next hn _ => exact hx.release_await hn
  · refine hx.stays_same fun r' hr' => ?_
    cases hr'
    exact fun h => absurd h (by decide)

theorem Inv.retire {queue : Nat} (hx : x.Inv) : x.Stays (x.retire queue) := by
  unfold LeaseWorker.retire
  split
  · next hn _ => exact hx.release_await hn
  · refine hx.stays_same fun r' hr' => ?_
    cases hr'
    rintro (h | h)
    · cases h
    · exact absurd h (by decide)

theorem Inv.prepare (hx : x.Inv) : x.Stays x.prepare := by
  unfold LeaseWorker.prepare
  split
  · exact hx.stays_same fun r' hr' => by
      cases hr'
      trivial
  · exact hx.stays_same fun r' hr' => by
      cases hr'
      trivial

/-! ### The browser -/

theorem Inv.refused (hx : x.Inv) (hn : x.phase n = .requested) : x.Stays (x.refused n, none) := by
  have hidle := idle_of_requested hn
  have hphase := hx.setPhase (p := .unavailable) (hx.lt_next (n := n) (by rw [hn]; nofun)) hidle
    ⟨nofun, nofun, nofun⟩
  refine stays_silent (hphase.settleAcquisition (by decide)) (fun m => ?_)
    settleAcquisition_state.1 settleAcquisition_state.2
  exact active_settleAcquisition.trans
    (active_setPhase (p := .unavailable) hidle.1 ⟨nofun, nofun⟩ m)

theorem Inv.rejected (hx : x.Inv) (hn : x.phase n = .requested) :
    x.Stays ({ x with phase := Function.update x.phase n .rejected }.settle n false, none) := by
  have hidle := idle_of_requested hn
  have hphase := hx.setPhase (p := .rejected) (hx.lt_next (n := n) (by rw [hn]; nofun)) hidle
    ⟨nofun, nofun, nofun⟩
  exact stays_silent hphase.settle (active_setPhase hidle.1 ⟨nofun, nofun⟩) rfl rfl

/-! ### Jobs -/

theorem Inv.resume (hx : x.Inv) (hphase : x.phase a.gave = .givenUp) : x.Stays (x.resume a ok) := by
  have hgave : ∃ n, some a.gave = some n ∧ x.phase n = .givenUp := ⟨a.gave, rfl, hphase⟩
  unfold LeaseWorker.resume
  split
  · refine hx.stays_same fun r' hr' => ?_
    cases hr'
    exact fun _ => hgave
  · refine hx.stays_same fun r' hr' => ?_
    cases hr'
    exact fun h => absurd h (by decide)
  · refine hx.stays_same fun r' hr' => ?_
    cases hr'
    rintro (h | h)
    · cases h
    · exact absurd h (by decide)
  · refine ⟨⟨hx.of_same rfl rfl nofun rfl rfl, fun r' hr' => ?_, .inr ⟨_, _, rfl, rfl⟩⟩,
      fun _ => Iff.rfl⟩
    cases hr'
    exact fun _ => hgave

/-- A job that is no callback. -/
theorem Inv.run (hx : x.Inv) (hj : x.jobs = j :: jobs) (hnot : ∀ n, j ≠ .callback n) :
    x.Stays ({ x with jobs := jobs }.run j) := by
  have hnext := hx.next_job hj hnot
  cases j with
  | callback n => exact absurd rfl (hnot n)
  | acquired n err =>
    have hreport : ∀ z : LeaseWorker, (∀ m, z.Active m ↔ x.Active m) →
        ∀ r', some (Report.acquired err) = some r' → r'.Ok z := by
      intro z hz r' hr'
      cases hr'
      rintro rfl
      exact ⟨n, (hz n).mpr (hx.acquired n (hj ▸ List.mem_cons_self))⟩
    unfold LeaseWorker.run
    dsimp only
    split
    · exact ⟨⟨hnext.of_same rfl rfl (fun _ h => h) rfl rfl, hreport _ fun _ => Iff.rfl,
        .inl ⟨rfl, rfl⟩⟩, fun _ => Iff.rfl⟩
    · exact ⟨⟨hnext, hreport _ fun _ => Iff.rfl, .inl ⟨rfl, rfl⟩⟩, fun _ => Iff.rfl⟩
  | caught n =>
    exact stays_silent (hnext.settleAcquisition (by decide)) (fun m => active_settleAcquisition)
      settleAcquisition_state.1 settleAcquisition_state.2
  | resumed a ok =>
    have hstays : LeaseWorker.Stays _ ({ x with jobs := jobs }.resume a ok) :=
      hnext.resume (hx.given_up hj)
    obtain ⟨⟨hinv, hreport, hclean⟩, hactive⟩ := hstays
    exact ⟨⟨hinv, hreport, hclean⟩, hactive⟩

end LeaseWorker

end

/-! ## Runs -/

namespace LeaseWorld

section

variable {W : Type} [DecidableEq W] {s s' : LeaseWorld W} {w : W} {n : Nat} {a : LeaseAction W}
  {y : LeaseWorker × Option Report}

/-- The worker has the lock of the profile. -/
def Holds (s : LeaseWorld W) (w : W) : Prop := ∃ n, s.holder = some (w, n)

structure Inv (s : LeaseWorld W) : Prop where
  worker : ∀ w, (s.worker w).Inv
  /-- The callbacks that wait on `released` agree with the browser. -/
  active : ∀ w n, (s.worker w).Active n ↔ s.holder = some (w, n)

theorem put_self : (s.put w y).worker w = y.1 := Function.update_self ..

theorem put_other {w' : W} (hw : w' ≠ w) : (s.put w y).worker w' = s.worker w' :=
  Function.update_of_ne hw ..

omit [DecidableEq W] in
theorem init_inv (hasLocks : W → Bool) (handles : W → Handles) (heartbeat : W → Nat → Bool) :
    (init hasLocks handles heartbeat).Inv where
  worker w := by
    refine ⟨fun _ _ => rfl, fun n hn => (nomatch hn), .nil, fun n hn => (nomatch hn), fun n => ?_,
      fun a ok ha => (nomatch ha), fun m a ha => (nomatch ha)⟩
    exact iff_of_false List.not_mem_nil nofun
  active w n := by
    refine iff_of_false ?_ nofun
    rintro (h | h)
    · cases h
    · cases h

/-- What holds across one step: a report is true when it is made, and a worker loses its handles
or a heartbeat only where it reports that its lease is released. -/
structure StepOk (s s' : LeaseWorld W) (a : LeaseAction W) : Prop where
  report : ∀ w r, s'.reports = (w, r) :: s.reports → r.Ok (s'.worker w)
  cleanup : ∀ w, (∀ handles heartbeat, a ≠ .work w handles heartbeat) →
    (s'.worker w).handles = (s.worker w).handles ∧
        (s'.worker w).heartbeat = (s.worker w).heartbeat ∨
      ∃ n err, s'.reports = (w, .retired (some n) true err) :: s.reports ∧
        (s'.worker w).handles = .reset

/-- A step of one worker, whatever the browser makes of it. -/
theorem put_ok {holder : Option (W × Nat)} (hreport : ∀ r, y.2 = some r → r.Ok y.1)
    (hclean : CleansUp (s.worker w) y) : StepOk s { s.put w y with holder := holder } a where
  report w' r hr := by
    obtain ⟨y, r'⟩ := y
    cases r' with
    | none =>
      have hlength := congrArg List.length hr
      simp [put] at hlength
    | some r' =>
      change (w, r') :: s.reports = (w', r) :: s.reports at hr
      cases hr
      have hself : ({ s.put w (y, some r) with holder := holder } : LeaseWorld W).worker w = y :=
        put_self
      rw [hself]
      exact hreport r rfl
  cleanup w' _ := by
    by_cases hw : w' = w
    · subst hw
      have hself : ({ s.put w' y with holder := holder } : LeaseWorld W).worker w' = y.1 := put_self
      rw [hself]
      refine hclean.imp_right ?_
      rintro ⟨n, err, hr, hreset⟩
      refine ⟨n, err, ?_, hreset⟩
      change y.2.toList.map (fun r => (w', r)) ++ s.reports = _
      rw [hr]
      rfl
    · have hother : ({ s.put w y with holder := holder } : LeaseWorld W).worker w' = s.worker w' :=
        put_other hw
      rw [hother]
      exact .inl ⟨rfl, rfl⟩

theorem Inv.stays (hi : s.Inv) (hy : (s.worker w).Stays y) :
    (s.put w y).Inv ∧ StepOk s (s.put w y) a := by
  refine ⟨⟨fun w' => ?_, fun w' n => ?_⟩, put_ok hy.report hy.cleanup⟩
  · by_cases hw : w' = w
    · subst hw
      rw [put_self]
      exact hy.inv
    · rw [put_other hw]
      exact hi.worker w'
  · by_cases hw : w' = w
    · subst hw
      rw [put_self, hy.active n]
      exact hi.active w' n
    · rw [put_other hw]
      exact hi.active w' n

/-- The lock goes to a callback. -/
theorem Inv.grant (hi : s.Inv) (hn : (s.worker w).phase n = .requested) (hfree : s.holder = none) :
    ({ s.put w ((s.worker w).granted n, none) with holder := some (w, n) } : LeaseWorld W).Inv ∧
      StepOk s { s.put w ((s.worker w).granted n, none) with holder := some (w, n) } a := by
  have hidle : ∀ w n, ¬ (s.worker w).Active n := by
    intro w n h
    rw [hi.active, hfree] at h
    cases h
  refine ⟨⟨fun w' => ?_, fun w' m => ?_⟩, put_ok nofun (.inl ?_)⟩
  · by_cases hw : w' = w
    · subst hw
      exact (put_self (s := s)).symm ▸ (hi.worker w').granted hn
    · exact (put_other (s := s) hw).symm ▸ hi.worker w'
  · by_cases hw : w' = w
    · subst hw
      refine Iff.trans (b := m = n) ?_ ⟨fun h => by rw [h], fun h => by cases h; rfl⟩
      change ((s.put w' ((s.worker w').granted n, none)).worker w').Active m ↔ _
      rw [put_self]
      refine LeaseWorker.active_settleAcquisition.trans ?_
      by_cases hm : m = n
      · exact iff_of_true (.inl (by rw [hm]; exact Function.update_self ..)) hm
      · refine iff_of_false (fun h => hidle w' m ?_) hm
        simpa only [LeaseWorker.Active, Function.update_of_ne hm] using h
    · refine iff_of_false ?_ ?_
      · change ¬ ((s.put w ((s.worker w).granted n, none)).worker w').Active m
        rw [put_other hw]
        exact hidle w' m
      · rintro h
        cases h
        exact hw rfl
  · exact LeaseWorker.settleAcquisition_state

/-- A callback returns, and the lock is free. -/
theorem Inv.callback {jobs : List Job} (hi : s.Inv) (hj : (s.worker w).jobs = .callback n :: jobs) :
    ({ s.put w ({ s.worker w with jobs := jobs }.run (.callback n)) with
        holder := none } : LeaseWorld W).Inv ∧
      StepOk s { s.put w ({ s.worker w with jobs := jobs }.run (.callback n)) with
        holder := none } a := by
  have hphase := ((hi.worker w).callback n).mp (hj ▸ List.mem_cons_self)
  have hholder := (hi.active w n).mp (.inr hphase)
  refine ⟨⟨fun w' => ?_, fun w' m => iff_of_false ?_ nofun⟩, put_ok nofun (.inl ⟨rfl, rfl⟩)⟩
  · by_cases hw : w' = w
    · subst hw
      exact (put_self (s := s)).symm ▸ (hi.worker w').run_callback hj
    · exact (put_other (s := s) hw).symm ▸ hi.worker w'
  · by_cases hw : w' = w
    · subst hw
      change ¬ ((s.put w' _).worker w').Active m
      rw [put_self]
      by_cases hm : m = n
      · subst hm
        simp [LeaseWorker.Active, LeaseWorker.run]
      · simp only [LeaseWorker.Active, LeaseWorker.run, Function.update_of_ne hm]
        intro h
        have hm' := (hi.active w' m).mp h
        rw [hholder] at hm'
        cases hm'
        exact hm rfl
    · change ¬ ((s.put w _).worker w').Active m
      rw [put_other hw, hi.active, hholder]
      intro h
      cases h
      exact hw rfl

theorem Inv.step (hi : s.Inv) (h : s.step a = some s') : s'.Inv ∧ StepOk s s' a := by
  cases a with
  | acquire w throws =>
    cases h
    exact hi.stays (hi.worker w).acquire
  | release w =>
    cases h
    exact hi.stays (hi.worker w).releaseLease
  | prepare w =>
    cases h
    exact hi.stays (hi.worker w).prepare
  | retire w queue =>
    cases h
    exact hi.stays (hi.worker w).retire
  | turn w =>
    change s.turn w = some s' at h
    unfold turn at h
    split at h
    · cases h
    · next n jobs hj =>
        cases h
        exact hi.callback hj
    · next job jobs hnot hj =>
        cases h
        refine hi.stays ((hi.worker w).run hj fun n => ?_)
        rintro rfl
        exact hnot n rfl
  | grant w n =>
    change (if (s.worker w).phase n = .requested ∧ s.holder = none then _ else _) = some s' at h
    split at h
    · next hc =>
        cases h
        exact hi.grant hc.1 hc.2
    · cases h
  | refuse w n =>
    change (if (s.worker w).phase n = .requested then _ else _) = some s' at h
    split at h
    · next hc =>
        cases h
        exact hi.stays ((hi.worker w).refused hc)
    · cases h
  | reject w n =>
    change (if (s.worker w).phase n = .requested then _ else _) = some s' at h
    split at h
    · next hc =>
        cases h
        exact hi.stays ((hi.worker w).rejected hc)
    · cases h
  | settle w n ok =>
    change (if ((s.worker w).phase n = .givenUp ∨ (s.worker w).phase n = .unavailable) ∧
      (s.worker w).settled n = none then _ else _) = some s' at h
    split at h
    · cases h
      exact hi.stays (LeaseWorker.stays_silent (hi.worker w).settle (fun _ => Iff.rfl) rfl rfl)
    · cases h
  | work w handles heartbeat =>
    cases h
    have hinv : LeaseWorker.Inv { s.worker w with handles := handles, heartbeat := heartbeat } :=
      (hi.worker w).of_same rfl rfl (fun _ h => h) rfl rfl
    refine ⟨⟨fun w' => ?_, fun w' n => ?_⟩, ⟨fun w' r hr => ?_, fun w' hne => .inl ?_⟩⟩
    · by_cases hw : w' = w
      · subst hw
        rw [put_self]
        exact hinv
      · rw [put_other hw]
        exact hi.worker w'
    · by_cases hw : w' = w
      · subst hw
        rw [put_self]
        exact hi.active w' n
      · rw [put_other hw]
        exact hi.active w' n
    · have hlength := congrArg List.length hr
      simp [put] at hlength
    · have hw : w' ≠ w := by
        rintro rfl
        exact hne handles heartbeat rfl
      rw [put_other hw]
      exact ⟨rfl, rfl⟩

theorem reaches_inv {hasLocks : W → Bool} {handles : W → Handles} {heartbeat : W → Nat → Bool}
    (h : Reaches step Any (init hasLocks handles heartbeat) s) : s.Inv :=
  h.invariant (init_inv hasLocks handles heartbeat) fun _ _ _ hi _ hs => (hi.step hs).1

/-- In every interleaving of the calls, their jobs and the browser's answers: the callbacks that
wait on `released` are the one that has the lock; a worker without the lock has no release
function stored; a call reports success only to a worker that has the lock, or after the lock
that it released is given up; and only a retirement that reports the release clears handles. -/
theorem leases_sound {hasLocks : W → Bool} {handles : W → Handles} {heartbeat : W → Nat → Bool}
    (hr : Reaches step Any (init hasLocks handles heartbeat) s) :
    (∀ w n, (s.worker w).Active n ↔ s.holder = some (w, n)) ∧
    (∀ w w', s.Holds w → s.Holds w' → w = w') ∧
    (∀ w, ¬ s.Holds w → (s.worker w).release = none) ∧
    ∀ a s', s.step a = some s' →
      (∀ w err, s'.reports = (w, .acquired err) :: s.reports → err = 0 → s'.Holds w) ∧
      (∀ w gave err, s'.reports = (w, .released gave err) :: s.reports → err = 0 →
        ∃ n, gave = some n ∧ (s'.worker w).phase n = .givenUp) ∧
      (∀ w gave leaseReleased err,
        s'.reports = (w, .retired gave leaseReleased err) :: s.reports →
        leaseReleased = true ∨ err = 0 → ∃ n, gave = some n ∧ (s'.worker w).phase n = .givenUp) ∧
      ∀ w, (∀ handles heartbeat, a ≠ .work w handles heartbeat) →
        (s'.worker w).handles = (s.worker w).handles ∧
            (s'.worker w).heartbeat = (s.worker w).heartbeat ∨
          ∃ n err, s'.reports = (w, .retired (some n) true err) :: s.reports ∧
            (s'.worker w).phase n = .givenUp ∧ (s'.worker w).handles = .reset := by
  have hi := reaches_inv hr
  refine ⟨hi.active, fun w w' h h' => ?_, fun w hw => ?_, fun a s' hs => ?_⟩
  · obtain ⟨n, hn⟩ := h
    obtain ⟨n', hn'⟩ := h'
    rw [hn] at hn'
    cases hn'
    rfl
  · cases hrelease : (s.worker w).release with
    | none => rfl
    | some n => exact absurd ⟨n, (hi.active w n).mp ((hi.worker w).release n hrelease)⟩ hw
  · obtain ⟨hi', hreport, hclean⟩ := hi.step hs
    refine ⟨fun w err hr herr => ?_, fun w gave err hr => hreport w _ hr,
      fun w gave leaseReleased err hr => hreport w _ hr, fun w hne => ?_⟩
    · obtain ⟨n, hn⟩ := hreport w _ hr herr
      exact ⟨n, (hi'.active w n).mp hn⟩
    · refine (hclean w hne).imp_right ?_
      rintro ⟨n, err, hr, hreset⟩
      obtain ⟨m, hm, hphase⟩ := hreport w _ hr (.inl rfl)
      cases hm
      exact ⟨n, err, hr, hphase, hreset⟩

end

/-- Two workers ask for the lock, and the first of them gets it and gives it up again. -/
def handover : List (LeaseAction Bool) :=
  [.acquire true false, .acquire false false, .grant true 0, .refuse false 0, .turn true, .turn false,
    .retire true 0, .turn true, .settle true 0 true]

theorem leases_sound_handover : ∃ s s' : LeaseWorld Bool,
    Reaches step Any (init (fun _ => true) (fun _ => .reset) fun _ _ => true) s ∧
    s.step (.turn true) = some s' ∧ s'.reports = (true, .retired (some 0) true 0) :: s.reports ∧
    (s'.worker true).phase 0 = .givenUp := by
  obtain ⟨s, hs⟩ : ∃ s, exec step (init (fun _ => true) (fun _ => .reset) fun _ _ => true) handover =
    some s := ⟨_, rfl⟩
  have hr := reaches_of_exec handover hs (meets_any handover)
  obtain ⟨-, -, -, hstep⟩ := leases_sound hr
  cases hs
  obtain ⟨-, -, hretired, -⟩ := hstep (.turn true) _ rfl
  obtain ⟨n, hn, hphase⟩ := hretired true (some 0) true 0 rfl (.inl rfl)
  cases hn
  exact ⟨_, _, hr, rfl, rfl, hphase⟩

end LeaseWorld

end Opfs
