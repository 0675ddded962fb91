-- SUMMARY: Threads from their creation to the cleanup of their blocks: exit, join and detach, and the list of threads under its lock.
import Emscripten.Lib.Machine
import Emscripten.Pthread.ThreadList

/-!
# Threads

A thread is named by its block. Every assignment to the thread list is a step, and so is
every access to a detach state: steps of different threads come in any order. A wait for a
detach state may return at any time, as a futex wait may. Handlers and destructors that run
while a thread exits are code of the program: until it leaves the list, an exiting thread may
do what any running thread does.
-/

namespace Pthread

open Machine

/-! ## State -/

inductive DetachState
  | exited
  | exiting
  | joinable
  | detached
deriving DecidableEq, Repr

/-- What a wait in a join returns. -/
inductive JoinWait
  | ok
  | timedOut
  | invalid
deriving DecidableEq, Repr

structure JoinCall (T : Type) where
  target : T
  /-- With a time to wait until. -/
  timed : Bool
  /-- Called by `__pthread_detach`. -/
  detach : Bool
deriving DecidableEq

/-- Where a call of `__pthread_timedjoin_np` is. -/
inductive JoinPc (R : Type)
  /-- At the head of the loop, with the value of `r`. -/
  | check (r : JoinWait)
  | wait
  /-- In `__tl_sync`. -/
  | sync
  /-- About to read the result. -/
  | take
  | cleanup (v : Option R)
deriving DecidableEq

/-- Where a thread is. -/
inductive ThreadPc (T R : Type)
  | absent
  /-- The block is made, and not on the list yet. -/
  | allocated
  /-- On the list, and not started yet. -/
  | created
  /-- Off the list again: `__pthread_create_js` has failed. -/
  | failed
  | running
  /-- In `__tl_lock`. -/
  | locking (e : ListEdit T)
  /-- With the list lock, and so many assignments made. -/
  | editing (e : ListEdit T) (n : Nat)
  /-- In `__pthread_create_js`. -/
  | starting (new : T)
  | joining (c : JoinCall T) (st : JoinPc R)
  /-- In `__pthread_detach`, before the exchange of the detach state. -/
  | detaching (target : T)
  /-- Off the list, before the exchange of its detach state. -/
  | leaving
  /-- Found detached: `_emscripten_thread_cleanup` is next. -/
  | cleaningUp
  /-- To be marked as no longer running. -/
  | publishing
  /-- In `__wake`, which uses no more than the address of the detach state. -/
  | waking
  | gone
  /-- The main thread in `exit(0)`. -/
  | processExit
deriving DecidableEq

/-- The thread is on the list, once its creator has released the list lock and until it has
released it itself. -/
def ThreadPc.live {T R : Type} : ThreadPc T R → Bool
  | .created => true
  | .running => true
  | .locking _ => true
  | .editing _ _ => true
  | .starting _ => true
  | .joining _ _ => true
  | .detaching _ => true
  | _ => false

/-- The thread may still use its own block. -/
def ThreadPc.usesBlock {T R : Type} : ThreadPc T R → Bool
  | .leaving => true
  | .publishing => true
  | .processExit => true
  | p => p.live

structure Threads (T R : Type) where
  links : Links T
  thread_list_lock : Option T
  tl_lock_count : Nat
  pc : T → ThreadPc T R
  /-- `_emscripten_thread_is_valid`. -/
  valid : T → Bool
  detach_state : T → DetachState
  result : T → Option R
  /-- Ghost: what the thread exits with. -/
  exitValue : T → Option R
  /-- Ghost: the thread that has made it. -/
  creator : T → Option T
  /-- Ghost: how often the block was handed to `_emscripten_thread_cleanup`. -/
  cleanups : T → Nat
  /-- Ghost: how often a join or a detach of the thread was successful. A thread that is created
  detached counts as detached. -/
  completed : T → Nat
  /-- Ghost: what successful joins of a thread have stored. -/
  delivered : List (T × Option R)

inductive ThreadAction (T R : Type)
  | create (t new : T) (detached : Bool)
  | lock (t : T)
  | write (t : T)
  | unlock (t : T)
  /-- `__pthread_create_js` returns. -/
  | start (t : T) (ok : Bool)
  /-- `_emscripten_thread_exit`. -/
  | exit (t : T) (v : R)
  /-- The handlers and destructors of an exiting thread have run. -/
  | leave (t : T)
  | exchange (t : T)
  | cleanup (t : T)
  | publish (t : T)
  | wake (t : T)
  /-- `_emscripten_thread_free_data`, in the JS main thread. -/
  | free (t : T)
  /-- `__pthread_timedjoin_np`, also from `__pthread_join`. -/
  | join (t : T) (target : T) (timed : Bool)
  | joinStep (t : T)
  | joinWait (t : T) (r : JoinWait)
  /-- A thread is cancelled in a join. -/
  | cancelJoin (t : T)
  | detach (t : T) (target : T)
  | detachExchange (t : T)

namespace Threads

variable {T R : Type} [DecidableEq T]

def init (main : T) : Threads T R where
  links := ⟨fun t => if t = main then some main else none, fun t => if t = main then some main else none⟩
  thread_list_lock := none
  tl_lock_count := 0
  pc t := if t = main then .running else .absent
  valid t := t = main
  detach_state t := if t = main then .joinable else .exited
  result _ := none
  exitValue _ := none
  creator _ := none
  cleanups _ := 0
  completed _ := 0
  delivered := []

def setPc (s : Threads T R) (t : T) (p : ThreadPc T R) : Threads T R :=
  { s with pc := Function.update s.pc t p }

def setDetachState (s : Threads T R) (t : T) (d : DetachState) : Threads T R :=
  { s with detach_state := Function.update s.detach_state t d }

/-! ## The list lock -/

/-- `__tl_lock`, once it gets past its loop. -/
def tl_lock (s : Threads T R) (t : T) : Option (Threads T R) :=
  if s.thread_list_lock = some t then some { s with tl_lock_count := s.tl_lock_count + 1 }
  else if s.thread_list_lock = none then some { s with thread_list_lock := some t }
  else none

def tl_unlock (s : Threads T R) : Threads T R :=
  if s.tl_lock_count ≠ 0 then { s with tl_lock_count := s.tl_lock_count - 1 }
  else { s with thread_list_lock := none }

/-- What the thread does after its update of the list. -/
def afterEdit (main : T) (s : Threads T R) (t : T) : ListEdit T → Threads T R
  | .link _ new => (s.setPc new .created).setPc t (.starting new)
  | .unlink u =>
    if u = t then s.setPc t (if t = main then .processExit else .leaving)
    else (s.setPc u .failed).setPc t .running

def lock (s : Threads T R) (t : T) : Option (Threads T R) :=
  match s.pc t with
  | .locking e => (s.tl_lock t).map (·.setPc t (.editing e 0))
  | _ => none

def write (s : Threads T R) (t : T) : Option (Threads T R) :=
  match s.pc t with
  | .editing e n => e.writes[n]?.bind fun w => (w s.links).map fun k =>
    { s with links := k }.setPc t (.editing e (n + 1))
  | _ => none

def unlock (main : T) (s : Threads T R) (t : T) : Option (Threads T R) :=
  match s.pc t with
  | .editing e n => if n = e.writes.length then some (s.tl_unlock.afterEdit main t e) else none
  | _ => none

/-! ## Creation -/

/-- `__pthread_create` makes the block. -/
def create (s : Threads T R) (t new : T) (detached : Bool) : Threads T R :=
  { (s.setPc new .allocated).setPc t (.locking (.link t new)) with
    valid := Function.update s.valid new true
    detach_state := Function.update s.detach_state new (if detached then .detached else .joinable)
    completed := Function.update s.completed new (if detached then 1 else 0)
    creator := Function.update s.creator new (some t) }

def start (s : Threads T R) (t : T) (ok : Bool) : Option (Threads T R) :=
  match s.pc t with
  | .starting new =>
    if ok then some ((s.setPc new .running).setPc t .running)
    else some (s.setPc t (.locking (.unlink new)))
  | _ => none

/-! ## Exit -/

def exit (s : Threads T R) (t : T) (v : R) : Threads T R :=
  { s with
    result := Function.update s.result t (some v)
    exitValue := Function.update s.exitValue t (some v) }

/-- The exchange of the detach state, and what it decides. -/
def exchange (s : Threads T R) (t : T) : Threads T R :=
  match s.detach_state t with
  | .joinable => (s.setDetachState t .exiting).setPc t .publishing
  | .detached => s.setPc t .cleaningUp
  | _ => s.setPc t .publishing

/-- `_emscripten_thread_cleanup`: the block is handed over. -/
def thread_cleanup (s : Threads T R) (t : T) : Threads T R :=
  { s with cleanups := Function.update s.cleanups t (s.cleanups t + 1) }

/-- The block is cleared and freed. Its place on the list is not read again. -/
def thread_free_data (s : Threads T R) (t : T) : Threads T R :=
  { s with
    valid := Function.update s.valid t false
    detach_state := Function.update s.detach_state t .exited
    result := Function.update s.result t none }

/-! ## Join and detach -/

/-- The checks before the loop, which return `ESRCH` and `EDEADLK`. -/
def join (s : Threads T R) (t : T) (c : JoinCall T) : Threads T R :=
  if s.valid c.target = false then s
  else if s.detach_state c.target ≠ .detached ∧ t = c.target then s
  else s.setPc t (.joining c (.check .ok))

/-- The head of the loop. A join that does not go on returns `ETIMEDOUT` or `EINVAL`, the
latter also for a thread that is detached. -/
def joinCheck (s : Threads T R) (t : T) (c : JoinCall T) (r : JoinWait) : Threads T R :=
  match s.detach_state c.target, r with
  | .exited, .ok => s.setPc t (.joining c .sync)
  | .exiting, .ok => s.setPc t (.joining c .wait)
  | .joinable, .ok => s.setPc t (.joining c .wait)
  | _, _ => s.setPc t .running

/-- The join is successful. -/
def joinDone (s : Threads T R) (t : T) (c : JoinCall T) (v : Option R) : Threads T R :=
  { (s.thread_cleanup c.target).setPc t .running with
    completed := Function.update s.completed c.target (s.completed c.target + 1)
    delivered := if c.detach then s.delivered else (c.target, v) :: s.delivered }

def joinStep (s : Threads T R) (t : T) : Option (Threads T R) :=
  match s.pc t with
  | .joining c (.check r) => some (s.joinCheck t c r)
  | .joining c .sync => some (s.setPc t (.joining c .take))
  | .joining c .take => some (s.setPc t (.joining c (.cleanup (s.result c.target))))
  | .joining c (.cleanup v) => some (s.joinDone t c v)
  | _ => none

/-- `__timedwait_cp`. -/
def joinWait (s : Threads T R) (t : T) (r : JoinWait) : Option (Threads T R) :=
  match s.pc t with
  | .joining c .wait =>
    if r = .ok ∨ c.timed = true then some (s.setPc t (.joining c (.check r))) else none
  | _ => none

def cancelJoin (s : Threads T R) (t : T) : Option (Threads T R) :=
  match s.pc t with
  | .joining c .wait => if c.detach then none else some (s.setPc t .running)
  | _ => none

def detach (s : Threads T R) (t target : T) : Threads T R :=
  if s.valid target = false then s else s.setPc t (.detaching target)

/-- A thread that exits or has exited is joined. -/
def detachExchange (s : Threads T R) (t : T) : Option (Threads T R) :=
  match s.pc t with
  | .detaching target => match s.detach_state target with
    | .joinable => some { (s.setDetachState target .detached).setPc t .running with
        completed := Function.update s.completed target (s.completed target + 1) }
    | .detached => some (s.setPc t .running)
    | _ => some ((s.setPc t .running).join t ⟨target, false, true⟩)
  | _ => none

/-! ## Steps -/

section

variable [DecidableEq R]

/-- The thread is at `p`. -/
def whenAt (s : Threads T R) (t : T) (p : ThreadPc T R) (s' : Threads T R) : Option (Threads T R) :=
  if s.pc t = p then some s' else none

def step (main : T) (s : Threads T R) : ThreadAction T R → Option (Threads T R)
  | .create t new detached =>
    if s.pc new = .absent then s.whenAt t .running (s.create t new detached) else none
  | .lock t => s.lock t
  | .write t => s.write t
  | .unlock t => s.unlock main t
  | .start t ok => s.start t ok
  | .exit t v => if s.exitValue t = none then s.whenAt t .running (s.exit t v) else none
  | .leave t =>
    if s.exitValue t = none then none
    else s.whenAt t .running (s.setPc t (.locking (.unlink t)))
  | .exchange t => s.whenAt t .leaving (s.exchange t)
  | .cleanup t => s.whenAt t .cleaningUp ((s.thread_cleanup t).setPc t .gone)
  | .publish t => s.whenAt t .publishing ((s.setDetachState t .exited).setPc t .waking)
  | .wake t => s.whenAt t .waking (s.setPc t .gone)
  | .free t => if s.cleanups t = 0 then none else some (s.thread_free_data t)
  | .join t target timed => s.whenAt t .running (s.join t ⟨target, timed, false⟩)
  | .joinStep t => s.joinStep t
  | .joinWait t r => s.joinWait t r
  | .cancelJoin t => s.cancelJoin t
  | .detach t target => s.whenAt t .running (s.detach t target)
  | .detachExchange t => s.detachExchange t

end

/-! ## The property and its condition -/

structure Sound (s : Threads T R) : Prop where
  /-- The block is handed to the cleanup once: when the thread has ended and a join or detach of
  it was successful, and not before. -/
  once : ∀ t, s.cleanups t ≤ 1
  cleaned : ∀ t, s.pc t = .gone → s.completed t ≠ 0 → s.cleanups t = 1
  /-- By then the thread is off the list and does not use its block any more. -/
  after : ∀ t, s.cleanups t ≠ 0 → (s.pc t).live = false ∧ (s.pc t).usesBlock = false
  delivered : ∀ x ∈ s.delivered, x.2 ≠ none ∧ x.2 = s.exitValue x.1
  list : s.thread_list_lock = none →
    ∃ l, LinkedRing s.links.next s.links.prev l ∧ ∀ t, t ∈ l ↔ (s.pc t).live = true
  /-- No assignment to the list follows a null pointer. -/
  defined : ∀ t e n w, s.pc t = .editing e n → e.writes[n]? = some w → w s.links ≠ none

/-- A join is successful only when no join or detach of the thread was before. -/
def Permits (s : Threads T R) : ThreadAction T R → Prop
  | .joinStep t => ∀ c v, s.pc t = .joining c (.cleanup v) → s.completed c.target = 0
  | _ => True

end Threads

end Pthread
