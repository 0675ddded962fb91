-- SUMMARY: Semaphores: the four ways to acquire and the release, one atomic access a step, over any interleaving of threads.
import Mathlib.Algebra.Ring.Int.Defs
import Mathlib.Algebra.Ring.Nat
import Emscripten.Lib.Machine

/-!
# Semaphores

A semaphore is one 32-bit word that holds the number of permits. A thread reads it,
exchanges it, waits on it or adds to it, and computes in between; such an access is one
step here. C compares the word as an unsigned number in `try_acquire` and as a signed one
in the two functions that wait.
-/

namespace Pthread

open Machine

/-! ## Machine integers -/

def u32 (n : Int) : Nat := (n % 2 ^ 32).toNat

def i32 (v : Nat) : Int := if v < 2 ^ 31 then v else v - 2 ^ 32

theorem u32_of_lt {n : Nat} (h : n < 2 ^ 31) : u32 n = n := by
  unfold u32
  omega

theorem i32_of_lt {n : Nat} (h : n < 2 ^ 31) : i32 n = n := if_pos h

/-- A positive `int`. -/
structure Amount where
  val : Nat
  pos : 0 < val
  lt : val < 2 ^ 31
deriving DecidableEq, Repr

/-! ## State -/

/-- The next access of a thread. -/
inductive SemaphorePc
  | idle
  /-- `try_acquire` exchanges `val` for `val - num`. -/
  | tryExchange (num : Amount) (val : Nat)
  /-- `wait_acquire` and `waitinf_acquire`: `timed` tells which, `left` whether there is
  time to wait. -/
  | load (num : Amount) (timed left : Bool)
  | wait (num : Amount) (timed : Bool) (val : Nat)
  | asleep (num : Amount) (timed : Bool)
  | exchange (num : Amount) (timed left : Bool) (val : Nat)
  | asyncExchange (num : Amount) (val : Nat)
  | asyncWait (num : Amount) (val : Nat)
  | asyncAsleep (num : Amount)
  /-- `release` has added, and notifies. -/
  | notify (num : Amount)
deriving DecidableEq, Repr

/-- Ghost: an acquisition, the count it found and the number it tells its caller. -/
structure Grab where
  num : Amount
  before : Nat
  reported : Int
deriving DecidableEq, Repr

/-- Ghost: a thread that goes to sleep, and the count it does so on. -/
structure Sleep where
  num : Amount
  count : Nat
deriving DecidableEq, Repr

structure Semaphore (T : Type) where
  count : Nat
  thread : T → SemaphorePc
  /-- Ghost: the permits released so far, and what was acquired, latest first. -/
  released : Nat
  grabs : List Grab
  sleeps : List Sleep

/-! ## The accesses -/

/-- What an access leads to. -/
structure Access where
  count : Nat
  next : SemaphorePc
  grab : Option Grab
  sleep : Option Sleep

/-- An access that leaves the count as it is. -/
def Access.to (count : Nat) (next : SemaphorePc) : Access := ⟨count, next, none, none⟩

/-- A round of `emscripten_semaphore_try_acquire`. -/
def try_acquire (count : Nat) (num : Amount) (val : Nat) : Access :=
  if count = val then
    ⟨u32 (val - num.val), .idle, some ⟨num, count, i32 (u32 (val - num.val))⟩, none⟩
  else if count < num.val then .to count .idle
  else .to count (.tryExchange num count)

/-- Where `emscripten_semaphore_wait_acquire` goes with a value it has read. A thread that
waits without a limit has always time left. -/
def wait_acquire_read (num : Amount) (timed left : Bool) (val : Nat) : SemaphorePc :=
  if i32 val < num.val ∧ (left ∨ ¬ timed) then .wait num timed val
  else if i32 val < num.val then .idle
  else .exchange num timed left val

/-- `emscripten_atomic_wait_u32`. -/
def wait_acquire_wait (count : Nat) (num : Amount) (timed left : Bool) (val : Nat) : Access :=
  if count = val then ⟨count, .asleep num timed, none, some ⟨num, count⟩⟩
  else .to count (.load num timed left)

def wait_acquire_exchange (count : Nat) (num : Amount) (timed left : Bool) (val : Nat) : Access :=
  if count = val then
    ⟨u32 (val - num.val), .idle, some ⟨num, count, i32 val - num.val⟩, none⟩
  else .to count (wait_acquire_read num timed left count)

/-- The exchange of `emscripten_semaphore_async_acquire`, which hands the value it found
to the callback. -/
def async_acquire_exchange (count : Nat) (num : Amount) (val : Nat) : Access :=
  if count = val then ⟨u32 (val - num.val), .idle, some ⟨num, count, i32 count⟩, none⟩
  else .to count (.asyncWait num count)

/-- `Atomics.waitAsync`, which times out at once where there is no time. -/
def async_acquire_wait (count : Nat) (num : Amount) (left : Bool) (val : Nat) : Access :=
  if count ≠ val then .to count (.asyncExchange num val)
  else if left then ⟨count, .asyncAsleep num, none, some ⟨num, count⟩⟩
  else .to count .idle

/-- The next access of a thread that is not idle and not asleep. The time that is left is
read from the clock. -/
def SemaphorePc.access (count : Nat) (left : Bool) : SemaphorePc → Option Access
  | .idle => none
  | .asleep _ _ => none
  | .asyncAsleep _ => none
  | .tryExchange num val => some (try_acquire count num val)
  | .load num timed left => some (.to count (wait_acquire_read num timed left count))
  | .wait num timed val => some (wait_acquire_wait count num timed left val)
  | .exchange num timed left val => some (wait_acquire_exchange count num timed left val)
  | .asyncExchange num val => some (async_acquire_exchange count num val)
  | .asyncWait num val => some (async_acquire_wait count num left val)
  | .notify _ => some (.to count .idle)

/-- A sleeping thread that is notified or has timed out. `tryAcquireSemaphore` starts
again. -/
def SemaphorePc.woken (left : Bool) : SemaphorePc → Option SemaphorePc
  | .asleep num timed => some (.load num timed left)
  | .asyncAsleep num => some (.asyncExchange num num.val)
  | _ => none

/-! ## Steps -/

inductive SemaphoreCall
  | try_acquire (num : Amount)
  | wait_acquire (num : Amount) (left : Bool)
  | waitinf_acquire (num : Amount)
  | async_acquire (num : Amount)
  | release (num : Amount)
deriving DecidableEq, Repr

def SemaphoreCall.start : SemaphoreCall → SemaphorePc
  | .try_acquire num => .tryExchange num num.val
  | .wait_acquire num left => .load num true left
  | .waitinf_acquire num => .load num false true
  | .async_acquire num => .asyncExchange num num.val
  | .release num => .notify num

inductive SemaphoreAction (T : Type)
  /-- The thread makes a call. A release adds to the count. -/
  | call (t : T) (c : SemaphoreCall)
  | access (t : T) (left : Bool)
  | wake (t : T) (left : Bool)

/-- What a call adds to the count. -/
def SemaphoreCall.adds : SemaphoreCall → Nat
  | .release num => num.val
  | _ => 0

namespace Semaphore

variable {T : Type} [DecidableEq T]

/-- `emscripten_semaphore_init`. -/
def init (num : Nat) : Semaphore T := ⟨num, fun _ => .idle, 0, [], []⟩

def setThread (s : Semaphore T) (t : T) (pc : SemaphorePc) : Semaphore T :=
  { s with thread := Function.update s.thread t pc }

def call (s : Semaphore T) (t : T) (c : SemaphoreCall) : Option (Semaphore T) :=
  if s.thread t = .idle then
    some { s.setThread t c.start with
      count := u32 (s.count + c.adds)
      released := s.released + c.adds }
  else none

def perform (s : Semaphore T) (t : T) (a : Access) : Semaphore T :=
  { s.setThread t a.next with
    count := a.count
    grabs := a.grab.toList ++ s.grabs
    sleeps := a.sleep.toList ++ s.sleeps }

def step (s : Semaphore T) : SemaphoreAction T → Option (Semaphore T)
  | .call t c => s.call t c
  | .access t left => ((s.thread t).access s.count left).map (s.perform t)
  | .wake t left => ((s.thread t).woken left).map (s.setThread t)

/-- The permits that have been acquired. -/
def acquired (s : Semaphore T) : Nat := (s.grabs.map fun g => g.num.val).sum

end Semaphore

/-! ## The property and its condition -/

/-- An acquisition takes no more than there is, and tells what it leaves. -/
def Grab.Honest (g : Grab) : Prop := g.num.val ≤ g.before ∧ g.reported = g.before - g.num.val

/-- An asynchronous acquirer does not find the count it expects, and is not told to wait on
a count that is large enough. -/
def SemaphorePc.Permits (count : Nat) (left : Bool) : SemaphorePc → Prop
  | .asyncExchange _ val => count ≠ val
  | .asyncWait num val => left = true → count = val → count < num.val
  | _ => True

namespace Semaphore

variable {T : Type} [DecidableEq T] {s s' : Semaphore T} {t : T} {initial : Nat}

/-- No permit is lost or made, no acquisition takes what is not there, and nobody sleeps
while there is enough. -/
structure Sound (initial : Nat) (s : Semaphore T) : Prop where
  count : s.count + s.acquired = initial + s.released
  grabs : ∀ g ∈ s.grabs, g.Honest
  sleeps : ∀ z ∈ s.sleeps, z.count < z.num.val

/-- The count fits an `int` after a release, and the accesses of the asynchronous
acquirers meet their condition. -/
def Permits (s : Semaphore T) : SemaphoreAction T → Prop
  | .call _ c => s.count + c.adds < 2 ^ 31
  | .access t left => (s.thread t).Permits s.count left
  | .wake _ _ => True

end Semaphore

/-! ## The accesses of a thread -/

/-- What a thread knows of a value it has read. -/
def SemaphorePc.Ok : SemaphorePc → Prop
  | .tryExchange num val => num.val ≤ val ∧ val < 2 ^ 31
  | .wait num _ val => val < num.val
  | .exchange num _ _ val => num.val ≤ val ∧ val < 2 ^ 31
  | _ => True

structure Access.Ok (count : Nat) (a : Access) : Prop where
  count : a.count + (a.grab.elim 0 fun g => g.num.val) = count
  next : a.next.Ok
  grab : ∀ g, a.grab = some g → g.Honest
  sleep : ∀ z, a.sleep = some z → z.count < z.num.val

variable {pc : SemaphorePc}

section

variable {count val : Nat} {num : Amount} {timed left : Bool}

theorem Access.to_ok (h : pc.Ok) : (Access.to count pc).Ok count where
  count := rfl
  next := h
  grab _ hg := by cases hg
  sleep _ hz := by cases hz

/-- An exchange that takes `num` from a count that has it. -/
theorem exchange_ok (hnum : num.val ≤ count) (hcount : count < 2 ^ 31) {reported : Int}
    (hreported : reported = count - num.val) :
    Access.Ok count ⟨u32 (count - num.val), .idle, some ⟨num, count, reported⟩, none⟩ := by
  refine ⟨?_, trivial, ?_, fun _ hz => by cases hz⟩
  · change u32 (count - num.val) + num.val = count
    unfold u32
    omega
  · rintro g ⟨⟩
    exact ⟨hnum, hreported⟩

theorem try_acquire_ok (hpc : (SemaphorePc.tryExchange num val).Ok) (hcount : count < 2 ^ 31) :
    (try_acquire count num val).Ok count := by
  obtain ⟨hnum, hval⟩ := hpc
  unfold try_acquire
  split
  · next heq =>
      subst heq
      refine exchange_ok hnum hcount ?_
      unfold i32 u32
      omega
  · split
    · exact Access.to_ok trivial
    · next henough => exact Access.to_ok ⟨Nat.not_lt.mp henough, hcount⟩

theorem wait_acquire_read_ok (hcount : count < 2 ^ 31) :
    (wait_acquire_read num timed left count).Ok := by
  unfold wait_acquire_read
  rw [i32_of_lt hcount]
  split
  · next h => exact Int.ofNat_lt.mp h.1
  · split
    · trivial
    · next h => exact ⟨by omega, hcount⟩

theorem wait_acquire_wait_ok (hpc : (SemaphorePc.wait num timed val).Ok) :
    (wait_acquire_wait count num timed left val).Ok count := by
  have hval : val < num.val := hpc
  unfold wait_acquire_wait
  split
  · next heq =>
      refine ⟨rfl, trivial, fun _ hg => (by cases hg), ?_⟩
      rintro z ⟨⟩
      exact heq ▸ hval
  · exact Access.to_ok trivial

theorem wait_acquire_exchange_ok (hpc : (SemaphorePc.exchange num timed left val).Ok)
    (hcount : count < 2 ^ 31) : (wait_acquire_exchange count num timed left val).Ok count := by
  obtain ⟨hnum, hval⟩ := hpc
  unfold wait_acquire_exchange
  split
  · next heq =>
      subst heq
      exact exchange_ok hnum hcount (by rw [i32_of_lt hcount])
  · exact Access.to_ok (wait_acquire_read_ok hcount)

theorem async_acquire_wait_ok (h : left = true → count = val → count < num.val) :
    (async_acquire_wait count num left val).Ok count := by
  unfold async_acquire_wait
  split
  · exact Access.to_ok trivial
  · next heq =>
      split
      · next hleft =>
          refine ⟨rfl, trivial, fun _ hg => (by cases hg), ?_⟩
          rintro z ⟨⟩
          exact h hleft (not_not.mp heq)
      · exact Access.to_ok trivial

theorem access_ok {a : Access} (hpc : pc.Ok) (hcount : count < 2 ^ 31) (hc : pc.Permits count left)
    (ha : pc.access count left = some a) : a.Ok count := by
  cases pc with
  | idle => cases ha
  | asleep num timed => cases ha
  | asyncAsleep num => cases ha
  | tryExchange num val =>
    cases ha
    exact try_acquire_ok hpc hcount
  | load num timed left =>
    cases ha
    exact Access.to_ok (wait_acquire_read_ok hcount)
  | wait num timed val =>
    cases ha
    exact wait_acquire_wait_ok hpc
  | exchange num timed left val =>
    cases ha
    exact wait_acquire_exchange_ok hpc hcount
  | asyncExchange num val =>
    have hexchange : async_acquire_exchange count num val = .to count (.asyncWait num count) :=
      if_neg hc
    cases ha
    rw [hexchange]
    exact Access.to_ok trivial
  | asyncWait num val =>
    cases ha
    exact async_acquire_wait_ok hc
  | notify num =>
    cases ha
    exact Access.to_ok trivial

end

namespace Semaphore

variable {T : Type} [DecidableEq T] {s s' : Semaphore T} {t : T} {initial : Nat}

structure Inv (initial : Nat) (s : Semaphore T) : Prop where
  sound : s.Sound initial
  lt : s.count < 2 ^ 31
  thread : ∀ t, (s.thread t).Ok

theorem thread_ok (h : ∀ t, (s.thread t).Ok) (hpc : pc.Ok) (u : T) : (Function.update s.thread t pc u).Ok := by
  rcases eq_or_ne u t with rfl | hu
  · rw [Function.update_self]
    exact hpc
  · rw [Function.update_of_ne hu]
    exact h u

theorem Inv.perform {a : Access} (hi : s.Inv initial) (ha : a.Ok s.count) :
    (s.perform t a).Inv initial := by
  have hcount := ha.count
  have hsound := hi.sound.count
  refine ⟨⟨?_, ?_, ?_⟩, ?_, thread_ok hi.thread ha.next⟩
  · cases hgrab : a.grab with
    | none =>
      rw [hgrab] at hcount
      simp only [Option.elim, acquired, Semaphore.perform, setThread, hgrab, Option.toList] at *
      simp only [List.nil_append]
      omega
    | some g =>
      rw [hgrab] at hcount
      simp only [Option.elim, acquired, Semaphore.perform, setThread, hgrab, Option.toList] at *
      simp only [List.cons_append, List.nil_append, List.map_cons, List.sum_cons]
      omega
  · intro g hg
    rcases List.mem_append.mp hg with hg | hg
    · exact ha.grab g (Option.mem_toList.mp hg)
    · exact hi.sound.grabs g hg
  · intro z hz
    rcases List.mem_append.mp hz with hz | hz
    · exact ha.sleep z (Option.mem_toList.mp hz)
    · exact hi.sound.sleeps z hz
  · change a.count < 2 ^ 31
    have hlt := hi.lt
    omega

theorem Inv.call {c : SemaphoreCall} (hi : s.Inv initial) (hc : s.count + c.adds < 2 ^ 31)
    (hs : s.call t c = some s') : s'.Inv initial := by
  unfold Semaphore.call at hs
  split at hs
  · cases hs
    have hcount : u32 (s.count + c.adds) = s.count + c.adds := u32_of_lt hc
    have hsound := hi.sound.count
    refine ⟨⟨?_, hi.sound.grabs, hi.sound.sleeps⟩, ?_, thread_ok hi.thread ?_⟩
    · change u32 (s.count + c.adds) + s.acquired = initial + (s.released + c.adds)
      omega
    · change u32 (s.count + c.adds) < 2 ^ 31
      omega
    · cases c with
      | try_acquire num => exact ⟨Nat.le_refl _, num.lt⟩
      | wait_acquire num left => trivial
      | waitinf_acquire num => trivial
      | async_acquire num => trivial
      | release num => trivial
  · cases hs

theorem Inv.wake {left : Bool} (hi : s.Inv initial) (hpc : (s.thread t).woken left = some pc) :
    (s.setThread t pc).Inv initial := by
  refine ⟨⟨hi.sound.count, hi.sound.grabs, hi.sound.sleeps⟩, hi.lt, thread_ok hi.thread ?_⟩
  cases hthread : s.thread t with
  | asleep num timed =>
    rw [hthread] at hpc
    cases hpc
    trivial
  | asyncAsleep num =>
    rw [hthread] at hpc
    cases hpc
    trivial
  | _ =>
    rw [hthread] at hpc
    cases hpc

theorem Inv.step {a : SemaphoreAction T} (hi : s.Inv initial) (hc : s.Permits a)
    (hs : s.step a = some s') : s'.Inv initial := by
  cases a with
  | call t c => exact hi.call hc hs
  | access t left =>
    obtain ⟨a, ha, rfl⟩ := Option.map_eq_some_iff.mp hs
    exact hi.perform (access_ok (hi.thread t) hi.lt hc ha)
  | wake t left =>
    obtain ⟨pc, hpc, rfl⟩ := Option.map_eq_some_iff.mp hs
    exact hi.wake hpc

omit [DecidableEq T] in
theorem init_inv (h : initial < 2 ^ 31) : (init initial : Semaphore T).Inv initial where
  sound := ⟨rfl, fun _ hg => absurd hg List.not_mem_nil, fun _ hz => absurd hz List.not_mem_nil⟩
  lt := h
  thread _ := trivial

def one : Amount := ⟨1, by decide, by decide⟩
def two : Amount := ⟨2, by decide, by decide⟩

/-- One permit is there and two are wanted. The first guess fails, the count changes while
the thread turns to wait, and is one again when it tries the exchange once more. -/
def asyncOvertakes : List (SemaphoreAction Bool) :=
  [.call true (.async_acquire two), .access true true,
    .call false (.try_acquire one), .access false true, .access true true,
    .call false (.release one), .access true true]

end Semaphore

end Pthread
