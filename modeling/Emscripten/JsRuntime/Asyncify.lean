-- SUMMARY: Asyncify with fibers: sleeps, rewinds, sleep callbacks, fiber swaps and their trampoline, around compiled code that unwinds faithfully.
import Emscripten.Lib.Machine
import Mathlib.Data.List.Basic

/-!
# Asyncify

Compiled code runs as computations, one at a time, each under the exports that it was entered by. A
computation that sleeps or swaps is unwound: the instrumented module saves it in the current data block, and
every export on the way returns. A rewind calls the export at the bottom again, and the module comes back to
the import that it left by.

A step ends where compiled code or the event loop goes on. The trampoline of the fibers is on the
JavaScript stack below the computations it has started.
-/

namespace Asyncify

/-! ## State -/

inductive AsyncState
  | Normal
  | Unwinding
  | Rewinding
  deriving DecidableEq

/-- Where an `asyncify_data_t` is: in memory allocated for a sleep, or in a fiber. -/
inductive Data
  | block (n : Nat)
  | fiber (f : Nat)
  deriving DecidableEq

/-- The import that a computation left by: its `n`-th sleep of the run, or a swap out of a fiber. -/
inductive Point
  | sleep (n : Nat)
  | swap (f : Nat)
  deriving DecidableEq

/-- What the module saves of a computation. -/
structure Saved where
  comp : Nat
  exports : List Nat
  point : Point
  deriving DecidableEq

structure Running where
  comp : Nat
  /-- The sleep whose callbacks run, and how many exports were entered when it was called. -/
  callbacks : Option (Nat × Nat)
  /-- `callUserCallback` is below it on the stack. -/
  resumed : Bool
  deriving DecidableEq

structure State where
  state : AsyncState
  currData : Option Data
  handleSleepReturnValue : Int
  /-- The bottom first. -/
  exportCallStack : List Nat
  runtimeKeepaliveCounter : Int
  nextFiber : Option Nat
  trampolineRunning : Bool
  /-- The `rewind_id` of a data block, as the export it stands for. -/
  rewindFunc : Data → Option Nat
  saved : Data → Option Saved
  /-- A fiber that has its entry point was not entered yet. -/
  entry : Nat → Bool
  running : Option Running
  /-- The loop of the trampoline is on the JavaScript stack. -/
  inTrampoline : Bool
  /-- A rewind found no computation where it looked, or a function was called in a wrong state. -/
  crashed : Bool
  nextComp : Nat
  nextSleep : Nat
  /-- Sleeps that wait for their `wakeUp`. -/
  waiting : List Nat
  /-- The values that sleeps were given. -/
  wakes : List (Nat × Int)
  /-- The values that sleeps returned. -/
  results : List (Nat × Int)
  allocated : List Data
  freed : List Data
  suspended : List (Nat × Point)
  /-- What a rewind was for, and what it came back to. -/
  resumes : List (Point × Point)
  /-- The fibers that swaps asked for. -/
  asked : List Nat
  /-- The fibers that the trampoline went to. -/
  switched : List Nat

/-! ## Unwinding and rewinding -/

def crash (s : State) : State := { s with crashed := true, running := none }

/-- The export by which fibers are entered. -/
def dynCall_vp : Nat := 0

/-- The import is called again, and finds that the rewind is over. -/
def reenter (sv : Saved) (s : State) : State :=
  match sv.point with
  | .sleep n =>
    let s := { s with
      state := .Normal
      freed := s.currData.toList ++ s.freed
      currData := none }
    { s with running := some ⟨sv.comp, some (n, sv.exports.length), true⟩ }
  | .swap _ => { s with
      state := .Normal
      currData := none
      running := some ⟨sv.comp, none, true⟩ }

/-- `expected` is what the rewind is meant to come back to. -/
def doRewind (ptr : Data) (expected : Point) (s : State) : State :=
  let s := { s with runtimeKeepaliveCounter := s.runtimeKeepaliveCounter - 1 }
  match s.saved ptr with
  | none => crash s
  | some sv =>
    -- the frames of a computation are those of the export that is called
    if s.rewindFunc ptr = sv.exports.head? then
      reenter sv { s with
        exportCallStack := sv.exports
        saved := Function.update s.saved ptr none
        suspended := s.suspended.erase (sv.comp, sv.point)
        resumes := (expected, sv.point) :: s.resumes }
    else crash s

def finishContextSwitch (newFiber : Nat) (s : State) : State :=
  let s := { s with switched := newFiber :: s.switched }
  if s.entry newFiber then
    { s with
      currData := none
      entry := Function.update s.entry newFiber false
      exportCallStack := [dynCall_vp]
      running := some ⟨s.nextComp, none, false⟩
      nextComp := s.nextComp + 1 }
  else
    doRewind (.fiber newFiber) (.swap newFiber)
      { s with currData := some (.fiber newFiber), state := .Rewinding }

/-- `while (Fibers.nextFiber)`, when a fiber has come back to the loop. -/
def trampolineLoop (s : State) : State :=
  match s.nextFiber with
  | some fiber => finishContextSwitch fiber { s with nextFiber := none }
  | none => { s with trampolineRunning := false, inTrampoline := false }

def trampoline (s : State) : State :=
  if !s.trampolineRunning && s.nextFiber.isSome then
    trampolineLoop { s with trampolineRunning := true, inTrampoline := true }
  else s

def maybeStopUnwind (s : State) : State :=
  if s.currData.isSome ∧ s.state = .Unwinding ∧ s.exportCallStack = [] then
    trampoline { s with
      state := .Normal
      runtimeKeepaliveCounter := s.runtimeKeepaliveCounter + 1 }
  else s

/-- The outermost export has returned. -/
def returned (s : State) : State :=
  if s.running.isNone && s.inTrampoline then trampolineLoop s else s

/-- The module unwinds the computation into the data block, and its exports return. -/
def unwind (ptr : Data) (comp : Nat) (point : Point) (s : State) : State :=
  returned (maybeStopUnwind { s with
    saved := Function.update s.saved ptr (some ⟨comp, s.exportCallStack, point⟩)
    suspended := (comp, point) :: s.suspended
    exportCallStack := []
    running := none })

/-! ## Sleeps -/

/-- `handleSleep`, with a start function that calls `wakeUp` at once. -/
def sleepSync (v : Int) (s : State) : State :=
  if s.state = .Normal then
    { s with
      handleSleepReturnValue := v
      nextSleep := s.nextSleep + 1
      wakes := (s.nextSleep, v) :: s.wakes
      results := (s.nextSleep, v) :: s.results }
  else crash s

def setDataRewindFunc (ptr : Data) (s : State) : State :=
  { s with rewindFunc := Function.update s.rewindFunc ptr s.exportCallStack.head? }

def allocateData (s : State) : Data × State :=
  let ptr := .block s.nextSleep
  (ptr, setDataRewindFunc ptr { s with allocated := ptr :: s.allocated })

/-- `handleSleep`, with a start function that leaves `wakeUp` for later. -/
def sleepAsync (comp : Nat) (s : State) : State :=
  if s.state = .Normal then
    let (ptr, s) := allocateData { s with state := .Unwinding }
    unwind ptr comp (.sleep s.nextSleep) { s with
      currData := some ptr
      nextSleep := s.nextSleep + 1
      waiting := s.nextSleep :: s.waiting }
  else crash s

/-- `wakeUp`, called by the event loop. -/
def wakeUp (n : Nat) (v : Int) (s : State) : State :=
  let s := { s with
    handleSleepReturnValue := v
    waiting := s.waiting.erase n
    wakes := (n, v) :: s.wakes
    state := .Rewinding }
  match s.currData with
  | none => crash s
  | some ptr => doRewind ptr (.sleep n) s

/-- The callbacks are done, and `handleSleep` returns. -/
def callbacksDone (r : Running) (n : Nat) (s : State) : State :=
  { s with
    running := some { r with callbacks := none }
    results := (n, s.handleSleepReturnValue) :: s.results }

/-! ## Swaps -/

def emscripten_fiber_swap (comp oldFiber newFiber : Nat) (s : State) : State :=
  if s.state = .Normal then
    let ptr := Data.fiber oldFiber
    let s := setDataRewindFunc ptr { s with state := .Unwinding }
    unwind ptr comp (.swap oldFiber) { s with
      currData := some ptr
      nextFiber := some newFiber
      asked := newFiber :: s.asked }
  else crash s

/-! ## Steps -/

inductive Action
  /-- An export is called from the event loop. -/
  | call (f : Nat)
  /-- Compiled code calls JavaScript, which calls an export. -/
  | enter (f : Nat)
  | leave
  | sleepSync (v : Int)
  | sleepAsync
  | wakeUp (n : Nat) (v : Int)
  | callbacksDone
  | fiberInit (f : Nat) (entry : Bool)
  | swap (oldFiber newFiber : Nat)
  | finish
  /-- An exception leaves the compiled code. A quiet one is not an error to `callUserCallback`. -/
  | throw (quiet : Bool)

/-- The exports that were entered before the code that now runs. -/
def Running.base (r : Running) : Nat :=
  match r.callbacks with
  | some (_, depth) => depth
  | none => 1

/-- A fiber holds a computation. -/
def holds (s : State) (f : Nat) : Bool := (s.saved (.fiber f)).isSome

/-- A computation is stored in its own fiber, and goes to one that it can go to. -/
def maySwap (s : State) (oldFiber newFiber : Nat) : Bool :=
  !s.entry oldFiber && !holds s oldFiber &&
    (newFiber == oldFiber || s.entry newFiber || holds s newFiber)

/-- What the running computation does. -/
def stepRunning (s : State) (r : Running) : Action → Option State
  | .enter f => some { s with exportCallStack := s.exportCallStack ++ [f] }
  | .leave =>
    if r.base < s.exportCallStack.length then
      some { s with exportCallStack := s.exportCallStack.dropLast }
    else none
  | .sleepSync v => some (sleepSync v s)
  | .sleepAsync => if r.callbacks = none then some (sleepAsync r.comp s) else none
  | .callbacksDone =>
    match r.callbacks with
    | some (n, depth) => if s.exportCallStack.length = depth then some (callbacksDone r n s) else none
    | none => none
  | .swap oldFiber newFiber =>
    if r.callbacks = none ∧ maySwap s oldFiber newFiber then
      some (emscripten_fiber_swap r.comp oldFiber newFiber s)
    else none
  | .finish =>
    if r.callbacks = none ∧ s.exportCallStack.length = 1 then
      some (returned (maybeStopUnwind { s with exportCallStack := [], running := none }))
    else none
  | .throw quiet =>
    match r.callbacks, quiet with
    -- the callback ends
    | some (_, depth), true => some { s with exportCallStack := s.exportCallStack.take depth }
    | _, _ =>
      let s := maybeStopUnwind { s with exportCallStack := [], running := none }
      if quiet ∧ r.resumed then some (returned s) else some { s with inTrampoline := false }
  | _ => none

def step (s : State) : Action → Option State
  | .call f =>
    if s.running = none ∧ s.inTrampoline = false then
      some { s with
        exportCallStack := [f]
        running := some ⟨s.nextComp, none, false⟩
        nextComp := s.nextComp + 1 }
    else none
  | .wakeUp n v =>
    if s.running = none ∧ s.inTrampoline = false ∧ n ∈ s.waiting then some (wakeUp n v s) else none
  -- a fiber that holds a computation is not made anew
  | .fiberInit f entry =>
    if holds s f = false then some { s with entry := Function.update s.entry f entry } else none
  | a =>
    match s.running with
    | some r => stepRunning s r a
    | none => none

/-- Before any call. -/
def start (keepalive : Int) : State where
  state := .Normal
  currData := none
  handleSleepReturnValue := 0
  exportCallStack := []
  runtimeKeepaliveCounter := keepalive
  nextFiber := none
  trampolineRunning := false
  rewindFunc _ := none
  saved _ := none
  entry _ := false
  running := none
  inTrampoline := false
  crashed := false
  nextComp := 0
  nextSleep := 0
  waiting := []
  wakes := []
  results := []
  allocated := []
  freed := []
  suspended := []
  resumes := []
  asked := []
  switched := []

/-! ## What is to hold -/

structure Sound (keepalive : Int) (s : State) : Prop where
  works : s.crashed = false
  /-- Every sleep returned the value given to its own `wakeUp`, and returned once. -/
  values : ∀ r ∈ s.results, r ∈ s.wakes
  woken : (s.wakes.map Prod.fst).Nodup
  once : (s.results.map Prod.fst).Nodup
  /-- Every block is freed once, when its sleep is over. -/
  freedOnce : s.freed.Nodup
  blocks : ∀ d, d ∈ s.allocated ↔ d ∈ s.freed ∨ ∃ n ∈ s.waiting, d = .block n
  live : ∀ n ∈ s.waiting, .block n ∉ s.freed
  /-- Every rewind comes back to the sleep or swap it is for. -/
  points : ∀ r ∈ s.resumes, r.1 = r.2
  /-- A sleep that was woken has been resumed. -/
  resumed : ∀ n v, (n, v) ∈ s.wakes → .block n ∈ s.allocated → (.sleep n, .sleep n) ∈ s.resumes
  /-- Every swap has led to its fiber. -/
  swaps : s.switched = s.asked
  counter : s.runtimeKeepaliveCounter = keepalive + s.suspended.length

/-- No computation suspends while a sleep waits, no sleep callback sleeps with another value, and no exception
leaves the trampoline. -/
def Careful (s : State) : Action → Prop
  | .sleepAsync => s.waiting = []
  | .swap _ _ => s.waiting = []
  | .sleepSync v => ∀ r ∈ s.running, ∀ c ∈ r.callbacks, (c.1, v) ∈ s.wakes
  | .throw quiet => ∀ r ∈ s.running, s.inTrampoline = true → quiet = true ∧ (r.resumed = true ∨ r.callbacks ≠ none)
  | _ => True

end Asyncify
