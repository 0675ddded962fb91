-- SUMMARY: The scoped drain of a leased OPFS profile and the terminal finalizer, from what each of their steps returns.
import Emscripten.Opfs.Basic
import Emscripten.WasmFS.ProfileLease
import Emscripten.WasmFS.TerminalDrain

/-!
# Drain of a profile

A drain of a leased profile seals it, flushes and closes what is open on it, fences its worker
in the pool, has the worker release the Web Lock, and retires the worker. Each of these steps
can fail, and what it returns is an outcome here. The wait of `beginDrain` for the operations
in flight, and the one for destructors, come to an end.
-/

namespace Opfs

open Machine WasmFS

/-! ## State and outcomes -/

def EAGAIN : Int := 6
def EDEADLK : Int := 16
def ETIMEDOUT : Int := 73
def ENOTSUP : Int := 138

/-- The `std::thread` of a `ProxyWorker`. -/
inductive WorkerThread
  | joinable
  | joined
  | detached
deriving DecidableEq, Repr

/-- What an `OPFSBackend` and its `ProxyWorker` keep about the profile. -/
structure Profile where
  lease : LeaseState
  destructorProxyingClosed : Bool
  /-- Of the `TerminalCloseState`. -/
  firstError : Int
  thread : WorkerThread
  retirementFenced : Bool
  heartbeatStopped : Bool
  retired : Bool
deriving DecidableEq, Repr

/-- `wasmfs_opfs_profile_drain_result`. -/
structure ProfileDrainResult where
  error : Int
  detached_descriptors : Nat
  data_file_states : Nat
  libc_flush_failed : Nat
  data_flush_failures : Nat
  data_close_failures : Nat
  prior_close_failures : Nat
  lease_release_failures : Nat
  backend_retire_failures : Nat
  backend_sealed : Nat
  lease_released : Nat
  backend_retired : Nat
deriving DecidableEq, Repr

/-- What `flush` and `close` return for a data file. -/
structure Closee where
  flush : Int
  close : Int
  /-- The error of an access handle that did not close. -/
  failedAccessClose : Option Int
deriving DecidableEq, Repr

/-- What the steps of a drain return. -/
structure DrainOutcomes where
  /-- `fflush` returns `EOF`. -/
  eof : Bool
  errno : Nat
  detached_descriptors : Nat
  closees : List Closee
  /-- `_emscripten_thread_retire_worker`. -/
  retire_worker : Int
  /-- What `_wasmfs_opfs_prepare_profile_retirement` stores, if the proxied call finishes. -/
  prepare : Option Int
  /-- `leaseReleased` and `err` of `_wasmfs_opfs_release_profile_lease_and_retire_context`. -/
  transaction : Option (Int × Int)
  /-- `pthread_cancel`. -/
  cancelError : Nat
  /-- `_emscripten_thread_retire_worker_status` confirms the end of the worker in time. -/
  cleanup : Bool

/-! ## The lease and the worker -/

namespace Profile

/-- The state after the constructors of the backend and of its worker. -/
def new : Profile := ⟨.unleased, false, 0, .joinable, false, false, false⟩

def acquiredLease (p : Profile) : Profile := { p with lease := .active }

/-- Only the first error is kept. -/
def recordFailedAccessClose (p : Profile) (error : Int) : Profile :=
  if p.firstError = 0 then { p with firstError := if 0 ≤ error then - EIO else error } else p

def hasLiveLease (p : Profile) : Bool :=
  p.lease = .active ∨ p.lease = .sealing ∨ p.lease = .failed

def hasIncompleteScopedDrain (p : Profile) : Bool := p.lease = .failed ∨ p.lease = .retiring

def beginDrain (p : Profile) : Profile × Int :=
  match p.lease with
  | .unleased => (p, - ENOTSUP)
  | .sealing => (p, - EBUSY)
  | .active => ({ p with lease := .sealing }, 0)
  | _ => (p, - ESHUTDOWN)

def normalizeError (error : Int) : Int := if 0 < error then - error else error

def fenceForRetirement (p : Profile) (error : Int) : Profile × Int :=
  if p.retirementFenced then (p, 0)
  else if p.thread ≠ .joinable then (p, - ESHUTDOWN)
  else if error ≠ 0 then (p, normalizeError error)
  else ({ p with retirementFenced := true }, 0)

def abandonScopedProfileWorker (p : Profile) : Profile :=
  if p.thread = .joinable then { p with thread := .detached } else p

/-- `ProxyWorker::retire`. -/
def retire (p : Profile) (o : DrainOutcomes) : Profile × Int :=
  if p.retired then (p, 0)
  else if ¬ p.retirementFenced ∨ ¬ p.heartbeatStopped ∨ p.thread ≠ .joinable then (p, - ESHUTDOWN)
  else if o.cancelError ≠ 0 then (p.abandonScopedProfileWorker, - (o.cancelError : Int))
  else ({ p with thread := .joined, retired := true }, if o.cleanup then 0 else - ETIMEDOUT)

/-- `finishDrain(false, proxy)`: the lease is kept. -/
def finishDrain (p : Profile) : Profile × Int :=
  if p.lease ≠ .sealing then (p, - ESHUTDOWN) else ({ p with lease := .failed }, 0)

/-- What the transaction acknowledges, with the release it reports. -/
def finishScopedDrain (p : Profile) (o : DrainOutcomes) : Profile × Int × Bool :=
  if p.lease ≠ .sealing then (p, - ESHUTDOWN, false)
  else match o.transaction with
    | none => ({ p with lease := .failed }, - EIO, false)
    | some (released, error) =>
      ({ p with lease := if released ≠ 0 then .released else .failed }, error, released ≠ 0)

def beginRetirement (p : Profile) : Profile × Int :=
  if p.lease ≠ .released then (p, - ESHUTDOWN) else ({ p with lease := .retiring }, 0)

def finishRetirement (p : Profile) (success : Bool) : Profile :=
  if success then { p with lease := .retired } else p

/-! ## The backend -/

def prepareOPFSProfileRetirement (p : Profile) (o : DrainOutcomes) (checkResources : Bool) :
    Profile × Int :=
  let fence := { p with destructorProxyingClosed := true }.fenceForRetirement o.retire_worker
  if fence.2 ≠ 0 then fence
  else if ¬ checkResources then (fence.1, 0)
  else (fence.1, o.prepare.getD (- EIO))

/-- The error and whether the lease is released. -/
def finishOPFSProfileDrain (p : Profile) (o : DrainOutcomes) (success : Bool) :
    Profile × Int × Bool :=
  if ¬ success then (p.finishDrain.1.abandonScopedProfileWorker, p.finishDrain.2, false)
  else
    let result := p.finishScopedDrain o
    if result.2.2 then ({ result.1 with heartbeatStopped := true }, result.2)
    else (result.1.abandonScopedProfileWorker, result.2)

def retireOPFSProfileBackend (p : Profile) (o : DrainOutcomes) (transactionSucceeded : Bool) :
    Profile × Int :=
  let start := p.beginRetirement
  if start.2 ≠ 0 then start
  else
    let retirement := start.1.retire o
    (retirement.1.finishRetirement (retirement.2 = 0 ∧ transactionSucceeded), retirement.2)

/-- The first of two errors. -/
def firstOf (error error' : Int) : Int := if error ≠ 0 then error else error'

/-- What `terminalDrainFinished` does after `beginDrain`. -/
def terminalDrainSealed (p : Profile) (o : DrainOutcomes) (success : Bool) : Profile × Int :=
  let prior := if success then p.firstError else 0
  let preparation := p.prepareOPFSProfileRetirement o (success ∧ prior = 0)
  let cleanupSucceeded : Bool := success ∧ prior = 0 ∧ preparation.2 = 0
  let finish := preparation.1.finishOPFSProfileDrain o cleanupSucceeded
  let firstError := firstOf (firstOf prior preparation.2) finish.2.1
  if finish.2.2 = false then
    (finish.1, if firstError ≠ 0 then firstError else if cleanupSucceeded then - EIO else 0)
  else
    let retirement := finish.1.retireOPFSProfileBackend o (firstError = 0)
    (retirement.1, firstOf firstError retirement.2)

def terminalDrainFinished (p : Profile) (o : DrainOutcomes) (success : Bool) : Profile × Int :=
  if p.hasIncompleteScopedDrain then (p, - ESHUTDOWN)
  else if ¬ p.hasLiveLease then (p, 0)
  else
    let start := p.beginDrain
    if start.2 = - ESHUTDOWN then
      (start.1, if start.1.hasIncompleteScopedDrain then - ESHUTDOWN else 0)
    else if start.2 ≠ 0 then start
    else start.1.terminalDrainSealed o success

end Profile

/-! ## The scoped drain -/

namespace ProfileDrainResult

def new : ProfileDrainResult := ⟨0, 0, 0, 0, 0, 0, 0, 0, 0, 0, 0, 0⟩

/-- The result of a drain that has sealed the backend. -/
def sealed : ProfileDrainResult := { new with backend_sealed := 1 }

/-- `returnError`. -/
def failed (error : Int) : ProfileDrainResult := { new with error := normalizeDrainError error }

/-- `recordProfileDrainError` for a step that returned `error`, with the counter it counts in. -/
def record (r : ProfileDrainResult) (error : Int)
    (count : ProfileDrainResult → ProfileDrainResult) : ProfileDrainResult :=
  if error ≠ 0 then
    { count r with error := if r.error = 0 then normalizeDrainError error else r.error }
  else r

def prior (r : ProfileDrainResult) : ProfileDrainResult :=
  { r with prior_close_failures := increment r.prior_close_failures }

def libc (r : ProfileDrainResult) : ProfileDrainResult :=
  { r with libc_flush_failed := increment r.libc_flush_failed }

def dataFlush (r : ProfileDrainResult) : ProfileDrainResult :=
  { r with data_flush_failures := increment r.data_flush_failures }

def dataClose (r : ProfileDrainResult) : ProfileDrainResult :=
  { r with data_close_failures := increment r.data_close_failures }

def leaseRelease (r : ProfileDrainResult) : ProfileDrainResult :=
  { r with lease_release_failures := increment r.lease_release_failures }

def backendRetire (r : ProfileDrainResult) : ProfileDrainResult :=
  { r with backend_retire_failures := increment r.backend_retire_failures }

def detach (r : ProfileDrainResult) (o : DrainOutcomes) : ProfileDrainResult :=
  { r with
    detached_descriptors := o.detached_descriptors % 2 ^ 32
    data_file_states := o.closees.length % 2 ^ 32 }

def closeFile (r : ProfileDrainResult) (c : Closee) : ProfileDrainResult :=
  (r.record c.flush dataFlush).record c.close dataClose

/-- No failure is counted. -/
structure NoFailures (r : ProfileDrainResult) : Prop where
  libc : r.libc_flush_failed = 0
  dataFlush : r.data_flush_failures = 0
  dataClose : r.data_close_failures = 0
  prior : r.prior_close_failures = 0
  leaseRelease : r.lease_release_failures = 0
  backendRetire : r.backend_retire_failures = 0

end ProfileDrainResult

namespace Profile

open ProfileDrainResult

/-- The loop over what was open notes in the profile what an access handle returns. -/
def closeFile (p : Profile) (c : Closee) : Profile :=
  match c.failedAccessClose with
  | none => p
  | some error => p.recordFailedAccessClose error

/-- The drain from its seal to the end of the loop that closes. -/
def drainFiles (p : Profile) (o : DrainOutcomes) : ProfileDrainResult :=
  let flushed := (sealed.record p.firstError prior).record (fflushError o.eof o.errno) libc
  o.closees.foldl ProfileDrainResult.closeFile (flushed.detach o)

/-- The drain after the lease is released. -/
def drainRetire (p : Profile) (o : DrainOutcomes) (r : ProfileDrainResult) (finishError : Int) :
    Profile × ProfileDrainResult :=
  let released := { r with lease_released := 1 }.record finishError backendRetire
  let retirement := p.retireOPFSProfileBackend o (finishError = 0)
  (retirement.1,
    if retirement.2 ≠ 0 then released.record retirement.2 backendRetire
    else if finishError = 0 then { released with backend_retired := 1 } else released)

/-- The drain after its seal. -/
def drainSealed (p : Profile) (o : DrainOutcomes) : Profile × ProfileDrainResult :=
  let r := p.drainFiles o
  let closed := o.closees.foldl closeFile p
  let preparation := closed.prepareOPFSProfileRetirement o (r.error = 0)
  let r := r.record preparation.2 backendRetire
  let finish := preparation.1.finishOPFSProfileDrain o (r.error = 0)
  if finish.2.2 = false then
    let finishError := if finish.2.1 = 0 ∧ r.error = 0 then - EIO else finish.2.1
    (finish.1, r.record finishError leaseRelease)
  else finish.1.drainRetire o r finish.2.1

/-- What a call of the drain finds around it. -/
structure DrainCall where
  result : Bool
  backend : Bool
  ownsBackend : Bool
  /-- The caller is the main thread of the runtime or of the browser. -/
  main : Bool
  insideOperation : Bool
  terminalState : TerminalState
  scopedProfileDrainInProgress : Bool

def DrainCall.beginScopedOPFSProfileDrain (c : DrainCall) : Int :=
  if c.terminalState ≠ .running then
    if c.terminalState = .draining then - EBUSY else - ESHUTDOWN
  else if c.scopedProfileDrainInProgress then - EBUSY
  else 0

/-- Why a call is refused before it reaches the profile, or 0. -/
def DrainCall.refused (c : DrainCall) (p : Profile) : Int :=
  if ¬ c.backend then - EINVAL
  else if ¬ c.ownsBackend ∨ p.lease = .unleased then - ENOTSUP
  else if c.main then - EAGAIN
  else if c.insideOperation then - EDEADLK
  else c.beginScopedOPFSProfileDrain

/-- `drainOPFSProfileBackend`; without a place for the result there is none. -/
def drainOPFSProfileBackend (p : Profile) (c : DrainCall) (o : DrainOutcomes) :
    Profile × Option ProfileDrainResult :=
  if ¬ c.result then (p, none)
  else if c.refused p ≠ 0 then (p, some (failed (c.refused p)))
  else
    let start := p.beginDrain
    if start.2 ≠ 0 then (start.1, some (failed start.2))
    else ((start.1.drainSealed o).1, some (start.1.drainSealed o).2)

end Profile

end Opfs
