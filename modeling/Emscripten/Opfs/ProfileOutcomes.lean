-- SUMMARY: How the result of a profile drain, the lease and the worker agree, for all outcomes of its steps and after any earlier calls.
import Emscripten.Opfs.ProfileDrain

/-!
# Outcomes of a profile drain

An error is recorded by every step that fails and by no other, so a drain without an error
has left the counters alone. What the steps do to the lease and to the worker is stated once
for each step, and the drain of the terminal shutdown uses the same lemmas.
-/

namespace Opfs

open Machine WasmFS

/-! ## Recorded errors -/

variable {closees : List Closee}

namespace ProfileDrainResult

variable {o : DrainOutcomes} {r : ProfileDrainResult} {error : Int} {count : ProfileDrainResult → ProfileDrainResult}

@[simp] theorem record_error :
    (r.record error count).error = 0 ↔ r.error = 0 ∧ error = 0 := by
  unfold record
  split
  · next h =>
      simp only [h, and_false, iff_false]
      split
      · exact normalizeDrainError_ne error
      · assumption
  · next h => simp [Classical.not_not.mp h]

/-- Without an error there was nothing to record. -/
theorem record_eq (h : (r.record error count).error = 0) : r.record error count = r := by
  have hzero : error = 0 := (record_error.mp h).2
  simp [record, hzero]

def flags (r : ProfileDrainResult) : Nat × Nat × Nat :=
  (r.backend_sealed, r.lease_released, r.backend_retired)

theorem record_flags (hcount : ∀ r, (count r).flags = r.flags) :
    (r.record error count).flags = r.flags := by
  unfold record
  split
  · exact hcount r
  · rfl

@[simp] theorem prior_flags : (r.record error prior).flags = r.flags := record_flags fun _ => rfl
@[simp] theorem libc_flags : (r.record error libc).flags = r.flags := record_flags fun _ => rfl

@[simp] theorem closeFile_flags {c : Closee} : (r.closeFile c).flags = r.flags := by
  apply Eq.trans (record_flags fun r => ?_)
  · apply record_flags
    exact fun r => rfl
  · rfl

@[simp] theorem leaseRelease_flags : (r.record error leaseRelease).flags = r.flags :=
  record_flags fun _ => rfl

@[simp] theorem backendRetire_flags : (r.record error backendRetire).flags = r.flags :=
  record_flags fun _ => rfl

@[simp] theorem detach_flags : (r.detach o).flags = r.flags := rfl
@[simp] theorem detach_error : (r.detach o).error = r.error := rfl

theorem closeFiles_error : (closees.foldl closeFile r).error = 0 ↔
    r.error = 0 ∧ ∀ c ∈ closees, c.flush = 0 ∧ c.close = 0 := by
  induction closees generalizing r with
  | nil => simp
  | cons c closees ih =>
    rw [List.foldl_cons, ih]
    simp [closeFile, and_assoc]

theorem closeFiles_eq (h : (closees.foldl closeFile r).error = 0) : closees.foldl closeFile r = r := by
  induction closees generalizing r with
  | nil => rfl
  | cons c closees ih =>
    rw [List.foldl_cons] at h ⊢
    have hclose : (r.closeFile c).error = 0 := (closeFiles_error.mp h).1
    have hflush : (r.record c.flush dataFlush).error = 0 := (record_error.mp hclose).1
    have heq : r.closeFile c = r := (record_eq hclose).trans (record_eq hflush)
    rw [heq] at h ⊢
    exact ih h

@[simp] theorem closeFiles_flags : (closees.foldl closeFile r).flags = r.flags := by
  induction closees generalizing r with
  | nil => rfl
  | cons c closees ih => simp [ih]

end ProfileDrainResult

/-! ## What each step does -/

namespace Profile

open ProfileDrainResult

variable {p q : Profile} {o : DrainOutcomes} {r : ProfileDrainResult} {error : Int}

/-- Every step before the release returned without an error. -/
structure FilesClosed (p : Profile) (o : DrainOutcomes) : Prop where
  prior : p.firstError = 0
  libc : o.eof = false
  files : ∀ c ∈ o.closees, c.flush = 0 ∧ c.close = 0

structure Prepared (o : DrainOutcomes) : Prop where
  fence : o.retire_worker = 0
  prepare : o.prepare = some 0

/-- The profile is sealed, and nothing is done to its worker yet. -/
structure Sealing (p : Profile) : Prop where
  lease : p.lease = .sealing
  thread : p.thread = .joinable
  fenced : p.retirementFenced = false
  heartbeat : p.heartbeatStopped = false
  retired : p.retired = false

/-- A drain has sealed the profile. -/
structure Ended (p : Profile) : Prop where
  lease : p.lease = .failed ∨ p.lease = .retiring ∨ p.lease = .retired
  thread : p.thread ≠ .joinable

theorem drainFiles_error : (p.drainFiles o).error = 0 ↔ p.FilesClosed o := by
  rw [drainFiles, closeFiles_error]
  simp only [detach_error, record_error, fflushError_zero]
  exact ⟨fun ⟨⟨⟨_, hprior⟩, hlibc⟩, hfiles⟩ => ⟨hprior, hlibc, hfiles⟩,
    fun h => ⟨⟨⟨rfl, h.prior⟩, h.libc⟩, h.files⟩⟩

@[simp] theorem drainFiles_flags : (p.drainFiles o).flags = (1, 0, 0) := by
  simp only [drainFiles, closeFiles_flags, detach_flags, libc_flags, prior_flags]
  rfl

/-- Without an error only what was open is counted. -/
theorem drainFiles_eq (h : (p.drainFiles o).error = 0) : p.drainFiles o = sealed.detach o := by
  have hfiles := closeFiles_eq h
  have hlibc : ((sealed.record p.firstError prior).record (fflushError o.eof o.errno) libc).error = 0 :=
    (closeFiles_error.mp h).1
  have hprior : (sealed.record p.firstError prior).error = 0 := (record_error.mp hlibc).1
  rw [drainFiles, hfiles, record_eq hlibc, record_eq hprior]

theorem closeFile_lease (c : Closee) : (p.closeFile c).Sealing ↔ p.Sealing := by
  have hkeep : ∀ error, (p.recordFailedAccessClose error).Sealing ↔ p.Sealing := by
    intro error
    unfold recordFailedAccessClose
    split
    · exact ⟨fun h => ⟨h.1, h.2, h.3, h.4, h.5⟩, fun h => ⟨h.1, h.2, h.3, h.4, h.5⟩⟩
    · rfl
  unfold closeFile
  split
  · rfl
  · exact hkeep _

theorem Sealing.closeFiles (closees : List Closee) (h : p.Sealing) :
    (closees.foldl Profile.closeFile p).Sealing := by
  induction closees generalizing p with
  | nil => exact h
  | cons c closees ih => exact ih ((closeFile_lease c).mpr h)

theorem Sealing.eq (h : p.Sealing) :
    ∃ gate firstError, p = ⟨.sealing, gate, firstError, .joinable, false, false, false⟩ := by
  obtain ⟨lease, gate, firstError, thread, fenced, heartbeat, retired⟩ := p
  obtain ⟨hlease, hthread, hfenced, hheartbeat, hretired⟩ := h
  simp only at hlease hthread hfenced hheartbeat hretired
  subst hlease hthread hfenced hheartbeat hretired
  exact ⟨gate, firstError, rfl⟩

theorem normalizeError_ne (h : error ≠ 0) : normalizeError error ≠ 0 := by
  unfold normalizeError
  split
  · exact Int.neg_ne_zero.mpr h
  · exact h

/-- The destructors are kept out and the worker is fenced, unless the fence fails. -/
theorem Sealing.prepare (h : p.Sealing) (check : Bool) :
    ∃ firstError, (p.prepareOPFSProfileRetirement o check).1 =
        ⟨.sealing, true, firstError, .joinable, decide (o.retire_worker = 0), false, false⟩ ∧
      ((p.prepareOPFSProfileRetirement o check).2 = 0 ↔
        o.retire_worker = 0 ∧ (check = true → o.prepare = some 0)) := by
  obtain ⟨gate, firstError, rfl⟩ := h.eq
  refine ⟨firstError, ?_⟩
  unfold prepareOPFSProfileRetirement fenceForRetirement
  by_cases he : o.retire_worker = 0
  · cases check with
    | false => simp [he]
    | true => cases hprepare : o.prepare with
      | none => simp [he, EIO]
      | some error => simp [he]
  · simp [he, normalizeError_ne he]

/-- A drain that has failed before the release keeps the lease, and gives up the worker. -/
theorem finish_failed {fenced : Bool} {firstError : Int} :
    (Profile.finishOPFSProfileDrain ⟨.sealing, true, firstError, .joinable, fenced, false, false⟩ o
      false) = (⟨.failed, true, firstError, .detached, fenced, false, false⟩, 0, false) := by
  simp [finishOPFSProfileDrain, finishDrain, abandonScopedProfileWorker]

/-- The release is acknowledged or not; without it the lease is kept and the worker given up. -/
theorem finish_cases (o : DrainOutcomes) (firstError : Int) :
    (∃ released error, released ≠ 0 ∧ o.transaction = some (released, error) ∧
      Profile.finishOPFSProfileDrain ⟨.sealing, true, firstError, .joinable, true, false, false⟩ o true =
        (⟨.released, true, firstError, .joinable, true, true, false⟩, error, true)) ∨
    ((∀ released error, o.transaction = some (released, error) → released = 0) ∧
      ∃ error, Profile.finishOPFSProfileDrain
        ⟨.sealing, true, firstError, .joinable, true, false, false⟩ o true =
          (⟨.failed, true, firstError, .detached, true, false, false⟩, error, false)) := by
  unfold finishOPFSProfileDrain finishScopedDrain abandonScopedProfileWorker
  cases htransaction : o.transaction with
  | none => exact .inr ⟨nofun, - EIO, by simp⟩
  | some acknowledged =>
    obtain ⟨released, error⟩ := acknowledged
    by_cases hreleased : released = 0
    · refine .inr ⟨fun released' error' h => ?_, error, by simp [hreleased]⟩
      cases h
      exact hreleased
    · exact .inl ⟨released, error, hreleased, rfl, by simp [hreleased]⟩

/-- The worker is joined or given up, and the retirement is complete if nothing has failed. -/
theorem retire_cases (o : DrainOutcomes) (firstError : Int) (succeeded : Bool) :
    ∃ q error, Profile.retireOPFSProfileBackend
        ⟨.released, true, firstError, .joinable, true, true, false⟩ o succeeded = (q, error) ∧
      q.thread ≠ .joinable ∧
      q.lease = (if error = 0 ∧ succeeded = true then .retired else .retiring) := by
  unfold retireOPFSProfileBackend beginRetirement retire finishRetirement abandonScopedProfileWorker
  by_cases hcancel : o.cancelError = 0
  · cases o.cleanup with
    | false => exact ⟨_, _, rfl, by simp [hcancel, ETIMEDOUT], by simp [hcancel, ETIMEDOUT]⟩
    | true =>
      refine ⟨_, _, rfl, ?_, ?_⟩
      · simp only [hcancel]
        cases succeeded <;> simp
      · simp only [hcancel]
        cases succeeded <;> simp
  · exact ⟨_, _, rfl, by simp [hcancel], by simp [hcancel]⟩

/-! ## The drain -/

/-- The release was acknowledged after all that comes before it had succeeded. -/
structure Released (p : Profile) (o : DrainOutcomes) : Prop where
  files : p.FilesClosed o
  prepared : Prepared o
  transaction : ∃ released error, o.transaction = some (released, error) ∧ released ≠ 0

/-- The result, the lease and the worker after a drain that sealed the profile `p`. -/
structure Agrees (p : Profile) (o : DrainOutcomes) (q : Profile) (r : ProfileDrainResult) :
    Prop where
  error : r.error = 0 ↔ r.lease_released = 1 ∧ r.backend_retired = 1 ∧ r.NoFailures
  released : r.lease_released = 1 → p.Released o
  retired : q.lease = .retired ↔ r.error = 0
  failed : q.lease = .failed ↔ r.lease_released = 0
  retiring : q.lease = .retiring ↔ r.lease_released = 1 ∧ r.error ≠ 0
  ended : q.Ended
  sealed : r.backend_sealed = 1

theorem Agrees.kept (hlease : q.lease = .failed) (hthread : q.thread ≠ .joinable)
    (hflags : r.flags = (1, 0, 0)) (herror : r.error ≠ 0) : Agrees p o q r := by
  obtain ⟨hsealed, hreleased, -⟩ : r.backend_sealed = 1 ∧ r.lease_released = 0 ∧ r.backend_retired = 0 := by
    simpa [ProfileDrainResult.flags] using hflags
  have hended : q.Ended := ⟨.inl hlease, hthread⟩
  constructor <;> simp [hlease, hreleased, herror, hended, hsealed]

theorem Agrees.halfway (hlease : q.lease = .retiring) (hthread : q.thread ≠ .joinable)
    (hflags : r.flags = (1, 1, 0)) (herror : r.error ≠ 0) (h : p.Released o) : Agrees p o q r := by
  obtain ⟨hsealed, hreleased, hretired⟩ :
      r.backend_sealed = 1 ∧ r.lease_released = 1 ∧ r.backend_retired = 0 := by
    simpa [ProfileDrainResult.flags] using hflags
  have hended : q.Ended := ⟨.inr (.inl hlease), hthread⟩
  constructor <;> simp [hlease, hreleased, hretired, herror, hended, hsealed, h]

theorem Agrees.complete (hlease : q.lease = .retired) (hthread : q.thread ≠ .joinable)
    (hflags : r.flags = (1, 1, 1)) (herror : r.error = 0) (hcounts : r.NoFailures)
    (h : p.Released o) : Agrees p o q r := by
  obtain ⟨hsealed, hreleased, hretired⟩ :
      r.backend_sealed = 1 ∧ r.lease_released = 1 ∧ r.backend_retired = 1 := by
    simpa [ProfileDrainResult.flags] using hflags
  have hended : q.Ended := ⟨.inr (.inr hlease), hthread⟩
  constructor <;> simp [hlease, hreleased, hretired, herror, hended, hsealed, hcounts, h]

/-- After the release the worker is retired whatever the transaction has reported. -/
theorem drainRetire_agrees {firstError : Int} (hr : r = sealed.detach o) (h : p.Released o) :
    Agrees p o
      (drainRetire ⟨.released, true, firstError, .joinable, true, true, false⟩ o r error).1
      (drainRetire ⟨.released, true, firstError, .joinable, true, true, false⟩ o r error).2 := by
  subst hr
  obtain ⟨q, retireError, hq, hthread, hlease⟩ :=
    retire_cases o firstError (decide (error = 0))
  have hflags : ({ sealed.detach o with lease_released := 1 }.record error backendRetire).flags =
      (1, 1, 0) := backendRetire_flags
  unfold drainRetire
  rw [hq]
  by_cases hretire : retireError = 0
  · by_cases herror : error = 0
    · -- the record of an error that is none changes nothing
      subst hretire herror
      exact Agrees.complete (by simpa using hlease) hthread rfl rfl ⟨rfl, rfl, rfl, rfl, rfl, rfl⟩ h
    · have hlease' : q.lease = .retiring := by simpa [herror] using hlease
      simp only [hretire, herror, ne_eq, not_true_eq_false, if_false]
      exact Agrees.halfway hlease' hthread hflags (by simp [herror]) h
  · have hlease' : q.lease = .retiring := by simpa [hretire] using hlease
    simp only [hretire, ne_eq, not_false_eq_true, if_true]
    exact Agrees.halfway hlease' hthread (backendRetire_flags.trans hflags) (by simp [hretire]) h

theorem Sealing.drain (h : p.Sealing) :
    Agrees p o (p.drainSealed o).1 (p.drainSealed o).2 := by
  obtain ⟨firstError, hprepare, herror⟩ :=
    (h.closeFiles o.closees).prepare (o := o) (decide ((p.drainFiles o).error = 0))
  have hflags : ((p.drainFiles o).record
      ((o.closees.foldl Profile.closeFile p).prepareOPFSProfileRetirement o
        (decide ((p.drainFiles o).error = 0))).2 backendRetire).flags = (1, 0, 0) := by simp
  unfold drainSealed
  simp only [hprepare]
  generalize ((o.closees.foldl Profile.closeFile p).prepareOPFSProfileRetirement o
    (decide ((p.drainFiles o).error = 0))).2 = prepareError at herror hflags ⊢
  by_cases hfailed : ((p.drainFiles o).record prepareError backendRetire).error = 0
  · -- all is well up to the release
    obtain ⟨hfiles, rfl⟩ := record_error.mp hfailed
    obtain ⟨hfence, hprepared⟩ := herror.mp rfl
    have hprepared' := hprepared (decide_eq_true hfiles)
    simp only [hfailed, hfence, decide_true]
    rcases finish_cases o firstError with
      ⟨released, error, hreleased, htransaction, hfinish⟩ | ⟨hnone, error, hfinish⟩
    · rw [hfinish]
      refine drainRetire_agrees ?_
        ⟨drainFiles_error.mp hfiles, ⟨hfence, hprepared'⟩, released, error, htransaction, hreleased⟩
      exact (record_eq hfailed).trans (drainFiles_eq hfiles)
    · rw [hfinish]
      refine Agrees.kept rfl nofun (leaseRelease_flags.trans hflags) fun h => ?_
      -- an absent release is an error even where none was reported
      have hreported := (record_error.mp h).2
      by_cases he : error = 0
      · simp [he, EIO] at hreported
      · simp [he] at hreported
  · simp only [hfailed, decide_false, finish_failed, if_true, and_false, if_false]
    refine Agrees.kept rfl nofun (leaseRelease_flags.trans hflags) fun h => hfailed ?_
    exact (record_error.mp h).1

/-! ## Runs -/

inductive ProfileAction
  | acquiredLease
  | recordFailedAccessClose (error : Int)
  | drainOPFSProfileBackend (c : DrainCall) (o : DrainOutcomes)
  | terminalDrainFinished (o : DrainOutcomes) (success : Bool)

def step (p : Profile) : ProfileAction → Option Profile
  | .acquiredLease => if p.lease = .unleased then some p.acquiredLease else none
  | .recordFailedAccessClose error => some (p.recordFailedAccessClose error)
  | .drainOPFSProfileBackend c o => some (p.drainOPFSProfileBackend c o).1
  | .terminalDrainFinished o success => some (p.terminalDrainFinished o success).1

/-- Nothing has been done to the worker. -/
structure Fresh (p : Profile) : Prop where
  lease : p.lease = .unleased ∨ p.lease = .active
  thread : p.thread = .joinable
  fenced : p.retirementFenced = false
  heartbeat : p.heartbeatStopped = false
  retired : p.retired = false

/-- The terminal drain leaves the profile in the same places as the scoped one. -/
theorem Sealing.terminal (h : p.Sealing) (success : Bool) :
    (p.terminalDrainSealed o success).1.Ended := by
  unfold terminalDrainSealed
  generalize (if success then p.firstError else 0) = prior
  obtain ⟨firstError, hprepare, herror⟩ :=
    h.prepare (o := o) (decide (success = true ∧ prior = 0))
  simp only [hprepare]
  generalize (p.prepareOPFSProfileRetirement o (decide (success = true ∧ prior = 0))).2 =
    prepareError at herror ⊢
  by_cases hcleanup : success = true ∧ prior = 0 ∧ prepareError = 0
  · obtain ⟨hsuccess, hprior, rfl⟩ := hcleanup
    simp only [hsuccess, hprior, (herror.mp rfl).1, and_self, decide_true]
    rcases finish_cases o firstError with
      ⟨released, error, -, -, hfinish⟩ | ⟨-, error, hfinish⟩
    · simp only [hfinish]
      obtain ⟨q, retireError, hq, hthread, hlease⟩ := retire_cases o firstError
        (decide (firstOf (firstOf 0 0) error = 0))
      simp only [reduceCtorEq, if_false, hq]
      refine ⟨.inr ?_, hthread⟩
      rw [hlease]
      split
      · exact .inr rfl
      · exact .inl rfl
    · simp only [hfinish, if_true]
      exact ⟨.inl rfl, nofun⟩
  · simp only [hcleanup, decide_false, finish_failed, if_true]
    exact ⟨.inl rfl, nofun⟩

theorem Ended.terminalDrainFinished {success : Bool} (h : p.Ended) :
    p.terminalDrainFinished o success =
      (p, if p.lease = .failed ∨ p.lease = .retiring then - ESHUTDOWN else 0) := by
  unfold Profile.terminalDrainFinished hasIncompleteScopedDrain hasLiveLease
  rcases h.lease with hlease | hlease | hlease
  · simp [hlease]
  · simp [hlease]
  · simp [hlease]

/-- A drain that is refused reports an error and changes nothing. -/
def Refused (p : Profile) (res : Profile × Option ProfileDrainResult) : Prop :=
  res.1 = p ∧ ∀ r, res.2 = some r → r.error ≠ 0 ∧ r.flags = (0, 0, 0)

theorem refused_none : Refused p (p, none) := ⟨rfl, nofun⟩

theorem refused_failed : Refused p (p, some (failed error)) := by
  refine ⟨rfl, fun r hr => ?_⟩
  cases hr
  exact ⟨normalizeDrainError_ne error, rfl⟩

theorem Ended.drain {c : DrainCall} (h : p.Ended) : Refused p (p.drainOPFSProfileBackend c o) := by
  have hbegin : p.beginDrain = (p, - ESHUTDOWN) := by
    unfold beginDrain
    rcases h.lease with hlease | hlease | hlease
    · simp [hlease]
    · simp [hlease]
    · simp [hlease]
  unfold drainOPFSProfileBackend
  split
  · exact refused_none
  · split
    · exact refused_failed
    · rw [hbegin]
      exact refused_failed

theorem Agrees.of_seal {lease : LeaseState} (h : Agrees { p with lease := lease } o q r) :
    Agrees p o q r :=
  ⟨h.error, fun hr =>
    have hreleased := h.released hr
    ⟨⟨hreleased.files.prior, hreleased.files.libc, hreleased.files.files⟩, hreleased.prepared,
      hreleased.transaction⟩, h.retired, h.failed, h.retiring, h.ended, h.sealed⟩

/-- A drain of a profile with its lease ends it, unless it is refused. -/
theorem Fresh.drain {c : DrainCall} (h : p.Fresh) : Refused p (p.drainOPFSProfileBackend c o) ∨
    ∃ r, (p.drainOPFSProfileBackend c o).2 = some r ∧
      Agrees p o (p.drainOPFSProfileBackend c o).1 r := by
  unfold drainOPFSProfileBackend
  split
  · exact .inl refused_none
  · split
    · exact .inl refused_failed
    · unfold beginDrain
      rcases h.lease with hlease | hlease
      · simp only [hlease]
        exact .inl refused_failed
      · simp only [hlease]
        have hsealing : Sealing { p with lease := .sealing } :=
          ⟨rfl, h.thread, h.fenced, h.heartbeat, h.retired⟩
        exact .inr ⟨_, rfl, (hsealing.drain (o := o)).of_seal⟩

theorem Fresh.terminal (h : p.Fresh) (o : DrainOutcomes) (success : Bool) :
    (p.terminalDrainFinished o success).1 = p ∨ (p.terminalDrainFinished o success).1.Ended := by
  unfold terminalDrainFinished hasIncompleteScopedDrain hasLiveLease beginDrain
  rcases h.lease with hlease | hlease
  · simp [hlease]
  · have hsealing : Sealing { p with lease := .sealing } :=
      ⟨rfl, h.thread, h.fenced, h.heartbeat, h.retired⟩
    refine .inr ?_
    simpa [hlease, ESHUTDOWN] using hsealing.terminal success

theorem recordFailedAccessClose_keeps (p : Profile) (error : Int) :
    (p.recordFailedAccessClose error).lease = p.lease ∧
    (p.recordFailedAccessClose error).thread = p.thread ∧
    (p.Fresh → (p.recordFailedAccessClose error).Fresh) := by
  unfold recordFailedAccessClose
  split
  · exact ⟨rfl, rfl, fun h => ⟨h.lease, h.thread, h.fenced, h.heartbeat, h.retired⟩⟩
  · exact ⟨rfl, rfl, id⟩

/-- What has ended stays as it is. -/
theorem Ended.step {a : ProfileAction} (h : p.Ended) (hstep : p.step a = some q) :
    q.Ended ∧ q.lease = p.lease := by
  cases a with
  | acquiredLease =>
    change (if p.lease = .unleased then _ else none) = some q at hstep
    split at hstep
    · next hlease =>
        have hended := h.lease
        simp [hlease] at hended
    · cases hstep
  | recordFailedAccessClose error =>
    cases hstep
    obtain ⟨hlease, hthread, -⟩ := recordFailedAccessClose_keeps p error
    exact ⟨⟨hlease ▸ h.lease, hthread ▸ h.thread⟩, hlease⟩
  | drainOPFSProfileBackend c o =>
    cases hstep
    rw [(h.drain (c := c) (o := o)).1]
    exact ⟨h, rfl⟩
  | terminalDrainFinished o success =>
    cases hstep
    rw [h.terminalDrainFinished]
    exact ⟨h, rfl⟩

theorem Ended.run (h : p.Ended) (hrun : Reaches Profile.step Any p q) : q.Ended ∧ q.lease = p.lease :=
  hrun.invariant (I := fun q => q.Ended ∧ q.lease = p.lease) ⟨h, rfl⟩ fun _ _ _ hi _ hstep =>
    have hnext := hi.1.step hstep
    ⟨hnext.1, hnext.2.trans hi.2⟩

theorem fresh_or_ended (hrun : Reaches step Any new p) : p.Fresh ∨ p.Ended := by
  refine hrun.invariant (I := fun p => p.Fresh ∨ p.Ended) (.inl ⟨.inl rfl, rfl, rfl, rfl, rfl⟩)
    fun p a q hi _ hstep => ?_
  refine hi.elim (fun hfresh => ?_) fun hended => .inr (hended.step hstep).1
  cases a with
  | acquiredLease =>
    change (if p.lease = .unleased then _ else none) = some q at hstep
    split at hstep
    · cases hstep
      exact .inl ⟨.inr rfl, hfresh.thread, hfresh.fenced, hfresh.heartbeat, hfresh.retired⟩
    · cases hstep
  | recordFailedAccessClose error =>
    cases hstep
    exact .inl ((recordFailedAccessClose_keeps p error).2.2 hfresh)
  | drainOPFSProfileBackend c o =>
    cases hstep
    rcases hfresh.drain (c := c) (o := o) with hrefused | ⟨r, -, hagrees⟩
    · rw [hrefused.1]
      exact hi
    · exact .inr hagrees.ended
  | terminalDrainFinished o success =>
    cases hstep
    rcases hfresh.terminal o success with hsame | hended
    · rw [hsame]
      exact hi
    · exact .inr hended

/-- However the steps of a drain turn out, its result, the lease and the worker agree, and a later
terminal drain reports the profile if its handoff was not completed. -/
theorem drain_agrees {c : DrainCall} (hrun : Reaches step Any new p)
    (hd : p.drainOPFSProfileBackend c o = (q, some r)) :
    (r.error = 0 ↔ r.lease_released = 1 ∧ r.backend_retired = 1 ∧ r.NoFailures) ∧
    (r.lease_released = 1 → p.Released o) ∧
    (r.backend_sealed = 0 ∧ q = p ∨ r.backend_sealed = 1 ∧
      (q.lease = .retired ↔ r.error = 0) ∧ (q.lease = .failed ↔ r.lease_released = 0) ∧
      (q.lease = .retiring ↔ r.lease_released = 1 ∧ r.error ≠ 0) ∧
      (q.thread = .joined ∨ q.thread = .detached) ∧
      ∀ q' o' success, Reaches step Any q q' → ((q'.terminalDrainFinished o' success).2 ≠ 0 ↔
        q.lease = .failed ∨ q.lease = .retiring)) := by
  have hrefused : Refused p (p.drainOPFSProfileBackend c o) ∨
      ∃ r, (p.drainOPFSProfileBackend c o).2 = some r ∧
        Agrees p o (p.drainOPFSProfileBackend c o).1 r :=
    (fresh_or_ended hrun).elim Fresh.drain fun h => .inl h.drain
  rw [hd] at hrefused
  rcases hrefused with ⟨hq, hr⟩ | ⟨r', hr', hagrees⟩
  · obtain ⟨herror, hflags⟩ := hr r rfl
    obtain ⟨hsealed, hreleased, -⟩ :
        r.backend_sealed = 0 ∧ r.lease_released = 0 ∧ r.backend_retired = 0 := by
      simpa [ProfileDrainResult.flags] using hflags
    exact ⟨by simp [herror, hreleased], by simp [hreleased], .inl ⟨hsealed, hq⟩⟩
  · cases hr'
    refine ⟨hagrees.error, hagrees.released, .inr ⟨hagrees.sealed, hagrees.retired, hagrees.failed,
      hagrees.retiring, ?_, fun q' o' success hrun' => ?_⟩⟩
    · have hthread := hagrees.ended.thread
      cases hq : q.thread with
      | joinable => exact absurd hq hthread
      | joined => exact .inl rfl
      | detached => exact .inr rfl
    · obtain ⟨hended, hlease⟩ := hagrees.ended.run hrun'
      rw [hended.terminalDrainFinished, hlease]
      split
      · next h => simp [h, ESHUTDOWN]
      · next h => simp [h]

/-- The worker is not confirmed to have ended. -/
theorem drain_agrees_unconfirmed : ∃ p q r, Reaches step Any new p ∧
    p.drainOPFSProfileBackend ⟨true, true, true, false, false, .running, false⟩
      ⟨false, 0, 1, [⟨0, 0, none⟩], 0, some 0, some (1, 0), 0, false⟩ = (q, some r) ∧
    r.error = - ETIMEDOUT ∧ r.lease_released = 1 ∧ q.lease = .retiring ∧
    (q.terminalDrainFinished ⟨false, 0, 0, [], 0, none, none, 0, false⟩ true).2 ≠ 0 := by
  obtain ⟨p, hp⟩ : ∃ p, exec step new [.acquiredLease] = some p := ⟨_, rfl⟩
  have hrun := reaches_of_exec _ hp (meets_any _)
  cases hp
  have hagrees := drain_agrees (c := ⟨true, true, true, false, false, .running, false⟩)
    (o := ⟨false, 0, 1, [⟨0, 0, none⟩], 0, some 0, some (1, 0), 0, false⟩) hrun rfl
  obtain ⟨-, -, ⟨hsealed, -⟩ | ⟨-, -, -, hretiring, -, hterminal⟩⟩ := hagrees
  · cases hsealed
  · exact ⟨_, _, _, hrun, rfl, rfl, rfl, rfl, (hterminal _ _ true .init).mpr (.inr rfl)⟩

end Profile

end Opfs
