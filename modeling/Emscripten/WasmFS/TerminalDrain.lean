-- SUMMARY: The admission of operations and the terminal drain as steps of any number of threads, and the table that a drain empties.
import Emscripten.Lib.Machine
import Emscripten.Lib.ThreadPool
import Emscripten.WasmFS.Runs

/-!
# Terminal drain

Public functions of WasmFS run under an `Operation`. The outermost one of a thread is
counted; a terminal drain first closes the fence, then waits for the count to become zero,
and then flushes the streams of libc, empties the descriptor table, flushes and closes what
was in it, and finishes the backends. The operations that a thread has open are a stack,
innermost first. While libc is flushed, writes of the draining thread pass the fence, and
are not counted.
-/

namespace WasmFS

open Machine ThreadPool

/-! ## State -/

/-- `Operation::Kind`. -/
inductive OperationKind
  | general
  | stdioFlushWrite
deriving DecidableEq, Repr

/-- An open `Operation`: the outermost one of its thread, one within it, or a write that passed
the fence, as a root or under another write. -/
inductive OperationScope
  | outermost
  | nested
  | bypass
  | shared
deriving DecidableEq, Repr

inductive TerminalState
  | running
  | draining
  | drained
  | failed
deriving DecidableEq, Repr

/-- Where a thread is in `terminalDrain`. -/
inductive DrainPc (B : Type)
  | idle
  | waiting
  /-- In `fflush`, with `stdioFlushWasmFS` set. -/
  | flushing
  | flushed
  /-- The table is empty, and its lock is held. -/
  | detached (closees : List OpenId)
  | files (closees : List OpenId)
  | closing (o : OpenId) (closees : List OpenId)
  /-- `finishBackends`, for ordinary backends or for lease owners. -/
  | finishing (leaseOwners : Bool) (backends : List B)

structure DrainThread (B : Type) where
  scopes : List OperationScope
  pc : DrainPc B

/-- `wasmfs_terminal_drain_result`. -/
structure DrainResult where
  error : Int
  data_file_states : Nat
  libc_flush_failed : Nat
  data_flush_failures : Nat
  data_close_failures : Nat
  backend_terminal_failures : Nat

/-- Ghost: a call of `terminalDrainFinished`. -/
structure Told (B : Type) where
  backend : B
  leaseOwner : Bool
  success : Bool

structure Drain (T B : Type) where
  fs : FS
  backendTable : List B
  releasesTerminalLease : B → Bool
  terminalState : TerminalState
  scopedProfileDrainInProgress : Bool
  activeOperations : Nat
  tableLocked : Bool
  result : DrainResult
  thread : T → DrainThread B
  /-- Ghost: the drains that have passed the wait. -/
  bodies : Nat
  /-- Ghost: what the drain has taken out of the table. -/
  closees : Option (List OpenId)
  /-- Ghost, latest first: what is flushed, what is closed, and what the finalizers were told. -/
  flushedFiles : List OpenId
  closedFiles : List OpenId
  told : List (Told B)
  /-- Ghost: what each step of the drain returned, latest first. -/
  outcomes : List Int
  /-- Ghost: the lease owners when their turn came. -/
  owner : B → Bool

inductive DrainAction (T B : Type)
  | enter (t : T) (kind : OperationKind)
  | leave (t : T)
  /-- What is done under an operation. -/
  | work (t : T) (fs : FS) (backendTable : List B) (releasesTerminalLease : B → Bool)
  /-- A scoped drain of some other thread begins or ends. -/
  | scopedDrain (begins : Bool)
  | drain (t : T)
  | wake (t : T)
  | fflush (t : T) (eof : Bool) (errno : Nat)
  | detach (t : T)
  | unlock (t : T)
  | flush (t : T) (error : Int)
  | close (t : T) (error : Int)
  | collect (t : T)
  /-- The next backend; a lease owner may change whether it is one. -/
  | finish (t : T) (error : Int) (releases : Bool)
  | pass (t : T)

/-! ## Results -/

def DrainResult.new : DrainResult := ⟨0, 0, 0, 0, 0, 0⟩

/-- `normalizeDrainError`. -/
def normalizeDrainError (error : Int) : Int :=
  if error < 0 then error else if 0 < error then -error else -29

/-- `recordDrainError`, but for the counter: only the first error is kept. -/
def DrainResult.record (r : DrainResult) (error : Int) : DrainResult :=
  if r.error = 0 then { r with error := normalizeDrainError error } else r

/-- A counter is a `uint32_t`. -/
def increment (counter : Nat) : Nat := (counter + 1) % 2 ^ 32

/-- What `fflush(nullptr)` counts as. -/
def fflushError (eof : Bool) (errno : Nat) : Int :=
  if eof then if errno ≠ 0 then -(errno : Int) else -29 else 0

theorem normalizeDrainError_ne (error : Int) : normalizeDrainError error ≠ 0 := by
  unfold normalizeDrainError
  split
  · omega
  · split
    · omega
    · decide

theorem fflushError_zero {eof : Bool} {errno : Nat} : fflushError eof errno = 0 ↔ eof = false := by
  unfold fflushError
  cases eof with
  | false => simp
  | true =>
    simp
    omega

/-! ## Steps -/

namespace Drain

variable {T B : Type} [DecidableEq T] [DecidableEq B]

def setThread (s : Drain T B) (t : T) (l : DrainThread B) : Drain T B :=
  { s with thread := Function.update s.thread t l }

def setPc (s : Drain T B) (t : T) (pc : DrainPc B) : Drain T B :=
  s.setThread t { s.thread t with pc := pc }

def push (s : Drain T B) (t : T) (c : OperationScope) : Drain T B :=
  s.setThread t { s.thread t with scopes := c :: (s.thread t).scopes }

/-- The constructor of `Operation`; a refused one leaves everything as it is. -/
def enter (s : Drain T B) (t : T) (kind : OperationKind) : Option (Drain T B) :=
  match (s.thread t).pc with
  | .flushing =>
    if kind ≠ .stdioFlushWrite then some s
    else if (s.thread t).scopes ≠ [] then some (s.push t .shared)
    else some (s.push t .bypass)
  | .idle =>
    if .outermost ∈ (s.thread t).scopes then some (s.push t .nested)
    else if s.terminalState ≠ .running then some s
    else some ({ s with activeOperations := s.activeOperations + 1 }.push t .outermost)
  | _ => none

/-- The destructor of the innermost `Operation`. -/
def leave (s : Drain T B) (t : T) : Option (Drain T B) :=
  match (s.thread t).scopes with
  | [] => none
  | .outermost :: rest =>
    some ({ s with activeOperations := s.activeOperations - 1 }.setThread t
      { s.thread t with scopes := rest })
  | _ :: rest => some (s.setThread t { s.thread t with scopes := rest })

/-- `terminalDrain` up to its wait; a refused call leaves everything as it is. -/
def drain (main : T → Bool) (s : Drain T B) (t : T) : Option (Drain T B) :=
  match (s.thread t).pc with
  | .idle =>
    if main t ∨ .outermost ∈ (s.thread t).scopes ∨ s.scopedProfileDrainInProgress ∨
        s.terminalState ≠ .running then some s
    else some ({ s with terminalState := .draining }.setPc t .waiting)
  -- A callback of `fflush` finds the drain in progress.
  | .flushing => some s
  | _ => none

/-- The next backend in the loop of `finishBackends`. -/
def finish (s : Drain T B) (t : T) (error : Int) (releases : Bool) : Option (Drain T B) :=
  match (s.thread t).pc with
  | .finishing leaseOwners (b :: rest) =>
    if s.releasesTerminalLease b ≠ leaseOwners then some (s.setPc t (.finishing leaseOwners rest))
    else some ({ s with
      result := if error ≠ 0 then { s.result.record error with
          backend_terminal_failures := increment s.result.backend_terminal_failures } else s.result
      releasesTerminalLease :=
        if leaseOwners then Function.update s.releasesTerminalLease b releases
        else s.releasesTerminalLease
      told := ⟨b, leaseOwners, decide (s.result.error = 0)⟩ :: s.told
      outcomes := error :: s.outcomes }.setPc t (.finishing leaseOwners rest))
  | _ => none

/-- The end of a pass of `finishBackends`; the second one ends the drain. -/
def pass (s : Drain T B) (t : T) : Option (Drain T B) :=
  match (s.thread t).pc with
  | .finishing false [] =>
    some ({ s with owner := s.releasesTerminalLease }.setPc t (.finishing true s.backendTable))
  | .finishing true [] =>
    some ({ s with
      terminalState := if s.result.error = 0 then .drained else .failed }.setPc t .idle)
  | _ => none

def step (main : T → Bool) (s : Drain T B) : DrainAction T B → Option (Drain T B)
  | .enter t kind => s.enter t kind
  | .leave t => s.leave t
  | .work t fs backendTable releasesTerminalLease =>
    if (s.thread t).scopes ≠ [] ∧ s.tableLocked = false then
      some { s with
        fs := fs
        backendTable := backendTable
        releasesTerminalLease := releasesTerminalLease }
    else none
  | .scopedDrain begins =>
    if begins then
      if s.terminalState = .running ∧ s.scopedProfileDrainInProgress = false then
        some { s with scopedProfileDrainInProgress := true }
      else none
    else some { s with scopedProfileDrainInProgress := false }
  | .drain t => s.drain main t
  | .wake t =>
    match (s.thread t).pc with
    | .waiting =>
      if s.activeOperations = 0 then
        some ({ s with result := .new, bodies := s.bodies + 1 }.setPc t .flushing)
      else none
    | _ => none
  | .fflush t eof errno =>
    match (s.thread t).pc with
    | .flushing =>
      if (s.thread t).scopes = [] then
        some ({ s with
          result := if eof then { s.result.record (fflushError eof errno) with
            libc_flush_failed := increment s.result.libc_flush_failed } else s.result
          outcomes := fflushError eof errno :: s.outcomes }.setPc t .flushed)
      else none
    | _ => none
  | .detach t =>
    match (s.thread t).pc with
    | .flushed =>
      some ({ s with
        fs := s.fs.detachAll.1
        tableLocked := true
        closees := some s.fs.detachAll.2 }.setPc t (.detached s.fs.detachAll.2))
    | _ => none
  | .unlock t =>
    match (s.thread t).pc with
    | .detached closees =>
      some ({ s with
        tableLocked := false
        result := { s.result with data_file_states := closees.length % 2 ^ 32 } }.setPc t
          (.files closees))
    | _ => none
  | .flush t error =>
    match (s.thread t).pc with
    | .files (o :: rest) =>
      some ({ s with
        result := if error ≠ 0 then { s.result.record error with
          data_flush_failures := increment s.result.data_flush_failures } else s.result
        flushedFiles := o :: s.flushedFiles
        outcomes := error :: s.outcomes }.setPc t (.closing o rest))
    | _ => none
  | .close t error =>
    match (s.thread t).pc with
    | .closing o rest =>
      some ({ s with
        result := if error ≠ 0 then { s.result.record error with
          data_close_failures := increment s.result.data_close_failures } else s.result
        closedFiles := o :: s.closedFiles
        outcomes := error :: s.outcomes }.setPc t (.files rest))
    | _ => none
  | .collect t =>
    match (s.thread t).pc with
    | .files [] => some (s.setPc t (.finishing false s.backendTable))
    | _ => none
  | .finish t error releases => s.finish t error releases
  | .pass t => s.pass t

def init (fs : FS) : Drain T B where
  fs := fs
  backendTable := []
  releasesTerminalLease := fun _ => false
  terminalState := .running
  scopedProfileDrainInProgress := false
  activeOperations := 0
  tableLocked := false
  result := .new
  thread := fun _ => ⟨[], .idle⟩
  bodies := 0
  closees := none
  flushedFiles := []
  closedFiles := []
  told := []
  outcomes := []
  owner := fun _ => false

/-- What is done under an operation is a run of calls, and a backend is added to the table once. -/
def Permits (s : Drain T B) : DrainAction T B → Prop
  | .work _ fs backendTable _ => Relation.ReflTransGen Step s.fs fs ∧ backendTable.Nodup
  | _ => True

end Drain

/-! ## The table that is emptied -/

section

variable {s : FS}

theorem FS.detachFrom_getEntry (n : Nat) : ∀ (fd : Nat) (s : FS) (i : Nat),
    (FS.detachFrom (fun _ _ => false) n fd s).1.getEntry i =
      if fd ≤ i ∧ i < fd + n then none else s.getEntry i := by
  induction n with
  | zero =>
    intro fd s i
    rw [if_neg (by omega)]
    rfl
  | succ n ih =>
    intro fd s i
    have hround : (FS.detachFrom (fun _ _ => false) (n + 1) fd s).1 =
        (FS.detachFrom (fun _ _ => false) n (fd + 1) (s.setEntry fd none).1).1 := by
      conv => lhs; unfold FS.detachFrom
      cases s.getEntry fd with
      | none => rfl
      | some o => rfl
    rw [hround, ih, FS.setEntry_getEntry]
    by_cases hi : i = fd
    · subst hi
      rw [if_neg (by omega), if_pos rfl, if_pos (by omega)]
    · rw [if_neg (by omega : ¬ (i : Int) = (fd : Int))]
      by_cases hin : fd + 1 ≤ i ∧ i < fd + 1 + n
      · rw [if_pos hin, if_pos (by omega)]
      · rw [if_neg hin, if_neg (by omega)]

theorem FS.detachFrom_log (keep : FS → OpenId → Bool) (n : Nat) : ∀ (fd : Nat) (s : FS),
    (FS.detachFrom keep n fd s).1.log = s.log ∧
      (FS.detachFrom keep n fd s).1.nextOpen = s.nextOpen := by
  induction n with
  | zero => exact fun _ _ => ⟨rfl, rfl⟩
  | succ n ih =>
    intro fd s
    unfold FS.detachFrom
    obtain ⟨hnext, -, hlog, -⟩ := s.setEntry_rest fd none
    obtain ⟨hrest, hnext'⟩ := ih (fd + 1) (s.setEntry fd none).1
    cases s.getEntry fd with
    | none => exact ⟨hrest.trans hlog, hnext'.trans hnext⟩
    | some o =>
      dsimp only
      split
      · exact ih (fd + 1) s
      · exact ⟨hrest.trans hlog, hnext'.trans hnext⟩

/-- What has to be closed after the table is emptied: each description of a data file, once. -/
theorem FS.Accounted.detachAll (h : s.Accounted nothing) :
    s.detachAll.2.Nodup ∧ ∀ o, o ∈ s.detachAll.2 ↔ some o ∈ s.fileTable ∧ s.isData o := by
  obtain ⟨hacc, hnodup, hdata⟩ := h.detachFrom (fun _ _ => false) s.fileTable.length 0
  obtain ⟨hmem, hfile⟩ := s.detachFrom_mem (fun _ _ => false) s.fileTable.length 0
  refine ⟨hnodup, fun o => ⟨fun ho => ⟨hmem o (.inr ho), (hdata o ho).2⟩, ?_⟩⟩
  rintro ⟨hin, hisData⟩
  refine Classical.byContradiction fun hnot => ?_
  obtain ⟨hlog, hnext⟩ := s.detachFrom_log (fun _ _ => false) s.fileTable.length 0
  -- it would have been closed before it was taken out
  have hout : some o ∉ (FS.detachFrom (fun _ _ => false) s.fileTable.length 0 s).1.fileTable := by
    intro hin'
    obtain ⟨i, hi⟩ := List.mem_iff_getElem?.mp hin'
    have hentry := FS.detachFrom_getEntry s.fileTable.length 0 s i
    rw [FS.getEntry_ofNat, hi] at hentry
    split at hentry
    · cases hentry
    · next hlt =>
        rw [FS.getEntry_ofNat, List.getElem?_eq_none (by omega)] at hentry
        cases hentry
  have hclosed := hacc.closed_one o (hnext ▸ h.table_lt o hin)
    ((FS.detachFrom_isData _ _ _ s o).mpr hisData) hout (by rintro (hp | hp); exact hp; exact hnot hp)
  rw [hlog, h.closed_zero o (.inr (.inl hin))] at hclosed
  cases hclosed

end

end WasmFS
