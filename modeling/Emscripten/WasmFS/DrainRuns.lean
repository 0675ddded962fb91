-- SUMMARY: The terminal drain over whole runs: the fence and its count, and what the drain flushes, closes and finishes.
import Emscripten.WasmFS.TerminalDrain

/-!
# Runs of the terminal drain

The invariant has two parts. The fence is about the operations that threads have open and
about where the draining thread is; the stages say how far the drain has come, for each
place in it. A step changes one of them at a time, as a rule.
-/

namespace WasmFS

open Machine ThreadPool

namespace Drain

variable {T B : Type}

/-! ## The fence -/

/-- The operations of a thread that is not in a drain. -/
def Ops : List OperationScope → Prop
  | [] => True
  | .outermost :: rest => rest = []
  | .nested :: rest => .outermost ∈ rest ∧ Ops rest
  | .bypass :: _ => False
  | .shared :: _ => False

def Shape (l : DrainThread B) : Prop :=
  match l.pc with
  | .idle => Ops l.scopes
  | .flushing => ∀ c ∈ l.scopes, c = .bypass ∨ c = .shared
  | _ => l.scopes = []

/-- The share of a thread in the count. -/
def held (l : DrainThread B) : Nat := if .outermost ∈ l.scopes then 1 else 0

structure Fence [Fintype T] (s : Drain T B) : Prop where
  count : s.activeOperations = ThreadPool.total held s.thread
  shape : ∀ t, Shape (s.thread t)
  unique : ∀ t u, (s.thread t).pc ≠ .idle → (s.thread u).pc ≠ .idle → t = u
  draining : ∀ t, (s.thread t).pc ≠ .idle → s.terminalState = .draining
  running : s.terminalState = .running → s.bodies = 0
  waiting : ∀ t, (s.thread t).pc = .waiting → s.bodies = 0
  bodies : s.bodies ≤ 1
  quiet : s.terminalState ≠ .running → (∀ t, (s.thread t).pc ≠ .waiting) → s.activeOperations = 0

section

variable [Fintype T] [DecidableEq T] {s s' : Drain T B} {t u : T} {pc : DrainPc B}
  {scopes rest : List OperationScope} {c : OperationScope}

theorem Ops.tail (h : Ops (c :: rest)) : Ops rest := by
  cases c with
  | outermost =>
    rw [show rest = [] from h]
    trivial
  | nested => exact h.2
  | bypass => exact h.elim
  | shared => exact h.elim

theorem Ops.eq_nil (h : Ops scopes) (hnot : .outermost ∉ scopes) : scopes = [] := by
  cases scopes with
  | nil => rfl
  | cons c rest =>
    cases c with
    | outermost => exact absurd List.mem_cons_self hnot
    | nested => exact absurd (List.mem_cons_of_mem _ h.1) hnot
    | bypass => exact h.elim
    | shared => exact h.elim

omit [DecidableEq T] in
theorem Fence.held_zero (hi : s.Fence) (h : s.activeOperations = 0) (t : T) :
    .outermost ∉ (s.thread t).scopes := by
  intro hmem
  have hzero := eq_zero_of_total (hi.count.symm.trans h) t
  simp [held, hmem] at hzero

/-- Where no operation can be open any more: past `fflush`, and after the drain. -/
def Closed (s : Drain T B) : Prop :=
  (s.terminalState ≠ .running ∧ s.terminalState ≠ .draining) ∨
    ∃ t, (s.thread t).pc ≠ .idle ∧ (s.thread t).pc ≠ .waiting ∧ (s.thread t).pc ≠ .flushing

omit [DecidableEq T] in
theorem Fence.quiet_body (hi : s.Fence) (hidle : (s.thread t).pc ≠ .idle)
    (hwait : (s.thread t).pc ≠ .waiting) : s.activeOperations = 0 := by
  refine hi.quiet (by rw [hi.draining t hidle]; nofun) fun u hu => ?_
  have hut : u = t := hi.unique u t (by rw [hu]; nofun) hidle
  exact hwait (hut ▸ hu)

omit [DecidableEq T] in
theorem Fence.no_scopes (hi : s.Fence) (hc : s.Closed) (t : T) : (s.thread t).scopes = [] := by
  have hidle : ∀ u, s.activeOperations = 0 → (s.thread u).pc = .idle → (s.thread u).scopes = [] := by
    intro u hzero hu
    have hshape := hi.shape u
    rw [Shape, hu] at hshape
    exact hshape.eq_nil (hi.held_zero hzero u)
  rcases hc with ⟨hrun, hdrain⟩ | ⟨u, hne, hwait, hflush⟩
  · have hall : ∀ u, (s.thread u).pc = .idle := fun u =>
      Classical.byContradiction fun hu => hdrain (hi.draining u hu)
    exact hidle t (hi.quiet hrun fun u hu => by rw [hall u] at hu; cases hu) (hall t)
  · by_cases ht : (s.thread t).pc = .idle
    · exact hidle t (hi.quiet_body hne hwait) ht
    · obtain rfl := hi.unique t u ht hne
      have hshape := hi.shape t
      unfold Shape at hshape
      split at hshape
      · next h => exact absurd h ht
      · next h => exact absurd h hflush
      · exact hshape

omit [Fintype T] in
@[simp] theorem setThread_self {l : DrainThread B} : (s.setThread t l).thread t = l :=
  Function.update_self ..

omit [Fintype T] in
theorem setThread_other {l : DrainThread B} (hu : u ≠ t) :
    (s.setThread t l).thread u = s.thread u := Function.update_of_ne hu ..

/-- The thread changes its operations, and the count follows. -/
theorem Fence.setScopes {n : Nat} (hi : s.Fence)
    (hshape : Shape { s.thread t with scopes := scopes })
    (hcount : n + held (s.thread t) =
      s.activeOperations + held ({ s.thread t with scopes := scopes } : DrainThread B))
    (hquiet : s.activeOperations = 0 → s.terminalState ≠ .running → n = 0) :
    Fence ({ s with activeOperations := n }.setThread t { s.thread t with scopes := scopes }) := by
  have hpc : ∀ u, (({ s with activeOperations := n }.setThread t
      { s.thread t with scopes := scopes } : Drain T B).thread u).pc = (s.thread u).pc := by
    intro u
    by_cases hu : u = t
    · subst hu
      rw [setThread_self]
    · rw [setThread_other hu]
  refine ⟨?_, fun u => ?_, fun u v hu hv => ?_, fun u hu => ?_, hi.running, fun u hu => ?_, hi.bodies,
    fun hrun hwait => ?_⟩
  · have htotal := total_update held s.thread t { s.thread t with scopes := scopes }
    rw [← hi.count] at htotal
    change n = ThreadPool.total held (Function.update s.thread t _)
    omega
  · by_cases hu : u = t
    · subst hu
      rw [setThread_self]
      exact hshape
    · rw [setThread_other hu]
      exact hi.shape u
  · rw [hpc] at hu hv
    exact hi.unique u v hu hv
  · rw [hpc] at hu
    exact hi.draining u hu
  · rw [hpc] at hu
    exact hi.waiting u hu
  · refine hquiet (hi.quiet hrun fun u hu => hwait u ?_) hrun
    rw [hpc]
    exact hu

/-- The draining thread goes on, with no operation open. -/
theorem Fence.advance (hi : s.Fence) (hidle : (s.thread t).pc ≠ .idle)
    (hwait : (s.thread t).pc ≠ .waiting) (hscopes : (s.thread t).scopes = [])
    (hpc : pc ≠ .idle) (hpc' : pc ≠ .waiting)
    (hthread : s'.thread = Function.update s.thread t ⟨[], pc⟩)
    (hactive : s'.activeOperations = s.activeOperations)
    (hstate : s'.terminalState = s.terminalState) (hbodies : s'.bodies = s.bodies) : s'.Fence := by
  have hself : s'.thread t = ⟨[], pc⟩ := by
    rw [hthread]
    exact Function.update_self ..
  have hother : ∀ u, u ≠ t → s'.thread u = s.thread u := by
    intro u hu
    rw [hthread]
    exact Function.update_of_ne hu ..
  have hzero := hi.quiet_body hidle hwait
  have hidle' : ∀ u, u ≠ t → (s.thread u).pc = .idle := fun u hu =>
    Classical.byContradiction fun h => hu (hi.unique u t h hidle)
  refine ⟨?_, fun u => ?_, fun u v hu hv => ?_, fun u hu => ?_, fun h => ?_, fun u hu => ?_, ?_,
    fun _ _ => hactive.trans hzero⟩
  · have htotal := total_update held s.thread t ⟨[], pc⟩
    rw [← hi.count, ← hthread] at htotal
    have hold : held (s.thread t) = 0 := by simp [held, hscopes]
    have hnew : held (⟨[], pc⟩ : DrainThread B) = 0 := by simp [held]
    omega
  · by_cases hu : u = t
    · subst hu
      rw [hself]
      cases pc with
      | idle => exact absurd rfl hpc
      | flushing => exact fun c hc => nomatch hc
      | _ => rfl
    · rw [hother u hu]
      exact hi.shape u
  · have hone : ∀ u, (s'.thread u).pc ≠ .idle → u = t := fun u hu =>
      Classical.byContradiction fun h => hu (by rw [hother u h]; exact hidle' u h)
    rw [hone u hu, hone v hv]
  · rw [hstate]
    exact hi.draining t hidle
  · rw [hstate, hi.draining t hidle] at h
    cases h
  · by_cases h : u = t
    · subst h
      rw [hself] at hu
      exact absurd hu hpc'
    · rw [hother u h, hidle' u h] at hu
      cases hu
  · rw [hbodies]
    exact hi.bodies

/-- The count is about the operations only. -/
theorem total_setPc (s : Drain T B) (t : T) (pc : DrainPc B) :
    ThreadPool.total held (s.setPc t pc).thread = ThreadPool.total held s.thread := by
  have htotal := total_update held s.thread t ⟨(s.thread t).scopes, pc⟩
  have hsame : held (⟨(s.thread t).scopes, pc⟩ : DrainThread B) = held (s.thread t) := rfl
  rw [hsame] at htotal
  exact Nat.add_right_cancel htotal

/-- A drain begins: the fence is closed. -/
theorem Fence.drain (hi : s.Fence) (hidle : (s.thread t).pc = .idle)
    (hrun : s.terminalState = .running) (hscopes : .outermost ∉ (s.thread t).scopes) :
    Fence ({ s with terminalState := .draining }.setPc t .waiting) := by
  have hshape := hi.shape t
  rw [Shape, hidle] at hshape
  have hnil := hshape.eq_nil hscopes
  have hall : ∀ u, (s.thread u).pc = .idle := by
    intro u
    refine Classical.byContradiction fun hu => ?_
    have hdrain := hi.draining u hu
    rw [hrun] at hdrain
    cases hdrain
  have hself : (({ s with terminalState := .draining }.setPc t .waiting : Drain T B).thread t) =
      ⟨(s.thread t).scopes, .waiting⟩ := Function.update_self ..
  have hother : ∀ u, u ≠ t →
      ({ s with terminalState := .draining }.setPc t .waiting : Drain T B).thread u = s.thread u :=
    fun u hu => Function.update_of_ne hu ..
  refine ⟨?_, fun u => ?_, fun u v hu hv => ?_, fun u _ => rfl, nofun, fun u hu => hi.running hrun,
    hi.bodies, fun _ hwait => absurd (by rw [hself]) (hwait t)⟩
  · exact hi.count.trans (total_setPc s t .waiting).symm
  · by_cases hu : u = t
    · subst hu
      rw [hself]
      exact hnil
    · rw [hother u hu]
      exact hi.shape u
  · have hone : ∀ u, ((({ s with terminalState := .draining }.setPc t .waiting : Drain T B)).thread
        u).pc ≠ .idle → u = t := by
      intro u hu
      refine Classical.byContradiction fun h => hu ?_
      rw [hother u h]
      exact hall u
    rw [hone u hu, hone v hv]

/-- The wait is over. -/
theorem Fence.wake (hi : s.Fence) (hwait : (s.thread t).pc = .waiting)
    (hzero : s.activeOperations = 0) :
    Fence ({ s with result := .new, bodies := s.bodies + 1 }.setPc t .flushing) := by
  have hidle : (s.thread t).pc ≠ .idle := by rw [hwait]; nofun
  have hdraining := hi.draining t hidle
  have hnil : (s.thread t).scopes = [] := by
    have hshape := hi.shape t
    rw [Shape, hwait] at hshape
    exact hshape
  have hbodies := hi.waiting t hwait
  have hself : (({ s with result := .new, bodies := s.bodies + 1 }.setPc t .flushing :
      Drain T B).thread t) = ⟨(s.thread t).scopes, .flushing⟩ := Function.update_self ..
  have hother : ∀ u, u ≠ t → ({ s with result := .new, bodies := s.bodies + 1 }.setPc t .flushing :
      Drain T B).thread u = s.thread u := fun u hu => Function.update_of_ne hu ..
  have hidle' : ∀ u, u ≠ t → (s.thread u).pc = .idle := fun u hu =>
    Classical.byContradiction fun h => hu (hi.unique u t h hidle)
  refine ⟨?_, fun u => ?_, fun u v hu hv => ?_, fun u _ => hdraining, fun h => ?_, fun u hu => ?_, ?_,
    fun _ _ => hzero⟩
  · exact hi.count.trans (total_setPc s t .flushing).symm
  · by_cases hu : u = t
    · subst hu
      rw [hself, hnil]
      exact fun c hc => nomatch hc
    · rw [hother u hu]
      exact hi.shape u
  · have hone : ∀ u, ((({ s with result := .new, bodies := s.bodies + 1 }.setPc t .flushing :
        Drain T B)).thread u).pc ≠ .idle → u = t := by
      intro u hu
      refine Classical.byContradiction fun h => hu ?_
      rw [hother u h]
      exact hidle' u h
    rw [hone u hu, hone v hv]
  · change s.terminalState = .running at h
    rw [hdraining] at h
    cases h
  · by_cases h : u = t
    · subst h
      rw [hself] at hu
      cases hu
    · rw [hother u h, hidle' u h] at hu
      cases hu
  · change s.bodies + 1 ≤ 1
    omega

/-- The drain is over. -/
theorem Fence.over {terminalState : TerminalState} (hi : s.Fence) (hidle : (s.thread t).pc ≠ .idle)
    (hwait : (s.thread t).pc ≠ .waiting) (hscopes : (s.thread t).scopes = [])
    (hstate : terminalState ≠ .running) :
    Fence ({ s with terminalState := terminalState }.setPc t .idle) := by
  have hself : (({ s with terminalState := terminalState }.setPc t .idle : Drain T B).thread t) =
      ⟨(s.thread t).scopes, .idle⟩ := Function.update_self ..
  have hother : ∀ u, u ≠ t → ({ s with terminalState := terminalState }.setPc t .idle :
      Drain T B).thread u = s.thread u := fun u hu => Function.update_of_ne hu ..
  have hall : ∀ u, ((({ s with terminalState := terminalState }.setPc t .idle :
      Drain T B)).thread u).pc = .idle := by
    intro u
    by_cases hu : u = t
    · subst hu
      rw [hself]
    · rw [hother u hu]
      exact Classical.byContradiction fun h => hu (hi.unique u t h hidle)
  refine ⟨?_, fun u => ?_, fun u v hu _ => absurd (hall u) hu, fun u hu => absurd (hall u) hu,
    fun h => absurd h hstate, fun u hu => ?_, hi.bodies, fun _ _ => hi.quiet_body hidle hwait⟩
  · exact hi.count.trans (total_setPc s t .idle).symm
  · by_cases hu : u = t
    · subst hu
      rw [hself, hscopes]
      trivial
    · rw [hother u hu]
      exact hi.shape u
  · rw [hall u] at hu
    cases hu

/-! ### Operations -/

theorem held_cons (hc : c ≠ .outermost) (l : DrainThread B) :
    held { l with scopes := c :: l.scopes } = held l := by
  simp [held, Ne.symm hc]

/-- An operation is admitted under another one of its thread, in `fflush`, or while the fence is
open. -/
theorem Fence.enter {kind : OperationKind} (hi : s.Fence) (h : s.enter t kind = some s') :
    s'.Fence ∧ (s' ≠ s → s.terminalState ≠ .running →
      .outermost ∈ (s.thread t).scopes ∧ (s.thread t).pc = .idle ∨
        kind = .stdioFlushWrite ∧ (s.thread t).pc = .flushing) := by
  have hpush : ∀ c, c ≠ .outermost → Shape { s.thread t with scopes := c :: (s.thread t).scopes } →
      (s.push t c).Fence := by
    intro c hc hshape
    exact hi.setScopes hshape (by rw [held_cons hc]) fun h _ => h
  have hshape := hi.shape t
  unfold Drain.enter at h
  split at h
  · next hpc =>
      rw [Shape, hpc] at hshape
      split at h
      · cases h
        exact ⟨hi, fun h => absurd rfl h⟩
      · next hkind =>
          have hkind' : kind = .stdioFlushWrite := Classical.not_not.mp hkind
          split at h
          · cases h
            refine ⟨hpush _ nofun ?_, fun _ _ => .inr ⟨hkind', hpc⟩⟩
            rw [Shape]
            simp only [hpc]
            exact fun c hc => (List.mem_cons.mp hc).elim (fun h => .inr h) (hshape c)
          · cases h
            refine ⟨hpush _ nofun ?_, fun _ _ => .inr ⟨hkind', hpc⟩⟩
            rw [Shape]
            simp only [hpc]
            exact fun c hc => (List.mem_cons.mp hc).elim (fun h => .inl h) (hshape c)
  · next hpc =>
      rw [Shape, hpc] at hshape
      split at h
      · next hmem =>
          cases h
          refine ⟨hpush _ nofun ?_, fun _ _ => .inl ⟨hmem, hpc⟩⟩
          rw [Shape]
          simp only [hpc]
          exact ⟨hmem, hshape⟩
      · next hnot =>
          split at h
          · cases h
            exact ⟨hi, fun h => absurd rfl h⟩
          · next hrun =>
              cases h
              have hrun' : s.terminalState = .running := Classical.not_not.mp hrun
              refine ⟨?_, fun _ h => absurd hrun' h⟩
              have hnil := hshape.eq_nil hnot
              refine hi.setScopes ?_ ?_ fun _ h => absurd hrun' h
              · rw [Shape]
                simp only [hpc]
                exact hnil
              · simp [held, hnot]
  · cases h

theorem Fence.leave (hi : s.Fence) (h : s.leave t = some s') : s'.Fence := by
  have hshape := hi.shape t
  unfold Drain.leave at h
  split at h
  · cases h
  · next rest hscopes =>
      cases h
      -- the outermost operation is the last one
      have hidle : (s.thread t).pc = .idle ∧ rest = [] := by
        unfold Shape at hshape
        split at hshape
        · next hpc =>
            rw [hscopes] at hshape
            exact ⟨hpc, hshape⟩
        · rw [hscopes] at hshape
          rcases hshape _ List.mem_cons_self with h | h
          · cases h
          · cases h
        · rw [hscopes] at hshape
          cases hshape
      obtain ⟨hpc, rfl⟩ := hidle
      have hpos : held (s.thread t) = 1 := by simp [held, hscopes]
      have hle := ThreadPool.le_total held s.thread t
      rw [← hi.count, hpos] at hle
      refine hi.setScopes ?_ ?_ fun h _ => by omega
      · rw [Shape]
        simp only [hpc]
        trivial
      · rw [hpos]
        simp [held]
        omega
  · next c rest hne hscopes =>
      cases h
      have hc : c ≠ .outermost := by
        rintro rfl
        exact hne rfl
      refine hi.setScopes ?_ ?_ fun h _ => h
      · unfold Shape at hshape
        split at hshape
        · next hpc =>
            rw [hscopes] at hshape
            rw [Shape]
            simp only [hpc]
            exact hshape.tail
        · next hpc =>
            rw [hscopes] at hshape
            rw [Shape]
            simp only [hpc]
            exact fun c' hc' => hshape c' (List.mem_cons_of_mem _ hc')
        · rw [hscopes] at hshape
          cases hshape
      · simp [held, hscopes, Ne.symm hc]

end

/-! ## Results -/

theorem record_ne (r : DrainResult) (error : Int) : (r.record error).error ≠ 0 := by
  unfold DrainResult.record
  split
  · exact normalizeDrainError_ne error
  · next h => exact h

/-- The first error is kept, so the result has none if every step returned none. -/
theorem result_cons {r r' : DrainResult} {outcomes : List Int} {error : Int}
    (h : r.error = 0 ↔ ∀ e ∈ outcomes, e = 0) (hr : r'.error = 0 ↔ r.error = 0 ∧ error = 0) :
    r'.error = 0 ↔ ∀ e ∈ error :: outcomes, e = 0 := by
  rw [hr, h, List.forall_mem_cons, and_comm]

/-! ## Stages -/

/-- Nothing is done yet. -/
structure Blank (s : Drain T B) : Prop where
  closees : s.closees = none
  flushed : s.flushedFiles = []
  closed : s.closedFiles = []
  told : s.told = []

/-- All that was in the table is flushed and closed. -/
structure Cleaned (s : Drain T B) : Prop where
  closees : s.closees = some s.closedFiles.reverse
  flushed : s.flushedFiles = s.closedFiles

/-- The finalizers that have been called when `rest` is left of a pass. -/
def Finished (s : Drain T B) : Bool → List B → Prop
  | false, rest => ∃ done, s.backendTable = done ++ rest ∧
    s.told.map Told.backend = (done.filter fun b => !s.releasesTerminalLease b).reverse ∧
    ∀ x ∈ s.told, x.leaseOwner = false
  | true, rest => (∀ b ∈ rest, s.releasesTerminalLease b = s.owner b) ∧
    ∃ done last first, s.backendTable = done ++ rest ∧ s.told = last ++ first ∧
      last.map Told.backend = (done.filter s.owner).reverse ∧ (∀ x ∈ last, x.leaseOwner = true) ∧
      first.map Told.backend = (s.backendTable.filter fun b => !s.owner b).reverse ∧
      ∀ x ∈ first, x.leaseOwner = false

def Stage (s : Drain T B) : DrainPc B → Prop
  | .idle => True
  | .waiting => s.Blank ∧ s.outcomes = []
  | .flushing => s.Blank ∧ s.outcomes = []
  | .flushed => s.Blank
  | .detached closees => s.closees = some closees ∧ s.flushedFiles = [] ∧ s.closedFiles = [] ∧
    s.told = []
  | .files closees => s.closees = some (s.closedFiles.reverse ++ closees) ∧
    s.flushedFiles = s.closedFiles ∧ s.told = []
  | .closing o closees => s.closees = some (s.closedFiles.reverse ++ o :: closees) ∧
    s.flushedFiles = o :: s.closedFiles ∧ s.told = []
  | .finishing leaseOwners rest => s.Cleaned ∧ s.Finished leaseOwners rest

structure Inv [Fintype T] (s : Drain T B) : Prop extends s.Fence where
  stage : ∀ t, s.Stage (s.thread t).pc
  before : s.terminalState = .running → s.Blank ∧ s.outcomes = []
  after : s.terminalState = .drained ∨ s.terminalState = .failed → s.Stage (.finishing true [])
  sound : s.closees = none → s.fs.Sound
  nodup : ∀ all, s.closees = some all → all.Nodup
  backends : s.backendTable.Nodup
  result : s.result.error = 0 ↔ ∀ e ∈ s.outcomes, e = 0
  locked : s.tableLocked = true → ∃ t closees, (s.thread t).pc = .detached closees

variable {main : T → Bool}

section

variable [Fintype T] [DecidableEq T] {s s' : Drain T B} {t : T} {pc : DrainPc B} {error : Int}

/-- The draining thread goes on to its next place. -/
theorem Inv.advance (hi : s.Inv) (pc' : DrainPc B) (ht : (s.thread t).pc = pc) (hpc : pc ≠ .idle ∧ pc ≠ .waiting)
    (hscopes : (s.thread t).scopes = []) (hpc' : pc' ≠ .idle ∧ pc' ≠ .waiting)
    (hthread : s'.thread = Function.update s.thread t { s.thread t with pc := pc' })
    (hactive : s'.activeOperations = s.activeOperations)
    (hstate : s'.terminalState = s.terminalState) (hbodies : s'.bodies = s.bodies)
    (hstage : s'.Stage pc') (hsound : s'.closees = none → s'.fs.Sound)
    (hnodup : ∀ all, s'.closees = some all → all.Nodup) (hbackends : s'.backendTable = s.backendTable)
    (hresult : s'.result.error = 0 ↔ ∀ e ∈ s'.outcomes, e = 0)
    (hlocked : s'.tableLocked = true → ∃ closees, pc' = .detached closees) : s'.Inv := by
  have hidle : (s.thread t).pc ≠ .idle := ht ▸ hpc.1
  have hdraining := hi.draining t hidle
  have hthread' : s'.thread = Function.update s.thread t ⟨[], pc'⟩ := by
    rw [hthread, ← hscopes]
  have hself : (s'.thread t).pc = pc' := by
    rw [hthread', Function.update_self]
  refine ⟨hi.toFence.advance hidle (ht ▸ hpc.2) hscopes hpc'.1 hpc'.2 hthread' hactive hstate hbodies,
    fun u => ?_, fun h => ?_, fun h => ?_, hsound, hnodup, ?_, hresult, fun h => ?_⟩
  · by_cases hu : u = t
    · rw [hu, hself]
      exact hstage
    · have hother : s'.thread u = s.thread u := by
        rw [hthread]
        exact Function.update_of_ne hu ..
      have hidle' : (s.thread u).pc = .idle :=
        Classical.byContradiction fun h => hu (hi.unique u t h hidle)
      rw [hother, hidle']
      trivial
  · rw [hstate, hdraining] at h
    cases h
  · rw [hstate, hdraining] at h
    rcases h with h | h
    · cases h
    · cases h
  · rw [hbackends]
    exact hi.backends
  · obtain ⟨closees, hc⟩ := hlocked h
    exact ⟨t, closees, hself.trans hc⟩

omit [DecidableEq T] in
/-- In a place past `fflush` the thread has no operation open, and only `detached` has the lock. -/
theorem Inv.place (hi : s.Inv) (ht : (s.thread t).pc = pc)
    (hpc : pc ≠ .idle ∧ pc ≠ .waiting ∧ pc ≠ .flushing) :
    (s.thread t).scopes = [] ∧ s.Stage pc ∧ (s.tableLocked = true → ∃ closees, pc = .detached closees) := by
  refine ⟨hi.no_scopes (.inr ⟨t, ht ▸ hpc.1, ht ▸ hpc.2.1, ht ▸ hpc.2.2⟩) t, ht ▸ hi.stage t, fun h => ?_⟩
  obtain ⟨u, closees, hu⟩ := hi.locked h
  have hut : u = t := hi.unique u t (by rw [hu]; nofun) (ht ▸ hpc.1)
  rw [hut, ht] at hu
  exact ⟨closees, hu⟩

/-! ### The steps of the draining thread -/

theorem Inv.fflush {eof : Bool} {errno : Nat} (hi : s.Inv) (ht : (s.thread t).pc = .flushing)
    (hscopes : (s.thread t).scopes = []) :
    Inv ({ s with
      result := if eof then { s.result.record (fflushError eof errno) with
        libc_flush_failed := increment s.result.libc_flush_failed } else s.result
      outcomes := fflushError eof errno :: s.outcomes }.setPc t .flushed) := by
  have hstage := hi.stage t
  rw [ht] at hstage
  obtain ⟨hblank, -⟩ := hstage
  refine hi.advance .flushed ht ⟨nofun, nofun⟩ hscopes ⟨nofun, nofun⟩ rfl rfl rfl rfl
    ⟨hblank.closees, hblank.flushed, hblank.closed, hblank.told⟩ hi.sound hi.nodup rfl
    (result_cons hi.result ?_) fun h => ?_
  · change (if eof then _ else s.result).error = 0 ↔ _
    cases eof with
    | false => exact ⟨fun h => ⟨h, rfl⟩, fun h => h.1⟩
    | true =>
      refine iff_of_false (record_ne _ _) fun h => ?_
      cases fflushError_zero.mp h.2
  · obtain ⟨u, closees, hu⟩ := hi.locked h
    have hut : u = t := hi.unique u t (by rw [hu]; nofun) (by rw [ht]; nofun)
    rw [hut, ht] at hu
    cases hu

theorem Inv.detach (hi : s.Inv) (ht : (s.thread t).pc = .flushed) :
    Inv ({ s with
      fs := s.fs.detachAll.1
      tableLocked := true
      closees := some s.fs.detachAll.2 }.setPc t (.detached s.fs.detachAll.2)) := by
  obtain ⟨hscopes, hblank, -⟩ := hi.place ht ⟨nofun, nofun, nofun⟩
  refine hi.advance (.detached _) ht ⟨nofun, nofun⟩ hscopes ⟨nofun, nofun⟩ rfl rfl rfl rfl
    ⟨rfl, hblank.flushed, hblank.closed, hblank.told⟩ nofun (fun all hall => ?_) rfl hi.result
    fun _ => ⟨_, rfl⟩
  cases hall
  exact ((hi.sound hblank.closees).accounts.detachAll).1

theorem Inv.unlock {closees : List OpenId} (hi : s.Inv) (ht : (s.thread t).pc = .detached closees) :
    Inv ({ s with
      tableLocked := false
      result := { s.result with data_file_states := closees.length % 2 ^ 32 } }.setPc t
        (.files closees)) := by
  obtain ⟨hscopes, ⟨hclosees, hflushed, hclosed, htold⟩, -⟩ := hi.place ht ⟨nofun, nofun, nofun⟩
  refine hi.advance (.files _) ht ⟨nofun, nofun⟩ hscopes ⟨nofun, nofun⟩ rfl rfl rfl rfl ⟨?_, ?_, htold⟩
    hi.sound hi.nodup rfl hi.result nofun
  · change s.closees = some (s.closedFiles.reverse ++ closees)
    rw [hclosees, hclosed]
    rfl
  · exact hflushed.trans hclosed.symm

theorem Inv.flush {o : OpenId} {rest : List OpenId} (hi : s.Inv)
    (ht : (s.thread t).pc = .files (o :: rest)) :
    Inv ({ s with
      result := if error ≠ 0 then { s.result.record error with
        data_flush_failures := increment s.result.data_flush_failures } else s.result
      flushedFiles := o :: s.flushedFiles
      outcomes := error :: s.outcomes }.setPc t (.closing o rest)) := by
  obtain ⟨hscopes, ⟨hclosees, hflushed, htold⟩, hlocked⟩ := hi.place ht ⟨nofun, nofun, nofun⟩
  refine hi.advance (.closing o rest) ht ⟨nofun, nofun⟩ hscopes ⟨nofun, nofun⟩ rfl rfl rfl rfl
    ⟨hclosees, congrArg (o :: ·) hflushed, htold⟩ hi.sound hi.nodup rfl (result_cons hi.result ?_)
    fun h => nomatch hlocked h
  change (if error ≠ 0 then _ else s.result).error = 0 ↔ _
  split
  · next he => exact iff_of_false (record_ne _ _) fun h => he h.2
  · next he => exact ⟨fun h => ⟨h, Classical.not_not.mp he⟩, fun h => h.1⟩

theorem Inv.close {o : OpenId} {rest : List OpenId} (hi : s.Inv)
    (ht : (s.thread t).pc = .closing o rest) :
    Inv ({ s with
      result := if error ≠ 0 then { s.result.record error with
        data_close_failures := increment s.result.data_close_failures } else s.result
      closedFiles := o :: s.closedFiles
      outcomes := error :: s.outcomes }.setPc t (.files rest)) := by
  obtain ⟨hscopes, ⟨hclosees, hflushed, htold⟩, hlocked⟩ := hi.place ht ⟨nofun, nofun, nofun⟩
  refine hi.advance (.files rest) ht ⟨nofun, nofun⟩ hscopes ⟨nofun, nofun⟩ rfl rfl rfl rfl
    ⟨?_, hflushed, htold⟩ hi.sound hi.nodup rfl (result_cons hi.result ?_)
    fun h => nomatch hlocked h
  · change s.closees = some ((o :: s.closedFiles).reverse ++ rest)
    rw [hclosees, List.reverse_cons, List.append_assoc]
    rfl
  · change (if error ≠ 0 then _ else s.result).error = 0 ↔ _
    split
    · next he => exact iff_of_false (record_ne _ _) fun h => he h.2
    · next he => exact ⟨fun h => ⟨h, Classical.not_not.mp he⟩, fun h => h.1⟩

theorem Inv.collect (hi : s.Inv) (ht : (s.thread t).pc = .files []) :
    Inv (s.setPc t (.finishing false s.backendTable)) := by
  obtain ⟨hscopes, ⟨hclosees, hflushed, htold⟩, hlocked⟩ := hi.place ht ⟨nofun, nofun, nofun⟩
  refine hi.advance (.finishing false _) ht ⟨nofun, nofun⟩ hscopes ⟨nofun, nofun⟩ rfl rfl rfl rfl
    ⟨⟨?_, hflushed⟩, [], rfl, ?_, fun x hx => ?_⟩ hi.sound hi.nodup rfl hi.result
    fun h => nomatch hlocked h
  · change s.closees = some s.closedFiles.reverse
    rw [hclosees, List.append_nil]
  · change s.told.map Told.backend = []
    rw [htold]
    rfl
  · change x ∈ s.told at hx
    rw [htold] at hx
    cases hx

omit [Fintype T] [DecidableEq T] in
/-- A backend of the other kind is passed over. -/
theorem Finished.skip {leaseOwners : Bool} {b : B} {rest : List B}
    (hf : s.Finished leaseOwners (b :: rest)) (hb : s.releasesTerminalLease b ≠ leaseOwners) :
    s.Finished leaseOwners rest := by
  cases leaseOwners with
  | false =>
    obtain ⟨done, htable, htold, hlease⟩ := hf
    have hrel : s.releasesTerminalLease b = true := by simpa using hb
    refine ⟨done ++ [b], by rw [htable, List.append_assoc]; rfl, ?_, hlease⟩
    rw [htold, List.filter_append]
    simp [hrel]
  | true =>
    obtain ⟨hsame, done, last, first, htable, htold, hlast, hlease, hfirst⟩ := hf
    have howner : s.owner b = false := by
      rw [← hsame b List.mem_cons_self]
      simpa using hb
    refine ⟨fun b' hb' => hsame b' (List.mem_cons_of_mem b hb'), done ++ [b], last, first,
      by rw [htable, List.append_assoc]; rfl, htold, ?_, hlease, hfirst⟩
    rw [hlast, List.filter_append]
    simp [howner]

theorem Inv.finish {releases : Bool} [DecidableEq B] (hi : s.Inv)
    (h : s.finish t error releases = some s') : s'.Inv := by
  unfold Drain.finish at h
  split at h
  · next leaseOwners b rest ht =>
      obtain ⟨hscopes, ⟨hcleaned, hfinished⟩, hlocked⟩ := hi.place ht ⟨nofun, nofun, nofun⟩
      split at h
      · next hb =>
          cases h
          exact hi.advance (.finishing leaseOwners rest) ht ⟨nofun, nofun⟩ hscopes ⟨nofun, nofun⟩ rfl rfl
            rfl rfl ⟨⟨hcleaned.closees, hcleaned.flushed⟩, hfinished.skip hb⟩ hi.sound hi.nodup rfl
            hi.result fun h => nomatch hlocked h
      · next hb =>
          cases h
          have hb' : s.releasesTerminalLease b = leaseOwners := Classical.not_not.mp hb
          refine hi.advance (.finishing leaseOwners rest) ht ⟨nofun, nofun⟩ hscopes ⟨nofun, nofun⟩ rfl rfl
            rfl rfl ⟨⟨hcleaned.closees, hcleaned.flushed⟩, ?_⟩ hi.sound hi.nodup rfl
            (result_cons hi.result ?_) fun h => nomatch hlocked h
          · cases leaseOwners with
            | false =>
              obtain ⟨done, htable, htold, hlease⟩ := hfinished
              refine ⟨done ++ [b], by rw [List.append_assoc]; exact htable, ?_, fun x hx => ?_⟩
              · change b :: s.told.map Told.backend =
                  ((done ++ [b]).filter fun b => !s.releasesTerminalLease b).reverse
                rw [htold, List.filter_append]
                simp [hb']
              · rcases List.mem_cons.mp hx with rfl | hx
                · rfl
                · exact hlease x hx
            | true =>
              obtain ⟨hsame, done, last, first, htable, htold, hlast, hlease, hfirst⟩ := hfinished
              have howner : s.owner b = true := (hsame b List.mem_cons_self).symm.trans hb'
              have hnodup := hi.backends
              rw [htable] at hnodup
              have hnot : b ∉ rest := (List.nodup_cons.mp (List.nodup_append.mp hnodup).2.1).1
              refine ⟨fun b' hmem => ?_, done ++ [b], ⟨b, true, decide (s.result.error = 0)⟩ :: last,
                first, by rw [List.append_assoc]; exact htable, congrArg (_ :: ·) htold, ?_,
                fun x hx => ?_, hfirst⟩
              · have hne : b' ≠ b := by
                  rintro rfl
                  exact hnot hmem
                exact (Function.update_of_ne hne ..).trans (hsame b' (List.mem_cons_of_mem b hmem))
              · change b :: last.map Told.backend = ((done ++ [b]).filter s.owner).reverse
                rw [hlast, List.filter_append]
                simp [howner]
              · rcases List.mem_cons.mp hx with rfl | hx
                · rfl
                · exact hlease x hx
          · change (if error ≠ 0 then _ else s.result).error = 0 ↔ _
            split
            · next he => exact iff_of_false (record_ne _ _) fun h => he h.2
            · next he => exact ⟨fun h => ⟨h, Classical.not_not.mp he⟩, fun h => h.1⟩
  · cases h

omit [DecidableEq T] in
/-- The places of the threads are what they were. -/
theorem Inv.same_stage (hi : s.Inv) (hfence : s'.Fence) (hpc : ∀ u, (s'.thread u).pc = (s.thread u).pc)
    (hstage : ∀ pc, s.Stage pc → s'.Stage pc)
    (hstate : s'.terminalState = s.terminalState)
    (hbefore : s.terminalState = .running → s'.Blank ∧ s'.outcomes = [])
    (hafter : s.terminalState = .drained ∨ s.terminalState = .failed → s'.Stage (.finishing true []))
    (hsound : s'.closees = none → s'.fs.Sound) (hclosees : s'.closees = s.closees)
    (hbackends : s'.backendTable.Nodup) (hresult : s'.result = s.result)
    (houtcomes : s'.outcomes = s.outcomes) (hlocked : s'.tableLocked = s.tableLocked) : s'.Inv := by
  refine ⟨hfence, fun u => ?_, ?_, ?_, hsound, ?_, hbackends, ?_, fun h => ?_⟩
  · rw [hpc]
    exact hstage _ (hi.stage u)
  · rw [hstate]
    exact hbefore
  · rw [hstate]
    exact hafter
  · rw [hclosees]
    exact hi.nodup
  · rw [hresult, houtcomes]
    exact hi.result
  · rw [hlocked] at h
    obtain ⟨u, closees, hu⟩ := hi.locked h
    exact ⟨u, closees, (hpc u).trans hu⟩


/-- The ordinary backends are finalized, and the turn of the lease owners comes. -/
theorem Inv.pass (hi : s.Inv) (h : s.pass t = some s') : s'.Inv := by
  unfold Drain.pass at h
  split at h
  · next ht =>
      cases h
      obtain ⟨hscopes, ⟨hcleaned, done, htable, htold, hlease⟩, hlocked⟩ :=
        hi.place ht ⟨nofun, nofun, nofun⟩
      rw [List.append_nil] at htable
      refine hi.advance (.finishing true s.backendTable) ht ⟨nofun, nofun⟩ hscopes ⟨nofun, nofun⟩ rfl rfl
        rfl rfl ⟨⟨hcleaned.closees, hcleaned.flushed⟩, fun _ _ => rfl, [], [], s.told, rfl, rfl, rfl,
          nofun, ?_, hlease⟩ hi.sound hi.nodup rfl hi.result fun h => nomatch hlocked h
      rw [← htable] at htold
      exact htold
  · next ht =>
      cases h
      obtain ⟨hscopes, hstage, hlocked⟩ := hi.place ht ⟨nofun, nofun, nofun⟩
      have hidle : (s.thread t).pc ≠ .idle := by rw [ht]; nofun
      have hend : (if s.result.error = 0 then TerminalState.drained else .failed) ≠ .running := by
        split <;> nofun
      have hover := hi.toFence.over hidle (by rw [ht]; nofun) hscopes hend
      have hall : ∀ u, u ≠ t → (s.thread u).pc = .idle := fun u hu =>
        Classical.byContradiction fun h => hu (hi.unique u t h hidle)
      refine ⟨hover, fun u => ?_, fun h => ?_, fun _ => ⟨⟨hstage.1.closees, hstage.1.flushed⟩, hstage.2⟩,
        hi.sound, hi.nodup, hi.backends, hi.result, fun h => nomatch hlocked h⟩
      · by_cases hu : u = t
        · subst hu
          simp only [setPc, setThread, Function.update_self]
          trivial
        · simp only [setPc, setThread, Function.update_of_ne hu, hall u hu]
          trivial
      · change (if s.result.error = 0 then TerminalState.drained else .failed) = .running at h
        split at h
        · cases h
        · cases h
  · cases h

/-! ### The other steps -/

omit [Fintype T] [DecidableEq T] in
theorem Stage.work {fs : FS} {backendTable : List B} {releasesTerminalLease : B → Bool}
    (h : s.Stage pc) (hpc : pc = .idle ∨ pc = .waiting ∨ pc = .flushing) :
    Stage { s with
      fs := fs
      backendTable := backendTable
      releasesTerminalLease := releasesTerminalLease } pc := by
  rcases hpc with rfl | rfl | rfl
  · trivial
  · exact ⟨⟨h.1.closees, h.1.flushed, h.1.closed, h.1.told⟩, h.2⟩
  · exact ⟨⟨h.1.closees, h.1.flushed, h.1.closed, h.1.told⟩, h.2⟩

omit [DecidableEq T] in
/-- Work is done under an operation, so before the table is emptied. -/
theorem Inv.work {fs : FS} {backendTable : List B} {releasesTerminalLease : B → Bool} (hi : s.Inv)
    (hscopes : (s.thread t).scopes ≠ []) (hfs : Relation.ReflTransGen WasmFS.Step s.fs fs)
    (hnodup : backendTable.Nodup) :
    Inv { s with
      fs := fs
      backendTable := backendTable
      releasesTerminalLease := releasesTerminalLease } := by
  have hopen : ¬ s.Closed := fun hc => hscopes (hi.no_scopes hc t)
  have hplace : ∀ u, (s.thread u).pc = .idle ∨ (s.thread u).pc = .waiting ∨
      (s.thread u).pc = .flushing := by
    intro u
    refine Classical.byContradiction fun h => hopen (.inr ⟨u, ?_⟩)
    push Not at h
    exact h
  refine ⟨⟨hi.count, hi.shape, hi.unique, hi.draining, hi.running, hi.waiting, hi.bodies, hi.quiet⟩,
    fun u => Stage.work (hi.stage u) (hplace u), fun h => ?_, fun h => absurd ?_ hopen, fun h => ?_,
    hi.nodup, hnodup, hi.result, hi.locked⟩
  · obtain ⟨hblank, hout⟩ := hi.before h
    exact ⟨⟨hblank.closees, hblank.flushed, hblank.closed, hblank.told⟩, hout⟩
  · refine .inl ?_
    rcases h with h | h
    · rw [show s.terminalState = .drained from h]
      exact ⟨nofun, nofun⟩
    · rw [show s.terminalState = .failed from h]
      exact ⟨nofun, nofun⟩
  · -- a run of calls keeps the table sound
    have hsound := hi.sound h
    clear h
    induction hfs with
    | refl => exact hsound
    | tail _ hstep ih => exact FS.Sound.step ih hstep

omit [Fintype T] [DecidableEq T] in
theorem Stage.same (h : s.Stage pc) (hclosees : s'.closees = s.closees)
    (hflushed : s'.flushedFiles = s.flushedFiles) (hclosed : s'.closedFiles = s.closedFiles)
    (htold : s'.told = s.told) (houtcomes : s'.outcomes = s.outcomes)
    (htable : s'.backendTable = s.backendTable)
    (hreleases : s'.releasesTerminalLease = s.releasesTerminalLease) (howner : s'.owner = s.owner) :
    s'.Stage pc := by
  have hblank : s.Blank → s'.Blank := fun h => ⟨hclosees.trans h.closees, hflushed.trans h.flushed,
    hclosed.trans h.closed, htold.trans h.told⟩
  cases pc with
  | idle => trivial
  | waiting => exact ⟨hblank h.1, houtcomes.trans h.2⟩
  | flushing => exact ⟨hblank h.1, houtcomes.trans h.2⟩
  | flushed => exact hblank h
  | finishing leaseOwners rest =>
    obtain ⟨hcleaned, hfinished⟩ := h
    refine ⟨⟨?_, ?_⟩, ?_⟩
    · rw [hclosees, hclosed]
      exact hcleaned.closees
    · rw [hflushed, hclosed]
      exact hcleaned.flushed
    · cases leaseOwners with
      | false =>
        simp only [Finished, htold, htable, hreleases]
        exact hfinished
      | true =>
        simp only [Finished, htold, htable, hreleases, howner]
        exact hfinished
  | _ =>
    simp only [Stage, hclosees, hflushed, hclosed, htold]
    exact h

/-- Only the operations of the thread change, and the count. -/
theorem Inv.setScopes {n : Nat} {scopes : List OperationScope} (hi : s.Inv)
    (hfence : Fence ({ s with activeOperations := n }.setThread t
      { s.thread t with scopes := scopes })) :
    Inv ({ s with activeOperations := n }.setThread t { s.thread t with scopes := scopes }) := by
  have hpc : ∀ u, (({ s with activeOperations := n }.setThread t
      { s.thread t with scopes := scopes } : Drain T B).thread u).pc = (s.thread u).pc := by
    intro u
    by_cases hu : u = t
    · subst hu
      rw [setThread_self]
    · rw [setThread_other hu]
  have hstage : ∀ pc, s.Stage pc → Stage ({ s with activeOperations := n }.setThread t
      { s.thread t with scopes := scopes }) pc := fun pc h => h.same rfl rfl rfl rfl rfl rfl rfl rfl
  refine hi.same_stage hfence hpc hstage rfl (fun h => ?_) (fun h => hstage _ (hi.after h))
    hi.sound rfl hi.backends rfl rfl rfl
  obtain ⟨hblank, hout⟩ := hi.before h
  exact ⟨⟨hblank.closees, hblank.flushed, hblank.closed, hblank.told⟩, hout⟩

theorem Inv.enter {kind : OperationKind} (hi : s.Inv) (h : s.enter t kind = some s') : s'.Inv := by
  have hfence := (hi.toFence.enter h).1
  unfold Drain.enter at h
  split at h
  · split at h
    · cases h
      exact hi
    · split at h
      · cases h
        exact hi.setScopes hfence
      · cases h
        exact hi.setScopes hfence
  · split at h
    · cases h
      exact hi.setScopes hfence
    · split at h
      · cases h
        exact hi
      · cases h
        exact hi.setScopes hfence
  · cases h

theorem Inv.leave (hi : s.Inv) (h : s.leave t = some s') : s'.Inv := by
  have hfence := hi.toFence.leave h
  unfold Drain.leave at h
  split at h
  · cases h
  · cases h
    exact hi.setScopes hfence
  · cases h
    exact hi.setScopes hfence

theorem Inv.drain (hi : s.Inv) (h : s.drain main t = some s') : s'.Inv := by
  unfold Drain.drain at h
  split at h
  · next ht =>
      split at h
      · cases h
        exact hi
      · next hgate =>
          cases h
          simp only [not_or, Classical.not_not] at hgate
          obtain ⟨-, hscopes, -, hrun⟩ := hgate
          obtain ⟨hblank, hout⟩ := hi.before hrun
          have hall : ∀ u, (s.thread u).pc = .idle := by
            intro u
            refine Classical.byContradiction fun hu => ?_
            have hdrain := hi.draining u hu
            rw [hrun] at hdrain
            cases hdrain
          refine ⟨hi.toFence.drain ht hrun hscopes, fun u => ?_, nofun, fun h => ?_, hi.sound, hi.nodup,
            hi.backends, hi.result, fun h => ?_⟩
          · by_cases hu : u = t
            · subst hu
              simp only [setPc, setThread, Function.update_self]
              exact ⟨⟨hblank.closees, hblank.flushed, hblank.closed, hblank.told⟩, hout⟩
            · simp only [setPc, setThread, Function.update_of_ne hu, hall u]
              trivial
          · rcases h with h | h
            · cases h
            · cases h
          · obtain ⟨u, closees, hu⟩ := hi.locked h
            rw [hall u] at hu
            cases hu
  · cases h
    exact hi
  · cases h

theorem Inv.wake (hi : s.Inv) (ht : (s.thread t).pc = .waiting) (hzero : s.activeOperations = 0) :
    Inv ({ s with result := .new, bodies := s.bodies + 1 }.setPc t .flushing) := by
  have hidle : (s.thread t).pc ≠ .idle := by rw [ht]; nofun
  have hdraining := hi.draining t hidle
  have hstage := hi.stage t
  rw [ht] at hstage
  obtain ⟨hblank, hout⟩ := hstage
  refine ⟨hi.toFence.wake ht hzero, fun u => ?_, fun h => ?_, fun h => ?_, hi.sound, hi.nodup,
    hi.backends, ?_, fun h => ?_⟩
  · by_cases hu : u = t
    · subst hu
      simp only [setPc, setThread, Function.update_self]
      exact ⟨⟨hblank.closees, hblank.flushed, hblank.closed, hblank.told⟩, hout⟩
    · have hother : (s.thread u).pc = .idle :=
        Classical.byContradiction fun h => hu (hi.unique u t h hidle)
      simp only [setPc, setThread, Function.update_of_ne hu, hother]
      trivial
  · change s.terminalState = .running at h
    rw [hdraining] at h
    cases h
  · change s.terminalState = .drained ∨ s.terminalState = .failed at h
    rw [hdraining] at h
    rcases h with h | h
    · cases h
    · cases h
  · change (0 : Int) = 0 ↔ ∀ e ∈ s.outcomes, e = 0
    rw [hout]
    exact iff_of_true rfl nofun
  · obtain ⟨u, closees, hu⟩ := hi.locked h
    have hut : u = t := hi.unique u t (by rw [hu]; nofun) hidle
    rw [hut, ht] at hu
    cases hu

omit [DecidableEq T] in
theorem Inv.scopedDrain {b : Bool} (hi : s.Inv) :
    Inv { s with scopedProfileDrainInProgress := b } := by
  have hstage : ∀ pc, s.Stage pc → Stage { s with scopedProfileDrainInProgress := b } pc :=
    fun pc h => h.same rfl rfl rfl rfl rfl rfl rfl rfl
  refine hi.same_stage
    ⟨hi.count, hi.shape, hi.unique, hi.draining, hi.running, hi.waiting, hi.bodies, hi.quiet⟩
    (fun _ => rfl) hstage rfl (fun h => ?_) (fun h => hstage _ (hi.after h))
    hi.sound rfl hi.backends rfl rfl rfl
  obtain ⟨hblank, hout⟩ := hi.before h
  exact ⟨⟨hblank.closees, hblank.flushed, hblank.closed, hblank.told⟩, hout⟩

/-! ## Every run -/

theorem Inv.step [DecidableEq B] {a : DrainAction T B} (hi : s.Inv) (hp : s.Permits a)
    (h : s.step main a = some s') : s'.Inv := by
  cases a with
  | enter t kind => exact hi.enter h
  | leave t => exact hi.leave h
  | work t fs backendTable releasesTerminalLease =>
    change (if _ then _ else none) = some s' at h
    split at h
    · next hgate =>
        cases h
        exact hi.work hgate.1 hp.1 hp.2
    · cases h
  | scopedDrain begins =>
    change (if _ then (if _ then _ else none) else _) = some s' at h
    split at h
    · split at h
      · cases h
        exact hi.scopedDrain
      · cases h
    · cases h
      exact hi.scopedDrain
  | drain t => exact hi.drain h
  | wake t =>
    simp only [Drain.step] at h
    split at h
    · next ht =>
        split at h
        · next hzero =>
            cases h
            exact hi.wake ht hzero
        · cases h
    · cases h
  | fflush t eof errno =>
    simp only [Drain.step] at h
    split at h
    · next ht =>
        split at h
        · next hscopes =>
            cases h
            exact hi.fflush ht hscopes
        · cases h
    · cases h
  | detach t =>
    simp only [Drain.step] at h
    split at h
    · next ht =>
        cases h
        exact hi.detach ht
    · cases h
  | unlock t =>
    simp only [Drain.step] at h
    split at h
    · next ht =>
        cases h
        exact hi.unlock ht
    · cases h
  | flush t error =>
    simp only [Drain.step] at h
    split at h
    · next ht =>
        cases h
        exact hi.flush ht
    · cases h
  | close t error =>
    simp only [Drain.step] at h
    split at h
    · next ht =>
        cases h
        exact hi.close ht
    · cases h
  | collect t =>
    simp only [Drain.step] at h
    split at h
    · next ht =>
        cases h
        exact hi.collect ht
    · cases h
  | finish t error releases => exact hi.finish h
  | pass t => exact hi.pass h

omit [DecidableEq T] in
theorem init_inv (root : FileId) (env : Env) : (init (FS.init root env) : Drain T B).Inv where
  count := (total_eq_zero fun _ => rfl).symm
  shape _ := trivial
  unique _ _ h := absurd rfl h
  draining _ h := absurd rfl h
  running _ := rfl
  waiting _ _ := rfl
  bodies := Nat.zero_le 1
  quiet h := absurd rfl h
  stage _ := trivial
  before _ := ⟨⟨rfl, rfl, rfl, rfl⟩, rfl⟩
  after h := by rcases h with h | h <;> cases h
  sound _ := sound_init root env
  nodup := nofun
  backends := List.nodup_nil
  result := iff_of_true rfl nofun
  locked := nofun

theorem reaches_inv [DecidableEq B] {root : FileId} {env : Env}
    (h : Reaches (Drain.step main) Permits (init (FS.init root env)) s) : s.Inv :=
  h.invariant (init_inv root env) fun _ _ _ hi hp hs => hi.step hp hs

end

end Drain

end WasmFS
