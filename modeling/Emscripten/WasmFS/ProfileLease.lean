-- SUMMARY: The admission domain of a leased OPFS profile: tokens, internal operations and the drain's seal, in any interleaving.
import Emscripten.Lib.ThreadPool
import Emscripten.WasmFS.Basic

/-!
# The profile lease

`ProfileLeaseState` counts the operations a leased profile has let in. A public
WasmFS operation takes an external token at its first contact with the backend
and keeps it to its end; the backend's own virtual functions open an
`InternalOperation` each. `beginDrain` seals the domain and waits for the count
to reach zero.

The scopes a thread has open are kept as a stack, innermost first, because the
objects are C++ locals: an `InternalOperation` ends before the outer operation
gives its token back.
-/

namespace WasmFS

open ThreadPool

inductive LeaseState
  | unleased
  | active
  | sealing
  | released
  | retiring
  | retired
  | failed
deriving DecidableEq, Repr

/-- An admission a thread holds: an external token, an `InternalOperation` that was
counted, or one that was let in without being counted. -/
inductive LeaseScope
  | token
  | tracked
  | untracked
deriving DecidableEq, Repr

/-- Where a thread stands with `beginDrain`: not in it, blocked in its wait, or past
it, with `drainState` pointing to the lease. -/
inductive DrainPhase
  | idle
  | waiting
  | draining
deriving DecidableEq, Repr

structure LeaseThread where
  scopes : List LeaseScope
  drain : DrainPhase
deriving DecidableEq, Repr

structure Lease (T : Type) where
  state : LeaseState
  activeOperations : Nat
  thread : T → LeaseThread
  /-- Ghost: how many calls of `beginDrain` have returned 0. -/
  begun : Nat

inductive LeaseAction
  | admitBackend
  | releaseExternalOperation
  | enterInternal
  | leaveInternal
  | beginDrain
  | beginDrainReturns
  | finishDrain (leaseReleased : Bool)
  | beginRetirement
  | finishRetirement (success : Bool)
deriving DecidableEq, Repr

/-- The actions by which a thread asks to be let in. -/
def LeaseAction.asksAdmission : LeaseAction → Bool
  | .admitBackend | .enterInternal => true
  | _ => false

namespace Lease

variable {T : Type} [DecidableEq T]

/-! ## The steps -/

/-- The lease as a leased backend gets it, before any thread has seen the backend. -/
def acquired : Lease T := ⟨.active, 0, fun _ => ⟨[], .idle⟩, 0⟩

def setThread (s : Lease T) (t : T) (l : LeaseThread) : Lease T :=
  { s with thread := Function.update s.thread t l }

/-- Open a scope of thread `t`. -/
def push (s : Lease T) (t : T) (c : LeaseScope) : Lease T :=
  s.setThread t { s.thread t with scopes := c :: (s.thread t).scopes }

/-- `Operation::admitBackend` of the outermost operation of `t`: a backend it has
admitted already is not asked again, and the draining thread's stdio writes pass
without a token. -/
def admitBackend (s : Lease T) (t : T) : Lease T × Except Errno Unit :=
  if (s.thread t).drain = .draining ∨ LeaseScope.token ∈ (s.thread t).scopes then (s, .ok ())
  else match s.state with
    | .unleased => (s, .ok ())
    | .active => ({ s with activeOperations := s.activeOperations + 1 }.push t .token, .ok ())
    | _ => (s, .error .ESHUTDOWN)

/-- The constructor of `InternalOperation`. -/
def enterInternal (s : Lease T) (t : T) : Lease T × Except Errno Unit :=
  match s.state with
  | .unleased => (s.push t .untracked, .ok ())
  | .active => ({ s with activeOperations := s.activeOperations + 1 }.push t .tracked, .ok ())
  | .sealing =>
    if (s.thread t).drain = .draining ∨ LeaseScope.token ∈ (s.thread t).scopes then
      (s.push t .untracked, .ok ())
    else (s, .error .ESHUTDOWN)
  | _ => (s, .error .ESHUTDOWN)

/-- `beginDrain` up to its wait. -/
def beginDrain (s : Lease T) (t : T) : Lease T × Except Errno Unit :=
  match s.state with
  | .unleased => (s, .error .ENOTSUP)
  | .sealing => (s, .error .EBUSY)
  | .active => ({ s with state := .sealing }.setThread t { s.thread t with drain := .waiting },
      .ok ())
  | _ => (s, .error .ESHUTDOWN)

/-- `beginDrain` once its wait is over. -/
def beginDrainReturns (s : Lease T) (t : T) : Option (Lease T × Except Errno Unit) :=
  if s.activeOperations = 0 then
    some ({ s with begun := s.begun + 1 }.setThread t { s.thread t with drain := .draining }, .ok ())
  else none

/-- A step of a thread that is not blocked; `none` where the action is not its next one. -/
def act (s : Lease T) (t : T) : LeaseAction → Option (Lease T × Except Errno Unit)
  | .admitBackend => some (s.admitBackend t)
  | .releaseExternalOperation =>
    match (s.thread t).scopes with
    | .token :: rest =>
      some ({ s with activeOperations := s.activeOperations - 1 }.setThread t
        { s.thread t with scopes := rest }, .ok ())
    | _ => none
  | .enterInternal => some (s.enterInternal t)
  | .leaveInternal =>
    match (s.thread t).scopes with
    | .tracked :: rest =>
      some ({ s with activeOperations := s.activeOperations - 1 }.setThread t
        { s.thread t with scopes := rest }, .ok ())
    | .untracked :: rest => some (s.setThread t { s.thread t with scopes := rest }, .ok ())
    | _ => none
  | .beginDrain => if (s.thread t).drain = .idle then some (s.beginDrain t) else none
  | .beginDrainReturns => none
  | .finishDrain leaseReleased =>
    if (s.thread t).drain = .draining ∧ (s.thread t).scopes = [] then
      if s.state = .sealing then
        some ({ s with state := if leaseReleased then .released else .failed }.setThread t
          { s.thread t with drain := .idle }, .ok ())
      else some (s.setThread t { s.thread t with drain := .idle }, .error .ESHUTDOWN)
    else none
  | .beginRetirement =>
    if s.state = .released then some ({ s with state := .retiring }, .ok ())
    else some (s, .error .ESHUTDOWN)
  | .finishRetirement success =>
    if s.state = .retiring then
      some ({ s with state := if success then .retired else .retiring }, .ok ())
    else none

/-- One step of thread `t`. A thread blocked in `beginDrain` only wakes up. -/
def step (s : Lease T) (t : T) (a : LeaseAction) : Option (Lease T × Except Errno Unit) :=
  if (s.thread t).drain = .waiting then
    if a = .beginDrainReturns then s.beginDrainReturns t else none
  else s.act t a

/-- Some thread takes some step. -/
def Step (s s' : Lease T) : Prop := ∃ t a r, s.step t a = some (s', r)

/-- The lease after `steps`, each of which its thread must be able to take. -/
def exec (s : Lease T) : List (T × LeaseAction) → Option (Lease T)
  | [] => some s
  | (t, a) :: steps => (s.step t a).bind fun p => p.1.exec steps

/-! ## The invariant -/

/-- How many of its scopes a thread had counted. -/
def counted (l : LeaseThread) : Nat := l.scopes.countP (· ≠ .untracked)

/-- Every uncounted operation runs under a token of its thread. -/
def UnderToken : List LeaseScope → Prop
  | [] => True
  | .untracked :: rest => .token ∈ rest ∧ UnderToken rest
  | _ :: rest => UnderToken rest

structure Inv [Fintype T] (s : Lease T) : Prop where
  count : s.activeOperations = total counted s.thread
  leased : s.state ≠ .unleased
  sealed : ∀ t, (s.thread t).drain ≠ .idle → s.state = .sealing
  unique : ∀ t u, (s.thread t).drain ≠ .idle → (s.thread u).drain ≠ .idle → t = u
  underToken : ∀ t, (s.thread t).drain = .draining ∨ UnderToken (s.thread t).scopes
  quiet : ∀ t, (s.thread t).drain = .draining → s.activeOperations = 0
  ended : s.state ≠ .active → s.state ≠ .sealing → s.activeOperations = 0
  begun_active : s.state = .active → s.begun = 0
  begun_waiting : ∀ t, (s.thread t).drain = .waiting → s.begun = 0
  begun_le : s.begun ≤ 1

theorem UnderToken.token_mem {l : List LeaseScope} (h : UnderToken l) (hu : .untracked ∈ l) :
    .token ∈ l := by
  induction l with
  | nil => cases hu
  | cons c rest ih =>
    cases c with
    | token => exact List.mem_cons_self
    | tracked =>
      rcases List.mem_cons.mp hu with hc | hu
      · cases hc
      · exact List.mem_cons_of_mem _ (ih h hu)
    | untracked => exact List.mem_cons_of_mem _ h.1

theorem UnderToken.tail {c : LeaseScope} {l : List LeaseScope} (h : UnderToken (c :: l)) :
    UnderToken l := by
  cases c with
  | token => exact h
  | tracked => exact h
  | untracked => exact h.2

/-- A thread that holds no counted admission holds none at all. -/
theorem scopes_eq_nil {l : LeaseThread} (h : counted l = 0) (hu : UnderToken l.scopes) :
    l.scopes = [] := by
  have hall : ∀ c ∈ l.scopes, c = .untracked := by
    intro c hc
    have hne := List.countP_eq_zero.mp h c hc
    simpa using hne
  cases hs : l.scopes with
  | nil => rfl
  | cons c rest =>
    rw [hs] at hall hu
    obtain rfl := hall c List.mem_cons_self
    have htoken := hall _ (List.mem_cons_of_mem _ hu.1)
    cases htoken

@[simp] theorem setThread_state (s : Lease T) (t : T) (l : LeaseThread) :
    (s.setThread t l).state = s.state := rfl

@[simp] theorem setThread_activeOperations (s : Lease T) (t : T) (l : LeaseThread) :
    (s.setThread t l).activeOperations = s.activeOperations := rfl

@[simp] theorem setThread_begun (s : Lease T) (t : T) (l : LeaseThread) :
    (s.setThread t l).begun = s.begun := rfl

@[simp] theorem setThread_self (s : Lease T) (t : T) (l : LeaseThread) :
    (s.setThread t l).thread t = l := Function.update_self ..

theorem setThread_thread (s : Lease T) (t : T) (l : LeaseThread) :
    (s.setThread t l).thread = Function.update s.thread t l := rfl

/-! ## What one step can do -/

/-- The effects of a step of thread `t`, with what held before each of them. -/
inductive Effect (s : Lease T) (t : T) : Lease T → Prop
  | none : Effect s t s
  | letIn (c : LeaseScope) (hc : c ≠ .untracked) (hactive : s.state = .active) :
      Effect s t ({ s with activeOperations := s.activeOperations + 1 }.push t c)
  | letInSealed (hsealing : s.state = .sealing)
      (hentitled : (s.thread t).drain = .draining ∨ .token ∈ (s.thread t).scopes) :
      Effect s t (s.push t .untracked)
  | leave (c : LeaseScope) (rest : List LeaseScope) (hc : c ≠ .untracked)
      (hscopes : (s.thread t).scopes = c :: rest) :
      Effect s t ({ s with activeOperations := s.activeOperations - 1 }.setThread t
        { s.thread t with scopes := rest })
  | leaveUncounted (rest : List LeaseScope) (hscopes : (s.thread t).scopes = .untracked :: rest) :
      Effect s t (s.setThread t { s.thread t with scopes := rest })
  | close (hactive : s.state = .active) (hidle : (s.thread t).drain = .idle) :
      Effect s t ({ s with state := .sealing }.setThread t { s.thread t with drain := .waiting })
  | begin (hwaiting : (s.thread t).drain = .waiting) (hzero : s.activeOperations = 0) :
      Effect s t ({ s with begun := s.begun + 1 }.setThread t
        { s.thread t with drain := .draining })
  | finish (st : LeaseState) (hst : st = .released ∨ st = .failed)
      (hdraining : (s.thread t).drain = .draining) (hscopes : (s.thread t).scopes = []) :
      Effect s t ({ s with state := st }.setThread t { s.thread t with drain := .idle })
  | settle (st : LeaseState) (hbefore : s.state = .released ∨ s.state = .retiring)
      (hst : st = .retiring ∨ st = .retired) : Effect s t { s with state := st }

variable {s s' : Lease T} {t : T} {a : LeaseAction} {r : Except Errno Unit}

theorem effect_admitBackend (hleased : s.state ≠ .unleased) : Effect s t (s.admitBackend t).1 := by
  unfold admitBackend
  split
  · exact .none
  · split
    · exact absurd ‹_› hleased
    · exact .letIn .token (by decide) ‹_›
    · exact .none

theorem effect_enterInternal (hleased : s.state ≠ .unleased) :
    Effect s t (s.enterInternal t).1 := by
  unfold enterInternal
  split
  · exact absurd ‹_› hleased
  · exact .letIn .tracked (by decide) ‹_›
  · split
    · exact .letInSealed ‹_› ‹_›
    · exact .none
  · exact .none

theorem effect_beginDrain (hidle : (s.thread t).drain = .idle) :
    Effect s t (s.beginDrain t).1 := by
  unfold beginDrain
  split
  · exact .none
  · exact .none
  · exact .close ‹_› hidle
  · exact .none

/-- Every step of an unblocked thread has one of the effects. That a draining thread
finds the domain sealed is part of the invariant; without it `finishDrain` would report
`ESHUTDOWN`. -/
theorem effect_of_act (hleased : s.state ≠ .unleased)
    (hsealed : (s.thread t).drain ≠ .idle → s.state = .sealing)
    (h : s.act t a = some (s', r)) : Effect s t s' := by
  cases a with
  | admitBackend =>
    have hs : (s.admitBackend t).1 = s' := congrArg Prod.fst (Option.some.inj h)
    exact hs ▸ effect_admitBackend hleased
  | enterInternal =>
    have hs : (s.enterInternal t).1 = s' := congrArg Prod.fst (Option.some.inj h)
    exact hs ▸ effect_enterInternal hleased
  | beginDrain =>
    simp only [act, Option.ite_none_right_eq_some] at h
    obtain ⟨hidle, h⟩ := h
    have hs : (s.beginDrain t).1 = s' := congrArg Prod.fst (Option.some.inj h)
    exact hs ▸ effect_beginDrain hidle
  | beginDrainReturns => cases h
  | releaseExternalOperation =>
    simp only [act] at h
    split at h
    · cases h
      exact .leave .token _ (by decide) ‹_›
    · cases h
  | leaveInternal =>
    simp only [act] at h
    split at h
    · cases h
      exact .leave .tracked _ (by decide) ‹_›
    · cases h
      exact .leaveUncounted _ ‹_›
    · cases h
  | finishDrain leaseReleased =>
    simp only [act, Option.ite_none_right_eq_some] at h
    obtain ⟨⟨hdraining, hscopes⟩, h⟩ := h
    rw [if_pos (hsealed (by rw [hdraining]; decide))] at h
    cases h
    refine .finish _ ?_ hdraining hscopes
    cases leaseReleased with
    | true => exact .inl rfl
    | false => exact .inr rfl
  | beginRetirement =>
    simp only [act] at h
    split at h
    · cases h
      exact .settle .retiring (.inl ‹_›) (.inl rfl)
    · cases h
      exact .none
  | finishRetirement success =>
    simp only [act, Option.ite_none_right_eq_some] at h
    obtain ⟨hretiring, h⟩ := h
    cases h
    refine .settle _ (.inr hretiring) ?_
    cases success with
    | true => exact .inr rfl
    | false => exact .inl rfl

theorem effect_of_step (hleased : s.state ≠ .unleased)
    (hsealed : (s.thread t).drain ≠ .idle → s.state = .sealing)
    (h : s.step t a = some (s', r)) : Effect s t s' := by
  unfold step at h
  split at h
  · simp only [beginDrainReturns, Option.ite_none_right_eq_some] at h
    obtain ⟨_, hzero, h⟩ := h
    cases h
    exact .begin ‹_› hzero
  · exact effect_of_act hleased hsealed h

/-! ## The invariant holds in every run -/

section Invariant

variable [Fintype T]

omit [DecidableEq T] in
theorem inv_acquired : Inv (acquired : Lease T) where
  count := (total_eq_zero fun _ => rfl).symm
  leased := by intro h; cases h
  sealed := by intro t h; exact absurd rfl h
  unique := by intro t u h; exact absurd rfl h
  underToken := fun _ => .inr trivial
  quiet := by intro t h; cases h
  ended := fun _ _ => rfl
  begun_active := fun _ => rfl
  begun_waiting := fun _ _ => rfl
  begun_le := Nat.zero_le _

omit [Fintype T] in
theorem forall_setThread {P : T → LeaseThread → Prop} {l : LeaseThread}
    (h : ∀ u, u ≠ t → P u (s.thread u)) (ht : P t l) (u : T) : P u ((s.setThread t l).thread u) := by
  by_cases hu : u = t
  · subst hu
    rwa [setThread_self]
  · rw [setThread_thread, Function.update_of_ne hu]
    exact h u hu

theorem total_setDrain (s : Lease T) (t : T) (d : DrainPhase) :
    total counted (Function.update s.thread t { s.thread t with drain := d }) =
      total counted s.thread :=
  Nat.add_right_cancel (total_update counted s.thread t { s.thread t with drain := d })

/-- Opening and closing scopes: the count moves with the thread's counted scopes, and
leaves zero only while the lease is active. -/
theorem Inv.setScopes (hi : Inv s) (n : Nat) (scopes : List LeaseScope)
    (hcount : n + counted (s.thread t) =
      s.activeOperations + counted { s.thread t with scopes := scopes })
    (hunder : (s.thread t).drain = .draining ∨ UnderToken scopes)
    (hzero : s.activeOperations = 0 → n = 0 ∨ s.state = .active) :
    Inv ({ s with activeOperations := n }.setThread t { s.thread t with scopes := scopes }) := by
  have hdrain : ∀ u, (({ s with activeOperations := n }.setThread t
      { s.thread t with scopes := scopes }).thread u).drain = (s.thread u).drain :=
    forall_setThread (P := fun u l => l.drain = (s.thread u).drain) (fun _ _ => rfl) rfl
  refine ⟨?_, hi.leased, ?_, ?_, ?_, ?_, ?_, hi.begun_active, ?_, hi.begun_le⟩
  · have hupdate := total_update counted s.thread t { s.thread t with scopes := scopes }
    have hbefore := hi.count
    simp only [setThread_activeOperations, setThread_thread] at hupdate hcount ⊢
    omega
  · intro u hu
    exact hi.sealed u (hdrain u ▸ hu)
  · intro u v hu hv
    exact hi.unique u v (hdrain u ▸ hu) (hdrain v ▸ hv)
  · exact forall_setThread (P := fun _ l => l.drain = .draining ∨ UnderToken l.scopes)
      (fun u _ => hi.underToken u) hunder
  · intro u hu
    rw [hdrain] at hu
    rcases hzero (hi.quiet u hu) with hn | hactive
    · exact hn
    · have hsealing := hi.sealed u (by rw [hu]; decide)
      rw [hsealing] at hactive
      cases hactive
  · intro hactive hsealing
    rcases hzero (hi.ended hactive hsealing) with hn | hact
    · exact hn
    · exact absurd hact hactive
  · intro u hu
    exact hi.begun_waiting u (hdrain u ▸ hu)

omit [DecidableEq T] in
theorem Inv.idle_of_not_sealing (hi : Inv s) (h : s.state ≠ .sealing) (u : T) :
    (s.thread u).drain = .idle := by
  by_contra hu
  exact h (hi.sealed u hu)

omit [DecidableEq T] in
theorem Inv.underToken_of_idle (hi : Inv s) {u : T} (h : (s.thread u).drain ≠ .draining) :
    UnderToken (s.thread u).scopes :=
  (hi.underToken u).resolve_left h

theorem Inv.seal (hi : Inv s) (hactive : s.state = .active) :
    Inv ({ s with state := .sealing }.setThread t { s.thread t with drain := .waiting }) := by
  have hidle := hi.idle_of_not_sealing (by rw [hactive]; decide)
  refine ⟨?_, ?_, fun _ _ => rfl, ?_, ?_, ?_, ?_, ?_, ?_, hi.begun_le⟩
  · exact hi.count.trans (s.total_setDrain t .waiting).symm
  · intro h
    cases h
  · have honly : ∀ u, (({ s with state := LeaseState.sealing }.setThread t
        { s.thread t with drain := .waiting }).thread u).drain ≠ .idle → u = t :=
      forall_setThread (P := fun u l => l.drain ≠ .idle → u = t)
        (fun u _ h => absurd (hidle u) h) (fun _ => rfl)
    intro u v hu hv
    rw [honly u hu, honly v hv]
  · have hunder := fun u => hi.underToken_of_idle (u := u) (by rw [hidle u]; decide)
    exact forall_setThread (P := fun _ l => l.drain = .draining ∨ UnderToken l.scopes)
      (fun u _ => .inr (hunder u)) (.inr (hunder t))
  · refine forall_setThread (P := fun _ l => l.drain = .draining → s.activeOperations = 0)
      (fun u _ => hi.quiet u) ?_
    intro h
    cases h
  · intro _ h
    exact absurd rfl h
  · intro h
    cases h
  · intro u _
    exact hi.begun_active hactive

theorem Inv.begin (hi : Inv s) (hwaiting : (s.thread t).drain = .waiting)
    (hzero : s.activeOperations = 0) :
    Inv ({ s with begun := s.begun + 1 }.setThread t { s.thread t with drain := .draining }) := by
  have hsealing := hi.sealed t (by rw [hwaiting]; decide)
  have hothers : ∀ u, u ≠ t → (s.thread u).drain = .idle := by
    intro u hu
    by_contra hne
    exact hu (hi.unique u t hne (by rw [hwaiting]; decide))
  have honly : ∀ u, (({ s with begun := s.begun + 1 }.setThread t
      { s.thread t with drain := .draining }).thread u).drain ≠ .idle → u = t :=
    forall_setThread (P := fun u l => l.drain ≠ .idle → u = t)
      (fun u hu h => absurd (hothers u hu) h) (fun _ => rfl)
  refine ⟨?_, hi.leased, fun _ _ => hsealing, ?_, ?_, fun _ _ => hzero, fun _ _ => hzero, ?_, ?_, ?_⟩
  · exact hi.count.trans (s.total_setDrain t .draining).symm
  · intro u v hu hv
    rw [honly u hu, honly v hv]
  · exact forall_setThread (P := fun _ l => l.drain = .draining ∨ UnderToken l.scopes)
      (fun u _ => hi.underToken u) (.inl rfl)
  · intro h
    rw [setThread_state, hsealing] at h
    cases h
  · refine forall_setThread (P := fun _ l => l.drain = .waiting → s.begun + 1 = 0) ?_ ?_
    · intro u hu h
      rw [hothers u hu] at h
      cases h
    · intro h
      cases h
  · have hbegun := hi.begun_waiting t hwaiting
    simp only [setThread_begun]
    omega

theorem Inv.finish (hi : Inv s) {st : LeaseState} (hst : st = .released ∨ st = .failed)
    (hdraining : (s.thread t).drain = .draining) (hscopes : (s.thread t).scopes = []) :
    Inv ({ s with state := st }.setThread t { s.thread t with drain := .idle }) := by
  have hzero := hi.quiet t hdraining
  have hidle : ∀ u, (({ s with state := st }.setThread t
      { s.thread t with drain := .idle }).thread u).drain = .idle := by
    refine forall_setThread (P := fun _ l => l.drain = .idle) ?_ rfl
    intro u hu
    by_contra hne
    exact hu (hi.unique u t hne (by rw [hdraining]; decide))
  refine ⟨?_, ?_, ?_, ?_, ?_, fun _ _ => hzero, fun _ _ => hzero, ?_, ?_, hi.begun_le⟩
  · exact hi.count.trans (s.total_setDrain t .idle).symm
  · rcases hst with rfl | rfl
    · intro h; cases h
    · intro h; cases h
  · intro u hu
    exact absurd (hidle u) hu
  · intro u v hu
    exact absurd (hidle u) hu
  · refine forall_setThread (P := fun _ l => l.drain = .draining ∨ UnderToken l.scopes) ?_ ?_
    · intro u hu
      exact hi.underToken u
    · rw [hscopes]
      exact .inr trivial
  · rcases hst with rfl | rfl
    · intro h; cases h
    · intro h; cases h
  · intro u hu
    rw [hidle u] at hu
    cases hu

omit [DecidableEq T] in
theorem Inv.settle (hi : Inv s) {st : LeaseState}
    (hbefore : s.state = .released ∨ s.state = .retiring) (hst : st = .retiring ∨ st = .retired) :
    Inv { s with state := st } := by
  have hstate : s.state ≠ .active ∧ s.state ≠ .sealing := by
    rcases hbefore with h | h
    · rw [h]; decide
    · rw [h]; decide
  have hst : st ≠ .active ∧ st ≠ .unleased := by
    rcases hst with rfl | rfl
    · decide
    · decide
  have hzero := hi.ended hstate.1 hstate.2
  have hidle : ∀ u, (s.thread u).drain = .idle := by
    intro u
    by_contra hu
    exact hstate.2 (hi.sealed u hu)
  refine ⟨hi.count, hst.2, ?_, hi.unique, hi.underToken, fun _ _ => hzero, fun _ _ => hzero, ?_,
    hi.begun_waiting, hi.begun_le⟩
  · intro u hu
    exact absurd (hidle u) hu
  · intro h
    exact absurd h hst.1

theorem Inv.effect (hi : Inv s) (h : Effect s t s') : Inv s' := by
  cases h with
  | none => exact hi
  | letIn c hc hactive =>
    refine hi.setScopes (s.activeOperations + 1) (c :: (s.thread t).scopes) ?_ ?_ (fun _ => .inr hactive)
    · simp [counted, hc]
      omega
    · have hidle := hi.idle_of_not_sealing (by rw [hactive]; decide) t
      have hunder := hi.underToken_of_idle (u := t) (by rw [hidle]; decide)
      cases c with
      | token => exact .inr hunder
      | tracked => exact .inr hunder
      | untracked => exact absurd rfl hc
  | letInSealed hsealing hentitled =>
    refine hi.setScopes s.activeOperations (.untracked :: (s.thread t).scopes) ?_ ?_ (fun h => .inl h)
    · simp [counted]
    · rcases hi.underToken t with hdraining | hunder
      · exact .inl hdraining
      · rcases hentitled with hdraining | htoken
        · exact .inl hdraining
        · exact .inr ⟨htoken, hunder⟩
  | leave c rest hc hscopes =>
    have hle := le_total counted s.thread t
    rw [← hi.count] at hle
    refine hi.setScopes (s.activeOperations - 1) rest ?_ ?_ (fun h => .inl (by omega))
    · simp [counted, hc, hscopes] at hle ⊢
      omega
    · exact (hi.underToken t).imp_right fun h => UnderToken.tail (hscopes ▸ h)
  | leaveUncounted rest hscopes =>
    refine hi.setScopes s.activeOperations rest ?_ ?_ (fun h => .inl h)
    · simp [counted, hscopes]
    · exact (hi.underToken t).imp_right fun h => UnderToken.tail (hscopes ▸ h)
  | close hactive hidle => exact hi.seal hactive
  | begin hwaiting hzero => exact hi.begin hwaiting hzero
  | finish st hst hdraining hscopes => exact hi.finish hst hdraining hscopes
  | settle st hbefore hst => exact hi.settle hbefore hst

theorem Inv.step (hi : Inv s) (h : Step s s') : Inv s' := by
  obtain ⟨t, a, r, h⟩ := h
  exact hi.effect (effect_of_step hi.leased (hi.sealed t) h)

theorem Inv.run (h : Relation.ReflTransGen Step acquired s) : Inv s := by
  induction h with
  | refl => exact inv_acquired
  | tail _ hstep ih => exact ih.step hstep

omit [Fintype T] in
theorem run_of_exec (steps : List (T × LeaseAction)) (h : s.exec steps = some s') :
    Relation.ReflTransGen Step s s' := by
  induction steps generalizing s with
  | nil =>
    cases h
    exact .refl
  | cons p steps ih =>
    obtain ⟨t, a⟩ := p
    obtain ⟨⟨m, r⟩, hstep, hrest⟩ := Option.bind_eq_some_iff.mp h
    exact .head ⟨t, a, r, hstep⟩ (ih hrest)

/-! ## Admission and drain -/

omit [DecidableEq T] in
theorem Inv.scopes_of_zero (hi : Inv s) (hzero : s.activeOperations = 0)
    (ht : (s.thread t).drain ≠ .draining) : (s.thread t).scopes = [] := by
  have htotal : total counted s.thread = 0 := hi.count ▸ hzero
  exact scopes_eq_nil (eq_zero_of_total htotal t) (hi.underToken_of_idle ht)

omit [DecidableEq T] in
/-- The draining thread is alone with the backend. -/
theorem Inv.alone (hi : Inv s) {u : T} (hdraining : (s.thread t).drain = .draining) (hu : u ≠ t) :
    (s.thread u).scopes = [] := by
  refine hi.scopes_of_zero (hi.quiet t hdraining) ?_
  intro h
  exact hu (hi.unique u t (by rw [h]; decide) (by rw [hdraining]; decide))

omit [DecidableEq T] in
theorem Inv.state_of_token (hi : Inv s) (htoken : .token ∈ (s.thread t).scopes) :
    s.state = .active ∨ s.state = .sealing := by
  by_contra hstate
  obtain ⟨hactive, hsealing⟩ := not_or.mp hstate
  have hidle := hi.idle_of_not_sealing hsealing t
  have hnil := hi.scopes_of_zero (hi.ended hactive hsealing) (t := t) (by rw [hidle]; decide)
  rw [hnil] at htoken
  cases htoken

omit [Fintype T] in
/-- Past the seal, an admission that is granted is the draining thread's, or runs under
a token. -/
theorem entitled_of_admitted (hleased : s.state ≠ .unleased) (hactive : s.state ≠ .active)
    (ha : a.asksAdmission = true) (h : s.step t a = some (s', .ok ())) :
    (s.thread t).drain = .draining ∨ .token ∈ (s.thread t).scopes := by
  by_contra hnot
  unfold step at h
  split at h
  · cases a with
    | admitBackend | enterInternal => cases h
    | releaseExternalOperation | leaveInternal | beginDrain | beginDrainReturns | finishDrain
    | beginRetirement | finishRetirement => cases ha
  · cases a with
    | admitBackend =>
      simp only [act, admitBackend, if_neg hnot] at h
      cases hs : s.state with
      | unleased => exact hleased hs
      | active => exact hactive hs
      | sealing | released | retiring | retired | failed => cases h
    | enterInternal =>
      simp only [act, enterInternal, if_neg hnot] at h
      cases hs : s.state with
      | unleased => exact hleased hs
      | active => exact hactive hs
      | sealing | released | retiring | retired | failed =>
        rw [hs] at h
        cases h
    | releaseExternalOperation | leaveInternal | beginDrain | beginDrainReturns | finishDrain
    | beginRetirement | finishRetirement => cases ha

/-- Under a token nothing is rejected. -/
theorem Inv.admits_under_token (hi : Inv s) (ha : a.asksAdmission = true)
    (htoken : .token ∈ (s.thread t).scopes) (hawake : (s.thread t).drain ≠ .waiting) :
    ∃ s', s.step t a = some (s', .ok ()) := by
  unfold Lease.step
  rw [if_neg hawake]
  cases a with
  | admitBackend =>
    refine ⟨s, ?_⟩
    rw [act, admitBackend, if_pos (.inr htoken)]
  | enterInternal =>
    rcases hi.state_of_token htoken with hactive | hsealing
    · simp only [act, enterInternal, hactive]
      exact ⟨_, rfl⟩
    · simp only [act, enterInternal, hsealing, if_pos (Or.inr htoken)]
      exact ⟨_, rfl⟩
  | releaseExternalOperation | leaveInternal | beginDrain | beginDrainReturns | finishDrain
  | beginRetirement | finishRetirement => cases ha

/-- In every run of a leased profile: the counter is the number of admissions in flight
that were granted before the seal, and the others run under one of those or belong to
the drain; a drain begins only when no other thread is inside; past the seal only the
drain and token holders are let in, and token holders always are; one drain begins at
most. -/
theorem profileLease_runs (s : Lease T) (hrun : Relation.ReflTransGen Step acquired s) :
    s.activeOperations = total counted s.thread ∧
    (∀ t, .untracked ∈ (s.thread t).scopes →
      (s.thread t).drain = .draining ∨ .token ∈ (s.thread t).scopes) ∧
    (∀ t s', s.step t .beginDrainReturns = some (s', .ok ()) →
      ∀ u, u ≠ t → (s'.thread u).scopes = []) ∧
    (∀ t a s', s.state ≠ .active → a.asksAdmission = true → s.step t a = some (s', .ok ()) →
      (s.thread t).drain = .draining ∨ .token ∈ (s.thread t).scopes) ∧
    (∀ t a, a.asksAdmission = true → .token ∈ (s.thread t).scopes →
      (s.thread t).drain ≠ .waiting → ∃ s', s.step t a = some (s', .ok ())) ∧
    s.begun ≤ 1 := by
  have hi := Inv.run hrun
  refine ⟨hi.count, ?_, ?_, ?_, ?_, hi.begun_le⟩
  · intro t hu
    exact (hi.underToken t).imp_right fun h => h.token_mem hu
  · intro t s' h u hu
    have hi' := hi.step ⟨t, _, _, h⟩
    refine hi'.alone ?_ hu
    unfold step at h
    split at h
    · simp only [beginDrainReturns, Option.ite_none_right_eq_some, if_true] at h
      obtain ⟨_, h⟩ := h
      cases h
      rw [setThread_self]
    · cases h
  · intro t a s' hactive ha h
    exact entitled_of_admitted hi.leased hactive ha h
  · intro t a ha htoken hawake
    exact hi.admits_under_token ha htoken hawake

end Invariant

/-- Thread `false` holds a token when thread `true` seals the domain; it still gets its
internal operation, and the drain begins once it has left. -/
def tokenAcrossSeal : List (Bool × LeaseAction) :=
  [(false, .admitBackend), (true, .beginDrain), (false, .enterInternal), (false, .leaveInternal),
    (false, .releaseExternalOperation), (true, .beginDrainReturns)]

theorem profileLease_runs_tokenAcrossSeal :
    ∃ s, acquired.exec tokenAcrossSeal = some s ∧ s.begun = 1 ∧
      s.activeOperations = total counted s.thread :=
  ⟨_, rfl, rfl, (profileLease_runs _ (run_of_exec tokenAcrossSeal rfl)).1⟩

/-- The drain's own internal operations are in flight without being counted. -/
theorem uncounted_in_flight :
    ¬ ∀ s : Lease Bool, Relation.ReflTransGen Step acquired s →
      s.activeOperations = total (fun l => l.scopes.length) s.thread := by
  intro h
  have hrun := run_of_exec (s := (acquired : Lease Bool))
    [(true, .beginDrain), (true, .beginDrainReturns), (true, .enterInternal)] rfl
  have hcount := h _ hrun
  revert hcount
  decide

end Lease

end WasmFS
