-- SUMMARY: Loading side modules in one thread: loadDynamicLibrary over a graph of dependencies, and the calls in progress.
import Mathlib.Algebra.Ring.Int.Defs
import Mathlib.Algebra.Ring.Nat
import Emscripten.Lib.Frontier
import Emscripten.Lib.Machine

/-!
# `loadDynamicLibrary`

A library is registered before its file is there: first its dependencies are loaded, one after
another and each in the same way, then it is instantiated, and only when its constructors have run
are its exports stored. A call is a stack of such loads. Between two of its steps other calls may
take theirs, unless it is a synchronous one: that is interrupted by its constructors only.

A load that fails takes the calls around it with it: an exception leaves all their frames, and
so does a rejected promise.
-/

namespace LoadLibrary

variable {α : Type}

/-- A finite set of side modules and what each needs, in the order it names them. -/
structure Program (α : Type) where
  names : List α
  complete : ∀ a, a ∈ names
  needed : α → List α
  /-- The program was linked with `ASSERTIONS`. -/
  assertions : Bool

/-! ## State -/

/-- `dso.exports`: `'loading'`, or the object with the exports. -/
inductive Exports
  | loading
  | exports
deriving DecidableEq, Repr

structure Dso where
  exports : Exports
  global : Bool
  /-- `Infinity` is none. -/
  refcount : Option Nat
deriving DecidableEq, Repr

structure Flags where
  global : Bool
  nodelete : Bool
  loadAsync : Bool
deriving DecidableEq, Repr

/-- How far a load has come. -/
inductive Stage (α : Type)
  /-- `loadLibData` is on its way. -/
  | fetching
  /-- The dependencies are loaded but for these, and the module is not instantiated. -/
  | needs (rest : List α)
  /-- There is an instance, and `dso.exports` is not stored yet. -/
  | created
deriving DecidableEq, Repr

structure Frame (α : Type) where
  lib : α
  stage : Stage α
deriving DecidableEq, Repr

/-- A call of `loadDynamicLibrary` from outside. -/
structure Call (α : Type) where
  lib : α
  flags : Flags
  /-- The loads in progress, the innermost first. -/
  stack : List (Frame α)
  /-- What it returned or its promise became: true, or an error. -/
  outcome : Option Bool
deriving DecidableEq, Repr

structure State (α : Type) where
  /-- `LDSO.loadedLibsByName` -/
  loadedLibsByName : α → Option Dso
  /-- `LDSO.loadedLibsByHandle`: the library that an object is about. -/
  loadedLibsByHandle : Nat → Option α
  calls : List (Call α)
  /-- The synchronous calls that have not returned, the innermost first. -/
  sync : List Nat
  /-- The modules that were instantiated, the last first. -/
  instantiated : List α

def start : State α := ⟨fun _ => none, fun _ => none, [], [], []⟩

variable [DecidableEq α] (P : Program α)

/-! ## `loadDynamicLibrary` -/

def newDSO (name : α) (handle : Option Nat) (flags : Flags) (s : State α) : State α := { s with
  loadedLibsByName := Function.update s.loadedLibsByName name
    (some ⟨.loading, flags.global, if flags.nodelete then none else some 1⟩)
  loadedLibsByHandle := match handle with
    | none => s.loadedLibsByHandle
    | some h => Function.update s.loadedLibsByHandle h (some name) }

/-- A library that is being loaded or has been loaded already. -/
def known (libName : α) (dso : Dso) (handle : Option Nat) (flags : Flags) (s : State α) :
    State α := { s with
  loadedLibsByName := Function.update s.loadedLibsByName libName (some { dso with
    global := dso.global || flags.global
    refcount := if flags.nodelete then none else dso.refcount.map (· + 1) })
  loadedLibsByHandle := match handle with
    | none => s.loadedLibsByHandle
    | some h => Function.update s.loadedLibsByHandle h (some libName) }

inductive Answer
  /-- `return true`: there was nothing to do. -/
  | done
  /-- The library is registered and its file is awaited. -/
  | started
  /-- `Attempt to load … twice before the first load completed` -/
  | refused
deriving DecidableEq, Repr

/-- `loadDynamicLibrary` up to where it waits. -/
def loadDynamicLibrary (libName : α) (flags : Flags) (handle : Option Nat) (s : State α) :
    State α × Answer :=
  match s.loadedLibsByName libName with
  | some dso =>
    if P.assertions ∧ dso.exports = .loading then (s, .refused)
    else (known libName dso handle flags s, .done)
  | none => (newDSO libName handle flags s, .started)

/-! ## Calls -/

def setCall (i : Nat) (c : Call α) (s : State α) : State α := { s with calls := s.calls.set i c }

/-- The call returns, throws or settles. -/
def settle (i : Nat) (c : Call α) (ok : Bool) (s : State α) : State α := { s with
  calls := s.calls.set i { c with stack := [], outcome := some ok }
  sync := s.sync.filter (· ≠ i) }

/-- A call from outside. -/
def call (libName : α) (flags : Flags) (handle : Option Nat) (s : State α) : State α :=
  match loadDynamicLibrary P libName flags handle s with
  | (s', .done) => { s' with calls := s'.calls ++ [⟨libName, flags, [], some true⟩] }
  | (s', .refused) => { s' with calls := s'.calls ++ [⟨libName, flags, [], some false⟩] }
  | (s', .started) => { s' with
      calls := s'.calls ++ [⟨libName, flags, [⟨libName, .fetching⟩], none⟩]
      sync := if flags.loadAsync then s'.sync else s'.calls.length :: s'.sync }

/-- Go on to the next dependency: `loadDynamicLibrary(needed, flags, localScope)`. -/
def nextNeeded (i : Nat) (c : Call α) (lib d : α) (rest : List α) (below : List (Frame α))
    (s : State α) : State α :=
  match loadDynamicLibrary P d c.flags none s with
  | (s', .done) => setCall i { c with stack := ⟨lib, .needs rest⟩ :: below } s'
  | (s', .started) =>
    setCall i { c with stack := ⟨d, .fetching⟩ :: ⟨lib, .needs rest⟩ :: below } s'
  | (s', .refused) => settle i c false s'

/-- `moduleLoaded` for the innermost load, and what waits for it goes on. -/
def moduleLoaded (i : Nat) (c : Call α) (lib : α) (below : List (Frame α)) (s : State α) :
    State α :=
  let s' : State α := { s with
    loadedLibsByName := Function.update s.loadedLibsByName lib
      ((s.loadedLibsByName lib).map ({ · with exports := .exports })) }
  if below = [] then settle i c true s' else setCall i { c with stack := below } s'

/-! ## Steps -/

inductive Action (α : Type)
  | load (lib : α) (flags : Flags) (handle : Option Nat)
  /-- `loadLibData` ends, and the metadata are read. -/
  | fetched (i : Nat) (ok : Bool)
  | next (i : Nat)
  | instantiate (i : Nat) (ok : Bool)
  /-- The constructors end, and `moduleLoaded` stores the exports. -/
  | finish (i : Nat) (ok : Bool)
deriving DecidableEq, Repr

/-- The call that takes a step. -/
def Action.call : Action α → Option Nat
  | .load .. => none
  | .fetched i _ | .next i | .instantiate i _ | .finish i _ => some i

/-- Whose turn it can be: a synchronous call has no other beside it. -/
def turn (s : State α) (i : Nat) : Bool := s.sync.head?.all (· == i)

/-- Code outside can run: no synchronous call is in progress, or the innermost one runs constructors. -/
def outside (s : State α) : Bool :=
  match s.sync with
  | [] => true
  | i :: _ => match s.calls[i]? with
    | some c => c.stack.head?.any (·.stage == .created)
    | none => false

/-- A step of one call, on what its innermost load has come to. -/
def advance (i : Nat) (c : Call α) (a : Action α) (s : State α) : Option (State α) :=
  match c.stack, a with
  | ⟨lib, .fetching⟩ :: below, .fetched _ ok =>
    some (if ok then setCall i { c with stack := ⟨lib, .needs (P.needed lib)⟩ :: below } s
      else settle i c false s)
  | ⟨lib, .needs (d :: rest)⟩ :: below, .next _ => some (nextNeeded P i c lib d rest below s)
  | ⟨lib, .needs []⟩ :: below, .instantiate _ ok =>
    some (if ok then
        setCall i { c with stack := ⟨lib, .created⟩ :: below }
          { s with instantiated := lib :: s.instantiated }
      else settle i c false s)
  | ⟨lib, .created⟩ :: below, .finish _ ok =>
    some (if ok then moduleLoaded i c lib below s else settle i c false s)
  | _, _ => none

def step (s : State α) (a : Action α) : Option (State α) :=
  match a with
  | .load lib flags handle => if outside s then some (call P lib flags handle s) else none
  | .fetched i _ | .next i | .instantiate i _ | .finish i _ =>
    if turn s i then s.calls[i]?.bind fun c => advance P i c a s else none

/-! ## What a load is for -/

/-- `dso.exports` of a registered library. -/
def State.exports (s : State α) (a : α) : Option Exports := (s.loadedLibsByName a).map Dso.exports

/-- The exports of a library are there. -/
def State.Loaded (s : State α) (a : α) : Prop := s.exports a = some .exports

instance (s : State α) (a : α) : Decidable (s.Loaded a) := by unfold State.Loaded; infer_instance

/-- One library is a direct dependency of another. -/
def Program.Needs (a b : α) : Prop := b ∈ P.needed a

/-- Neither table has the library. -/
def State.Forgotten (s : State α) (a : α) : Prop :=
  s.loadedLibsByName a = none ∧ ∀ h, s.loadedLibsByHandle h ≠ some a

/-- The step makes this call fail. -/
def Fails (c : Call α) (i : Nat) (s s' : State α) : Prop :=
  (∀ c', s.calls[i]? = some c' → c'.outcome = none) ∧ s'.calls[i]? = some c ∧
    c.outcome = some false

/-- The steps that the calls in progress can take before each has settled. -/
def Frame.work : Frame α → Nat
  | ⟨lib, .fetching⟩ => (P.needed lib).length + 3
  | ⟨_, .needs rest⟩ => rest.length + 2
  | ⟨_, .created⟩ => 1

def State.work (s : State α) : Nat :=
  ((P.names.filter (s.exports · = none)).map fun a => (P.needed a).length + 4).sum +
    (s.calls.map fun c => (c.stack.map (Frame.work P)).sum).sum

/-- What loading promises, where the steps of a run meet a condition: a call that succeeded has loaded
the library and all it depends on, none is instantiated twice, a library whose load fails can be
loaded again, and every call ends. -/
structure Sound (C : State α → Action α → Prop) (s : State α) : Prop where
  success : ∀ c ∈ s.calls, c.outcome = some true →
    ∀ d, Relation.ReflTransGen P.Needs c.lib d → s.Loaded d ∧ d ∈ s.instantiated
  once : s.instantiated.Nodup
  retry : ∀ a s', C s a → step P s a = some s' → ∀ i c, Fails c i s s' → s'.Forgotten c.lib
  bounded : ∀ as s', (∀ a ∈ as, a.call.isSome) → Machine.exec (step P) s as = some s' →
    as.length ≤ s.work P
  ends : (∀ a : Action α, a.call.isSome → step P s a = none) → ∀ c ∈ s.calls, c.outcome ≠ none

/-- What a library still waits for, of all it depends on. -/
def State.Awaits (s : State α) (a x : α) : Prop := Frontier.Front P.Needs s.Loaded a x

/-- A library is asked for that a call with these loads in progress does not have to wait for: it is
not registered, or all that it waits for is loaded by this call. -/
def Clear (s : State α) (own : List (Frame α)) (a : α) : Prop :=
  s.exports a ≠ none → (∀ x, s.Awaits P a x → x ∈ own.map Frame.lib) ∧
    (P.assertions → s.exports a ≠ some .loading)

/-- No load fails, and no call meets a load of another. -/
def Careful (s : State α) : Action α → Prop
  | .load lib _ _ => Clear P s [] lib
  | .fetched _ ok | .instantiate _ ok | .finish _ ok => ok
  | .next i => ∀ c lib d rest below, s.calls[i]? = some c →
      c.stack = ⟨lib, .needs (d :: rest)⟩ :: below → Clear P s c.stack d

end LoadLibrary
