-- SUMMARY: What each step of a load does to the registered libraries, the calls and the instances.
import Emscripten.Dynlink.LoadLibrary

/-!
# The moves of the loader

The invariants of the loader are about the exports of the registered libraries, the loads in
progress, the synchronous calls and the instances, so a move says what a step does to these.
-/

namespace LoadLibrary

variable {α : Type} [DecidableEq α] {P : Program α} {s s' : State α} {a : Action α}

/-! ## Registered libraries -/

variable {i : Nat} {c : Call α} (lib : α)

@[simp] theorem newDSO_exports (handle : Option Nat) (flags : Flags) :
    (newDSO lib handle flags s).exports = Function.update s.exports lib (some .loading) := by
  funext x
  by_cases hx : x = lib
  · simp [newDSO, State.exports, hx]
  · simp [newDSO, State.exports, hx]

theorem known_exports {lib : α} {dso : Dso} (handle : Option Nat) (flags : Flags)
    (h : s.loadedLibsByName lib = some dso) : (known lib dso handle flags s).exports = s.exports := by
  funext x
  by_cases hx : x = lib
  · subst hx
    simp [known, State.exports, h]
  · simp [known, State.exports, hx]

theorem stored_exports (h : s.exports lib ≠ none) (x : α) :
    (Function.update s.loadedLibsByName lib
      ((s.loadedLibsByName lib).map ({ · with exports := .exports })) x).map Dso.exports =
      Function.update s.exports lib (some .exports) x := by
  by_cases hx : x = lib
  · subst hx
    cases hd : s.loadedLibsByName x with
    | none => simp [State.exports, hd] at h
    | some dso => simp
  · simp [State.exports, hx]

/-- What `loadDynamicLibrary` does before it waits. -/
inductive Asked (P : Program α) (lib : α) (s s' : State α) : Answer → Prop
  | done (hreg : s.exports lib ≠ none) (he : s'.exports = s.exports) : Asked P lib s s' .done
  | started (hnew : s.exports lib = none)
      (he : s'.exports = Function.update s.exports lib (some .loading)) : Asked P lib s s' .started
  | refused (hreg : s.exports lib = some .loading) (ha : P.assertions) (he : s'.exports = s.exports) :
      Asked P lib s s' .refused

theorem loadDynamicLibrary_asked (flags : Flags) (handle : Option Nat) {w : Answer}
    (h : loadDynamicLibrary P lib flags handle s = (s', w)) :
    Asked P lib s s' w ∧ s'.calls = s.calls ∧ s'.sync = s.sync ∧
      s'.instantiated = s.instantiated := by
  unfold loadDynamicLibrary at h
  cases hd : s.loadedLibsByName lib with
  | none =>
    simp only [hd, Prod.mk.injEq] at h
    obtain ⟨rfl, rfl⟩ := h
    exact ⟨.started (by simp [State.exports, hd]) (newDSO_exports ..), rfl, rfl, rfl⟩
  | some dso =>
    have hreg : s.exports lib = some dso.exports := by simp [State.exports, hd]
    simp only [hd] at h
    split at h
    next hc =>
      cases h
      exact ⟨.refused (by simp [hreg, hc.2]) hc.1 rfl, rfl, rfl, rfl⟩
    next =>
      cases h
      exact ⟨.done (by simp [hreg]) (known_exports handle flags hd), rfl, rfl, rfl⟩

/-! ## Moves -/

/-- The fields that the invariants are about. -/
structure State.Is (s : State α) (exports : α → Option Exports) (calls : List (Call α))
    (sync : List Nat) (instantiated : List α) : Prop where
  exports : s.exports = exports
  calls : s.calls = calls
  sync : s.sync = sync
  instantiated : s.instantiated = instantiated

/-- A step of call `i`, which is `c` with its innermost load at `f`, or of a new call. -/
inductive Move (P : Program α) (s s' : State α) : Action α → Prop
  | answered (lib : α) (flags : Flags) (handle : Option Nat) (ok : Bool) (hreg : s.exports lib ≠ none)
      (href : ok = false → s.exports lib = some .loading ∧ P.assertions)
      (h : s'.Is s.exports (s.calls ++ [⟨lib, flags, [], some ok⟩]) s.sync s.instantiated) :
      Move P s s' (.load lib flags handle)
  | begun (lib : α) (flags : Flags) (handle : Option Nat) (hnew : s.exports lib = none)
      (h : s'.Is (Function.update s.exports lib (some .loading))
        (s.calls ++ [⟨lib, flags, [⟨lib, .fetching⟩], none⟩])
        (if flags.loadAsync then s.sync else s.calls.length :: s.sync) s.instantiated) :
      Move P s s' (.load lib flags handle)
  | fetched (i : Nat) (c : Call α) (lib : α) (below : List (Frame α)) (hc : s.calls[i]? = some c)
      (hst : c.stack = ⟨lib, .fetching⟩ :: below)
      (h : s'.Is s.exports
        (s.calls.set i { c with stack := ⟨lib, .needs (P.needed lib)⟩ :: below }) s.sync
        s.instantiated) :
      Move P s s' (.fetched i true)
  | known (i : Nat) (c : Call α) (lib d : α) (rest : List α) (below : List (Frame α))
      (hc : s.calls[i]? = some c) (hst : c.stack = ⟨lib, .needs (d :: rest)⟩ :: below)
      (hreg : s.exports d ≠ none)
      (h : s'.Is s.exports (s.calls.set i { c with stack := ⟨lib, .needs rest⟩ :: below }) s.sync
        s.instantiated) :
      Move P s s' (.next i)
  | pushed (i : Nat) (c : Call α) (lib d : α) (rest : List α) (below : List (Frame α))
      (hc : s.calls[i]? = some c) (hst : c.stack = ⟨lib, .needs (d :: rest)⟩ :: below)
      (hnew : s.exports d = none)
      (h : s'.Is (Function.update s.exports d (some .loading))
        (s.calls.set i { c with stack := ⟨d, .fetching⟩ :: ⟨lib, .needs rest⟩ :: below }) s.sync
        s.instantiated) :
      Move P s s' (.next i)
  | created (i : Nat) (c : Call α) (lib : α) (below : List (Frame α)) (hc : s.calls[i]? = some c)
      (hst : c.stack = ⟨lib, .needs []⟩ :: below)
      (h : s'.Is s.exports (s.calls.set i { c with stack := ⟨lib, .created⟩ :: below }) s.sync
        (lib :: s.instantiated)) :
      Move P s s' (.instantiate i true)
  | loaded (i : Nat) (c : Call α) (lib : α) (below : List (Frame α)) (hc : s.calls[i]? = some c)
      (hst : c.stack = ⟨lib, .created⟩ :: below)
      (h : s.exports lib ≠ none → s'.Is (Function.update s.exports lib (some .exports))
        (s.calls.set i { c with
          stack := below
          outcome := if below = [] then some true else c.outcome })
        (if below = [] then s.sync.filter (· ≠ i) else s.sync) s.instantiated) :
      Move P s s' (.finish i true)
  | failed (i : Nat) (c : Call α) (a : Action α) (ha : a.call = some i) (hc : s.calls[i]? = some c)
      (hst : c.stack ≠ [])
      (hbad : a = .fetched i false ∨ a = .instantiate i false ∨ a = .finish i false ∨
        P.assertions ∧ ∃ lib d rest below, a = .next i ∧
          c.stack = ⟨lib, .needs (d :: rest)⟩ :: below ∧ s.exports d = some .loading)
      (h : s'.Is s.exports (s.calls.set i { c with stack := [], outcome := some false })
        (s.sync.filter (· ≠ i)) s.instantiated) :
      Move P s s' a

theorem call_move (flags : Flags) (handle : Option Nat) :
    Move P s (call P lib flags handle s) (.load lib flags handle) := by
  unfold call
  rcases hw : loadDynamicLibrary P lib flags handle s with ⟨s₁, w⟩
  obtain ⟨hasked, hcalls, hsync, hinst⟩ := loadDynamicLibrary_asked lib flags handle hw
  cases hasked with
  | done hreg he =>
    exact .answered lib flags handle true hreg nofun ⟨he, by simp [hcalls], hsync, hinst⟩
  | started hnew he =>
    exact .begun lib flags handle hnew ⟨he, by simp [hcalls], by simp [hcalls, hsync], hinst⟩
  | refused hreg ha he =>
    exact .answered lib flags handle false (by simp [hreg]) (fun _ => ⟨hreg, ha⟩)
      ⟨he, by simp [hcalls], hsync, hinst⟩

theorem nextNeeded_move {lib d : α} {rest : List α} {below : List (Frame α)} (hc : s.calls[i]? = some c)
    (hst : c.stack = ⟨lib, .needs (d :: rest)⟩ :: below) :
    Move P s (nextNeeded P i c lib d rest below s) (.next i) := by
  unfold nextNeeded
  rcases hw : loadDynamicLibrary P d c.flags none s with ⟨s₁, w⟩
  obtain ⟨hasked, hcalls, hsync, hinst⟩ := loadDynamicLibrary_asked d c.flags none hw
  cases hasked with
  | done hreg he =>
    exact .known i c lib d rest below hc hst hreg ⟨he, by simp [setCall, hcalls], hsync, hinst⟩
  | started hnew he =>
    exact .pushed i c lib d rest below hc hst hnew ⟨he, by simp [setCall, hcalls], hsync, hinst⟩
  | refused hreg ha he =>
    refine .failed i c _ rfl hc (by simp [hst]) (.inr (.inr (.inr ⟨ha, ?_⟩)))
      ⟨he, by simp [settle, hcalls], by simp [settle, hsync], hinst⟩
    exact ⟨lib, d, rest, below, rfl, hst, hreg⟩

theorem settle_false_move (ha : a.call = some i) (hc : s.calls[i]? = some c) (hst : c.stack ≠ [])
    (hbad : a = .fetched i false ∨ a = .instantiate i false ∨ a = .finish i false) :
    Move P s (settle i c false s) a := by
  refine .failed i c a ha hc hst ?_ ⟨rfl, rfl, rfl, rfl⟩
  obtain h | h | h := hbad
  · exact .inl h
  · exact .inr (.inl h)
  · exact .inr (.inr (.inl h))

theorem moduleLoaded_move {lib : α} {below : List (Frame α)} (hc : s.calls[i]? = some c)
    (hst : c.stack = ⟨lib, .created⟩ :: below) : Move P s (moduleLoaded i c lib below s) (.finish i true) := by
  refine .loaded i c lib below hc hst fun hreg => ?_
  unfold moduleLoaded
  split
  next hb =>
    subst hb
    exact ⟨funext (stored_exports lib hreg), by simp [settle], by simp [settle], rfl⟩
  next => exact ⟨funext (stored_exports lib hreg), by simp [setCall], rfl, rfl⟩

/-- What a step of a call does, by what its innermost load has come to. -/
theorem advance_move (ha : a.call = some i) (hc : s.calls[i]? = some c) (h : advance P i c a s = some s') :
    Move P s s' a := by
  unfold advance at h
  split at h
  next lib below j ok hst =>
    cases ha
    cases ok with
    | true =>
      cases h
      exact .fetched i c lib below hc hst ⟨rfl, rfl, rfl, rfl⟩
    | false =>
      cases h
      exact settle_false_move rfl hc (by simp [hst]) (.inl rfl)
  next lib d rest below j hst =>
    cases ha
    cases h
    exact nextNeeded_move hc hst
  next lib below j ok hst =>
    cases ha
    cases ok with
    | true =>
      cases h
      exact .created i c lib below hc hst ⟨rfl, rfl, rfl, rfl⟩
    | false =>
      cases h
      exact settle_false_move rfl hc (by simp [hst]) (.inr (.inl rfl))
  next lib below j ok hst =>
    cases ha
    cases ok with
    | true =>
      cases h
      exact moduleLoaded_move hc hst
    | false =>
      cases h
      exact settle_false_move rfl hc (by simp [hst]) (.inr (.inr rfl))
  next => cases h

theorem step_call (ha : a.call = some i) : step P s a =
    if turn s i then s.calls[i]?.bind fun c => advance P i c a s else none := by
  cases a with
  | load => cases ha
  | fetched j ok | next j | instantiate j ok | finish j ok =>
    cases ha
    rfl

theorem step_move (hs : step P s a = some s') : Move P s s' a := by
  cases hi : a.call with
  | none =>
    cases a with
    | load lib flags handle =>
      simp only [step, Option.ite_none_right_eq_some, Option.some.injEq] at hs
      obtain ⟨-, rfl⟩ := hs
      exact call_move lib flags handle
    | fetched | next | instantiate | finish => cases hi
  | some i =>
    rw [step_call hi, Option.ite_none_right_eq_some] at hs
    obtain ⟨c, hc, h⟩ := Option.bind_eq_some_iff.mp hs.2
    exact advance_move hi hc h

end LoadLibrary
