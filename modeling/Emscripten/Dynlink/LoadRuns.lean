-- SUMMARY: The loads in progress over whole runs: each library is in one frame, and no module is instantiated twice.
import Emscripten.Dynlink.LoadMoves

/-!
# Runs of the loader

Every load in progress is a frame of one call, and the library it is about is marked as loading. It
was instantiated if the frame says so, and a module that was instantiated is never forgotten, so it
is not instantiated again.
-/

namespace LoadLibrary

open Machine

variable {α : Type} {P : Program α} {s s' : State α} {a : Action α} {i j : Nat}
  {c c' : Call α}

/-! ## Frames and their libraries -/

def Call.libs (c : Call α) : List α := c.stack.map Frame.lib

/-- One call, and what is known of the libraries its frames are about. -/
structure Orderly (P : Program α) (exports : α → Option Exports) (instantiated : List α)
    (c : Call α) : Prop where
  loading : ∀ x ∈ c.libs, exports x = some .loading
  nodup : c.libs.Nodup
  created : ∀ f ∈ c.stack, (f.stage = .created ↔ f.lib ∈ instantiated)
  needs : ∀ f ∈ c.stack, ∀ rest, f.stage = .needs rest → rest <:+ P.needed f.lib
  unsettled : c.stack = [] ↔ c.outcome ≠ none
  outermost : ∀ f, c.stack.getLast? = some f → f.lib = c.lib

/-- No frames of two calls are about one library. -/
def Apart (calls : List (Call α)) : Prop :=
  ∀ (i j : Nat) (c c' : Call α), calls[i]? = some c → calls[j]? = some c' → ∀ x ∈ c.libs, x ∈ c'.libs → i = j

structure Inv (P : Program α) (s : State α) : Prop where
  calls : ∀ (i : Nat) (c : Call α), s.calls[i]? = some c → Orderly P s.exports s.instantiated c
  apart : Apart s.calls
  loaded : ∀ a, s.Loaded a → a ∈ s.instantiated
  known : ∀ a ∈ s.instantiated, s.exports a ≠ none
  once : s.instantiated.Nodup
  sync : ∀ i ∈ s.sync, ∃ c : Call α, s.calls[i]? = some c ∧ c.outcome = none

theorem inv_start : Inv P start where
  calls := by simp [start]
  apart := by simp [Apart, start]
  loaded := by simp [State.Loaded, State.exports, start]
  known := by simp [start]
  once := by simp [start]
  sync := by simp [start]

/-! ## Calls in a list of calls -/

theorem get_set {calls : List (Call α)} {d : Call α} (h : (calls.set i c')[j]? = some d) :
    i = j ∧ d = c' ∨ i ≠ j ∧ calls[j]? = some d := by
  by_cases hij : i = j
  · subst hij
    have hlt := (List.getElem?_eq_some_iff.mp h).1
    simp only [List.length_set] at hlt
    exact .inl ⟨rfl, by simpa [hlt] using h.symm⟩
  · exact .inr ⟨hij, by simpa [List.getElem?_set_ne hij] using h⟩

theorem get_append {calls : List (Call α)} {d : Call α} (h : (calls ++ [c'])[j]? = some d) :
    j = calls.length ∧ d = c' ∨ calls[j]? = some d := by
  by_cases hj : j < calls.length
  · exact .inr (by simpa [List.getElem?_append_left hj] using h)
  · rw [List.getElem?_append_right (by omega)] at h
    have hlt := (List.getElem?_eq_some_iff.mp h).1
    simp only [List.length_singleton] at hlt
    have hz : j - calls.length = 0 := by omega
    simp only [hz, List.getElem?_cons_zero, Option.some.injEq] at h
    exact .inl ⟨by omega, h.symm⟩

/-- A call takes over no library that a frame of another is about. -/
theorem Apart.set {calls : List (Call α)} (h : Apart calls) (hc : calls[i]? = some c)
    (hlibs : ∀ x ∈ c'.libs, x ∈ c.libs ∨ ∀ (j : Nat) (d : Call α), calls[j]? = some d → x ∉ d.libs) :
    Apart (calls.set i c') := by
  intro j k d e hd he x hx hx'
  obtain ⟨rfl, rfl⟩ | ⟨-, hd'⟩ := get_set hd
  · obtain ⟨rfl, rfl⟩ | ⟨-, he'⟩ := get_set he
    · rfl
    · obtain hmem | hnot := hlibs x hx
      · exact h _ _ _ _ hc he' x hmem hx'
      · exact absurd hx' (hnot _ _ he')
  · obtain ⟨rfl, rfl⟩ | ⟨-, he'⟩ := get_set he
    · obtain hmem | hnot := hlibs x hx'
      · exact h _ _ _ _ hd' hc x hx hmem
      · exact absurd hx (hnot _ _ hd')
    · exact h _ _ _ _ hd' he' x hx hx'

theorem Apart.append {calls : List (Call α)} (h : Apart calls)
    (hlibs : ∀ x ∈ c'.libs, ∀ (j : Nat) (d : Call α), calls[j]? = some d → x ∉ d.libs) :
    Apart (calls ++ [c']) := by
  intro j k d e hd he x hx hx'
  obtain ⟨rfl, rfl⟩ | hd' := get_append hd
  · obtain ⟨rfl, rfl⟩ | he' := get_append he
    · rfl
    · exact absurd hx' (hlibs x hx _ _ he')
  · obtain ⟨rfl, rfl⟩ | he' := get_append he
    · exact absurd hx (hlibs x hx' _ _ hd')
    · exact h _ _ _ _ hd' he' x hx hx'

variable {inst : List α} {d : α}

/-- A call does not mind what happens to libraries that none of its frames is about. -/
theorem Orderly.frame {exports exports' : α → Option Exports} {inst' : List α} (h : Orderly P exports inst c)
    (he : ∀ x ∈ c.libs, exports' x = exports x) (hi : ∀ x ∈ c.libs, (x ∈ inst' ↔ x ∈ inst)) :
    Orderly P exports' inst' c where
  loading := fun x hx => (he x hx).trans (h.loading x hx)
  nodup := h.nodup
  created := fun f hf => (h.created f hf).trans (hi f.lib (List.mem_map_of_mem hf)).symm
  needs := h.needs
  unsettled := h.unsettled
  outermost := h.outermost

/-- A library that is not registered is in no frame. -/
theorem Inv.not_mem (h : Inv P s) {x : α} (hx : s.exports x = none) :
    ∀ (j : Nat) (d : Call α), s.calls[j]? = some d → x ∉ d.libs := fun j d hd hmem => by
  simp [(h.calls j d hd).loading x hmem] at hx

theorem Orderly.getLast {exports : α → Option Exports} {f g : Frame α} {below : List (Frame α)}
    (h : Orderly P exports inst c) (hst : c.stack = f :: below) (hlib : g.lib = f.lib) :
    ∀ e, (g :: below).getLast? = some e → e.lib = c.lib := by
  intro e he
  have hout := h.outermost
  simp only [hst] at hout
  cases below with
  | nil =>
    simp only [List.getLast?_singleton, Option.some.injEq] at he
    subst he
    exact hlib.trans (hout f rfl)
  | cons b bs => exact hout e (by simpa using he)

/-- The innermost load goes on to another stage. -/
theorem Orderly.top {exports : α → Option Exports} {inst' : List α} {f g : Frame α} {below : List (Frame α)}
    (h : Orderly P exports inst c) (hst : c.stack = f :: below) (hlib : g.lib = f.lib)
    (hcreated : g.stage = .created ↔ g.lib ∈ inst') (hinst : ∀ x ≠ f.lib, (x ∈ inst' ↔ x ∈ inst))
    (hneeds : ∀ rest, g.stage = .needs rest → rest <:+ P.needed g.lib) :
    Orderly P exports inst' { c with stack := g :: below } := by
  have hlibs : Call.libs { c with stack := g :: below } = c.libs := by
    simp [Call.libs, hst, hlib]
  have hnd := h.nodup
  simp only [Call.libs, hst, List.map_cons, List.nodup_cons] at hnd
  refine ⟨hlibs ▸ h.loading, hlibs ▸ h.nodup, ?_, ?_, ?_, h.getLast hst hlib⟩
  · intro e he
    obtain rfl | he := List.mem_cons.mp he
    · exact hcreated
    · have hne : e.lib ≠ f.lib := fun heq => hnd.1 (heq ▸ List.mem_map_of_mem he)
      exact (h.created e (by simp [hst, he])).trans (hinst _ hne).symm
  · intro e he rest hrest
    obtain rfl | he := List.mem_cons.mp he
    · exact hneeds rest hrest
    · exact h.needs e (by simp [hst, he]) rest hrest
  · have := h.unsettled
    simp only [hst] at this
    simpa using this

/-! ## One step -/

theorem Orderly.settled (exports : α → Option Exports) (inst : List α) (c : Call α) (ok : Bool) :
    Orderly P exports inst { c with stack := [], outcome := some ok } where
  loading := by simp [Call.libs]
  nodup := by simp [Call.libs]
  created := by simp
  needs := by simp
  unsettled := by simp
  outermost := by simp

theorem Orderly.single {exports : α → Option Exports} {lib : α} (flags : Flags)
    (he : exports lib = some .loading) (hi : lib ∉ inst) :
    Orderly P exports inst ⟨lib, flags, [⟨lib, .fetching⟩], none⟩ where
  loading := by simpa [Call.libs] using he
  nodup := by simp [Call.libs]
  created := by simpa using hi
  needs := by simp
  unsettled := by simp
  outermost := by simp

theorem Inv.not_instantiated (h : Inv P s) (hnew : s.exports d = none) :
    d ∉ s.instantiated := fun hmem => h.known d hmem hnew

/-- The calls after a step of one of them. -/
theorem orderly_set {calls : List (Call α)} {exports : α → Option Exports} (hown : Orderly P exports inst c')
    (hframe : ∀ (j : Nat) (d : Call α), j ≠ i → calls[j]? = some d → Orderly P exports inst d) :
    ∀ (j : Nat) (d : Call α), (calls.set i c')[j]? = some d → Orderly P exports inst d := by
  intro j d hd
  obtain ⟨rfl, rfl⟩ | ⟨hij, hd⟩ := get_set hd
  · exact hown
  · exact hframe j d (Ne.symm hij) hd

/-- A synchronous call is in progress still, unless it has settled. -/
theorem Inv.sync_set (h : Inv P s) (hc : s.calls[i]? = some c) (hout : c'.outcome = c.outcome) :
    ∀ j ∈ s.sync, ∃ d : Call α, (s.calls.set i c')[j]? = some d ∧ d.outcome = none := by
  intro j hj
  obtain ⟨d, hd, ho⟩ := h.sync j hj
  by_cases hij : i = j
  · subst hij
    obtain rfl : c = d := Option.some.inj (hc.symm.trans hd)
    refine ⟨c', ?_, hout.trans ho⟩
    simp [(List.getElem?_eq_some_iff.mp hc).1]
  · exact ⟨d, by simpa [List.getElem?_set_ne hij] using hd, ho⟩

theorem Inv.sync_settle (h : Inv P s) :
    ∀ j ∈ s.sync.filter (· ≠ i), ∃ d : Call α, (s.calls.set i c')[j]? = some d ∧ d.outcome = none := by
  intro j hj
  simp only [List.mem_filter, decide_eq_true_eq] at hj
  obtain ⟨d, hd, ho⟩ := h.sync j hj.1
  exact ⟨d, by simpa [List.getElem?_set_ne (Ne.symm hj.2)] using hd, ho⟩

theorem Inv.sync_append (h : Inv P s) :
    ∀ j ∈ s.sync, ∃ d : Call α, (s.calls ++ [c'])[j]? = some d ∧ d.outcome = none := by
  intro j hj
  obtain ⟨d, hd, ho⟩ := h.sync j hj
  refine ⟨d, ?_, ho⟩
  rw [List.getElem?_append_left (List.getElem?_eq_some_iff.mp hd).1, hd]

variable [DecidableEq α]

/-- A dependency is registered, and its load becomes the innermost. -/
theorem Orderly.push {exports : α → Option Exports} (h : Orderly P exports inst c) (hst : c.stack ≠ [])
    (hnew : exports d = none) (hi : d ∉ inst) :
    Orderly P (Function.update exports d (some .loading)) inst
      { c with stack := ⟨d, .fetching⟩ :: c.stack } := by
  have hd : d ∉ c.libs := fun hmem => by simp [h.loading d hmem] at hnew
  constructor
  · intro x hx
    obtain rfl | hx := List.mem_cons.mp hx
    · simp
    · have hne : x ≠ d := fun heq => hd (heq ▸ hx)
      simpa [hne] using h.loading x hx
  · simpa [Call.libs] using ⟨by simpa [Call.libs] using hd, h.nodup⟩
  · intro e he
    obtain rfl | he := List.mem_cons.mp he
    · simpa using hi
    · exact h.created e he
  · intro e he rest hrest
    obtain rfl | he := List.mem_cons.mp he
    · cases hrest
    · exact h.needs e he rest hrest
  · have := h.unsettled
    simpa [hst] using this
  · intro e he
    refine h.outermost e ?_
    obtain ⟨f, fs, hfs⟩ := List.exists_cons_of_ne_nil hst
    simpa [hfs] using he

/-- The innermost load is over. -/
theorem Orderly.pop {exports : α → Option Exports} {f : Frame α} {below : List (Frame α)}
    (h : Orderly P exports inst c) (hst : c.stack = f :: below) :
    Orderly P (Function.update exports f.lib (some .exports)) inst { c with
      stack := below
      outcome := if below = [] then some true else c.outcome } := by
  have hnd := h.nodup
  simp only [Call.libs, hst, List.map_cons, List.nodup_cons] at hnd
  constructor
  · intro x hx
    have hne : x ≠ f.lib := fun heq => hnd.1 (heq ▸ hx)
    have hload := h.loading x
    simp only [Call.libs, hst, List.map_cons, List.mem_cons] at hload
    simpa [hne] using hload (.inr hx)
  · exact hnd.2
  · exact fun e he => h.created e (by simp [hst, he])
  · exact fun e he => h.needs e (by simp [hst, he])
  · have hopen := h.unsettled
    simp only [hst] at hopen
    by_cases hb : below = []
    · simp [hb]
    · simpa [hb] using hopen
  · intro e he
    have hout := h.outermost e
    simp only [hst] at hout
    cases below with
    | nil => simp at he
    | cons b bs => exact hout (by simpa using he)

/-- Registering a library concerns no call that is in progress. -/
theorem Inv.register (h : Inv P s) (hnew : s.exports d = none) (hc : s.calls[i]? = some c) :
    Orderly P (Function.update s.exports d (some .loading)) s.instantiated c := by
  refine (h.calls i c hc).frame (fun x hx => ?_) fun _ _ => .rfl
  have hne : x ≠ d := fun heq => h.not_mem hnew i c hc (heq ▸ hx)
  simp [hne]

theorem Inv.loaded_register (h : Inv P s) :
    ∀ a, Function.update s.exports d (some .loading) a = some .exports → a ∈ s.instantiated := by
  intro a ha
  by_cases hd : a = d
  · simp [hd] at ha
  · rw [Function.update_of_ne hd] at ha
    exact h.loaded a ha

theorem update_known {exports : α → Option Exports} {x : α} {e : Exports} (h : exports x ≠ none) :
    Function.update exports d (some e) x ≠ none := by
  by_cases hx : x = d
  · simp [hx]
  · simpa [hx] using h

omit [DecidableEq α] in
/-- The innermost load of a call goes on to another stage, short of an instance. -/
theorem Inv.set_top (hI : Inv P s) {f g : Frame α} {below : List (Frame α)}
    (hc : s.calls[i]? = some c) (hst : c.stack = f :: below) (hlib : g.lib = f.lib)
    (hf : f.stage ≠ .created) (hg : g.stage ≠ .created)
    (hneeds : ∀ rest, g.stage = .needs rest → rest <:+ P.needed g.lib)
    (h : s'.Is s.exports (s.calls.set i { c with stack := g :: below }) s.sync s.instantiated) :
    Inv P s' := by
  obtain ⟨he, hcalls, hsync, hinst⟩ := h
  have hown := hI.calls i c hc
  have hnot : g.lib ∉ s.instantiated := by
    have := hown.created f (by simp [hst])
    simpa [hf, hlib] using this
  refine ⟨?_, ?_, ?_, ?_, hinst ▸ hI.once, ?_⟩
  · rw [hcalls, he, hinst]
    refine orderly_set ?_ fun j d _ hd => hI.calls j d hd
    exact hown.top hst hlib (by simp [hg, hnot]) (fun _ _ => .rfl) hneeds
  · exact hcalls ▸ hI.apart.set hc fun x hx => .inl (by simpa [Call.libs, hst, hlib] using hx)
  · simpa only [State.Loaded, he, hinst] using hI.loaded
  · simpa only [he, hinst] using hI.known
  · exact hsync ▸ hcalls ▸ hI.sync_set hc rfl

theorem Inv.move (hI : Inv P s) (h : Move P s s' a) : Inv P s' := by
  cases h with
  | answered lib flags handle ok hreg href h =>
    obtain ⟨he, hcalls, hsync, hinst⟩ := h
    refine ⟨?_, ?_, ?_, ?_, hinst ▸ hI.once, ?_⟩
    · intro j d hd
      rw [he, hinst]
      rw [hcalls] at hd
      obtain ⟨rfl, rfl⟩ | hd := get_append hd
      · exact .settled s.exports s.instantiated ⟨lib, flags, [], none⟩ ok
      · exact hI.calls j d hd
    · exact hcalls ▸ hI.apart.append fun x hx => by simp [Call.libs] at hx
    · simpa only [State.Loaded, he, hinst] using hI.loaded
    · simpa only [he, hinst] using hI.known
    · simpa only [hsync, hcalls] using hI.sync_append
  | begun lib flags handle hnew h =>
    obtain ⟨he, hcalls, hsync, hinst⟩ := h
    refine ⟨?_, ?_, ?_, ?_, hinst ▸ hI.once, ?_⟩
    · intro j d hd
      rw [he, hinst]
      rw [hcalls] at hd
      obtain ⟨rfl, rfl⟩ | hd := get_append hd
      · exact .single flags (by simp) (hI.not_instantiated hnew)
      · exact hI.register hnew hd
    · refine hcalls ▸ hI.apart.append fun x hx => ?_
      have hx : x = lib := by simpa [Call.libs] using hx
      exact hx ▸ hI.not_mem hnew
    · simpa only [State.Loaded, he, hinst] using hI.loaded_register
    · simpa only [he, hinst] using fun x hx => update_known (hI.known x hx)
    · simp only [hsync, hcalls]
      split
      · exact hI.sync_append
      · intro j hj
        obtain rfl | hj := List.mem_cons.mp hj
        · exact ⟨_, List.getElem?_concat_length, rfl⟩
        · exact hI.sync_append j hj
  | fetched i c lib below hc hst h =>
    exact hI.set_top (g := ⟨lib, .needs (P.needed lib)⟩) hc hst rfl nofun nofun (fun _ hr => by cases hr; exact List.suffix_rfl) h
  | known i c lib d rest below hc hst hreg h =>
    have hneeds := (hI.calls i c hc).needs ⟨lib, .needs (d :: rest)⟩ (by simp [hst]) _ rfl
    refine hI.set_top (g := ⟨lib, .needs rest⟩) hc hst rfl nofun nofun (fun r hr => ?_) h
    cases hr
    exact (List.suffix_cons d rest).trans hneeds
  | pushed i c lib d rest below hc hst hnew h =>
    obtain ⟨he, hcalls, hsync, hinst⟩ := h
    have hown := hI.calls i c hc
    have hnot : lib ∉ s.instantiated := by
      simpa using hown.created ⟨lib, .needs (d :: rest)⟩ (by simp [hst])
    have hneeds := hown.needs ⟨lib, .needs (d :: rest)⟩ (by simp [hst]) _ rfl
    have htop : Orderly P s.exports s.instantiated
        { c with stack := ⟨lib, .needs rest⟩ :: below } := by
      refine hown.top hst rfl (by simpa using hnot) (fun _ _ => .rfl) ?_
      intro r hr
      cases hr
      exact (List.suffix_cons d rest).trans hneeds
    refine ⟨?_, ?_, ?_, ?_, hinst ▸ hI.once, ?_⟩
    · rw [hcalls, he, hinst]
      refine orderly_set ?_ fun j e _ hd => hI.register hnew hd
      exact htop.push (by simp) hnew (hI.not_instantiated hnew)
    · refine hcalls ▸ hI.apart.set hc fun x hx => ?_
      simp only [Call.libs, List.map_cons, List.mem_cons, hst] at hx ⊢
      obtain rfl | hx := hx
      · exact .inr (hI.not_mem hnew)
      · exact .inl hx
    · simpa only [State.Loaded, he, hinst] using hI.loaded_register
    · simpa only [he, hinst] using fun x hx => update_known (hI.known x hx)
    · exact hsync ▸ hcalls ▸ hI.sync_set hc rfl
  | created i c lib below hc hst h =>
    obtain ⟨he, hcalls, hsync, hinst⟩ := h
    have hown := hI.calls i c hc
    have hlib : lib ∈ c.libs := by simp [Call.libs, hst]
    have hnot : lib ∉ s.instantiated := by
      simpa using hown.created ⟨lib, .needs []⟩ (by simp [hst])
    refine ⟨?_, ?_, ?_, ?_, ?_, ?_⟩
    · rw [hcalls, he, hinst]
      refine orderly_set ?_ fun j d hji hd => (hI.calls j d hd).frame (fun _ _ => rfl) fun x hx => ?_
      · exact hown.top hst rfl (by simp) (fun x hx => by simp [hx]) nofun
      · have hne : x ≠ lib := fun heq => hji (hI.apart _ _ _ _ hd hc x hx (heq ▸ hlib))
        simp [hne]
    · exact hcalls ▸ hI.apart.set hc fun x hx => .inl (by simpa [Call.libs, hst] using hx)
    · intro x hx
      simp only [State.Loaded, he] at hx
      exact hinst ▸ List.mem_cons_of_mem _ (hI.loaded x hx)
    · intro x hx
      rw [hinst] at hx
      rw [he]
      obtain rfl | hx := List.mem_cons.mp hx
      · simp [hown.loading x hlib]
      · exact hI.known x hx
    · exact hinst ▸ List.nodup_cons.mpr ⟨hnot, hI.once⟩
    · exact hsync ▸ hcalls ▸ hI.sync_set hc rfl
  | loaded i c lib below hc hst h =>
    have hown := hI.calls i c hc
    have hlib : lib ∈ c.libs := by simp [Call.libs, hst]
    have hload := hown.loading lib hlib
    have hin : lib ∈ s.instantiated := by
      simpa using hown.created ⟨lib, .created⟩ (by simp [hst])
    obtain ⟨he, hcalls, hsync, hinst⟩ := h (by simp [hload])
    refine ⟨?_, ?_, ?_, ?_, hinst ▸ hI.once, ?_⟩
    · rw [hcalls, he, hinst]
      refine orderly_set (hown.pop hst) fun j d hji hd => ?_
      refine (hI.calls j d hd).frame (fun x hx => ?_) fun _ _ => .rfl
      have hne : x ≠ lib := fun heq => hji (hI.apart _ _ _ _ hd hc x hx (heq ▸ hlib))
      simp [hne]
    · refine hcalls ▸ hI.apart.set hc fun x hx => .inl ?_
      simp only [Call.libs, hst, List.map_cons, List.mem_cons]
      exact .inr hx
    · intro x hx
      rw [hinst]
      by_cases hne : x = lib
      · exact hne ▸ hin
      · simp only [State.Loaded, he, Function.update_of_ne hne] at hx
        exact hI.loaded x hx
    · simpa only [he, hinst] using fun x hx => update_known (hI.known x hx)
    · simp only [hsync, hcalls]
      split
      · exact hI.sync_settle
      · exact hI.sync_set hc rfl
  | failed i c _ ha hc hst hbad h =>
    obtain ⟨he, hcalls, hsync, hinst⟩ := h
    refine ⟨?_, ?_, ?_, ?_, hinst ▸ hI.once, ?_⟩
    · rw [hcalls, he, hinst]
      exact orderly_set (.settled _ _ c false) fun j d _ hd => hI.calls j d hd
    · exact hcalls ▸ hI.apart.set hc fun x hx => by simp [Call.libs] at hx
    · simpa only [State.Loaded, he, hinst] using hI.loaded
    · simpa only [he, hinst] using hI.known
    · simpa only [hsync, hcalls] using hI.sync_settle

theorem inv_of_reaches {C : State α → Action α → Prop} (h : Reaches (step P) C start s) : Inv P s :=
  h.invariant inv_start fun _ _ _ hI _ hs => hI.move (step_move hs)

end LoadLibrary
