-- SUMMARY: What calls of loadDynamicLibrary come to: each ends, and with no failure and no overlap each has loaded what it promises.
import Emscripten.Dynlink.LoadRuns

/-!
# The outcomes of loads

A call ends after a bounded number of steps, whatever its loads come to. Success is another matter.
The frontier of what a frame has asked for lies in the frames of its own call, as long as no load
fails and no call meets the load of another. So when the last frame of such a call ends, nothing that
it depends on is awaited.
-/

namespace LoadLibrary

open Machine Frontier

variable {α : Type} {P : Program α} {s s' : State α} {a : Action α} {i j : Nat} {c c' : Call α}

/-! ## Calls end -/

theorem sum_map_set {β : Type} (f : β → Nat) {l : List β} {x y : β} (h : l[i]? = some x) :
    ((l.set i y).map f).sum + f x = (l.map f).sum + f y := by
  induction l generalizing i with
  | nil => simp at h
  | cons z l ih =>
    cases i with
    | zero =>
      simp only [List.getElem?_cons_zero, Option.some.injEq] at h
      simp [h]
      omega
    | succ i =>
      have := ih (i := i) (by simpa using h)
      simp only [List.set_cons_succ, List.map_cons, List.sum_cons]
      omega

/-- The work of the loads in progress of a call. -/
def Call.work (P : Program α) (c : Call α) : Nat := (c.stack.map (Frame.work P)).sum

/-- The work of the names that are not registered. -/
def newWork (P : Program α) (exports : α → Option Exports) : Nat :=
  ((P.names.filter (exports · = none)).map fun a => (P.needed a).length + 4).sum

theorem work_eq (s : State α) :
    s.work P = newWork P s.exports + (s.calls.map (Call.work P)).sum := rfl

theorem Call.work_pos (h : c.stack ≠ []) : 0 < c.work P := by
  obtain ⟨⟨lib, st⟩, below, hst⟩ := List.exists_cons_of_ne_nil h
  cases st with
  | fetching | needs | created =>
    simp only [Call.work, hst, List.map_cons, List.sum_cons, Frame.work]
    omega

variable [DecidableEq α]

variable {d : α}

/-- A name that is registered leaves the sum over those that are not. -/
theorem sum_filter_update (w : α → Nat) (exports : α → Option Exports) (e : Exports) (names : List α) :
    ((names.filter (Function.update exports d (some e) · = none)).map w).sum ≤
      ((names.filter (exports · = none)).map w).sum ∧
    (d ∈ names → exports d = none →
      ((names.filter (Function.update exports d (some e) · = none)).map w).sum + w d ≤
        ((names.filter (exports · = none)).map w).sum) := by
  induction names with
  | nil => simp
  | cons n names ih =>
    obtain ⟨hle, hlt⟩ := ih
    by_cases hn : n = d
    · subst hn
      have hcons : ((names.filter (exports · = none)).map w).sum ≤
          (((n :: names).filter (exports · = none)).map w).sum := by
        by_cases he : exports n = none
        · simp [he]
        · simp [he]
      refine ⟨?_, fun _ he => ?_⟩
      · simpa using Nat.le_trans hle hcons
      · simp [he]
        omega
    · by_cases he : exports n = none
      · refine ⟨by simpa [hn, he] using hle, fun hmem hd => ?_⟩
        have := hlt ((List.mem_cons.mp hmem).resolve_left (Ne.symm hn)) hd
        simp [hn, he]
        omega
      · refine ⟨by simpa [hn, he] using hle, fun hmem hd => ?_⟩
        have := hlt ((List.mem_cons.mp hmem).resolve_left (Ne.symm hn)) hd
        simpa [hn, he] using this

theorem newWork_update (exports : α → Option Exports) (d : α) (e : Exports) :
    newWork P (Function.update exports d (some e)) ≤ newWork P exports :=
  (sum_filter_update _ exports e P.names).1

theorem newWork_register {exports : α → Option Exports} (e : Exports) (h : exports d = none) :
    newWork P (Function.update exports d (some e)) + ((P.needed d).length + 4) ≤
      newWork P exports :=
  (sum_filter_update (fun a => (P.needed a).length + 4) exports e P.names).2 (P.complete d) h

/-- A step of one call leaves less to do. -/
theorem work_lt (hI : Inv P s) (h : Move P s s' a) (ha : a.call.isSome) :
    s'.work P < s.work P := by
  cases h with
  | answered | begun => cases ha
  | fetched i c lib below hc hst h =>
    obtain ⟨he, hcalls, -, -⟩ := h
    have := sum_map_set (Call.work P) (y := { c with stack := ⟨lib, .needs (P.needed lib)⟩ :: below }) hc
    simp only [Call.work, hst, List.map_cons, List.sum_cons, Frame.work] at this
    rw [work_eq, work_eq, he, hcalls]
    omega
  | known i c lib d rest below hc hst _ h =>
    obtain ⟨he, hcalls, -, -⟩ := h
    have := sum_map_set (Call.work P) (y := { c with stack := ⟨lib, .needs rest⟩ :: below }) hc
    simp only [Call.work, hst, List.map_cons, List.sum_cons, Frame.work, List.length_cons] at this
    rw [work_eq, work_eq, he, hcalls]
    omega
  | pushed i c lib d rest below hc hst hnew h =>
    obtain ⟨he, hcalls, -, -⟩ := h
    have hreg := newWork_register (P := P) .loading hnew
    have := sum_map_set (Call.work P)
      (y := { c with stack := ⟨d, .fetching⟩ :: ⟨lib, .needs rest⟩ :: below }) hc
    simp only [Call.work, hst, List.map_cons, List.sum_cons, Frame.work, List.length_cons] at this
    rw [work_eq, work_eq, he, hcalls]
    omega
  | created i c lib below hc hst h =>
    obtain ⟨he, hcalls, -, -⟩ := h
    have := sum_map_set (Call.work P) (y := { c with stack := ⟨lib, .created⟩ :: below }) hc
    simp only [Call.work, hst, List.map_cons, List.sum_cons, Frame.work, List.length_nil] at this
    rw [work_eq, work_eq, he, hcalls]
    omega
  | loaded i c lib below hc hst h =>
    have hload := (hI.calls i c hc).loading lib (by simp [Call.libs, hst])
    obtain ⟨he, hcalls, -, -⟩ := h (by simp [hload])
    have hreg := newWork_update (P := P) s.exports lib .exports
    have := sum_map_set (Call.work P) (y := { c with
      stack := below
      outcome := if below = [] then some true else c.outcome }) hc
    simp only [Call.work, hst, List.map_cons, List.sum_cons, Frame.work] at this
    rw [work_eq, work_eq, he, hcalls]
    omega
  | failed i c _ _ hc hst _ h =>
    obtain ⟨he, hcalls, -, -⟩ := h
    have hpos := Call.work_pos (P := P) hst
    have := sum_map_set (Call.work P) (y := { c with stack := [], outcome := some false }) hc
    simp only [Call.work, List.map_nil, List.sum_nil] at this hpos
    rw [work_eq, work_eq, he, hcalls]
    omega

theorem length_le_work (hI : Inv P s) {as : List (Action α)} (has : ∀ a ∈ as, a.call.isSome)
    (h : exec (step P) s as = some s') : as.length ≤ s.work P := by
  induction as generalizing s with
  | nil => simp
  | cons a as ih =>
    obtain ⟨m, hs, hrest⟩ := Option.bind_eq_some_iff.mp h
    have hm := step_move hs
    have hlt := work_lt hI hm (has a (by simp))
    have hle := ih (hI.move hm) (fun b hb => has b (by simp [hb])) hrest
    simp only [List.length_cons]
    omega

/-- A call with loads in progress can take a step when it is its turn. -/
theorem exists_advance (hst : c.stack ≠ []) :
    ∃ a : Action α, a.call = some i ∧ (advance P i c a s).isSome := by
  obtain ⟨⟨lib, st⟩, below, hst⟩ := List.exists_cons_of_ne_nil hst
  cases st with
  | fetching => exact ⟨.fetched i true, rfl, by simp [advance, hst]⟩
  | needs rest =>
    cases rest with
    | nil => exact ⟨.instantiate i true, rfl, by simp [advance, hst]⟩
    | cons d rest => exact ⟨.next i, rfl, by simp [advance, hst]⟩
  | created => exact ⟨.finish i true, rfl, by simp [advance, hst]⟩

theorem Inv.exists_step (hI : Inv P s) (hc : s.calls[i]? = some c) (ho : c.outcome = none)
    (hturn : turn s i) : ∃ a : Action α, a.call.isSome ∧ step P s a ≠ none := by
  have hst : c.stack ≠ [] := fun h => (hI.calls i c hc).unsettled.mp h ho
  obtain ⟨a, ha, hs⟩ := exists_advance (P := P) (s := s) (i := i) hst
  refine ⟨a, by simp [ha], ?_⟩
  rw [step_call ha, if_pos hturn, hc]
  exact Option.isSome_iff_ne_none.mp hs

/-- When no call can go on, each has settled. -/
theorem Inv.ends (hI : Inv P s) (h : ∀ a : Action α, a.call.isSome → step P s a = none) :
    ∀ c ∈ s.calls, c.outcome ≠ none := by
  intro c hmem ho
  obtain ⟨i, hc⟩ := List.mem_iff_getElem?.mp hmem
  cases hsync : s.sync with
  | nil =>
    obtain ⟨a, ha, hs⟩ := hI.exists_step hc ho (by simp [turn, hsync])
    exact hs (h a ha)
  | cons k rest =>
    -- the innermost synchronous call can go on
    obtain ⟨d, hd, hod⟩ := hI.sync k (by simp [hsync])
    obtain ⟨a, ha, hs⟩ := hI.exists_step hd hod (by simp [turn, hsync])
    exact hs (h a ha)

/-! ## A failed library stays registered -/

omit [DecidableEq α] in
theorem not_careful_of_bad (hc : s.calls[i]? = some c)
    (hbad : a = .fetched i false ∨ a = .instantiate i false ∨ a = .finish i false ∨
      P.assertions ∧ ∃ lib d rest below, a = .next i ∧
        c.stack = ⟨lib, .needs (d :: rest)⟩ :: below ∧ s.exports d = some .loading) :
    ¬ Careful P s a := by
  intro hcare
  obtain rfl | rfl | rfl | ⟨ha, lib, d, rest, below, rfl, hst, hd⟩ := hbad
  · cases hcare
  · cases hcare
  · cases hcare
  · exact (hcare c lib d rest below hc hst (by simp [hd])).2 ha hd

/-- When a call fails, `LDSO` keeps its library; and only a load that fails makes it fail, or one that
meets another. -/
theorem registered_of_fails (hI : Inv P s) (hm : Move P s s' a) (h : Fails c i s s') :
    s'.exports c.lib ≠ none ∧ ¬ Careful P s a := by
  obtain ⟨hbefore, hc', hfalse⟩ := h
  -- a call that was there before and did not settle is not the one
  have hold : s.calls[i]? ≠ some c := fun hd => by simp [hbefore c hd] at hfalse
  have hset {j : Nat} {d e : Call α} (hd : s.calls[j]? = some d)
      (hcalls : s'.calls = s.calls.set j e) (he : e.outcome = d.outcome) : False := by
    obtain ⟨rfl, rfl⟩ | ⟨-, h⟩ := get_set (hcalls ▸ hc')
    · exact nomatch (hfalse.symm.trans he).trans (hbefore d hd)
    · exact hold h
  cases hm with
  | answered lib flags handle ok hreg href h =>
    obtain ⟨he, hcalls, -, -⟩ := h
    obtain ⟨-, rfl⟩ | h := get_append (hcalls ▸ hc')
    · obtain ⟨hload, ha⟩ := href (by simpa using hfalse)
      exact ⟨by simpa [he] using hreg, fun hcare => (hcare hreg).2 ha hload⟩
    · exact absurd h hold
  | begun lib flags handle hnew h =>
    obtain ⟨-, rfl⟩ | h := get_append (h.calls ▸ hc')
    · cases hfalse
    · exact absurd h hold
  | fetched j d lib below hd hst h => exact (hset hd h.calls rfl).elim
  | known j d lib e rest below hd hst hreg h => exact (hset hd h.calls rfl).elim
  | pushed j d lib e rest below hd hst hnew h => exact (hset hd h.calls rfl).elim
  | created j d lib below hd hst h => exact (hset hd h.calls rfl).elim
  | loaded j d lib below hd hst h =>
    have hload := (hI.calls j d hd).loading lib (by simp [Call.libs, hst])
    have hcalls := (h (by simp [hload])).calls
    by_cases hb : below = []
    · obtain ⟨-, rfl⟩ | h := get_set (hcalls ▸ hc')
      · simp [hb] at hfalse
      · exact absurd h.2 hold
    · exact (hset hd hcalls (by simp [hb])).elim
  | failed j d _ _ hd hst hbad h =>
    obtain ⟨he, hcalls, -, -⟩ := h
    refine ⟨?_, not_careful_of_bad hd hbad⟩
    obtain ⟨-, rfl⟩ | h := get_set (hcalls ▸ hc')
    · -- the outermost load of the call is about its library
      have hown := hI.calls j d hd
      have hlast := List.getLast?_eq_some_getLast hst
      have hmem : d.lib ∈ d.libs := by
        rw [← hown.outermost _ hlast]
        exact List.mem_map_of_mem (List.getLast_mem hst)
      simp [he, hown.loading _ hmem]
    · exact absurd h.2 hold

/-! ## Careful runs -/

/-- What a frame has asked for so far. -/
def Frame.Asked (P : Program α) : Frame α → α → Prop
  | ⟨_, .fetching⟩, _ => False
  | ⟨lib, .needs rest⟩, d => ∃ pre, P.needed lib = pre ++ rest ∧ d ∈ pre
  | ⟨lib, .created⟩, d => d ∈ P.needed lib

/-- A call waits only for what it loads itself. -/
def OnItsOwn (P : Program α) (s : State α) (c : Call α) : Prop :=
  ∀ f ∈ c.stack, ∀ d, f.Asked P d → ∀ x, s.Awaits P d x → x ∈ c.libs

structure Followed (P : Program α) (s : State α) : Prop where
  own : ∀ c ∈ s.calls, OnItsOwn P s c
  done : ∀ c ∈ s.calls, c.outcome = some true → ∀ x, ¬ s.Awaits P c.lib x

omit [DecidableEq α] in
theorem followed_start : Followed P start := by
  constructor <;> simp [start]

omit [DecidableEq α] in
/-- Registering a library loads nothing. -/
theorem awaits_congr (h : ∀ x, s'.Loaded x ↔ s.Loaded x) {x : α} : s'.Awaits P d x ↔ s.Awaits P d x := by
  have : s'.Loaded = s.Loaded := funext fun x => propext (h x)
  simp [State.Awaits, this]

theorem loaded_register {exports : α → Option Exports} (hnew : exports d = none) (x : α) :
    Function.update exports d (some .loading) x = some .exports ↔ exports x = some .exports := by
  by_cases hx : x = d
  · subst hx
    simp [hnew]
  · simp [hx]

omit [DecidableEq α] in
/-- A step that loads nothing, and that changes one call. -/
theorem Followed.set (hF : Followed P s) (hl : ∀ x, s'.Loaded x ↔ s.Loaded x)
    (hcalls : s'.calls = s.calls.set i c') (hown : OnItsOwn P s c')
    (ho : c'.outcome ≠ some true) : Followed P s' := by
  constructor
  · intro d hd f hf e he x hx
    obtain hd | rfl := List.mem_or_eq_of_mem_set (hcalls ▸ hd)
    · exact hF.own d hd f hf e he x ((awaits_congr hl).mp hx)
    · exact hown f hf e he x ((awaits_congr hl).mp hx)
  · intro d hd hd' x hx
    obtain hd | rfl := List.mem_or_eq_of_mem_set (hcalls ▸ hd)
    · exact hF.done d hd hd' x ((awaits_congr hl).mp hx)
    · exact ho hd'

omit [DecidableEq α] in
/-- The same for a step that adds a call. -/
theorem Followed.append (hF : Followed P s) (hl : ∀ x, s'.Loaded x ↔ s.Loaded x)
    (hcalls : s'.calls = s.calls ++ [c']) (hown : OnItsOwn P s c')
    (ho : c'.outcome = some true → ∀ x, ¬ s.Awaits P c'.lib x) : Followed P s' := by
  constructor
  · intro d hd f hf e he x hx
    rw [hcalls, List.mem_append, List.mem_singleton] at hd
    obtain hd | rfl := hd
    · exact hF.own d hd f hf e he x ((awaits_congr hl).mp hx)
    · exact hown f hf e he x ((awaits_congr hl).mp hx)
  · intro d hd hd' x hx
    rw [hcalls, List.mem_append, List.mem_singleton] at hd
    obtain hd | rfl := hd
    · exact hF.done d hd hd' x ((awaits_congr hl).mp hx)
    · exact ho hd' x ((awaits_congr hl).mp hx)

omit [DecidableEq α] in
/-- A call that goes on to the next dependency has asked for one more. -/
theorem asked_next {lib e : α} {rest : List α} (hneeds : d :: rest <:+ P.needed lib)
    (h : (⟨lib, .needs rest⟩ : Frame α).Asked P e) :
    (⟨lib, .needs (d :: rest)⟩ : Frame α).Asked P e ∨ e = d := by
  obtain ⟨pre, hpre, he⟩ := h
  obtain ⟨pre', hpre'⟩ := hneeds
  have heq : pre = pre' ++ [d] := by
    have hsame : pre ++ rest = (pre' ++ [d]) ++ rest := by simp [← hpre, ← hpre']
    exact List.append_cancel_right hsame
  rw [heq, List.mem_append, List.mem_singleton] at he
  exact he.imp (fun he => ⟨pre', hpre'.symm, he⟩) id

omit [DecidableEq α] in
/-- The innermost load of a call is over: all that the others wait for is still their own. -/
theorem Followed.loaded (hI : Inv P s) (hF : Followed P s) {lib : α} {below : List (Frame α)}
    (hc : s.calls[i]? = some c) (hst : c.stack = ⟨lib, .created⟩ :: below)
    (hl : ∀ x, s'.Loaded x ↔ x = lib ∨ s.Loaded x)
    (hcalls : s'.calls = s.calls.set i { c with
      stack := below
      outcome := if below = [] then some true else c.outcome }) : Followed P s' := by
  have hown := hI.calls i c hc
  have hmem : c ∈ s.calls := List.mem_iff_getElem?.mpr ⟨i, hc⟩
  have hlib : lib ∈ c.libs := by simp [Call.libs, hst]
  -- what the library itself still waited for is below it
  have hbelow {x : α} (hne : x ≠ lib) (hx : ∃ d, P.Needs lib d ∧ s.Awaits P d x) :
      x ∈ below.map Frame.lib := by
    obtain ⟨d, hd, hx⟩ := hx
    have := hF.own c hmem ⟨lib, .created⟩ (by simp [hst]) d hd x hx
    simpa [Call.libs, hst, hne] using this
  have hnot : ¬ s.Loaded lib := by
    simp [State.Loaded, hown.loading lib hlib]
  constructor
  · intro d hd f hf e he x hx
    obtain ⟨j, hj⟩ := List.mem_iff_getElem?.mp hd
    obtain ⟨hne, hx⟩ := Front.of_insert hl hx
    obtain ⟨rfl, rfl⟩ | ⟨hij, hj⟩ := get_set (hcalls ▸ hj)
    · obtain hx | ⟨-, hx⟩ := hx
      · have := hF.own c hmem f (by simp [hst, hf]) e he x hx
        simpa [Call.libs, hst, hne] using this
      · exact hbelow hne hx
    · have hd := List.mem_iff_getElem?.mpr ⟨j, hj⟩
      obtain hx | ⟨hp, -⟩ := hx
      · exact hF.own d hd f hf e he x hx
      · -- another call does not wait for the library
        have hp := hF.own d hd f hf e he lib hp
        exact absurd (hI.apart _ _ _ _ hc hj lib hlib hp) hij
  · intro d hd ho x hx
    obtain ⟨j, hj⟩ := List.mem_iff_getElem?.mp hd
    obtain ⟨hne, hx⟩ := Front.of_insert hl hx
    obtain ⟨rfl, rfl⟩ | ⟨hij, hj⟩ := get_set (hcalls ▸ hj)
    · by_cases hb : below = []
      · -- the call ends, and the library is its own
        have hclib : lib = c.lib := hown.outermost ⟨lib, .created⟩ (by simp [hst, hb])
        obtain hx | ⟨-, hx⟩ := hx
        · exact hne ((Front.eq_of_not hx (hclib ▸ hnot)).trans hclib.symm)
        · simpa [hb] using hbelow hne hx
      · have hopen := hown.unsettled
        simp [hst] at hopen
        simp [hb, hopen] at ho
    · have hd := List.mem_iff_getElem?.mpr ⟨j, hj⟩
      obtain hx | ⟨hp, -⟩ := hx
      · exact hF.done d hd ho x hx
      · exact hF.done d hd ho lib hp

theorem Followed.move (hI : Inv P s) (hF : Followed P s) (hm : Move P s s' a)
    (hcare : Careful P s a) : Followed P s' := by
  have hout {k : Nat} {d : Call α} (hd : s.calls[k]? = some d) (hst : d.stack ≠ []) :
      d.outcome ≠ some true := fun h => hst ((hI.calls k d hd).unsettled.mpr (by simp [h]))
  have hsame {t : State α} (he : t.exports = s.exports) (x : α) : t.Loaded x ↔ s.Loaded x := by
    simp [State.Loaded, he]
  cases hm with
  | answered lib flags handle ok hreg href h =>
    obtain ⟨hclear, hassert⟩ := hcare hreg
    refine hF.append (hsame h.exports) h.calls (by simp [OnItsOwn]) fun ho x hx => ?_
    simpa using hclear x hx
  | begun lib flags handle hnew h =>
    have hl (x : α) : s'.Loaded x ↔ s.Loaded x := by
      rw [State.Loaded, h.exports]
      exact loaded_register hnew x
    refine hF.append hl h.calls (fun f hf d hd => ?_) (by simp)
    obtain rfl := List.mem_singleton.mp hf
    exact hd.elim
  | fetched i c lib below hc hst h =>
    have hmem : c ∈ s.calls := List.mem_iff_getElem?.mpr ⟨i, hc⟩
    have hopen := hout hc (by simp [hst])
    refine hF.set (hsame h.exports) h.calls (fun f hf d hd x hx => ?_) hopen
    obtain rfl | hf := List.mem_cons.mp hf
    · obtain ⟨pre, hpre, hd⟩ := hd
      have : pre = [] := List.self_eq_append_left.mp hpre
      simp [this] at hd
    · have := hF.own c hmem f (by simp [hst, hf]) d hd x hx
      simpa [Call.libs, hst] using this
  | known i c lib d rest below hc hst hreg h =>
    have hmem : c ∈ s.calls := List.mem_iff_getElem?.mpr ⟨i, hc⟩
    have hopen := hout hc (by simp [hst])
    have hneeds := (hI.calls i c hc).needs ⟨lib, .needs (d :: rest)⟩ (by simp [hst]) _ rfl
    refine hF.set (hsame h.exports) h.calls (fun f hf e he x hx => ?_) hopen
    have hlibs : x ∈ c.libs := by
      obtain rfl | hf := List.mem_cons.mp hf
      · obtain he | rfl := asked_next hneeds he
        · exact hF.own c hmem _ (by simp [hst]) e he x hx
        · exact (hcare c lib e rest below hc hst hreg).1 x hx
      · exact hF.own c hmem f (by simp [hst, hf]) e he x hx
    simpa [Call.libs, hst] using hlibs
  | pushed i c lib d rest below hc hst hnew h =>
    have hmem : c ∈ s.calls := List.mem_iff_getElem?.mpr ⟨i, hc⟩
    have hopen := hout hc (by simp [hst])
    have hneeds := (hI.calls i c hc).needs ⟨lib, .needs (d :: rest)⟩ (by simp [hst]) _ rfl
    have hl (x : α) : s'.Loaded x ↔ s.Loaded x := by
      rw [State.Loaded, h.exports]
      exact loaded_register hnew x
    refine hF.set hl h.calls (fun f hf e he x hx => ?_) hopen
    have hlibs : x = d ∨ x ∈ c.libs := by
      obtain rfl | hf := List.mem_cons.mp hf
      · exact he.elim
      obtain rfl | hf := List.mem_cons.mp hf
      · obtain he | rfl := asked_next hneeds he
        · exact .inr (hF.own c hmem _ (by simp [hst]) e he x hx)
        · exact .inl (Front.eq_of_not hx (by simp [State.Loaded, hnew]))
      · exact .inr (hF.own c hmem f (by simp [hst, hf]) e he x hx)
    simpa [Call.libs, hst] using hlibs
  | created i c lib below hc hst h =>
    have hmem : c ∈ s.calls := List.mem_iff_getElem?.mpr ⟨i, hc⟩
    have hopen := hout hc (by simp [hst])
    refine hF.set (hsame h.exports) h.calls (fun f hf e he x hx => ?_) hopen
    have hlibs : x ∈ c.libs := by
      obtain rfl | hf := List.mem_cons.mp hf
      · exact hF.own c hmem ⟨lib, .needs []⟩ (by simp [hst]) e ⟨P.needed lib, by simp, he⟩ x hx
      · exact hF.own c hmem f (by simp [hst, hf]) e he x hx
    simpa [Call.libs, hst] using hlibs
  | loaded i c lib below hc hst h =>
    have hload := (hI.calls i c hc).loading lib (by simp [Call.libs, hst])
    obtain ⟨he, hcalls, -, -⟩ := h (by simp [hload])
    refine Followed.loaded hI hF hc hst (fun x => ?_) hcalls
    by_cases hx : x = lib
    · simp [State.Loaded, he, hx]
    · simp [State.Loaded, he, hx]
  | failed i c _ _ hc hst hbad h =>
    exact absurd hcare (not_careful_of_bad hc hbad)

/-! ## Main results -/

/-- In a run in which no load fails and no call meets the load of another, loading keeps its promise. -/
theorem sound_of_careful (P : Program α) (s : State α)
    (h : Reaches (step P) (Careful P) start s) : Sound P (Careful P) s := by
  have hI := inv_of_reaches h
  have hF : Followed P s := h.invariant_of (fun _ => inv_of_reaches) followed_start
    fun _ _ _ hI hF hcare hs => hF.move hI (step_move hs) hcare
  constructor
  · intro c hc ho d hd
    have hload : s.Loaded d := black_of_no_front (hF.done c hc ho) hd
    exact ⟨hload, hI.loaded d hload⟩
  · exact hI.once
  · intro a s' hcare hs i c hfails
    exact absurd hcare (registered_of_fails hI (step_move hs) hfails).2
  · exact fun as s' has h => length_le_work hI has h
  · exact hI.ends

/-- Two libraries that need each other. -/
def twoWays : Program Bool := ⟨[false, true], by decide, fun a => [!a], false⟩

def globally : Flags := ⟨true, false, true⟩

/-- A second call reports success, and nothing was instantiated. -/
theorem unsound_of_run (a : List (Action Bool)) (h : (exec (step twoWays) start a).map
      (fun s => (s.calls[1]?.map fun c => (c.lib, c.outcome), s.instantiated)) =
      some (some (false, some true), [])) :
    ∃ s, Reaches (step twoWays) Any start s ∧ ¬ Sound twoWays Any s := by
  obtain ⟨s, hreach, hobs⟩ := reaches_of_map a h
  obtain ⟨hcall, hinst⟩ := Prod.mk.inj hobs
  refine ⟨s, hreach, fun hsound => ?_⟩
  obtain ⟨c, hc, hview⟩ := Option.map_eq_some_iff.mp hcall
  obtain ⟨-, ho⟩ := Prod.mk.inj hview
  have hload := hsound.success c (List.mem_iff_getElem?.mpr ⟨1, hc⟩) ho c.lib .refl
  simp [hinst] at hload

/-- A fetch fails, and the next call finds the library registered. -/
theorem failed_load_unsound : ∃ s, Reaches (step twoWays) Any start s ∧ ¬ Sound twoWays Any s := by
  apply unsound_of_run (a := [.load false globally none, .fetched 0 false,
    .load false globally none])
  decide

/-- A request that is clear to see: the library is new, or the call has its load in progress. -/
def clearlyClear (P : Program α) (s : State α) (own : List (Frame α)) (a : α) : Bool :=
  s.exports a = none || !P.assertions && s.exports a = some .loading && a ∈ own.map Frame.lib

theorem clear_of_clearly {own : List (Frame α)} (h : clearlyClear P s own d) : Clear P s own d := by
  intro hreg
  simp only [clearlyClear, Bool.or_eq_true, Bool.and_eq_true, Bool.not_eq_true',
    decide_eq_true_eq] at h
  obtain ⟨⟨hassert, hload⟩, hmem⟩ := h.resolve_left hreg
  refine ⟨fun x hx => ?_, by simp [hassert]⟩
  -- the library is not loaded, so it waits for itself
  exact Front.eq_of_not hx (by simp [State.Loaded, hload]) ▸ hmem

def clearlyCareful (P : Program α) (s : State α) : Action α → Bool
  | .load lib _ _ => clearlyClear P s [] lib
  | .fetched _ ok | .instantiate _ ok | .finish _ ok => ok
  | .next i => match s.calls[i]? with
    | none => true
    | some c => match c.stack with
      | ⟨_, .needs (d :: _)⟩ :: _ => clearlyClear P s c.stack d
      | _ => true

theorem careful_of_clearly (s : State α) (a : Action α) (h : clearlyCareful P s a = true) :
    Careful P s a := by
  cases a with
  | load lib flags handle => exact clear_of_clearly h
  | next i =>
    intro c lib d rest below hc hst
    simp only [clearlyCareful, hc, hst] at h
    exact hst ▸ clear_of_clearly h
  | fetched | instantiate | finish => exact h

theorem sound_twoWays : ∃ s, Reaches (step twoWays) (Careful twoWays) start s ∧
    s.instantiated = [false, true] ∧ Sound twoWays (Careful twoWays) s := by
  let as : List (Action Bool) := [.load false globally none, .fetched 0 true, .next 0,
    .fetched 0 true, .next 0, .instantiate 0 true, .finish 0 true, .instantiate 0 true,
    .finish 0 true]
  have hrun : (exec (step twoWays) start as).map (·.instantiated) = some [false, true] := by
    decide
  obtain ⟨s, hs, hinst⟩ := Option.map_eq_some_iff.mp hrun
  have hreach : Reaches (step twoWays) (Careful twoWays) start s :=
    reaches_of_exec as hs (meets_of_check careful_of_clearly as (by decide))
  exact ⟨s, hreach, hinst, sound_of_careful twoWays s hreach⟩

/-! ## Every run -/

/-- A library that is being loaded stays in the frames of its call, or leaves them: it is loaded then, or its call
has given it up. -/
theorem Move.loading {x : α} (hI : Inv P s) (hm : Move P s s' a) (hx : s.exports x = some .loading) :
    (s'.exports x = some .loading ∧ ∀ (j : Nat) (d' : Call α), s'.calls[j]? = some d' → x ∈ d'.libs →
      ∃ d : Call α, s.calls[j]? = some d ∧ x ∈ d.libs) ∨
    ∃ (j : Nat) (d : Call α), s.calls[j]? = some d ∧ x ∈ d.libs ∧ ∀ d' : Call α, s'.calls[j]? = some d' →
      d'.outcome = some true ∨ d'.outcome = d.outcome := by
  have hset {j : Nat} {d e : Call α} (hd : s.calls[j]? = some d) (hcalls : s'.calls = s.calls.set j e)
      (hlibs : x ∈ e.libs → x ∈ d.libs) (k : Nat) (d' : Call α) (hd' : s'.calls[k]? = some d') (hmem : x ∈ d'.libs) :
      ∃ d : Call α, s.calls[k]? = some d ∧ x ∈ d.libs := by
    obtain ⟨rfl, rfl⟩ | ⟨-, hd'⟩ := get_set (hcalls ▸ hd')
    · exact ⟨d, hd, hlibs hmem⟩
    · exact ⟨d', hd', hmem⟩
  have hadd {e : Call α} (hcalls : s'.calls = s.calls ++ [e]) (hlibs : x ∉ e.libs) (k : Nat) (d' : Call α)
      (hd' : s'.calls[k]? = some d') (hmem : x ∈ d'.libs) : ∃ d : Call α, s.calls[k]? = some d ∧ x ∈ d.libs := by
    obtain ⟨-, rfl⟩ | hd' := get_append (hcalls ▸ hd')
    · exact absurd hmem hlibs
    · exact ⟨d', hd', hmem⟩
  have hnew {d : α} (h : s.exports d = none) : x ≠ d := fun heq => by simp [← heq, hx] at h
  cases hm with
  | answered lib flags handle ok hreg href h => exact .inl ⟨h.exports ▸ hx, hadd h.calls (by simp [Call.libs])⟩
  | begun lib flags handle hlib h =>
    exact .inl ⟨by simp [h.exports, hnew hlib, hx], hadd h.calls (by simpa [Call.libs] using hnew hlib)⟩
  | fetched i c lib below hc hst h | known i c lib d rest below hc hst hreg h | created i c lib below hc hst h =>
    exact .inl ⟨h.exports ▸ hx, hset hc h.calls (by simp [Call.libs, hst])⟩
  | pushed i c lib d rest below hc hst hd h =>
    exact .inl ⟨by simp [h.exports, hnew hd, hx], hset hc h.calls (by simp [Call.libs, hst, hnew hd])⟩
  | failed i c _ ha hc hst hbad h => exact .inl ⟨h.exports ▸ hx, hset hc h.calls (by simp [Call.libs])⟩
  | loaded i c lib below hc hst h =>
    have hlib : s.exports lib = some .loading := (hI.calls i c hc).loading lib (by simp [Call.libs, hst])
    obtain ⟨he, hcalls, -, -⟩ := h (by simp [hlib])
    by_cases hx' : x = lib
    · refine .inr ⟨i, c, hc, by simp [Call.libs, hst, hx'], fun d' hd' => ?_⟩
      obtain ⟨-, rfl⟩ | hne := get_set (hcalls ▸ hd')
      · by_cases hb : below = [] <;> simp [hb]
      · exact absurd rfl hne.1
    · exact .inl ⟨by simp [he, hx', hx], hset hc hcalls fun h => by simpa [Call.libs, hst, hx'] using h⟩

/-- A library that is marked as being loaded, and that no call is loading. -/
def State.GivenUp (s : State α) (x : α) : Prop := s.exports x = some .loading ∧ ∀ d ∈ s.calls, x ∉ d.libs

theorem State.GivenUp.move {x : α} (h : s.GivenUp x) (hI : Inv P s) (hm : Move P s s' a) : s'.GivenUp x := by
  have hnone (j : Nat) (d : Call α) (hd : s.calls[j]? = some d) : x ∉ d.libs := h.2 d (List.mem_of_getElem? hd)
  obtain ⟨he, hlibs⟩ | ⟨j, d, hd, hmem, -⟩ := Move.loading hI hm h.1
  · refine ⟨he, fun d' hd' hmem => ?_⟩
    obtain ⟨j, hj⟩ := List.mem_iff_getElem?.mp hd'
    obtain ⟨d, hd, hmem'⟩ := hlibs j d' hj hmem
    exact hnone j d hd hmem'
  · exact absurd hmem (hnone j d hd)

theorem givenUp_of_failed {x : α} (hI : Inv P s) (hI' : Inv P s') (hm : Move P s s' a) (hc : s.calls[i]? = some c)
    (hc' : s'.calls[i]? = some c') (hfalse : c'.outcome = some false) (hx : x ∈ c.libs) : s'.GivenUp x := by
  have hown := hI.calls i c hc
  have hout : c.outcome = none := by
    by_contra hne
    simp [Call.libs, hown.unsettled.mpr hne] at hx
  have hempty : c'.stack = [] := (hI'.calls i c' hc').unsettled.mpr (by simp [hfalse])
  obtain ⟨he, hlibs⟩ | ⟨j, d, hd, hmem, hend⟩ := Move.loading hI hm (hown.loading x hx)
  · refine ⟨he, fun d' hd' hmem' => ?_⟩
    obtain ⟨j, hj⟩ := List.mem_iff_getElem?.mp hd'
    obtain ⟨d, hd, hmem⟩ := hlibs j d' hj hmem'
    -- the only call that had the library in a frame has none any more
    obtain rfl := hI.apart j i d c hd hc x hmem hx
    obtain rfl := Option.some.inj (hc'.symm.trans hj)
    simp [Call.libs, hempty] at hmem'
  · obtain rfl := hI.apart j i d c hd hc x hmem hx
    obtain rfl := Option.some.inj (hc.symm.trans hd)
    simpa [hfalse, hout] using hend c' hc'

/-- Whatever fails, no two loads in progress are about one library, no module is instantiated twice, a library with
exports has an instance, and the calls end. -/
theorem loads_end (h : Reaches (step P) Any start s) : Apart s.calls ∧ s.instantiated.Nodup ∧
    (∀ x, s.Loaded x → x ∈ s.instantiated) ∧
    (∀ as s', (∀ a ∈ as, a.call.isSome) → exec (step P) s as = some s' → as.length ≤ s.work P) ∧
    ((∀ a : Action α, a.call.isSome → step P s a = none) → ∀ c ∈ s.calls, c.outcome ≠ none) := by
  have hI := inv_of_reaches h
  exact ⟨hI.apart, hI.once, hI.loaded, fun _ _ has hs => length_le_work hI has hs, hI.ends⟩

theorem loads_end_failed : ∃ s, (exec (step twoWays) start [.load false globally none, .fetched 0 false]) = some s ∧
    s.instantiated.Nodup := by
  refine ⟨_, rfl, (loads_end (P := twoWays) ?_).2.1⟩
  exact (Reaches.init.next (.load false globally none) trivial rfl).next (.fetched 0 false) trivial rfl

/-- What a call was loading when it failed is marked as being loaded for ever: no call takes it up again. -/
theorem failed_load_is_final {t : State α} (h : Reaches (step P) Any start s) (hs : step P s a = some s')
    (hc : s.calls[i]? = some c) (hc' : s'.calls[i]? = some c') (hfalse : c'.outcome = some false)
    (ht : Reaches (step P) Any s' t) : ∀ x ∈ c.libs, t.exports x = some .loading ∧ ∀ d ∈ t.calls, x ∉ d.libs := by
  intro x hx
  have hI := inv_of_reaches h
  have hm := step_move hs
  have hreached : ∀ u, Reaches (step P) Any s' u → Inv P u := fun u hu => inv_of_reaches ((h.next a trivial hs).trans hu)
  exact ht.invariant_of (J := fun u => u.GivenUp x) hreached
    (givenUp_of_failed hI (hI.move hm) hm hc hc' hfalse hx) fun _ _ _ hI hg _ hs => hg.move hI (step_move hs)

/-- The next call for the library reports success. -/
theorem failed_load_is_final_again : ∃ t, exec (step twoWays) start
      [.load false globally none, .fetched 0 false, .load false globally none] = some t ∧
    t.calls.map (·.outcome) = [some false, some true] ∧ t.exports false = some .loading :=
  ⟨_, rfl, rfl, (failed_load_is_final (.next .init (.load false globally none) trivial rfl) (a := .fetched 0 false)
    rfl (i := 0) rfl rfl rfl (.next .init (.load false globally none) trivial rfl) false (by decide)).1⟩

end LoadLibrary
