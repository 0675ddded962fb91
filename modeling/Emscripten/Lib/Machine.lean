-- SUMMARY: Machines with labelled steps, their runs under a condition on the steps, and the rule of invariants.
import Mathlib.Logic.Basic

/-!
# Machines

A machine is a partial function from a state and an action to the next state. A run
takes actions one after another; the actions of concurrent threads are interleaved in
it. `Reaches step C s₀` are the states of the runs from `s₀` in which every action meets
the condition `C` in the state it is taken in.
-/

namespace Machine

variable {σ α : Type} {step : σ → α → Option σ} {C D : σ → α → Prop} {s₀ s s' : σ} {a : α}

inductive Reaches (step : σ → α → Option σ) (C : σ → α → Prop) (s₀ : σ) : σ → Prop
  | init : Reaches step C s₀ s₀
  | next {s s' : σ} (h : Reaches step C s₀ s) (a : α) (hc : C s a) (hs : step s a = some s') :
      Reaches step C s₀ s'

/-- Every action is allowed. -/
def Any : σ → α → Prop := fun _ _ => True

/-- The rule of invariants. -/
theorem Reaches.invariant {I : σ → Prop} (h : Reaches step C s₀ s) (hinit : I s₀)
    (hstep : ∀ s a s', I s → C s a → step s a = some s' → I s') : I s := by
  induction h with
  | init => exact hinit
  | next _ a hc hs ih => exact hstep _ a _ ih hc hs

/-- The rule of invariants, where what is reached is known to have an invariant already. -/
theorem Reaches.invariant_of {I J : σ → Prop} (h : Reaches step C s₀ s)
    (hI : ∀ s, Reaches step C s₀ s → I s) (hinit : J s₀)
    (hstep : ∀ s a s', I s → J s → C s a → step s a = some s' → J s') : J s := by
  induction h with
  | init => exact hinit
  | next hr a hc hs ih => exact hstep _ a _ (hI _ hr) ih hc hs

theorem Reaches.mono (h : Reaches step C s₀ s) (hCD : ∀ s a, C s a → D s a) :
    Reaches step D s₀ s := by
  induction h with
  | init => exact .init
  | next _ a hc hs ih => exact .next ih a (hCD _ a hc) hs

theorem Reaches.any (h : Reaches step C s₀ s) : Reaches step Any s₀ s :=
  h.mono fun _ _ _ => trivial

theorem Reaches.trans (h : Reaches step C s₀ s) (h' : Reaches step C s s') :
    Reaches step C s₀ s' := by
  induction h' with
  | init => exact h
  | next _ a hc hs ih => exact .next ih a hc hs

/-! ## Runs on given actions -/

/-- Take the actions one after another. -/
def exec (step : σ → α → Option σ) : σ → List α → Option σ
  | s, [] => some s
  | s, a :: as => (step s a).bind fun s' => exec step s' as

/-- The actions meet the condition, each in the state it is taken in. -/
def Meets (step : σ → α → Option σ) (C : σ → α → Prop) : σ → List α → Prop
  | _, [] => True
  | s, a :: as => C s a ∧ ∀ s', step s a = some s' → Meets step C s' as

variable (as : List α)

theorem reaches_of_exec (h : exec step s as = some s') (hm : Meets step C s as) : Reaches step C s s' := by
  induction as generalizing s with
  | nil =>
    cases h
    exact .init
  | cons a as ih =>
    obtain ⟨m, hstep, hrest⟩ := Option.bind_eq_some_iff.mp h
    exact (Reaches.init.next a hm.1 hstep).trans (ih hrest (hm.2 m hstep))

theorem meets_of_forall (h : ∀ a ∈ as, ∀ s, C s a) : Meets step C s as := by
  induction as generalizing s with
  | nil => trivial
  | cons a as ih => exact ⟨h a List.mem_cons_self s, fun _ _ => ih fun a' ha' => h a' (List.mem_cons_of_mem _ ha')⟩

theorem meets_any : Meets step Any s as := meets_of_forall as fun _ _ _ => trivial

/-- Check the actions one after another, each in the state it is taken in. -/
def check (step : σ → α → Option σ) (c : σ → α → Bool) : σ → List α → Bool
  | _, [] => true
  | s, a :: as => c s a && (step s a).all fun s' => check step c s' as

theorem meets_of_check {c : σ → α → Bool} (hc : ∀ s a, c s a = true → C s a) (as : List α)
    (h : check step c s as = true) : Meets step C s as := by
  induction as generalizing s with
  | nil => trivial
  | cons a as ih =>
    simp only [check, Bool.and_eq_true] at h
    refine ⟨hc s a h.1, fun s' hs' => ih ?_⟩
    simpa [hs'] using h.2

/-- A run that is computed, and an observation of the state it ends in. -/
theorem reaches_of_map {β : Type} {f : σ → β} {b : β} (h : (exec step s as).map f = some b) :
    ∃ s', Reaches step Any s s' ∧ f s' = b := by
  obtain ⟨s', hs, hb⟩ := Option.map_eq_some_iff.mp h
  exact ⟨s', reaches_of_exec as hs (meets_any as), hb⟩

end Machine
