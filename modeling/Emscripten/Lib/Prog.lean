-- SUMMARY: Sequential programs over a shared state that may fail or crash, and their partial-correctness triples.
import Mathlib.Logic.Basic

/-!
# Programs with failure and crashes

A `Prog σ ε α` reads and writes a state `σ`. It returns a value, fails with an
error of type `ε` (keeping the writes made so far: nothing is rolled back), or
crashes, in which case there is no final state at all.

`Triple P m Q E` is partial correctness: a run of `m` from a state in `P` that
does not crash ends in `Q a` when it returns `a` and in `E e` when it fails
with `e`.
-/

def Prog (σ ε α : Type) : Type := σ → Option (σ × Except ε α)

namespace Prog

variable {σ ε α β : Type}

/-! ## Operations -/

def ret (a : α) : Prog σ ε α := fun s => some (s, .ok a)

def fail (e : ε) : Prog σ ε α := fun s => some (s, .error e)

def crash : Prog σ ε α := fun _ => none

/-- Read the state through `f`. -/
def gets (f : σ → α) : Prog σ ε α := fun s => some (s, .ok (f s))

def modify (f : σ → σ) : Prog σ ε Unit := fun s => some (f s, .ok ())

def seq (m : Prog σ ε α) (k : α → Prog σ ε β) : Prog σ ε β := fun s =>
  match m s with
  | none => none
  | some (s', .error e) => some (s', .error e)
  | some (s', .ok a) => k a s'

/-- The early return `if (c) return -e`. -/
def failIf (c : Prop) [Decidable c] (e : ε) : Prog σ ε Unit := if c then fail e else ret ()

/-- A result computed without the state. -/
def ofExcept : Except ε α → Prog σ ε α
  | .ok a => ret a
  | .error e => fail e

/-- Run `m` and hand its outcome, error or value, to `k`. -/
def attempt (m : Prog σ ε α) (k : Except ε α → Prog σ ε β) : Prog σ ε β := fun s =>
  match m s with
  | none => none
  | some (s', r) => k r s'

instance : Monad (Prog σ ε) where
  pure := ret
  bind := seq

theorem seq_ret (m : Prog σ ε α) : seq m ret = m := by
  funext s
  unfold seq
  split
  · next h => exact h.symm
  · next h => exact h.symm
  · next h => exact h.symm

theorem seq_assoc {γ : Type} (m : Prog σ ε α) (k : α → Prog σ ε β) (l : β → Prog σ ε γ) :
    seq (seq m k) l = seq m fun a => seq (k a) l := by
  funext s
  unfold seq
  cases m s with
  | none => rfl
  | some p =>
    obtain ⟨s', r⟩ := p
    cases r with
    | error e => rfl
    | ok a => rfl

instance : LawfulMonad (Prog σ ε) := LawfulMonad.mk' _ seq_ret (fun _ _ => rfl) seq_assoc

@[simp] theorem fail_bind (e : ε) (k : α → Prog σ ε β) : (fail e >>= k) = fail e := rfl

@[simp] theorem pure_apply (a : α) (s : σ) : (pure a : Prog σ ε α) s = some (s, .ok a) := rfl

@[simp] theorem ret_apply (a : α) (s : σ) : (ret a : Prog σ ε α) s = some (s, .ok a) := rfl

@[simp] theorem fail_apply (e : ε) (s : σ) : (fail e : Prog σ ε α) s = some (s, .error e) := rfl

@[simp] theorem crash_apply (s : σ) : (crash : Prog σ ε α) s = none := rfl

@[simp] theorem gets_apply (f : σ → α) (s : σ) :
    (gets f : Prog σ ε α) s = some (s, .ok (f s)) := rfl

@[simp] theorem modify_apply (f : σ → σ) (s : σ) :
    (modify f : Prog σ ε Unit) s = some (f s, .ok ()) := rfl

theorem ofExcept_apply (r : Except ε α) (s : σ) : ofExcept r s = some (s, r) := by
  cases r <;> rfl

theorem failIf_apply (c : Prop) [Decidable c] (e : ε) (s : σ) :
    (failIf c e : Prog σ ε Unit) s = some (s, if c then .error e else .ok ()) := by
  unfold failIf
  split <;> rfl

variable {m : Prog σ ε α} {k : α → Prog σ ε β} {c : Prop} {e : ε} {a : α} {f : σ → α} {s' s : σ}

/-- A bind returns a value only through a value of its first part. -/
theorem bind_ok_iff {b : β} :
    (m >>= k) s = some (s', .ok b) ↔
      ∃ a s₁, m s = some (s₁, .ok a) ∧ k a s₁ = some (s', .ok b) := by
  change seq m k s = _ ↔ _
  unfold seq
  constructor
  · intro h
    split at h
    · cases h
    · cases h
    · next s₁ a hm => exact ⟨a, s₁, hm, h⟩
  · rintro ⟨a, s₁, hm, hk⟩
    rw [hm]
    exact hk

/-- A bind fails where its first part fails, or later with its second part. -/
theorem bind_error_iff :
    (m >>= k) s = some (s', .error e) ↔
      m s = some (s', .error e) ∨
        ∃ a s₁, m s = some (s₁, .ok a) ∧ k a s₁ = some (s', .error e) := by
  change seq m k s = _ ↔ _
  unfold seq
  cases hm : m s with
  | none => simp
  | some p =>
    obtain ⟨s₁, r⟩ := p
    cases r with
    | error e' => simp
    | ok a =>
      simp only [Option.some.injEq, Prod.mk.injEq, reduceCtorEq, and_false, Except.ok.injEq,
        false_or]
      constructor
      · intro h; exact ⟨a, s₁, ⟨rfl, rfl⟩, h⟩
      · rintro ⟨_, _, ⟨rfl, rfl⟩, h⟩; exact h

theorem bind_of_ok {s₁ : σ} (h : m s = some (s₁, .ok a)) : (m >>= k) s = k a s₁ := by
  change seq m k s = _
  unfold seq
  rw [h]

theorem bind_of_error {s₁ : σ} (h : m s = some (s₁, .error e)) : (m >>= k) s = some (s₁, .error e) := by
  change seq m k s = _
  unfold seq
  rw [h]

theorem attempt_of {k : Except ε α → Prog σ ε β} {t : σ} {r : Except ε α} (h : m s = some (t, r)) :
    attempt m k s = k r t := by
  unfold attempt
  rw [h]

theorem gets_bind_apply (f : σ → α) (k : α → Prog σ ε β) (s : σ) :
    (gets f >>= k) s = k (f s) s := rfl

theorem modify_bind_apply (f : σ → σ) (k : Unit → Prog σ ε β) (s : σ) :
    (modify f >>= k) s = k () (f s) := rfl

theorem failIf_bind_apply [Decidable c] {k : Unit → Prog σ ε β} (s : σ) :
    (failIf c e >>= k) s = if c then some (s, .error e) else k () s := by
  by_cases hc : c
  · rw [if_pos hc]
    exact bind_of_error (by rw [failIf_apply, if_pos hc])
  · rw [if_neg hc]
    exact bind_of_ok (by rw [failIf_apply, if_neg hc])

theorem failIf_bind_ok_iff [Decidable c] {k : Unit → Prog σ ε β} {b : β} :
    (failIf c e >>= k) s = some (s', .ok b) ↔ ¬ c ∧ k () s = some (s', .ok b) := by
  rw [bind_ok_iff]
  by_cases hc : c
  · simp [failIf_apply, hc]
  · simp only [failIf_apply, hc, if_false, Option.some.injEq, Prod.mk.injEq, and_true,
      not_false_eq_true, true_and]
    constructor
    · rintro ⟨_, _, rfl, h⟩; exact h
    · intro h; exact ⟨(), s, rfl, h⟩

/-! ## Triples -/

/-- Partial correctness up to crashes. -/
def Triple (P : σ → Prop) (m : Prog σ ε α) (Q : α → σ → Prop) (E : ε → σ → Prop) : Prop :=
  ∀ s, P s → ∀ s' r, m s = some (s', r) →
    match r with
    | .ok a => Q a s'
    | .error e => E e s'

namespace Triple

variable {P P' : σ → Prop} {Q Q' : α → σ → Prop} {R : β → σ → Prop} {E E' : ε → σ → Prop}

theorem ret {a : α} : Triple (Q a) (Prog.ret a) Q E := by
  intro s hs s' r h
  cases h
  exact hs

theorem pure : Triple (Q a) (Pure.pure a : Prog σ ε α) Q E := Triple.ret

theorem fail {e : ε} : Triple (E e) (Prog.fail e : Prog σ ε α) Q E := by
  intro s hs s' r h
  cases h
  exact hs

/-- A return at the end of a program, where its postcondition follows from what holds. -/
theorem returns (h : ∀ s, P s → Q a s) : Triple P (Pure.pure a : Prog σ ε α) Q E := by
  intro s hs s' r hr
  cases hr
  exact h s hs

theorem skip : Triple P (Pure.pure a : Prog σ ε α) (fun _ => P) E :=
  returns fun _ hs => hs

theorem fails (h : ∀ s, P s → E e s) : Triple P (Prog.fail e : Prog σ ε α) Q E := by
  intro s hs s' r hr
  cases hr
  exact h s hs

theorem crash : Triple P (Prog.crash : Prog σ ε α) Q E := by
  intro s _ s' r h
  cases h

theorem gets {f : σ → α} : Triple (fun s => Q (f s) s) (Prog.gets f) Q E := by
  intro s hs s' r h
  cases h
  exact hs

theorem modify {f : σ → σ} {Q : Unit → σ → Prop} :
    Triple (fun s => Q () (f s)) (Prog.modify f) Q E := by
  intro s hs s' r h
  cases h
  exact hs

theorem failIf [Decidable c] {Q : Unit → σ → Prop} :
    Triple (fun s => if c then E e s else Q () s) (Prog.failIf c e) Q E := by
  intro s hs s' r h
  rw [failIf_apply] at h
  cases h
  split at hs <;> simp_all

theorem bind (hm : Triple P m Q E) (hk : ∀ a, Triple (Q a) (k a) R E) : Triple P (m >>= k) R E := by
  intro s hs s' r h
  cases r with
  | ok b =>
    obtain ⟨a, s₁, h₁, h₂⟩ := bind_ok_iff.mp h
    exact hk a s₁ (hm s hs s₁ (.ok a) h₁) s' (.ok b) h₂
  | error e =>
    rcases bind_error_iff.mp h with h₁ | ⟨a, s₁, h₁, h₂⟩
    · exact hm s hs s' (.error e) h₁
    · exact hk a s₁ (hm s hs s₁ (.ok a) h₁) s' (.error e) h₂

theorem attempt {k : Except ε α → Prog σ ε β} {F : ε → σ → Prop} (hm : Triple P m Q F)
    (hok : ∀ a, Triple (Q a) (k (.ok a)) R E) (herr : ∀ e, Triple (F e) (k (.error e)) R E) :
    Triple P (Prog.attempt m k) R E := by
  intro s hs s' r h
  unfold Prog.attempt at h
  split at h
  · cases h
  · next s₁ r₁ h₁ =>
    cases r₁ with
    | ok a => exact hok a s₁ (hm s hs s₁ (.ok a) h₁) s' r h
    | error e => exact herr e s₁ (hm s hs s₁ (.error e) h₁) s' r h

theorem ite [Decidable c] {m₁ m₂ : Prog σ ε α} (h₁ : c → Triple P m₁ Q E) (h₂ : ¬ c → Triple P m₂ Q E) :
    Triple P (if c then m₁ else m₂) Q E := by
  split
  · next hc => exact h₁ hc
  · next hc => exact h₂ hc

/-- The rule of consequence. -/
theorem conseq (h : Triple P m Q E) (hP : ∀ s, P' s → P s) (hQ : ∀ a s, Q a s → Q' a s)
    (hE : ∀ e s, E e s → E' e s) : Triple P' m Q' E' := by
  intro s hs s' r hr
  have := h s (hP s hs) s' r hr
  cases r with
  | ok a => exact hQ a s' this
  | error e => exact hE e s' this

/-- A part of the precondition that is not about the state is a hypothesis. -/
theorem given {p : Prop} (h : p → Triple P m Q E) : Triple (fun s => p ∧ P s) m Q E := by
  intro s hs
  exact h hs.1 s hs.2

theorem and (h : Triple P m Q E) (h' : Triple P' m Q' E') :
    Triple (fun s => P s ∧ P' s) m (fun a s => Q a s ∧ Q' a s) (fun e s => E e s ∧ E' e s) := by
  intro s hs s' r hr
  have h₁ := h s hs.1 s' r hr
  have h₂ := h' s hs.2 s' r hr
  cases r with
  | ok a => exact ⟨h₁, h₂⟩
  | error e => exact ⟨h₁, h₂⟩

theorem weaken (h : Triple P m Q E) (hP : ∀ s, P' s → P s) : Triple P' m Q E :=
  h.conseq hP (fun _ _ => id) (fun _ _ => id)

end Triple

/-! ## Invariants -/

/-- `m` keeps `I` however it ends. -/
def Preserves (I : σ → Prop) (m : Prog σ ε α) : Prop :=
  Triple I m (fun _ => I) (fun _ => I)

namespace Preserves

variable {I : σ → Prop}

theorem ret : Preserves I (Prog.ret a : Prog σ ε α) :=
  @Triple.ret σ ε α (fun _ => I) (fun _ => I) a

theorem pure : Preserves I (Pure.pure a : Prog σ ε α) := ret

theorem fail : Preserves I (Prog.fail e : Prog σ ε α) :=
  @Triple.fail σ ε α (fun _ => I) (fun _ => I) e

theorem crash : Preserves I (Prog.crash : Prog σ ε α) := Triple.crash

theorem gets : Preserves I (Prog.gets f : Prog σ ε α) :=
  @Triple.gets σ ε α (fun _ => I) (fun _ => I) f

theorem modify {f : σ → σ} (h : ∀ s, I s → I (f s)) :
    Preserves I (Prog.modify f : Prog σ ε Unit) :=
  Triple.modify.weaken h

theorem failIf [Decidable c] : Preserves I (Prog.failIf c e : Prog σ ε Unit) :=
  Triple.failIf.weaken (fun _ hs => by split <;> exact hs)

theorem bind (hm : Preserves I m) (hk : ∀ a, Preserves I (k a)) : Preserves I (m >>= k) :=
  Triple.bind hm hk

theorem attempt {k : Except ε α → Prog σ ε β} (hm : Preserves I m) (hk : ∀ r, Preserves I (k r)) :
    Preserves I (Prog.attempt m k) :=
  Triple.attempt hm (fun a => hk (.ok a)) (fun e => hk (.error e))

theorem ite [Decidable c] {m₁ m₂ : Prog σ ε α} (h₁ : Preserves I m₁) (h₂ : Preserves I m₂) :
    Preserves I (if c then m₁ else m₂) :=
  Triple.ite (fun _ => h₁) (fun _ => h₂)

end Preserves

/-- `m` keeps `I`, and a value it returns has `Q`. -/
def Ensures (I : σ → Prop) (m : Prog σ ε α) (Q : α → Prop) : Prop :=
  Triple I m (fun a s => I s ∧ Q a) (fun _ => I)

namespace Ensures

variable {I : σ → Prop} {Q : α → Prop} {R : β → Prop}

theorem pure (h : Q a) : Ensures I (Pure.pure a : Prog σ ε α) Q :=
  Triple.returns fun _ hs => ⟨hs, h⟩

theorem fail : Ensures I (Prog.fail e : Prog σ ε α) Q := Triple.fails fun _ hs => hs

theorem crash : Ensures I (Prog.crash : Prog σ ε α) Q := Triple.crash

theorem gets (h : ∀ s, I s → Q (f s)) : Ensures I (Prog.gets f : Prog σ ε α) Q :=
  Triple.gets.weaken fun s hs => ⟨hs, h s hs⟩

theorem failIf [Decidable c] : Ensures I (Prog.failIf c e : Prog σ ε Unit) (fun _ => ¬ c) := by
  refine Triple.failIf.weaken fun s hs => ?_
  split
  · exact hs
  · next hc => exact ⟨hs, hc⟩

theorem of_preserves (h : Preserves I m) : Ensures I m (fun _ => True) :=
  h.conseq (fun _ => id) (fun _ _ hs => ⟨hs, trivial⟩) (fun _ _ => id)

theorem preserves (h : Ensures I m Q) : Preserves I m :=
  h.conseq (fun _ => id) (fun _ _ hs => hs.1) (fun _ _ => id)

theorem bind (hm : Ensures I m Q) (hk : ∀ a, Q a → Ensures I (k a) R) : Ensures I (m >>= k) R :=
  Triple.bind hm fun a => by
    intro s hs
    exact hk a hs.2 s hs.1

theorem attempt {k : Except ε α → Prog σ ε β} (hm : Ensures I m Q) (hok : ∀ a, Q a → Ensures I (k (.ok a)) R)
    (herr : ∀ e, Ensures I (k (.error e)) R) : Ensures I (Prog.attempt m k) R :=
  Triple.attempt hm (fun a s hs => hok a hs.2 s hs.1) herr

theorem ite [Decidable c] {m₁ m₂ : Prog σ ε α} (h₁ : c → Ensures I m₁ Q) (h₂ : ¬ c → Ensures I m₂ Q) :
    Ensures I (if c then m₁ else m₂) Q := Triple.ite h₁ h₂

theorem conseq {Q' : α → Prop} (h : Ensures I m Q) (hQ : ∀ a, Q a → Q' a) : Ensures I m Q' :=
  Triple.conseq h (fun _ => id) (fun a _ hs => ⟨hs.1, hQ a hs.2⟩) (fun _ _ => id)

end Ensures

/-! ## Programs that only read -/

/-- From `s`, the program leaves the state alone, and a value it returns has `Q`. -/
def Reads (s : σ) (m : Prog σ ε α) (Q : α → Prop) : Prop :=
  ∀ s' r, m s = some (s', r) → s' = s ∧ ∀ a, r = .ok a → Q a

namespace Reads

variable {s : σ} {Q : α → Prop} {R : β → Prop}

theorem ret (h : Q a) : Reads s (Prog.ret a : Prog σ ε α) Q := by
  intro s' r hr
  cases hr
  refine ⟨rfl, ?_⟩
  intro b hb
  cases hb
  exact h

theorem pure (h : Q a) : Reads s (Pure.pure a : Prog σ ε α) Q := ret h

theorem fail : Reads s (Prog.fail e : Prog σ ε α) Q := by
  intro s' r hr
  cases hr
  refine ⟨rfl, ?_⟩
  intro b hb
  cases hb

theorem crash : Reads s (Prog.crash : Prog σ ε α) Q := by
  intro s' r hr
  cases hr

theorem gets (h : Q (f s)) : Reads s (Prog.gets f : Prog σ ε α) Q := by
  intro s' r hr
  cases hr
  refine ⟨rfl, ?_⟩
  intro b hb
  cases hb
  exact h

theorem failIf [Decidable c] : Reads s (Prog.failIf c e : Prog σ ε Unit) (fun _ => ¬ c) := by
  intro s' r hr
  rw [failIf_apply] at hr
  cases hr
  refine ⟨rfl, ?_⟩
  intro b hb hc
  rw [if_pos hc] at hb
  cases hb

theorem bind (hm : Reads s m Q) (hk : ∀ a, Q a → Reads s (k a) R) : Reads s (m >>= k) R := by
  intro s' r hr
  cases r with
  | ok b =>
    obtain ⟨a, s₁, h₁, h₂⟩ := bind_ok_iff.mp hr
    obtain ⟨rfl, hQ⟩ := hm s₁ (.ok a) h₁
    exact hk a (hQ a rfl) s' (.ok b) h₂
  | error e =>
    refine ⟨?_, fun b hb => by cases hb⟩
    rcases bind_error_iff.mp hr with h₁ | ⟨a, s₁, h₁, h₂⟩
    · exact (hm s' (.error e) h₁).1
    · obtain ⟨rfl, hQ⟩ := hm s₁ (.ok a) h₁
      exact (hk a (hQ a rfl) s' (.error e) h₂).1

theorem attempt {k : Except ε α → Prog σ ε β} (hm : Reads s m Q) (hk : ∀ r, Reads s (k r) R) :
    Reads s (Prog.attempt m k) R := by
  intro s' r hr
  unfold Prog.attempt at hr
  split at hr
  · cases hr
  · next s₁ r₁ hrun =>
      obtain ⟨rfl, _⟩ := hm s₁ r₁ hrun
      exact hk r₁ s' r hr

theorem ite [Decidable c] {m₁ m₂ : Prog σ ε α} (h₁ : c → Reads s m₁ Q) (h₂ : ¬ c → Reads s m₂ Q) :
    Reads s (if c then m₁ else m₂) Q := by
  split
  · next hc => exact h₁ hc
  · next hc => exact h₂ hc

theorem conseq {Q' : α → Prop} (h : Reads s m Q) (hQ : ∀ a, Q a → Q' a) : Reads s m Q' := by
  intro s' r hr
  obtain ⟨hs, hv⟩ := h s' r hr
  exact ⟨hs, fun a ha => hQ a (hv a ha)⟩

/-- A reading program keeps every invariant. -/
theorem preserves {Q : σ → α → Prop} {I : σ → Prop} (h : ∀ s, Reads s m (Q s)) : Preserves I m := by
  intro s hs s' r hr
  obtain ⟨rfl, _⟩ := h s s' r hr
  cases r with
  | ok a => exact hs
  | error e => exact hs

/-- What follows a reading program runs from the same state. -/
theorem bind_cases {r : Except ε β} (hm : Reads s m Q) (h : (m >>= k) s = some (s', r)) :
    (∃ e, s' = s ∧ r = .error e) ∨ ∃ a, Q a ∧ m s = some (s, .ok a) ∧ k a s = some (s', r) := by
  cases r with
  | ok b =>
    obtain ⟨a, s₁, h₁, h₂⟩ := bind_ok_iff.mp h
    obtain ⟨rfl, hQ⟩ := hm s₁ (.ok a) h₁
    exact .inr ⟨a, hQ a rfl, h₁, h₂⟩
  | error e =>
    rcases bind_error_iff.mp h with h₁ | ⟨a, s₁, h₁, h₂⟩
    · obtain ⟨rfl, _⟩ := hm s' (.error e) h₁
      exact .inl ⟨e, rfl, rfl⟩
    · obtain ⟨rfl, hQ⟩ := hm s₁ (.ok a) h₁
      exact .inr ⟨a, hQ a rfl, h₁, h₂⟩

/-- A failure after a reading program is its own, or a later one. -/
theorem bind_error_cases (hm : Reads s m Q) (h : (m >>= k) s = some (s', .error e)) :
    (s' = s ∧ m s = some (s, .error e)) ∨
      ∃ a, Q a ∧ m s = some (s, .ok a) ∧ k a s = some (s', .error e) := by
  rcases bind_error_iff.mp h with h₁ | ⟨a, s₁, h₁, h₂⟩
  · obtain ⟨rfl, _⟩ := hm s' (.error e) h₁
    exact .inl ⟨rfl, h₁⟩
  · obtain ⟨rfl, hQ⟩ := hm s₁ (.ok a) h₁
    exact .inr ⟨a, hQ a rfl, h₁, h₂⟩

end Reads

/-- In `s` the program ends, and it has only read. -/
def Answers (s : σ) (m : Prog σ ε α) : Prop := ∃ r, m s = some (s, r)

namespace Answers

variable {s : σ} {m : Prog σ ε α} {k : α → Prog σ ε β}

theorem fail : Answers s (Prog.fail e : Prog σ ε α) := ⟨.error e, rfl⟩

theorem gets : Answers s (Prog.gets f : Prog σ ε α) := ⟨.ok (f s), rfl⟩

theorem failIf [Decidable c] : Answers s (Prog.failIf c e : Prog σ ε Unit) :=
  ⟨_, failIf_apply c e s⟩

theorem bind (hm : Answers s m) (hk : ∀ a, Answers s (k a)) : Answers s (m >>= k) := by
  obtain ⟨r, hr⟩ := hm
  cases r with
  | ok a =>
    obtain ⟨r', hr'⟩ := hk a
    exact ⟨r', (bind_of_ok hr).trans hr'⟩
  | error e => exact ⟨.error e, bind_of_error hr⟩

theorem ite [Decidable c] {m' : Prog σ ε α} (h : Answers s m) (h' : Answers s m') :
    Answers s (if c then m else m') := by
  split
  · exact h
  · exact h'

end Answers

end Prog
