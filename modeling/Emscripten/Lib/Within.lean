-- SUMMARY: Programs whose runs stay within a preorder on states, however they end.
import Mathlib.Order.Defs.Unbundled
import Emscripten.Lib.Prog

/-!
# Programs within a preorder

A preorder on states says what a run may change. `m.Within R` holds of a program where
every run, also one that fails, leads from a state to one that is `R`-above it. The parts
of a program are looked at one at a time.
-/

namespace Prog

variable {σ ε α β : Type} {R S : σ → σ → Prop}

def Within (R : σ → σ → Prop) (m : Prog σ ε α) : Prop := ∀ s s' r, m s = some (s', r) → R s s'

variable {m : Prog σ ε α} {k : α → Prog σ ε β} {c : Prop} {f : σ → α} {e : ε}

namespace Within

theorem mono (h : Within R m) (hRS : ∀ s s', R s s' → S s s') : Within S m :=
  fun s s' r hr => hRS s s' (h s s' r hr)

theorem modify {f : σ → σ} (h : ∀ s, R s (f s)) : Within R (Prog.modify f : Prog σ ε Unit) := by
  intro s s' r hr
  cases hr
  exact h s

theorem ite [Decidable c] {m₁ m₂ : Prog σ ε α} (h₁ : c → Within R m₁) (h₂ : ¬ c → Within R m₂) :
    Within R (if c then m₁ else m₂) := by
  split
  · next hc => exact h₁ hc
  · next hc => exact h₂ hc

/-- What is read is what the state holds. -/
theorem bind_gets (hk : ∀ s, Within R (k (f s))) : Within R (Prog.gets f >>= k) := fun s s' r h => hk s s s' r h

section Preorder

variable [IsPreorder σ R]

/-- A program that leaves the state alone. -/
theorem of_read (h : ∀ s s' r, m s = some (s', r) → s' = s) : Within R m := by
  intro s s' r hr
  obtain rfl := h s s' r hr
  exact refl_of R _

theorem pure {a : α} : Within R (Pure.pure a : Prog σ ε α) := of_read fun s s' r h => by
  cases h
  rfl

theorem fail : Within R (Prog.fail e : Prog σ ε α) := of_read fun s s' r h => by
  cases h
  rfl

theorem gets : Within R (Prog.gets f : Prog σ ε α) := of_read fun s s' r h => by
  cases h
  rfl

theorem failIf [Decidable c] : Within R (Prog.failIf c e : Prog σ ε Unit) :=
  of_read fun s s' r h => by
    rw [failIf_apply] at h
    cases h
    rfl

theorem bind (hm : Within R m) (hk : ∀ a, Within R (k a)) : Within R (m >>= k) := by
  intro s s' r h
  cases r with
  | ok b =>
    obtain ⟨a, s₁, h₁, h₂⟩ := bind_ok_iff.mp h
    exact trans_of R (hm s s₁ _ h₁) (hk a s₁ s' _ h₂)
  | error e =>
    rcases bind_error_iff.mp h with h₁ | ⟨a, s₁, h₁, h₂⟩
    · exact hm s s' _ h₁
    · exact trans_of R (hm s s₁ _ h₁) (hk a s₁ s' _ h₂)

end Preorder

end Within

/-! ## Runs from one state -/

/-- `Within`, from a state of which more is known. -/
def Leads (R : σ → σ → Prop) (s : σ) (m : Prog σ ε α) : Prop := ∀ s' r, m s = some (s', r) → R s s'

theorem Within.leads (h : Within R m) (s : σ) : Leads R s m := h s

namespace Leads

variable {s : σ}

theorem ite [Decidable c] {m₁ m₂ : Prog σ ε α} (h₁ : c → Leads R s m₁) (h₂ : ¬ c → Leads R s m₂) :
    Leads R s (if c then m₁ else m₂) := by
  split
  · next hc => exact h₁ hc
  · next hc => exact h₂ hc

variable [IsPreorder σ R]

theorem pure {a : α} : Leads R s (Pure.pure a : Prog σ ε α) := Within.pure.leads s

theorem fail : Leads R s (Prog.fail e : Prog σ ε α) := Within.fail.leads s

theorem bind (hm : Leads R s m) (hk : ∀ s₁ a, m s = some (s₁, .ok a) → Leads R s₁ (k a)) :
    Leads R s (m >>= k) := by
  intro s' r h
  cases r with
  | ok b =>
    obtain ⟨a, s₁, h₁, h₂⟩ := bind_ok_iff.mp h
    exact trans_of R (hm s₁ _ h₁) (hk s₁ a h₁ s' _ h₂)
  | error e =>
    rcases bind_error_iff.mp h with h₁ | ⟨a, s₁, h₁, h₂⟩
    · exact hm s' _ h₁
    · exact trans_of R (hm s₁ _ h₁) (hk s₁ a h₁ s' _ h₂)

/-- What follows a part that only reads goes on from the same state. -/
theorem read {Q : α → Prop} (hm : Reads s m Q) (hk : ∀ a, Q a → Leads R s (k a)) : Leads R s (m >>= k) := by
  intro s' r h
  rcases hm.bind_cases h with ⟨e, rfl, _⟩ | ⟨a, ha, _, h₂⟩
  · exact refl_of R _
  · exact hk a ha s' r h₂

theorem gets (hk : Leads R s (k (f s))) : Leads R s (Prog.gets f >>= k) :=
  read (Q := fun a => a = f s) (.gets rfl) fun a ha => by
    subst ha
    exact hk

theorem failIf [Decidable c] {k : Unit → Prog σ ε β} (hk : ¬ c → Leads R s (k ())) :
    Leads R s (Prog.failIf c e >>= k) :=
  read .failIf fun _ hc => hk hc

end Leads

/-! ## Invariants -/

/-- The preorder in which what holds of a state holds of those above it. -/
def Keeps (I : σ → Prop) (s s' : σ) : Prop := I s → I s'

variable {I : σ → Prop} {s : σ}

instance : IsPreorder σ (Keeps I) where
  refl _ := id
  trans _ _ _ h h' := h' ∘ h

/-- The invariant may be used in the state a program starts from. -/
theorem Leads.keeps (h : I s → Leads (Keeps I) s m) : Leads (Keeps I) s m :=
  fun s' r hr hs => h hs s' r hr hs

theorem Within.keeps (h : ∀ s, I s → Leads (Keeps I) s m) : Within (Keeps I) m :=
  fun s => Leads.keeps (h s)

end Prog
