-- SUMMARY: Programs that do what another program does, as long as a run does not go astray.
import Emscripten.Lib.Prog

/-!
# Following a program

`Follows O rel m m'` says that every run of `m` that ends, and has not gone astray, is also one of
`m'`: from the same state to the same state, with the same error or with related values. States only
move up in the order of `O`, and going astray is not undone, so that the parts of a run are not astray
when the whole run is not. An outlook may be restricted to states with a property that moving up keeps.
-/

namespace Prog

variable {σ ε α β γ δ : Type}

/-- An order in which the states of a run move up, the states in view, and which states are astray. -/
structure Outlook (σ : Type) where
  le : σ → σ → Prop
  inSight : σ → Prop
  astray : σ → Prop
  refl : ∀ s, le s s
  trans : ∀ s s' s'', le s s' → le s' s'' → le s s''
  keeps : ∀ s s', le s s' → inSight s → inSight s'
  stays : ∀ s s', le s s' → astray s → astray s'

/-- A property that moving up keeps. -/
def Outlook.Kept (O : Outlook σ) (P : σ → Prop) : Prop := ∀ s s', O.le s s' → P s → P s'

def Outlook.restrict (O : Outlook σ) (P : σ → Prop) (hP : O.Kept P) : Outlook σ where
  le := O.le
  inSight s := O.inSight s ∧ P s
  astray := O.astray
  refl := O.refl
  trans := O.trans
  keeps s s' hle h := ⟨O.keeps s s' hle h.1, hP s s' hle h.2⟩
  stays := O.stays

/-- The same error, or related values. -/
def Agree (rel : α → β → Prop) : Except ε α → Except ε β → Prop
  | .ok a, .ok b => rel a b
  | .error e, .error e' => e = e'
  | _, _ => False

structure Follows (O : Outlook σ) (rel : α → β → Prop) (m : Prog σ ε α) (m' : Prog σ ε β) : Prop where
  mono : ∀ s s₁ r, O.inSight s → m s = some (s₁, r) → O.le s s₁
  run : ∀ s s₁ r, O.inSight s → m s = some (s₁, r) → ¬ O.astray s₁ →
    ∃ r', m' s = some (s₁, r') ∧ Agree rel r r'

namespace Follows

variable {O : Outlook σ} {rel rel' : α → β → Prop} {m : Prog σ ε α} {m' : Prog σ ε β}

theorem pure {a : α} {b : β} (h : rel a b) :
    Follows O rel (Pure.pure a : Prog σ ε α) (Pure.pure b : Prog σ ε β) where
  mono s s₁ r _ hr := by
    cases hr
    exact O.refl s
  run s s₁ r _ hr _ := by
    cases hr
    exact ⟨.ok b, rfl, h⟩

theorem fail {e : ε} : Follows O rel (Prog.fail e : Prog σ ε α) (Prog.fail e : Prog σ ε β) where
  mono s s₁ r _ hr := by
    cases hr
    exact O.refl s
  run s s₁ r _ hr _ := by
    cases hr
    exact ⟨.error e, rfl, rfl⟩

theorem crash : Follows O rel (Prog.crash : Prog σ ε α) m' where
  mono _ _ _ _ hr := by cases hr
  run _ _ _ _ hr _ := by cases hr

theorem gets {f : σ → α} : Follows O Eq (Prog.gets f : Prog σ ε α) (Prog.gets f) where
  mono s s₁ r _ hr := by
    cases hr
    exact O.refl s
  run s s₁ r _ hr _ := by
    cases hr
    exact ⟨_, rfl, rfl⟩

theorem modify {f : σ → σ} (h : ∀ s, O.le s (f s)) :
    Follows O Eq (Prog.modify f : Prog σ ε Unit) (Prog.modify f) where
  mono s s₁ r _ hr := by
    cases hr
    exact h s
  run s s₁ r _ hr _ := by
    cases hr
    exact ⟨_, rfl, rfl⟩

theorem ofExcept {x : Except ε α} : Follows O Eq (Prog.ofExcept x : Prog σ ε α) (Prog.ofExcept x) where
  mono s s₁ r _ hr := by
    rw [ofExcept_apply] at hr
    cases hr
    exact O.refl s
  run s s₁ r _ hr _ := by
    rw [ofExcept_apply] at hr ⊢
    cases hr
    refine ⟨x, rfl, ?_⟩
    cases x with
    | ok a => rfl
    | error e => rfl

theorem bind {k : α → Prog σ ε γ} {k' : β → Prog σ ε δ} {rel' : γ → δ → Prop} (h : Follows O rel m m')
    (htotal : ∀ a, ∃ b, rel a b) (hk : ∀ a b, rel a b → Follows O rel' (k a) (k' b)) :
    Follows O rel' (m >>= k) (m' >>= k') where
  mono s s₁ r hs hr := by
    have hmono : ∀ a s₂ r, m s = some (s₂, .ok a) → k a s₂ = some (s₁, r) → O.le s s₁ := by
      intro a s₂ r hm hka
      obtain ⟨b, hb⟩ := htotal a
      have hle : O.le s s₂ := h.mono s s₂ _ hs hm
      exact O.trans s s₂ s₁ hle ((hk a b hb).mono s₂ s₁ r (O.keeps s s₂ hle hs) hka)
    cases r with
    | ok c =>
      obtain ⟨a, s₂, hm, hka⟩ := bind_ok_iff.mp hr
      exact hmono a s₂ _ hm hka
    | error e =>
      obtain hm | ⟨a, s₂, hm, hka⟩ := bind_error_iff.mp hr
      · exact h.mono s s₁ _ hs hm
      · exact hmono a s₂ _ hm hka
  run s s₁ r hs hr hs₁ := by
    -- what is not astray in the end was not astray before
    have hlater : ∀ a s₂, m s = some (s₂, .ok a) → k a s₂ = some (s₁, r) →
        ∃ r', (m' >>= k') s = some (s₁, r') ∧ Agree rel' r r' := by
      intro a s₂ hm hka
      obtain ⟨b, hb⟩ := htotal a
      have hin : O.inSight s₂ := O.keeps s s₂ (h.mono s s₂ _ hs hm) hs
      have hs₂ : ¬ O.astray s₂ :=
        fun hs₂ => hs₁ (O.stays s₂ s₁ ((hk a b hb).mono s₂ s₁ _ hin hka) hs₂)
      obtain ⟨r₂, hm', hagree⟩ := h.run s s₂ _ hs hm hs₂
      cases r₂ with
      | error e => exact hagree.elim
      | ok b =>
        obtain ⟨r', hk', hr'⟩ := (hk a b hagree).run s₂ s₁ r hin hka hs₁
        exact ⟨r', (bind_of_ok hm').trans hk', hr'⟩
    cases r with
    | ok c =>
      obtain ⟨a, s₂, hm, hka⟩ := bind_ok_iff.mp hr
      exact hlater a s₂ hm hka
    | error e =>
      obtain hm | ⟨a, s₂, hm, hka⟩ := bind_error_iff.mp hr
      · obtain ⟨r', hm', hagree⟩ := h.run s s₁ _ hs hm hs₁
        cases r' with
        | ok b => exact hagree.elim
        | error e' => exact ⟨.error e', bind_of_error hm', hagree⟩
      · exact hlater a s₂ hm hka

/-- A sequence that goes on with the same value. -/
theorem bind_eq {m m' : Prog σ ε α} {k : α → Prog σ ε γ} {k' : α → Prog σ ε δ} {rel' : γ → δ → Prop}
    (h : Follows O Eq m m') (hk : ∀ a, Follows O rel' (k a) (k' a)) :
    Follows O rel' (m >>= k) (m' >>= k') := by
  refine h.bind (fun a => ⟨a, rfl⟩) ?_
  rintro a b rfl
  exact hk a

theorem attempt {m m' : Prog σ ε α} {k : Except ε α → Prog σ ε γ} {k' : Except ε α → Prog σ ε δ}
    {rel' : γ → δ → Prop} (h : Follows O Eq m m') (hk : ∀ r, Follows O rel' (k r) (k' r)) :
    Follows O rel' (Prog.attempt m k) (Prog.attempt m' k') where
  mono s s₁ r hs hr := by
    unfold Prog.attempt at hr
    split at hr
    · cases hr
    · next s₂ r₂ hm =>
        have hle : O.le s s₂ := h.mono s s₂ r₂ hs hm
        exact O.trans s s₂ s₁ hle ((hk r₂).mono s₂ s₁ r (O.keeps s s₂ hle hs) hr)
  run s s₁ r hs hr hs₁ := by
    unfold Prog.attempt at hr
    split at hr
    · cases hr
    · next s₂ r₂ hm =>
        have hin : O.inSight s₂ := O.keeps s s₂ (h.mono s s₂ r₂ hs hm) hs
        have hs₂ : ¬ O.astray s₂ := fun hs₂ => hs₁ (O.stays s₂ s₁ ((hk r₂).mono s₂ s₁ r hin hr) hs₂)
        obtain ⟨r₂', hm', hagree⟩ := h.run s s₂ r₂ hs hm hs₂
        obtain rfl : r₂ = r₂' := by
          cases r₂ with
          | ok a =>
            cases r₂' with
            | ok b => exact congrArg _ hagree
            | error e => exact hagree.elim
          | error e =>
            cases r₂' with
            | ok b => exact hagree.elim
            | error e' => exact congrArg _ hagree
        obtain ⟨r', hk', hr'⟩ := (hk r₂).run s₂ s₁ r hin hr hs₁
        exact ⟨r', (attempt_of hm').trans hk', hr'⟩

theorem ite {c : Prop} [Decidable c] {m₁ : Prog σ ε α} {m₁' : Prog σ ε β} (h : Follows O rel m m')
    (h₁ : Follows O rel m₁ m₁') : Follows O rel (if c then m else m₁) (if c then m' else m₁') := by
  split
  · exact h
  · exact h₁

theorem mono_rel (h : Follows O rel m m') (hrel : ∀ a b, rel a b → rel' a b) : Follows O rel' m m' where
  mono := h.mono
  run s s₁ r hs hr hs₁ := by
    obtain ⟨r', hm', hagree⟩ := h.run s s₁ r hs hr hs₁
    refine ⟨r', hm', ?_⟩
    cases r with
    | ok a =>
      cases r' with
      | ok b => exact hrel a b hagree
      | error e => exact hagree.elim
    | error e =>
      cases r' with
      | ok b => exact hagree.elim
      | error e' => exact hagree

/-! ## Restricting the states in sight -/

theorem restrict {P : σ → Prop} (hP : O.Kept P) (h : Follows O rel m m') :
    Follows (O.restrict P hP) rel m m' where
  mono s s₁ r hs hr := h.mono s s₁ r hs.1 hr
  run s s₁ r hs hr hs₁ := h.run s s₁ r hs.1 hr hs₁

/-- What holds as soon as any state is in sight may be used. -/
theorem of_inSight (h : (∃ s, O.inSight s) → Follows O rel m m') : Follows O rel m m' where
  mono s s₁ r hs hr := (h ⟨s, hs⟩).mono s s₁ r hs hr
  run s s₁ r hs hr hs₁ := (h ⟨s, hs⟩).run s s₁ r hs hr hs₁

/-- What is read on the left has, from there on, the properties it is read with. -/
theorem gets_left {f : σ → γ} {k : γ → Prog σ ε α} (P : γ → σ → Prop) (hP : ∀ c, O.Kept (P c))
    (hf : ∀ s, P (f s) s) (hk : ∀ c, Follows (O.restrict (P c) (hP c)) rel (k c) m') :
    Follows O rel (Prog.gets f >>= k) m' where
  mono s s₁ r hs hr := (hk (f s)).mono s s₁ r ⟨hs, hf s⟩ hr
  run s s₁ r hs hr hs₁ := (hk (f s)).run s s₁ r ⟨hs, hf s⟩ hr hs₁

/-- A run that has gone astray follows anything. -/
theorem lost {k : Prog σ ε Unit} {rel' : α → γ → Prop} {m₁ : Prog σ ε γ}
    (hk : ∀ s, ∃ s₁, k s = some (s₁, .ok ()) ∧ O.le s s₁ ∧ O.astray s₁) (h : Follows O rel m m') :
    Follows O rel' (k >>= fun _ => m) m₁ where
  mono s s₁ r hs hr := by
    obtain ⟨s₂, hks, hle, -⟩ := hk s
    exact O.trans s s₂ s₁ hle (h.mono s₂ s₁ r (O.keeps s s₂ hle hs) ((bind_of_ok hks).symm.trans hr))
  run s s₁ r hs hr hs₁ := by
    obtain ⟨s₂, hks, hle, hs₂⟩ := hk s
    have hle₁ : O.le s₂ s₁ := h.mono s₂ s₁ r (O.keeps s s₂ hle hs) ((bind_of_ok hks).symm.trans hr)
    exact absurd (O.stays s₂ s₁ hle₁ hs₂) hs₁

end Follows

end Prog
