-- SUMMARY: Deterministic machines that pay for some of their moves: what a run costs, and simulations within a budget.
import Emscripten.Lib.Prog

/-!
# Costed machines

A machine is a function from a configuration to its next move: it halts with a result, or goes on
to another configuration, for free or at the cost of one unit. A run is determined by where it
starts, and so are its result and its cost.

`Within` relates a program to such a machine. The program counts the units, and gives up with one
fixed error when its budget is exceeded.
-/

namespace Costed

variable {C R : Type}

inductive Move (C R : Type)
  | halt (r : R)
  | free (c : C)
  | pay (c : C)

/-- From `c` the machine gets to the last configuration at the given cost. -/
inductive Reaches (next : C → Move C R) : C → Nat → C → Prop
  | refl (c : C) : Reaches next c 0 c
  | free {c c' c'' : C} {k : Nat} (h : next c = .free c') (hr : Reaches next c' k c'') :
      Reaches next c k c''
  | pay {c c' c'' : C} {k : Nat} (h : next c = .pay c') (hr : Reaches next c' k c'') :
      Reaches next c (k + 1) c''

/-- From `c` the machine halts with `r`, at the cost `k`. -/
def Halts (next : C → Move C R) (c : C) (k : Nat) (r : R) : Prop :=
  ∃ c', Reaches next c k c' ∧ next c' = .halt r

variable {next : C → Move C R} {c c' c'' : C} {k k' : Nat} {r r' : R}

theorem Reaches.trans (h : Reaches next c k c') (h' : Reaches next c' k' c'') :
    Reaches next c (k + k') c'' := by
  induction h with
  | refl c =>
    rw [Nat.zero_add]
    exact h'
  | free hn _ ih => exact .free hn (ih h')
  | pay hn _ ih =>
    rw [Nat.add_right_comm]
    exact .pay hn (ih h')

theorem Reaches.one_free (h : next c = .free c') : Reaches next c 0 c' := .free h (.refl c')

theorem Reaches.one_pay (h : next c = .pay c') : Reaches next c 1 c' := .pay h (.refl c')

theorem halts_now (h : next c = .halt r) : Halts next c 0 r := ⟨c, .refl c, h⟩

theorem Reaches.halts (h : Reaches next c k c') (h' : Halts next c' k' r) :
    Halts next c (k + k') r := by
  obtain ⟨last, hr, hn⟩ := h'
  exact ⟨last, h.trans hr, hn⟩

/-- What is reached lies on the way of every run that halts. -/
theorem Reaches.on_the_way (h : Reaches next c k c') (hh : Halts next c k' r) :
    ∃ rest, k' = k + rest ∧ Halts next c' rest r := by
  induction h generalizing k' with
  | refl c => exact ⟨k', (Nat.zero_add k').symm, hh⟩
  | free hn _ ih =>
    obtain ⟨last, hr, hlast⟩ := hh
    cases hr with
    | refl => cases hn.symm.trans hlast
    | free hn' hr =>
      cases hn.symm.trans hn'
      exact ih ⟨last, hr, hlast⟩
    | pay hn' _ => cases hn.symm.trans hn'
  | pay hn _ ih =>
    obtain ⟨last, hr, hlast⟩ := hh
    cases hr with
    | refl => cases hn.symm.trans hlast
    | free hn' _ => cases hn.symm.trans hn'
    | pay hn' hr =>
      cases hn.symm.trans hn'
      obtain ⟨rest, hk, hrest⟩ := ih ⟨last, hr, hlast⟩
      exact ⟨rest, by omega, hrest⟩

/-- The result and the cost are determined. -/
theorem Halts.unique (h : Halts next c k r) (h' : Halts next c k' r') : k' = k ∧ r' = r := by
  obtain ⟨last, hreach, hlast⟩ := h
  obtain ⟨rest, hk, last', hreach', hlast'⟩ := hreach.on_the_way h'
  cases hreach' with
  | refl =>
    cases hlast.symm.trans hlast'
    exact ⟨hk, rfl⟩
  | free hn _ => cases hlast.symm.trans hn
  | pay hn _ => cases hlast.symm.trans hn

theorem Reaches.le_of_halts (h : Reaches next c k c') (hh : Halts next c k' r) : k ≤ k' := by
  obtain ⟨rest, hk, -⟩ := h.on_the_way hh
  omega

/-! ## Programs that follow a machine -/

section Within

variable {σ ε α β : Type} {s : σ} {budget : Nat} {out : ε} {next : C → Move C (Except ε R)}
  {paid : Nat}

/-- In the state `s`, which it leaves as it is, the program `m` follows the machine from `c` when
`paid` units have been spent. It returns where the machine gets within the budget, having counted
the cost; it fails where the machine halts with that error, or with `out` where the machine goes
beyond the budget. -/
def Within (next : C → Move C (Except ε R)) (budget : Nat) (out : ε) (s : σ) (c : C) (paid : Nat)
    (m : Prog σ ε α) (count : α → Nat) (Q : α → C → Prop) : Prop :=
  (∃ a k c', m s = some (s, .ok a) ∧ count a = paid + k ∧ paid + k ≤ budget ∧
    Reaches next c k c' ∧ Q a c') ∨
  (∃ e k, m s = some (s, .error e) ∧ paid + k ≤ budget ∧ Halts next c k (.error e)) ∨
  ∃ k c', m s = some (s, .error out) ∧ budget < paid + k ∧ Reaches next c k c'

variable {m : Prog σ ε α} {f : α → Prog σ ε β} {count : α → Nat} {count' : β → Nat}
  {Q Q' : α → C → Prop} {P : β → C → Prop}

/-- The program has read where the machine has got to. -/
theorem Within.here {a : α} (hc : count a = paid) (hb : paid ≤ budget) (hQ : Q a c) :
    Within next budget out s c paid (pure a) count Q :=
  .inl ⟨a, 0, c, rfl, hc, hb, .refl c, hQ⟩

theorem Within.failed {e : ε} (hb : paid ≤ budget) (h : next c = .halt (.error e)) :
    Within next budget out s c paid (Prog.fail e) count Q :=
  .inr (.inl ⟨e, 0, rfl, hb, halts_now h⟩)

/-- The program may read the state at any time. -/
theorem Within.of_eq {m' : Prog σ ε α} (heq : m s = m' s)
    (h : Within next budget out s c paid m' count Q) :
    Within next budget out s c paid m count Q := by
  unfold Within
  rw [heq]
  exact h

/-- The machine moves on its own. -/
theorem Within.ahead (hr : Reaches next c k c')
    (h : Within next budget out s c' (paid + k) m count Q) :
    Within next budget out s c paid m count Q := by
  obtain ⟨a, n, d, hm, hc, hb, hd, hQ⟩ | ⟨e, n, hm, hb, hh⟩ | ⟨n, d, hm, hb, hd⟩ := h
  · exact .inl ⟨a, k + n, d, hm, by omega, by omega, hr.trans hd, hQ⟩
  · exact .inr (.inl ⟨e, k + n, hm, by omega, hr.halts hh⟩)
  · exact .inr (.inr ⟨k + n, d, hm, by omega, hr.trans hd⟩)

theorem Within.bind (h : Within next budget out s c paid m count Q)
    (hf : ∀ a c', Q a c' → paid ≤ count a → count a ≤ budget →
      Within next budget out s c' (count a) (f a) count' P) :
    Within next budget out s c paid (m >>= f) count' P := by
  obtain ⟨a, n, d, hm, hc, hb, hd, hQ⟩ | ⟨e, n, hm, hb, hh⟩ | ⟨n, d, hm, hb, hd⟩ := h
  · refine Within.of_eq (Prog.bind_of_ok hm) ?_
    have hrest := hf a d hQ (by omega) (by omega)
    rw [hc] at hrest
    exact Within.ahead hd hrest
  · exact .inr (.inl ⟨e, n, Prog.bind_of_error hm, hb, hh⟩)
  · exact .inr (.inr ⟨n, d, Prog.bind_of_error hm, hb, hd⟩)

/-- A program that follows the machine to its end has the machine's result, if that is within the
budget, and gives up otherwise, in particular when the machine does not halt. -/
theorem Within.result {value : α → R} (h : Within next budget out s c 0 m count Q)
    (hQ : ∀ a c, Q a c → next c = .halt (.ok (value a))) :
    ∃ r, m s = some (s, r) ∧
      (∀ k r', Halts next c k r' → r.map value = if k ≤ budget then r' else .error out) ∧
      ((∀ k r', ¬ Halts next c k r') → r = .error out) := by
  obtain ⟨a, n, d, hm, hc, hb, hd, hq⟩ | ⟨e, n, hm, hb, hh⟩ | ⟨n, d, hm, hb, hd⟩ := h
  · have hhalts : Halts next c n (.ok (value a)) := ⟨d, hd, hQ a d hq⟩
    refine ⟨.ok a, hm, ?_, fun hnever => absurd hhalts (hnever _ _)⟩
    intro k r' hh'
    obtain ⟨rfl, rfl⟩ := hhalts.unique hh'
    rw [if_pos (by omega)]
    rfl
  · refine ⟨.error e, hm, ?_, fun hnever => absurd hh (hnever _ _)⟩
    intro k r' hh'
    obtain ⟨rfl, rfl⟩ := hh.unique hh'
    rw [if_pos (by omega)]
    rfl
  · refine ⟨.error out, hm, ?_, fun _ => rfl⟩
    intro k r' hh'
    have hle := hd.le_of_halts hh'
    rw [if_neg (by omega)]
    rfl

end Within

end Costed
