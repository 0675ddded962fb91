-- SUMMARY: Readers at an offset of a byte string, and when one reader follows another.
import Mathlib.Data.List.Basic

/-!
# Readers

A reader takes an offset and gives what it reads and the offset behind it, or nothing where it fails. A reader
follows another one where it reads the image of everything with a property that the other reads, and goes as far.
-/

abbrev Reader (α : Type) := Nat → Option (α × Nat)

namespace Reader

variable {α α' β β' : Type}

def map (f : α → β) (r : Reader α) : Reader β := fun off => (r off).map fun x => (f x.1, x.2)

/-- What is read depends on what has been read. -/
def dependent (r : Reader α) (s : α → Reader β) : Reader (α × β) := fun off =>
  (r off).bind fun x => (s x.1 x.2).map fun y => ((x.1, y.1), y.2)

def pair (r : Reader α) (s : Reader β) : Reader (α × β) := dependent r fun _ => s

def cons (r : Reader α) (rs : Reader (List α)) : Reader (List α) := map (fun x => x.1 :: x.2) (pair r rs)

def times (r : Reader α) : Nat → Reader (List α)
  | 0 => fun off => some ([], off)
  | k + 1 => cons r (times r k)

/-- Until the offset `stop` is reached, with a bound on the number of turns. -/
def untilEnd (r : Reader α) (stop : Nat) : Nat → Reader (List α)
  | 0 => fun off => if off < stop then none else some ([], off)
  | k + 1 => fun off => if off < stop then cons r (untilEnd r stop k) off else some ([], off)

/-- `s` reads `f a` where `r` reads an `a` with `P`. -/
def Follows (r : Reader α) (s : Reader β) (P : α → Prop) (f : α → β) : Prop :=
  ∀ off a off', r off = some (a, off') → P a → s off = some (f a, off')

variable {r : Reader α} {s : Reader α'} {P : α → Prop} {f : α → α'} {u : Reader β} {v : Reader β'} {Q : β → Prop}
  {g : β → β'}

theorem Follows.map {c : α → β} {c' : α' → β'} (h : Follows r s P f) (hP : ∀ a, Q (c a) → P a)
    (hf : ∀ a, g (c a) = c' (f a)) : Follows (r.map c) (s.map c') Q g := by
  intro off b off' hr hb
  obtain ⟨⟨a, off₁⟩, ha, heq⟩ := Option.map_eq_some_iff.1 hr
  obtain ⟨rfl, rfl⟩ := Prod.mk.inj heq
  rw [Reader.map, h off a off₁ ha (hP a hb), Option.map_some, hf]

theorem Follows.dependent {k : α → Reader β} {k' : α' → Reader β'} (h : Follows r s P f)
    (hk : ∀ a, P a → Follows (k a) (k' (f a)) Q g) :
    Follows (r.dependent k) (s.dependent k') (fun x => P x.1 ∧ Q x.2) fun x => (f x.1, g x.2) := by
  intro off x off' hr hx
  obtain ⟨⟨a, off₁⟩, ha, hr⟩ := Option.bind_eq_some_iff.1 hr
  obtain ⟨⟨b, off₂⟩, hb, heq⟩ := Option.map_eq_some_iff.1 hr
  obtain ⟨rfl, rfl⟩ := Prod.mk.inj heq
  unfold Reader.dependent
  rw [h off a off₁ ha hx.1, Option.bind_some, hk a hx.1 off₁ b off₂ hb hx.2]
  rfl

theorem Follows.pair (h : Follows r s P f) (hu : Follows u v Q g) :
    Follows (r.pair u) (s.pair v) (fun x => P x.1 ∧ Q x.2) fun x => (f x.1, g x.2) :=
  @Follows.dependent _ _ _ _ r s P f Q g (fun _ => u) (fun _ => v) h fun _ _ => hu

theorem follows_nil (P : α → Prop) (f : α → α') :
    Follows (fun off => some ([], off)) (fun off => some ([], off)) (fun as => ∀ a ∈ as, P a) (List.map f) := by
  intro off as off' hr _
  obtain ⟨rfl, rfl⟩ := Prod.mk.inj (Option.some.inj hr)
  rfl

/-- One more element. -/
theorem Follows.cons {rs : Reader (List α)} {ss : Reader (List α')} (h : Follows r s P f)
    (hs : Follows rs ss (fun as => ∀ a ∈ as, P a) (List.map f)) :
    Follows (r.cons rs) (s.cons ss) (fun as => ∀ a ∈ as, P a) (List.map f) :=
  (h.pair hs).map (fun _ hx => List.forall_mem_cons.1 hx) fun _ => rfl

theorem Follows.times (h : Follows r s P f) (n : Nat) :
    Follows (r.times n) (s.times n) (fun as => ∀ a ∈ as, P a) (List.map f) := by
  induction n with
  | zero => exact follows_nil P f
  | succ n ih => exact h.cons ih

theorem Follows.untilEnd (h : Follows r s P f) (stop n : Nat) :
    Follows (r.untilEnd stop n) (s.untilEnd stop n) (fun as => ∀ a ∈ as, P a) (List.map f) := by
  induction n with
  | zero =>
    intro off as off' hr has
    simp only [Reader.untilEnd] at hr ⊢
    split at hr
    · cases hr
    · next hlt =>
      rw [if_neg hlt]
      exact follows_nil P f off as off' hr has
  | succ n ih =>
    intro off as off' hr has
    simp only [Reader.untilEnd] at hr ⊢
    split at hr
    · next hlt =>
      rw [if_pos hlt]
      exact h.cons ih off as off' hr has
    · next hlt =>
      rw [if_neg hlt]
      exact follows_nil P f off as off' hr has

end Reader
