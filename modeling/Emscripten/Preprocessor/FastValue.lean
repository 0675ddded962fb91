-- SUMMARY: Sums that are made as text at compile time: when the text evaluates to the sum.
import Emscripten.Lib.Binary64

/-!
# Fast values

`getFastValue` adds two expressions as texts: it folds numbers, leaves zeros out, and turns a minus sign at the start
of the second text into a subtraction of what is behind it.
-/

namespace ParseTools

open Binary64

/-! ## Numbers -/

/-- A finite number of JavaScript. -/
abbrev Number := { x : Int // Representable x }

variable (x : Number) {n : Number}

namespace Number

def zero : Number := ⟨0, 0, 0, by decide, rfl⟩

def add (x y : Number) : Number := ⟨Binary64.add x.1 y.1, representable_round _ Nat.one_pos⟩

def neg (x : Number) : Number := ⟨-x.1, by
  obtain ⟨m, i, hm, heq⟩ := x.2
  exact ⟨-m, i, by rwa [Int.natAbs_neg], by rw [heq, Int.neg_mul]⟩⟩

theorem add_comm (y : Number) : add x y = add y x := Subtype.ext (by
  change round (x.1 + y.1) 1 = round (y.1 + x.1) 1
  rw [Int.add_comm])

theorem zero_add : add zero x = x := Subtype.ext (by
  have hexact := round_exact Nat.one_pos x.2
  change round (0 + x.1) 1 = x.1
  rw [Int.zero_add]
  rwa [Int.natCast_one, Int.one_mul] at hexact)

theorem neg_neg : neg (neg x) = x := Subtype.ext (Int.neg_neg x.1)

/-- Numbers with the sum zero. -/
theorem eq_neg_of_add {x y : Number} (h : add x y = zero) : x = neg y := Subtype.ext (by
  have hzero : x.1 + y.1 = 0 := eq_zero_of_round (congrArg Subtype.val h)
  change x.1 = -y.1
  omega)

theorem add_neg : add x (neg x) = zero := Subtype.ext (by
  change round (x.1 + -x.1) 1 = 0
  rw [Int.add_right_neg]
  rfl)

end Number

/-! ## Texts of expressions -/

/-- A numeral is decimal where `Number` and `parseFloat` read the same, and not in another base. -/
inductive Token
  | num (decimal : Bool) (x : Number)
  | var (name : String)
  | plus
  | minus
  | leftParen
  | rightParen
  | blank
deriving DecidableEq

abbrev Source := List Token

open Number

/-- Whether an operand is read, or what is behind one. -/
inductive Mode
  | term
  | tail (x : Number)

/-- Additive expressions under a valuation, with a bound on the steps. -/
def read (ρ : String → Number) : Nat → Mode → Source → Option (Number × Source)
  | 0, _, _ => none
  | _ + 1, .term, .num _ x :: s => some (x, s)
  | _ + 1, .term, .var name :: s => some (ρ name, s)
  | k + 1, .term, .minus :: s => (read ρ k .term s).map fun r => (neg r.1, r.2)
  | k + 1, .term, .leftParen :: s => do
    let (x, s) ← read ρ k .term s
    let (x, s) ← read ρ k (.tail x) s
    if s.head? = some .rightParen then some (x, s.tail) else none
  | _ + 1, .term, _ => none
  | k + 1, .tail x, .plus :: s => do
    let (y, s) ← read ρ k .term s
    read ρ k (.tail (add x y)) s
  | k + 1, .tail x, .minus :: s => do
    let (y, s) ← read ρ k .term s
    read ρ k (.tail (add x (neg y))) s
  | _ + 1, .tail x, s => some (x, s)

def readSum (ρ : String → Number) (k : Nat) (s : Source) : Option (Number × Source) :=
  (read ρ k .term s).bind fun r => read ρ k (.tail r.1) r.2

def visible (s : Source) : Source := s.filter (· ≠ .blank)

/-- The text is an expression, and this is its value. -/
def Evaluates (ρ : String → Number) (s : Source) (x : Number) : Prop := ∃ k, readSum ρ k (visible s) = some (x, [])

/-- An expression under every valuation. -/
def IsSum (s : Source) : Prop := ∀ ρ, ∃ x, Evaluates ρ s x

/-! ## The function -/

/-- An argument is a number or a text. -/
inductive Operand
  | number (x : Number)
  | text (s : Source)

/-- `x.toString()`. -/
def numberText (x : Number) : Source := if x.1 < 0 then [.minus, .num true (neg x)] else [.num true x]

def trimBlanks (s : Source) : Source :=
  ((s.dropWhile (· = .blank)).reverse.dropWhile (· = .blank)).reverse

/-- `parseFloat` where `isNumber` holds: blanks may stand around a numeral, but not behind its sign. -/
def numberOf (s : Source) : Option Number :=
  match trimBlanks s with
  | [.num true x] => some x
  | [.minus, .num true x] => some (neg x)
  | _ => none

def Operand.source : Operand → Source
  | number x => numberText x
  | text s => s

def Operand.number? : Operand → Option Number
  | number x => some x
  | text s => numberOf s

/-- The arguments with a number last. -/
def combine (a b : Source) (aNumber bNumber : Option Number) : Source :=
  if aNumber = some zero then b
  else if bNumber = some zero then a
  else if b.head? = some .minus then
    .leftParen :: (a ++ .rightParen :: .minus :: .leftParen :: (b.tail ++ [.rightParen]))
  else .leftParen :: (a ++ .rightParen :: .plus :: .leftParen :: (b ++ [.rightParen]))

def getFastValue (a b : Operand) : Source :=
  match a.number?, b.number? with
  | some x, some y => numberText (add x y)
  | some x, none => combine b.source a.source none (some x)
  | none, y => combine a.source b.source none y

def calcFastOffset (ptr pos : Operand) : Source := getFastValue ptr pos

/-! ## Reading -/

variable {ρ : String → Number}

theorem bind_mono {α β : Type} {o o' : Option α} {f g : α → Option β} {b : β} (ho : ∀ a, o = some a → o' = some a)
    (hf : ∀ a, f a = some b → g a = some b) (h : o.bind f = some b) : o'.bind g = some b := by
  obtain ⟨a, ha, hb⟩ := Option.bind_eq_some_iff.1 h
  rw [ho a ha]
  exact hf a hb

/-- More steps change nothing. -/
theorem read_succ (k : Nat) : ∀ (m : Mode) (s : Source) (r : Number × Source),
    read ρ k m s = some r → read ρ (k + 1) m s = some r := by
  induction k with
  | zero => exact fun _ _ _ h => nomatch h
  | succ k ih =>
    intro m s r h
    cases m with
    | term =>
      cases s with
      | nil => cases h
      | cons t s =>
        cases t with
        | minus =>
          obtain ⟨r', hr', rfl⟩ := Option.map_eq_some_iff.1 h
          rw [read, ih _ _ _ hr', Option.map_some]
        | leftParen => exact bind_mono (fun _ => ih _ _ _) (fun _ => bind_mono (fun _ => ih _ _ _) fun _ h => h) h
        | _ => exact h
    | tail x =>
      cases s with
      | nil => exact h
      | cons t s =>
        cases t with
        | plus => exact bind_mono (fun _ => ih _ _ _) (fun _ => ih _ _ _) h
        | minus => exact bind_mono (fun _ => ih _ _ _) (fun _ => ih _ _ _) h
        | _ => exact h

variable {s : Source}

theorem readSum_le {k l : Nat} (hkl : k ≤ l) {r : Number × Source} (h : readSum ρ k s = some r) :
    readSum ρ l s = some r := by
  induction hkl with
  | refl => exact h
  | step _ ih => exact bind_mono (fun _ => read_succ _ _ _ _) (fun _ => read_succ _ _ _ _) ih

theorem Evaluates.unique {x y : Number} (hx : Evaluates ρ s x) (hy : Evaluates ρ s y) : x = y := by
  obtain ⟨k, hk⟩ := hx
  obtain ⟨l, hl⟩ := hy
  have hsame := (readSum_le (Nat.le_add_right k l) hk).symm.trans (readSum_le (Nat.le_add_left l k) hl)
  exact (Prod.mk.inj (Option.some.inj hsame)).1

/-- Neither `+` nor `-`. -/
def Ends (s : Source) : Prop := s.head? ≠ some .plus ∧ s.head? ≠ some .minus

/-- What is read does not depend on what is behind it. -/
theorem read_append {t : Source} (ht : Ends t) (k : Nat) : ∀ (m : Mode) (s : Source) (x : Number) (r : Source),
    read ρ k m s = some (x, r) → read ρ k m (s ++ t) = some (x, r ++ t) := by
  induction k with
  | zero => exact fun _ _ _ _ h => nomatch h
  | succ k ih =>
    intro m s x r h
    cases m with
    | term =>
      cases s with
      | nil => cases h
      | cons u s =>
        cases u with
        | minus =>
          obtain ⟨⟨y, r'⟩, hr', heq⟩ := Option.map_eq_some_iff.1 h
          obtain ⟨rfl, rfl⟩ := Prod.mk.inj heq
          rw [List.cons_append, read, ih _ _ _ _ hr', Option.map_some]
        | leftParen =>
          obtain ⟨⟨y, s₁⟩, hterm, h⟩ := Option.bind_eq_some_iff.1 h
          obtain ⟨⟨z, s₂⟩, htail, h⟩ := Option.bind_eq_some_iff.1 h
          have hterm' := ih _ _ _ _ hterm
          have htail' := ih _ _ _ _ htail
          cases s₂ with
          | nil => cases h
          | cons u s₂ =>
            dsimp only at h
            split at h
            · next hclose =>
              obtain ⟨rfl, rfl⟩ := Prod.mk.inj (Option.some.inj h)
              rw [List.cons_append, read]
              simp only [Option.bind_eq_bind, hterm', htail', Option.bind_some]
              exact if_pos hclose
            · cases h
        | num decimal y =>
          obtain ⟨rfl, rfl⟩ := Prod.mk.inj (Option.some.inj h)
          rfl
        | var name =>
          obtain ⟨rfl, rfl⟩ := Prod.mk.inj (Option.some.inj h)
          rfl
        | _ => cases h
    | tail y =>
      have hstop : ∀ u : Source, Ends u → read ρ (k + 1) (.tail y) u = some (y, u) := by
        intro u hu
        cases u with
        | nil => rfl
        | cons v u =>
          cases v with
          | plus => exact absurd rfl hu.1
          | minus => exact absurd rfl hu.2
          | _ => rfl
      cases s with
      | nil =>
        obtain ⟨rfl, rfl⟩ := Prod.mk.inj (Option.some.inj h)
        exact hstop t ht
      | cons u s =>
        cases u with
        | plus =>
          obtain ⟨⟨z, s₁⟩, hterm, h⟩ := Option.bind_eq_some_iff.1 h
          rw [List.cons_append, read]
          simp only [Option.bind_eq_bind, ih _ _ _ _ hterm, Option.bind_some, ih _ _ _ _ h]
        | minus =>
          obtain ⟨⟨z, s₁⟩, hterm, h⟩ := Option.bind_eq_some_iff.1 h
          rw [List.cons_append, read]
          simp only [Option.bind_eq_bind, ih _ _ _ _ hterm, Option.bind_some, ih _ _ _ _ h]
        | _ =>
          obtain ⟨rfl, rfl⟩ := Prod.mk.inj (Option.some.inj h)
          exact hstop _ ⟨nofun, nofun⟩

theorem read_paren {k : Nat} {t : Source} {x : Number} (h : readSum ρ k s = some (x, [])) :
    read ρ (k + 1) .term (.leftParen :: (s ++ .rightParen :: t)) = some (x, t) := by
  obtain ⟨⟨y, s₁⟩, hterm, htail⟩ := Option.bind_eq_some_iff.1 h
  have hends : Ends (.rightParen :: t) := ⟨nofun, nofun⟩
  rw [read]
  simp only [Option.bind_eq_bind, read_append hends _ _ _ _ _ hterm, read_append hends _ _ _ _ _ htail, Option.bind_some]
  rfl

/-- Behind the first operand the value of it does not matter. -/
theorem read_other (k : Nat) : ∀ (s : Source) (x x' y : Number) (r : Source),
    read ρ k (.tail x) s = some (y, r) → ∃ y', read ρ k (.tail x') s = some (y', r) := by
  induction k with
  | zero => exact fun _ _ _ _ _ h => nomatch h
  | succ k ih =>
    intro s x x' y r h
    have hstop : some (x, s) = some (y, r) → some (x', s) = some (x', r) := by
      intro heq
      rw [(Prod.mk.inj (Option.some.inj heq)).2]
    cases s with
    | nil => exact ⟨x', hstop h⟩
    | cons t s =>
      cases t with
      | plus =>
        obtain ⟨⟨z, s₁⟩, hterm, h⟩ := Option.bind_eq_some_iff.1 h
        obtain ⟨y', hy'⟩ := ih s₁ _ (add x' z) y r h
        refine ⟨y', ?_⟩
        rw [read]
        simp only [Option.bind_eq_bind, hterm, Option.bind_some, hy']
      | minus =>
        obtain ⟨⟨z, s₁⟩, hterm, h⟩ := Option.bind_eq_some_iff.1 h
        obtain ⟨y', hy'⟩ := ih s₁ _ (add x' (neg z)) y r h
        refine ⟨y', ?_⟩
        rw [read]
        simp only [Option.bind_eq_bind, hterm, Option.bind_some, hy']
      | _ => exact ⟨x', hstop h⟩

/-! ## Texts with blanks -/

theorem visible_cons {t : Token} (ht : decide (t ≠ .blank) = true) (s : Source) : visible (t :: s) = t :: visible s :=
  List.filter_cons_of_pos ht

theorem visible_append (s t : Source) : visible (s ++ t) = visible s ++ visible t := List.filter_append ..

theorem visible_dropWhile (s : Source) : visible (s.dropWhile (· = .blank)) = visible s := by
  induction s with
  | nil => rfl
  | cons t s ih =>
    rw [List.dropWhile_cons]
    split
    · next ht =>
      obtain rfl := of_decide_eq_true ht
      exact ih
    · rfl

theorem visible_trimBlanks (s : Source) : visible (trimBlanks s) = visible s := by
  have hreverse : ∀ u : Source, visible u.reverse = (visible u).reverse := fun u => List.filter_reverse
  unfold trimBlanks
  rw [hreverse, visible_dropWhile, hreverse, List.reverse_reverse, visible_dropWhile]

/-- A minus sign in front of what has a value. -/
theorem Evaluates.behind_minus {y : Number} (h : Evaluates ρ s y) (hs : s.head? = some .minus) :
    ∃ z, Evaluates ρ s.tail z := by
  obtain ⟨k, hk⟩ := h
  cases s with
  | nil => cases hs
  | cons t s =>
    obtain rfl := Option.some.inj hs
    rw [visible_cons (t := .minus) rfl] at hk
    obtain ⟨⟨x, s₁⟩, hterm, htail⟩ := Option.bind_eq_some_iff.1 hk
    cases k with
    | zero => cases hterm
    | succ k =>
      obtain ⟨⟨x', s₂⟩, hterm', heq⟩ := Option.map_eq_some_iff.1 hterm
      obtain ⟨rfl, rfl⟩ := Prod.mk.inj heq
      obtain ⟨z, hz⟩ := read_other (k + 1) s₂ _ x' y [] htail
      refine ⟨z, k + 1, ?_⟩
      unfold readSum
      rw [List.tail_cons, read_succ _ _ _ _ hterm']
      exact hz

theorem evaluates_combination {a b : Source} {x y : Number} (ha : Evaluates ρ a x) (hb : Evaluates ρ b y) :
    Evaluates ρ (.leftParen :: (a ++ .rightParen :: .plus :: .leftParen :: (b ++ [.rightParen]))) (add x y) ∧
      Evaluates ρ (.leftParen :: (a ++ .rightParen :: .minus :: .leftParen :: (b ++ [.rightParen]))) (add x (neg y)) := by
  obtain ⟨k, hk⟩ := ha
  obtain ⟨l, hl⟩ := hb
  have hfirst := fun t => read_paren (t := t) (readSum_le (Nat.le_trans (Nat.le_add_right k l) (Nat.le_succ _)) hk)
  have hsecond := read_paren (t := []) (readSum_le (Nat.le_add_left l k) hl)
  have hvisible : ∀ op : Token, decide (op ≠ .blank) = true →
      visible (.leftParen :: (a ++ .rightParen :: op :: .leftParen :: (b ++ [.rightParen]))) =
        .leftParen :: (visible a ++ .rightParen :: op :: .leftParen :: (visible b ++ [.rightParen])) := by
    intro op hop
    rw [visible_cons (t := .leftParen) rfl, visible_append, visible_cons (t := .rightParen) rfl, visible_cons hop,
      visible_cons (t := .leftParen) rfl, visible_append]
    rfl
  constructor
  · refine ⟨k + l + 2, ?_⟩
    rw [hvisible .plus rfl]
    unfold readSum
    rw [hfirst, Option.bind_some, read, Option.bind_eq_bind, hsecond]
    rfl
  · refine ⟨k + l + 2, ?_⟩
    rw [hvisible .minus rfl]
    unfold readSum
    rw [hfirst, Option.bind_some, read, Option.bind_eq_bind, hsecond]
    rfl

/-! ## Numerals -/

/-- A numeral, perhaps with a sign. -/
def IsNumeral (s : Source) (n : Number) : Prop :=
  visible s = [.num true n] ∨ visible s = [.minus, .num true (neg n)]

theorem IsNumeral.evaluates (h : IsNumeral s n) : Evaluates ρ s n := by
  refine ⟨2, ?_⟩
  cases h with
  | inl h =>
    rw [h]
    rfl
  | inr h =>
    rw [h]
    exact congrArg (fun x => some (x, [])) (neg_neg n)

theorem IsNumeral.behind_minus (h : IsNumeral s n) (hs : s.head? = some .minus) :
    Evaluates ρ s.tail (neg n) := by
  cases s with
  | nil => cases hs
  | cons t s =>
    obtain rfl := Option.some.inj hs
    unfold IsNumeral at h
    rw [visible_cons (t := .minus) rfl] at h
    cases h with
    | inl h => cases h
    | inr h =>
      refine ⟨1, ?_⟩
      rw [List.tail_cons, (List.cons.inj h).2]
      rfl

theorem isNumeral_of_numberOf (h : numberOf s = some n) : IsNumeral s n := by
  unfold IsNumeral
  rw [← visible_trimBlanks]
  unfold numberOf at h
  split at h
  · next htrim =>
    obtain rfl := Option.some.inj h
    rw [htrim]
    exact .inl rfl
  · next htrim =>
    obtain rfl := Option.some.inj h
    rw [htrim, neg_neg]
    exact .inr rfl
  · cases h

theorem isNumeral_numberText : IsNumeral (numberText x) x := by
  unfold numberText
  split
  · exact .inr rfl
  · exact .inl rfl

theorem Operand.isNumeral {a : Operand} (h : a.number? = some n) : IsNumeral a.source n := by
  cases a with
  | number x =>
    obtain rfl := Option.some.inj h
    exact isNumeral_numberText x
  | text s => exact isNumeral_of_numberOf h

/-! ## The sum -/

/-- The text evaluates to the sum under every valuation. -/
def Right (a b : Operand) : Prop := ∀ ρ x y, Evaluates ρ a.source x → Evaluates ρ b.source y →
  Evaluates ρ (getFastValue a b) (add x y)

/-- What is behind a minus sign at the start is all negated by it. -/
def Negated (b : Source) : Prop := ∀ ρ y z, Evaluates ρ b y → Evaluates ρ b.tail z → z = neg y

theorem combine_right {a b : Source} {bNumber : Option Number} {x y : Number} (ha : Evaluates ρ a x)
    (hb : Evaluates ρ b y) (hnumber : ∀ n, bNumber = some n → IsNumeral b n)
    (hminus : bNumber = none → b.head? = some .minus → ∀ z, Evaluates ρ b.tail z → z = neg y) :
    Evaluates ρ (combine a b none bNumber) (add x y) := by
  unfold combine
  rw [if_neg nofun]
  split
  · next hzero =>
    have hy := hb.unique (hnumber zero hzero).evaluates
    rw [hy, add_comm, zero_add]
    exact ha
  · split
    · next hhead =>
      obtain ⟨z, hz⟩ := hb.behind_minus hhead
      have hneg : z = neg y := by
        cases hn : bNumber with
        | none => exact hminus hn hhead z hz
        | some n =>
          have hnumeral := hnumber n hn
          rw [hb.unique hnumeral.evaluates]
          exact hz.unique (hnumeral.behind_minus hhead)
      have hsum := (evaluates_combination ha hz).2
      rwa [hneg, neg_neg] at hsum
    · exact (evaluates_combination ha hb).1

/-- The arguments are combined in one order or the other. -/
theorem right_of {a b : Operand} (h : a.number? ≠ none ∨ b.number? ≠ none ∨ b.source.head? ≠ some .minus ∨
    Negated b.source) : Right a b := by
  intro ρ x y hx hy
  unfold getFastValue
  cases ha : a.number? with
  | some m =>
    have hm := Operand.isNumeral ha
    cases hb : b.number? with
    | some n =>
      rw [hx.unique hm.evaluates, hy.unique (Operand.isNumeral hb).evaluates]
      exact (isNumeral_numberText _).evaluates
    | none =>
      rw [add_comm]
      apply combine_right hy hx
      · rintro n ⟨⟩
        exact hm
      · exact nofun
  | none =>
    have hcombined : Evaluates ρ (combine a.source b.source none b.number?) (add x y) := by
      apply combine_right hx hy
      · exact fun n hn => Operand.isNumeral hn
      · intro hnone hhead z hz
        obtain hother | hother | hother | hnegated := h
        · exact absurd ha hother
        · exact absurd hnone hother
        · exact absurd hhead hother
        · exact hnegated ρ y z hy hz
    cases hb : b.number? with
    | none => rwa [hb] at hcombined
    | some n => rwa [hb] at hcombined

/-- A number in parentheses, which is not read as a number. -/
def parenthesized (x : Number) : Operand := .text (.leftParen :: (numberText x ++ [.rightParen]))

theorem number?_parenthesized : (parenthesized x).number? = none := by
  change numberOf (.leftParen :: (numberText x ++ [.rightParen])) = none
  unfold numberText
  split <;> rfl

theorem evaluates_parenthesized : Evaluates ρ (parenthesized x).source x := by
  obtain ⟨k, hk⟩ := (isNumeral_numberText x).evaluates (ρ := ρ)
  refine ⟨k + 1, ?_⟩
  have hvisible : visible (parenthesized x).source = .leftParen :: (visible (numberText x) ++ [.rightParen]) := by
    unfold parenthesized Operand.source
    rw [visible_cons (t := .leftParen) rfl, visible_append]
    rfl
  unfold readSum
  rw [hvisible, read_paren hk]
  rfl

end ParseTools
