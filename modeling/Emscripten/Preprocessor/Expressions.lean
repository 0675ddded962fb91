-- SUMMARY: The value of a condition of the shader preprocessor, against that of C.
import Emscripten.Preprocessor.ExprTree

/-!
# Values of conditions

In C the operators of a level of precedence associate to the left. `buildExprTree` has no levels: of the
operators of one level the last in its list is taken first, and of the same operator the first one. So `3-2-1`
is `3-(2-1)`. The values are doubles, a quotient is rounded down, and `&&` and `||` give one of their operands.
-/

namespace Shader

open Unicode

/-! ## Conditions in C -/

/-- The value of a decimal, octal or hexadecimal literal. -/
def literal : Text → Option Nat
  | [] => none
  | c :: rest =>
    if c = 0x30 then
      match rest with
      | [] => some 0
      | x :: digits =>
        if x = 0x78 ∨ x = 0x58 then if digits = [] then none else numeral 16 digits else numeral 8 (x :: digits)
    else numeral 10 (c :: rest)

def Op.level : Op → Nat
  | .mul | .div => 0
  | .add | .sub => 1
  | .lt | .le | .gt | .ge => 2
  | .eq | .ne => 3
  | .and => 4
  | .or => 5

def truth (p : Prop) [Decidable p] : Int := if p then 1 else 0

/-- The value for two operands that are both evaluated. There is none of a division by zero. -/
def Op.compute : Op → Int → Int → Option Int
  | .mul, x, y => some (x * y)
  | .div, x, y => if y = 0 then none else some (x.tdiv y)
  | .add, x, y => some (x + y)
  | .sub, x, y => some (x - y)
  | .lt, x, y => some (truth (x < y))
  | .le, x, y => some (truth (x ≤ y))
  | .gt, x, y => some (truth (y < x))
  | .ge, x, y => some (truth (y ≤ x))
  | .eq, x, y => some (truth (x = y))
  | .ne, x, y => some (truth (x ≠ y))
  | .and, x, y => some (truth (x ≠ 0 ∧ y ≠ 0))
  | .or, x, y => some (truth (x ≠ 0 ∨ y ≠ 0))

def Op.value : Op → Option Int → Option Int → Option Int
  | .and, x, y => x.bind fun x => if x = 0 then some 0 else y.map fun y => truth (y ≠ 0)
  | .or, x, y => x.bind fun x => if x = 0 then y.map fun y => truth (y ≠ 0) else some 1
  | o, x, y => x.bind fun x => y.bind fun y => o.compute x y

namespace Expr

/-- The value in C, of integers without a bound. -/
def value : Expr Text → Option Int
  | leaf t => (literal t).map fun n => (n : Int)
  | paren e => e.value
  | not e => e.value.map fun x => truth (x = 0)
  | bin o l r => o.value l.value r.value

/-- The precedence of C, and its association to the left. -/
def Parsed : Expr α → Prop := Grammar (fun p o => p.level ≤ o.level) fun p o => p.level < o.level

/-- The tokens of a text that is this expression. -/
def spelled : Expr Text → List Text
  | leaf t => tokenize t
  | paren e => word "(" :: (e.spelled ++ [word ")"])
  | not e => bang :: e.spelled
  | bin o l r => l.spelled ++ o.text :: r.spelled

end Expr

/-! ## The functions of the tree -/

def bit (p : Prop) [Decidable p] : Int := if p then Binary64.one else 0

def Op.compute64 : Op → Int → Int → Option Int
  | .mul, x, y => finite (Binary64.mul x y)
  | .div, x, y => if y = 0 then none else (finite (Binary64.div x y)).map fun q => Binary64.floor q * Binary64.one
  | .add, x, y => finite (Binary64.add x y)
  | .sub, x, y => finite (Binary64.sub x y)
  | .lt, x, y => some (bit (x < y))
  | .le, x, y => some (bit (x ≤ y))
  | .gt, x, y => some (bit (y < x))
  | .ge, x, y => some (bit (y ≤ x))
  | .eq, x, y => some (bit (x = y))
  | .ne, x, y => some (bit (x ≠ y))
  | .and, x, y => some (if x = 0 then x else y)
  | .or, x, y => some (if x = 0 then y else x)

/-- `&&` and `||` give one of their operands. -/
def Op.call : Op → Option Int → Option Int → Option Int
  | .and, left, right => left.bind fun x => if x = 0 then some x else right
  | .or, left, right => left.bind fun x => if x = 0 then right else some x
  | o, left, right => left.bind fun x => right.bind fun y => o.compute64 x y

/-- The call of a function, with `true` as one and `false` as zero. -/
def Tree.eval : Tree → Option Int
  | num x => x
  | not t => t.eval.map fun x => bit (x = 0)
  | bin o l r => o.call l.eval r.eval

/-! ## The order in which the builder takes operators -/

/-- `a o (b o c)` is `(a o b) o c`. -/
def Op.IsAssociative (o : Op) : Prop := o = .mul ∨ o = .add ∨ o = .and ∨ o = .or

instance (o : Op) : Decidable o.IsAssociative := inferInstanceAs (Decidable (_ ∨ _))

variable {e : Expr Text} {o : Op} {v : Int} {t : Text} {b : Bool} {x y : Int}

namespace Expr

/-- Of the operators of one level that follow each other, each comes later in the list of operators than those
before it, or is the same and associative. -/
def Ascending : Expr α → Prop :=
  Grammar (fun p o => p.rank < o.rank ∨ (p = o ∧ o.IsAssociative)) fun _ _ => True

/-- `l o r`, with the operands of `o` in `l` associated to the right. -/
def join (o : Op) (l r : Expr α) : Expr α :=
  match l with
  | bin p a b => if p = o then bin o a (b.join o r) else bin o (bin p a b) r
  | l => bin o l r

/-- The expression that the builder makes of the same tokens. -/
def regroup : Expr α → Expr α
  | leaf a => leaf a
  | paren e => paren e.regroup
  | not e => not e.regroup
  | bin o l r => l.regroup.join o r.regroup

theorem join_bin_self (o : Op) (a b r : Expr α) : (bin o a b).join o r = bin o a (b.join o r) := if_pos rfl

theorem join_bin_ne {p : Op} (h : p ≠ o) (a b r : Expr α) :
    (bin p a b).join o r = bin o (bin p a b) r := if_neg h

/-- What holds of the same tokens in whichever grouping holds of a joined expression. -/
theorem join_same {β : Type} (f : Expr α → β) (o : Op) (r : Expr α)
    (hassoc : ∀ a b r', f (bin o b r) = f r' → f (bin o (bin o a b) r) = f (bin o a r')) (l : Expr α) :
    f (l.join o r) = f (bin o l r) := by
  induction l with
  | leaf a => rfl
  | paren e ih => rfl
  | not e ih => rfl
  | bin p a b iha ihb =>
    by_cases hp : p = o
    · rw [hp, join_bin_self]
      exact (hassoc a b _ ihb.symm).symm
    · rw [join_bin_ne hp]

theorem tops_join (o : Op) (l r : Expr α) : (l.join o r).tops = l.tops ++ o :: r.tops := by
  apply join_same tops o r
  intro a b r' hr
  have hb : b.tops ++ o :: r.tops = r'.tops := hr
  simp [tops, ← hb]

theorem leaves_join (o : Op) (l r : Expr α) : (l.join o r).leaves = l.leaves ++ r.leaves := by
  apply join_same leaves o r
  intro a b r' hr
  have hb : b.leaves ++ r.leaves = r'.leaves := hr
  simp [leaves, ← hb]

theorem spelled_join (o : Op) (l r : Expr Text) : (l.join o r).spelled = l.spelled ++ o.text :: r.spelled := by
  apply join_same spelled o r
  intro a b r' hr
  have hb : b.spelled ++ o.text :: r.spelled = r'.spelled := hr
  simp [spelled, ← hb]

theorem tops_regroup (e : Expr α) : e.regroup.tops = e.tops := by
  induction e with
  | leaf a => rfl
  | paren e ih => rfl
  | not e ih => rfl
  | bin o l r ihl ihr => rw [regroup, tops_join, ihl, ihr, tops]

theorem leaves_regroup (e : Expr α) : e.regroup.leaves = e.leaves := by
  induction e with
  | leaf a => rfl
  | paren e ih => exact ih
  | not e ih => exact ih
  | bin o l r ihl ihr => rw [regroup, leaves_join, ihl, ihr, leaves]

theorem spelled_regroup (e : Expr Text) : e.regroup.spelled = e.spelled := by
  induction e with
  | leaf a => rfl
  | paren e ih => exact congrArg (fun s => word "(" :: (s ++ [word ")"])) ih
  | not e ih => exact congrArg (bang :: ·) ih
  | bin o l r ihl ihr => rw [regroup, spelled_join, ihl, ihr, spelled]

/-- The operators of the left operand are taken later, but for those that are joined. -/
theorem takenFirst_join {l r : Expr α} (hl : l.TakenFirst) (hr : r.TakenFirst)
    (hleft : ∀ p ∈ l.tops, p.rank < o.rank ∨ p = o) (hright : ∀ p ∈ r.tops, p.rank ≤ o.rank) :
    (l.join o r).TakenFirst := by
  induction l with
  | leaf a => exact ⟨fun p hp => (nomatch hp), hright, hl, hr⟩
  | paren e ih => exact ⟨fun p hp => (nomatch hp), hright, hl, hr⟩
  | not e ih => exact ⟨fun p hp => (nomatch hp), hright, hl, hr⟩
  | bin p a b iha ihb =>
    obtain ⟨hbefore, hbehind, ha, hb⟩ := hl
    by_cases hp : p = o
    · subst hp
      rw [join_bin_self]
      have hsame : ∀ q ∈ b.tops, q.rank < p.rank ∨ q = p :=
        fun q hq => hleft q (List.mem_append_right _ (List.mem_cons_of_mem _ hq))
      refine ⟨hbefore, ?_, ha, ihb hb hsame⟩
      intro q hq
      rw [tops_join] at hq
      obtain hq | hq := List.mem_append.1 hq
      · exact hbehind q hq
      · obtain rfl | hq := List.mem_cons.1 hq
        · exact Int.le_refl _
        · exact hright q hq
    · rw [join_bin_ne hp]
      have hless : p.rank < o.rank := (hleft p (List.mem_append_right _ List.mem_cons_self)).resolve_right hp
      refine ⟨?_, hright, ⟨hbefore, hbehind, ha, hb⟩, hr⟩
      intro q hq
      obtain hq | hq := List.mem_append.1 hq
      · exact Int.lt_trans (hbefore q hq) hless
      · obtain rfl | hq := List.mem_cons.1 hq
        · exact hless
        · exact Int.lt_of_le_of_lt (hbehind q hq) hless

theorem rank_lt_of_level {p : Op} (h : p.level < o.level) : p.rank < o.rank := by
  revert h
  cases p <;> cases o <;> decide

theorem takenFirst_regroup {e : Expr α} (hparsed : e.Parsed) (h : e.Ascending) : e.regroup.TakenFirst := by
  induction e with
  | leaf a => exact True.intro
  | paren e ih => exact ih hparsed h
  | not e ih => exact ⟨(tops_regroup e).trans hparsed.1, ih hparsed.2 h.2⟩
  | bin o l r ihl ihr =>
    apply takenFirst_join (ihl hparsed.2.2.1 h.2.2.1) (ihr hparsed.2.2.2 h.2.2.2)
    · rw [tops_regroup]
      exact fun p hp => (h.1 p hp).imp_right And.left
    · rw [tops_regroup]
      exact fun p hp => Int.le_of_lt (rank_lt_of_level (hparsed.2.1 p hp))

end Expr

theorem Op.value_assoc (h : o.IsAssociative) (x y z : Option Int) :
    o.value (o.value x y) z = o.value x (o.value y z) := by
  obtain rfl | rfl | rfl | rfl := h
  · cases x <;> cases y <;> cases z <;> simp [Op.value, Op.compute, Int.mul_assoc]
  · cases x <;> cases y <;> cases z <;> simp [Op.value, Op.compute, Int.add_assoc]
  · cases x with
    | none => rfl
    | some x =>
      cases y with
      | none => by_cases hx : x = 0 <;> simp [Op.value, hx]
      | some y =>
        by_cases hx : x = 0 <;> by_cases hy : y = 0 <;> cases z <;> simp [Op.value, truth, hx, hy]
  · cases x with
    | none => rfl
    | some x =>
      cases y with
      | none => by_cases hx : x = 0 <;> simp [Op.value, hx]
      | some y =>
        by_cases hx : x = 0 <;> by_cases hy : y = 0 <;> cases z <;> simp [Op.value, truth, hx, hy]

namespace Expr

theorem value_join {l : Expr Text} (h : o ∈ l.tops → o.IsAssociative) (r : Expr Text) :
    (l.join o r).value = o.value l.value r.value := by
  induction l with
  | leaf a => rfl
  | paren e ih => rfl
  | not e ih => rfl
  | bin p a b iha ihb =>
    by_cases hp : p = o
    · subst hp
      rw [join_bin_self, value, ihb fun hb => h (List.mem_append_right _ (List.mem_cons_of_mem _ hb)), value,
        Op.value_assoc (h (List.mem_append_right _ List.mem_cons_self))]
    · rw [join_bin_ne hp, value]

/-- The grouping of the builder does not change the value in C. -/
theorem value_regroup (h : e.Ascending) : e.regroup.value = e.value := by
  induction e with
  | leaf a => rfl
  | paren e ih => exact ih h
  | not e ih => exact congrArg (Option.map _) (ih h.2)
  | bin o l r ihl ihr =>
    rw [regroup, value_join, ihl h.2.2.1, ihr h.2.2.2, value]
    rw [tops_regroup]
    intro ho
    exact ((h.1 o ho).resolve_left (Int.lt_irrefl _)).2

end Expr

/-! ## Where the values agree -/

/-- The result is not rounded, and a quotient is the same rounded down as rounded to zero. -/
def Op.Exact : Op → Int → Int → Prop
  | .mul, x, y => (x * y).natAbs ≤ 2 ^ 53
  | .div, x, y => x.tdiv y = x.fdiv y
  | .add, x, y => (x + y).natAbs ≤ 2 ^ 53
  | .sub, x, y => (x - y).natAbs ≤ 2 ^ 53
  | _, _, _ => True

instance (o : Op) (x y : Int) : Decidable (o.Exact x y) :=
  match o with
  | .mul | .add | .sub => inferInstanceAs (Decidable (_ ≤ _))
  | .div => inferInstanceAs (Decidable (_ = _))
  | .lt | .le | .gt | .ge | .eq | .ne | .and | .or => inferInstanceAs (Decidable True)

/-- What is asked of the operands, of which `l` and `r` say what makes them right as numbers or as truths. An
operand that is given as a number is the truth of itself. -/
def Op.Sound (o : Op) (asNumber : Bool) (x y : Option Int) (l r : Bool → Prop) : Prop :=
  match o with
  | .and => l false ∧ (x ≠ some 0 → r asNumber ∧ (asNumber = true → y = some 0 ∨ y = some 1))
  | .or =>
    (x ≠ some 0 → l asNumber ∧ (asNumber = true → x = some 1)) ∧
      (x = some 0 → l false ∧ r asNumber ∧ (asNumber = true → y = some 0 ∨ y = some 1))
  | o => l true ∧ r true ∧ ∀ x' y', x = some x' → y = some y' → o.Exact x' y'

namespace Expr

/-- Digits only. -/
def IsDecimal (t : Text) : Prop := t ≠ [] ∧ (numeral 10 t).isSome

instance (t : Text) : Decidable (IsDecimal t) := inferInstanceAs (Decidable (_ ∧ _))

/-- Nothing that is evaluated is rounded, or has a value other than in C as the number that it is used as. -/
def Sound : Expr Text → Bool → Prop
  | leaf t, _ => ∃ n ≤ 2 ^ 53, numeral 10 t = some n ∧ literal t = some n
  | paren e, asNumber => e.Sound asNumber
  | not e, _ => e.Sound false
  | bin o l r, asNumber => o.Sound asNumber l.value r.value l.Sound r.Sound

/-- The condition under which the function has the truth of the expression. -/
structure Agrees (e : Expr Text) : Prop where
  decimal : ∀ t ∈ e.leaves, IsDecimal t
  ascending : e.Ascending
  sound : e.regroup.Sound false

def asTree : Expr Text → Tree
  | leaf t => .num (number (some (.text t)))
  | paren e => e.asTree
  | not e => .not e.asTree
  | bin o l r => .bin o l.asTree r.asTree

end Expr

/-- A value `v` of C and one of the tree that it may be used for. -/
structure Represents (asNumber : Bool) (v x : Int) : Prop where
  same : x = 0 ↔ v = 0
  small : v.natAbs ≤ 2 ^ 53
  exact : asNumber = true → x = v * Binary64.one

theorem mul_one_eq_zero : v * Binary64.one = 0 ↔ v = 0 := by
  have hone := Binary64.one_pos
  rw [Int.mul_eq_zero]
  omega

theorem mul_one_lt : x * Binary64.one < y * Binary64.one ↔ x < y :=
  Int.mul_lt_mul_right (by exact_mod_cast Binary64.one_pos)

theorem mul_one_le : x * Binary64.one ≤ y * Binary64.one ↔ x ≤ y :=
  Int.mul_le_mul_right (by exact_mod_cast Binary64.one_pos)

theorem mul_one_inj : x * Binary64.one = y * Binary64.one ↔ x = y := by
  have hone : (Binary64.one : Int) ≠ 0 := by exact_mod_cast Nat.ne_of_gt Binary64.one_pos
  exact Int.mul_eq_mul_right_iff hone

theorem represents_number (h : v.natAbs ≤ 2 ^ 53) (asNumber : Bool) :
    Represents asNumber v (v * Binary64.one) where
  same := mul_one_eq_zero
  small := h
  exact := fun _ => rfl

theorem represents_truth {p q : Prop} [Decidable p] [Decidable q] (h : p ↔ q) (asNumber : Bool) :
    Represents asNumber (truth p) (bit q) := by
  have heq : bit q = truth p * Binary64.one := by
    unfold bit truth
    by_cases hp : p
    · rw [if_pos hp, if_pos (h.1 hp), Int.one_mul]
    · rw [if_neg hp, if_neg fun hq => hp (h.2 hq), Int.zero_mul]
  have hsmall : (truth p).natAbs ≤ 2 ^ 53 := by
    unfold truth
    split <;> decide
  rw [heq]
  exact represents_number hsmall asNumber

theorem finite_of_lt (h : x.natAbs < (2 ^ 53 + 1) * Binary64.one) : finite x = some x :=
  if_pos (Nat.lt_trans h (Nat.mul_lt_mul_of_pos_right lt_two_pow_overflow Binary64.one_pos))

theorem finite_mul_one (h : v.natAbs ≤ 2 ^ 53) : finite (v * Binary64.one) = some (v * Binary64.one) := by
  apply finite_of_lt
  rw [Int.natAbs_mul, Int.natAbs_natCast]
  exact Nat.mul_lt_mul_of_pos_right (Nat.lt_succ_of_le h) Binary64.one_pos

/-- The operators that evaluate both operands. -/
theorem compute64_eq (hand : o ≠ .and) (hor : o ≠ .or) (hx : x.natAbs ≤ 2 ^ 53) (hy : y.natAbs ≤ 2 ^ 53)
    (hexact : o.Exact x y) (hv : o.compute x y = some v) (asNumber : Bool) :
    ∃ z, o.compute64 (x * Binary64.one) (y * Binary64.one) = some z ∧ Represents asNumber v z := by
  cases o with
  | mul =>
    obtain rfl := Option.some.inj hv
    refine ⟨_, ?_, represents_number hexact asNumber⟩
    exact (congrArg finite (Binary64.mul_eq hexact)).trans (finite_mul_one hexact)
  | div =>
    by_cases hzero : y = 0
    · simp [Op.compute, hzero] at hv
    · obtain rfl : x.tdiv y = v := by simpa [Op.compute, hzero] using hv
      obtain ⟨hfloor, hbound⟩ := Binary64.floor_div_eq hzero hx hy hexact
      have hsmall : (x.tdiv y).natAbs ≤ 2 ^ 53 := by
        rw [Int.natAbs_tdiv]
        exact Nat.le_trans (Nat.div_le_self _ _) hx
      refine ⟨_, ?_, represents_number hsmall asNumber⟩
      rw [Op.compute64, if_neg fun heq => hzero (mul_one_eq_zero.1 heq), finite_of_lt hbound, Option.map_some, hfloor]
  | add =>
    obtain rfl := Option.some.inj hv
    refine ⟨_, ?_, represents_number hexact asNumber⟩
    exact (congrArg finite (Binary64.add_eq hexact)).trans (finite_mul_one hexact)
  | sub =>
    obtain rfl := Option.some.inj hv
    refine ⟨_, ?_, represents_number hexact asNumber⟩
    exact (congrArg finite (Binary64.sub_eq hexact)).trans (finite_mul_one hexact)
  | lt =>
    obtain rfl := Option.some.inj hv
    exact ⟨_, rfl, represents_truth mul_one_lt.symm asNumber⟩
  | le =>
    obtain rfl := Option.some.inj hv
    exact ⟨_, rfl, represents_truth mul_one_le.symm asNumber⟩
  | gt =>
    obtain rfl := Option.some.inj hv
    exact ⟨_, rfl, represents_truth mul_one_lt.symm asNumber⟩
  | ge =>
    obtain rfl := Option.some.inj hv
    exact ⟨_, rfl, represents_truth mul_one_le.symm asNumber⟩
  | eq =>
    obtain rfl := Option.some.inj hv
    exact ⟨_, rfl, represents_truth mul_one_inj.symm asNumber⟩
  | ne =>
    obtain rfl := Option.some.inj hv
    exact ⟨_, rfl, represents_truth (not_congr mul_one_inj.symm) asNumber⟩
  | and => exact absurd rfl hand
  | or => exact absurd rfl hor

theorem compute_value (hand : o ≠ .and) (hor : o ≠ .or) (x y : Option Int) :
    o.value x y = x.bind fun x => y.bind fun y => o.compute x y := by
  cases o with
  | and => exact absurd rfl hand
  | or => exact absurd rfl hor
  | _ => rfl

theorem call_values (hand : o ≠ .and) (hor : o ≠ .or) (x y : Int) :
    o.call (some x) (some y) = o.compute64 x y := by
  cases o with
  | and => exact absurd rfl hand
  | or => exact absurd rfl hor
  | _ => rfl

theorem sound_operands (hand : o ≠ .and) (hor : o ≠ .or) {x y : Option Int} {l r : Bool → Prop}
    (h : o.Sound b x y l r) : l true ∧ r true ∧ ∀ x' y', x = some x' → y = some y' → o.Exact x' y' := by
  cases o with
  | and => exact absurd rfl hand
  | or => exact absurd rfl hor
  | _ => exact h

theorem number_leaf {n : Nat} (h : numeral 10 t = some n) (hliteral : literal t = some n) (hn : n ≤ 2 ^ 53) :
    number (some (.text t)) = some ((n : Int) * Binary64.one) := by
  have hne : t ≠ [] := by
    rintro rfl
    cases hliteral
  have hsmall : (n : Int).natAbs ≤ 2 ^ 53 := hn
  rw [number, if_neg hne, h, Option.bind_some, Binary64.ofInt_eq hsmall, finite_mul_one hsmall]

theorem represents_zero (b : Bool) : Represents b 0 0 := ⟨Iff.rfl, Nat.zero_le _, fun _ => (Int.zero_mul _).symm⟩

/-- An operand whose truth C takes, where the code takes the operand. -/
theorem represents_truth_of (h : Represents b v x) (hbit : b = true → v = 0 ∨ v = 1) :
    Represents b (truth (v ≠ 0)) x := by
  have hsmall : (truth (v ≠ 0)).natAbs ≤ 2 ^ 53 := by
    unfold truth
    split <;> decide
  refine ⟨?_, hsmall, ?_⟩
  · apply h.same.trans
    unfold truth
    split
    · next hne => exact ⟨fun heq => absurd heq hne, fun heq => absurd heq Int.one_ne_zero⟩
    · next heq => exact ⟨fun _ => rfl, fun _ => not_not.1 heq⟩
  · intro hb
    rw [h.exact hb]
    obtain rfl | rfl := hbit hb
    · rfl
    · rfl

namespace Expr

/-- The tree of a sound expression gives its value in C, or where the truth is asked for one of the same truth. -/
theorem eval_sound (h : e.Sound b) (hv : e.value = some v) :
    ∃ x, e.asTree.eval = some x ∧ Represents b v x := by
  induction e generalizing b v with
  | leaf t =>
    obtain ⟨n, hn, hdecimal, hliteral⟩ := h
    have hvalue : (literal t).map (fun n => (n : Int)) = some v := hv
    rw [hliteral] at hvalue
    obtain rfl : (n : Int) = v := Option.some.inj hvalue
    exact ⟨_, number_leaf hdecimal hliteral hn, represents_number (v := n) hn b⟩
  | paren e ih => exact ih h hv
  | not e ih =>
    obtain ⟨y, hy, rfl⟩ := Option.map_eq_some_iff.1 hv
    obtain ⟨x, hx, hsame⟩ := ih h hy
    exact ⟨bit (x = 0), congrArg (Option.map _) hx, represents_truth hsame.same.symm b⟩
  | bin o l r ihl ihr =>
    by_cases hand : o = .and
    · subst hand
      obtain ⟨hl, hr⟩ := h
      obtain ⟨y, hy, hv⟩ := Option.bind_eq_some_iff.1 hv
      obtain ⟨x, hx, hleft⟩ := ihl hl hy
      have hcall : (bin .and l r).asTree.eval = if x = 0 then some x else r.asTree.eval := by
        rw [asTree, Tree.eval, Op.call, hx, Option.bind_some]
      by_cases hzero : y = 0
      · rw [if_pos hzero] at hv
        obtain rfl := Option.some.inj hv
        obtain rfl := hleft.same.2 hzero
        exact ⟨0, hcall, represents_zero b⟩
      · rw [if_neg hzero] at hv
        obtain ⟨z, hz, rfl⟩ := Option.map_eq_some_iff.1 hv
        obtain ⟨hr, hbit⟩ := hr fun heq => hzero (Option.some.inj (hy.symm.trans heq))
        obtain ⟨x', hx', hright⟩ := ihr hr hz
        rw [if_neg fun heq => hzero (hleft.same.1 heq)] at hcall
        refine ⟨x', hcall.trans hx', represents_truth_of hright ?_⟩
        intro hb
        rw [hz] at hbit
        exact (hbit hb).imp Option.some.inj Option.some.inj
    by_cases hor : o = .or
    · subst hor
      obtain ⟨hl, hr⟩ := h
      obtain ⟨y, hy, hv⟩ := Option.bind_eq_some_iff.1 hv
      have hcall : ∀ x, l.asTree.eval = some x →
          (bin .or l r).asTree.eval = if x = 0 then r.asTree.eval else some x := by
        intro x hx
        rw [asTree, Tree.eval, Op.call, hx, Option.bind_some]
      by_cases hzero : y = 0
      · subst hzero
        rw [if_pos rfl] at hv
        obtain ⟨z, hz, rfl⟩ := Option.map_eq_some_iff.1 hv
        obtain ⟨hfalse, hr, hbit⟩ := hr hy
        obtain ⟨x, hx, hleft⟩ := ihl hfalse hy
        obtain ⟨x', hx', hright⟩ := ihr hr hz
        have heval := hcall x hx
        rw [if_pos (hleft.same.2 rfl)] at heval
        refine ⟨x', heval.trans hx', represents_truth_of hright ?_⟩
        intro hb
        rw [hz] at hbit
        exact (hbit hb).imp Option.some.inj Option.some.inj
      · rw [if_neg hzero] at hv
        obtain ⟨hl, hbit⟩ := hl fun heq => hzero (Option.some.inj (hy.symm.trans heq))
        obtain ⟨x, hx, hleft⟩ := ihl hl hy
        have heval := hcall x hx
        rw [if_neg fun heq => hzero (hleft.same.1 heq)] at heval
        have hone : truth (y ≠ 0) = v := (if_pos hzero).trans (Option.some.inj hv)
        refine ⟨x, heval, hone ▸ represents_truth_of hleft ?_⟩
        intro hb
        exact .inr (Option.some.inj (hy.symm.trans (hbit hb)))
    have hbin : o.value l.value r.value = some v := hv
    rw [compute_value hand hor] at hbin
    obtain ⟨y, hy, hbin⟩ := Option.bind_eq_some_iff.1 hbin
    obtain ⟨z, hz, hbin⟩ := Option.bind_eq_some_iff.1 hbin
    obtain ⟨hl, hr, hexact⟩ := sound_operands hand hor h
    obtain ⟨y', hy', hleft⟩ := ihl hl hy
    obtain ⟨z', hz', hright⟩ := ihr hr hz
    rw [asTree, Tree.eval, hy', hz', call_values hand hor, hleft.exact rfl, hright.exact rfl]
    exact compute64_eq hand hor hleft.small hright.small (hexact y z hy hz) hbin b

/-! ## From the text to the tree -/

/-- The expression of the builder's tokens. -/
def ofText : Expr Text → Expr Token
  | leaf t => leaf (.text t)
  | paren e => paren e.ofText
  | not e => not e.ofText
  | bin o l r => bin o l.ofText r.ofText

theorem tree_ofText (e : Expr Text) : e.ofText.tree = e.asTree := by
  induction e with
  | leaf t => rfl
  | paren e ih => exact ih
  | not e ih => exact congrArg Tree.not ih
  | bin o l r ihl ihr => exact congrArg₂ (Tree.bin o) ihl ihr

theorem leaves_ofText (e : Expr Text) : e.ofText.leaves = e.leaves.map .text := by
  induction e with
  | leaf t => rfl
  | paren e ih => exact ih
  | not e ih => exact ih
  | bin o l r ihl ihr => rw [ofText, leaves, ihl, ihr, leaves, List.map_append]

theorem tops_ofText (e : Expr Text) : e.ofText.tops = e.tops := by
  induction e with
  | leaf t => rfl
  | paren e ih => rfl
  | not e ih => rfl
  | bin o l r ihl ihr => rw [ofText, tops, ihl, ihr, tops]

theorem grammar_ofText (h : e.Grammar p q) : e.ofText.Grammar p q := by
  induction e with
  | leaf t => exact True.intro
  | paren e ih => exact ih h
  | not e ih => exact ⟨(tops_ofText e).trans h.1, ih h.2⟩
  | bin o l r ihl ihr =>
    obtain ⟨hleft, hright, hl, hr⟩ := h
    refine ⟨?_, ?_, ihl hl, ihr hr⟩
    · rw [tops_ofText]
      exact hleft
    · rw [tops_ofText]
      exact hright

theorem isDigit_of_lt {c : UInt16} {d : Nat} (h : digitValue c = some d) (hd : d < 10) :
    48 ≤ c.toNat ∧ c.toNat < 58 := by
  simp only [digitValue] at h
  split at h
  · next hdigit => exact ⟨hdigit.1, Nat.lt_succ_of_le hdigit.2⟩
  · split at h
    · have := Option.some.inj h
      omega
    · split at h
      · have := Option.some.inj h
        omega
      · cases h

theorem isDigit_of_decimal (h : IsDecimal t) : ∀ c ∈ t, 48 ≤ c.toNat ∧ c.toNat < 58 := by
  obtain ⟨m, hm⟩ := Option.isSome_iff_exists.1 h.2
  have hfold : ∀ (t : Text) (n : Nat), (t.foldlM (fun n c => (digitValue c).bind fun d =>
      if d < 10 then some (10 * n + d) else none) n) = some m → ∀ c ∈ t, 48 ≤ c.toNat ∧ c.toNat < 58 := by
    intro t
    induction t with
    | nil => exact fun n _ c hc => nomatch hc
    | cons c t ih =>
      intro n hn
      rw [List.foldlM_cons] at hn
      obtain ⟨n', hn', hrest⟩ := Option.bind_eq_some_iff.1 hn
      obtain ⟨d, hd, hif⟩ := Option.bind_eq_some_iff.1 hn'
      have hlt : d < 10 := by
        by_contra hnot
        rw [if_neg hnot] at hif
        cases hif
      intro c' hc'
      obtain rfl | hc' := List.mem_cons.1 hc'
      · exact isDigit_of_lt hd hlt
      · exact ih n' hrest c' hc'
  exact hfold t 0 hm

theorem tokenize_decimal (h : IsDecimal t) : tokenize t = [t] := by
  have hdigit := isDigit_of_decimal h
  have hkind : ∀ c ∈ t, classifyChar (some c) = 2 := by
    intro c hc
    obtain ⟨hlow, hhigh⟩ := hdigit c hc
    simp only [classifyChar]
    rw [if_pos (by omega), if_neg (by omega), if_pos hhigh]
  cases t with
  | nil => exact absurd rfl h.1
  | cons c rest =>
    have hgoes : ∀ d ∈ rest, continues 2 d = true := fun d hd =>
      decide_eq_true (.inl (hkind d (List.mem_cons_of_mem _ hd)))
    have htake : rest.takeWhile (continues 2) = rest := by
      have happend := @List.takeWhile_append_of_pos _ (continues 2) rest [] hgoes
      simpa using happend
    have hdrop : rest.dropWhile (continues 2) = [] := by
      have happend := @List.dropWhile_append_of_pos _ (continues 2) rest [] hgoes
      simpa using happend
    have hend : ∀ k, scan k [] = [] := fun k => by cases k <;> rfl
    simp only [tokenize, List.length_cons, scan, hkind c List.mem_cons_self, htake, hdrop, hend]
    rfl

theorem operators_not_digits :
    ((word ")" :: operators).all fun s => s.all fun c => c.toNat < 48 || 58 ≤ c.toNat) = true := rfl

theorem isOperand_decimal (h : IsDecimal t) : (Token.text t).IsOperand := by
  have hout : t ∉ word ")" :: operators := by
    intro hin
    cases t with
    | nil => exact h.1 rfl
    | cons c rest =>
      have hdigit := isDigit_of_decimal h c List.mem_cons_self
      have hnot := List.all_eq_true.1 (List.all_eq_true.1 operators_not_digits _ hin) c List.mem_cons_self
      rw [Bool.or_eq_true, decide_eq_true_iff, decide_eq_true_iff] at hnot
      omega
  refine ⟨if_neg fun hin => hout (List.mem_cons_of_mem _ hin), ?_⟩
  intro heq
  exact hout (Token.text.inj heq ▸ List.mem_cons_self)

theorem tokens_ofText (h : ∀ t ∈ e.leaves, IsDecimal t) : e.ofText.tokens = e.spelled.map .text := by
  induction e with
  | leaf t => rw [spelled, tokenize_decimal (h t (List.mem_singleton_self t))]; rfl
  | paren e ih =>
    rw [ofText, tokens, ih h, spelled, List.map_cons, List.map_append]
    rfl
  | not e ih =>
    rw [ofText, tokens, ih h, spelled, List.map_cons]
  | bin o l r ihl ihr =>
    rw [ofText, tokens, ihl fun t ht => h t (List.mem_append_left _ ht), ihr fun t ht => h t (List.mem_append_right _ ht),
      spelled, List.map_append, List.map_cons]

end Expr

/-- The function of the grouping that the builder makes has its truth. -/
theorem built_truth (hdecimal : ∀ t ∈ e.leaves, Expr.IsDecimal t) (hfirst : e.TakenFirst)
    (hsound : e.Sound false) (hvalue : e.value = some v) :
    ∃ f x, buildExprTree (e.spelled.map .text) = some f ∧ f.eval = some x ∧ (x ≠ 0 ↔ v ≠ 0) := by
  have hleaves : ∀ a ∈ e.ofText.leaves, a.IsOperand := by
    intro a ha
    rw [Expr.leaves_ofText] at ha
    obtain ⟨t, ht, rfl⟩ := List.mem_map.1 ha
    exact Expr.isOperand_decimal (hdecimal t ht)
  have hbuilt := buildExprTree_eq (Expr.grammar_ofText hfirst) hleaves
  rw [Expr.tokens_ofText hdecimal, Expr.tree_ofText] at hbuilt
  obtain ⟨x, hx, hsame⟩ := Expr.eval_sound hsound hvalue
  exact ⟨_, x, hbuilt, hx, not_congr hsame.same⟩

end Shader
