-- SUMMARY: The function tree that the shader preprocessor builds from the tokens of a condition.
import Mathlib.Data.List.Basic
import Emscripten.Lib.Binary64
import Emscripten.Preprocessor.Conditionals

/-!
# Trees of conditions

`buildExprTree` takes one operator of its tokens at a time: the first of those that stand last in its list of
operators. A function that it has built is a token again. Where the tokens are those of an expression in
which every operator is the one to be taken first, the tree is that of the expression.
-/

namespace Shader

open Unicode

/-! ## Tokens -/

/-- The class of a character: a space, a symbol, a digit, a letter, or the end of the text. -/
def classifyChar : Option UInt16 → Nat
  | none => 4
  | some c =>
    let cc := c.toNat
    if 32 < cc then
      if cc < 48 then 1
      else if cc < 58 then 2
      else if cc < 65 then 1
      else if cc < 91 ∨ cc = 95 then 3
      else if cc < 97 then 1
      else if cc < 123 then 3
      else 1
    else 0

/-- A number goes on with digits, a name with letters and digits. -/
def continues (kind : Nat) (c : UInt16) : Bool :=
  classifyChar (some c) = kind ∨ (classifyChar (some c) = 2 ∧ kind = 3)

def twoCharacters : List Text := ["<=", ">=", "==", "!=", "&&", "||"].map word

/-- The tokens of a text of at most so many characters. -/
def scan : Nat → Text → List Text
  | 0, _ => []
  | _ + 1, [] => []
  | k + 1, c :: rest =>
    let kind := classifyChar (some c)
    if kind = 2 ∨ kind = 3 then
      (c :: rest.takeWhile (continues kind)) :: scan k (rest.dropWhile (continues kind))
    else if kind = 1 then
      if (c :: rest).take 2 ∈ twoCharacters then (c :: rest).take 2 :: scan k rest.tail
      else [c] :: scan k rest
    else scan k rest

def tokenize (exprString : Text) : List Text := scan exprString.length exprString

/-! ## Operators and functions -/

/-- The operators with two operands. -/
inductive Op where
  | mul | div | add | sub | lt | le | gt | ge | eq | ne | and | or
deriving DecidableEq

def Op.text : Op → Text
  | .mul => word "*"
  | .div => word "/"
  | .add => word "+"
  | .sub => word "-"
  | .lt => word "<"
  | .le => word "<="
  | .gt => word ">"
  | .ge => word ">="
  | .eq => word "=="
  | .ne => word "!="
  | .and => word "&&"
  | .or => word "||"

/-- A function of the tree. A number that is not finite has no value here. -/
inductive Tree where
  | num (x : Option Int)
  | not (t : Tree)
  | bin (o : Op) (left right : Tree)
deriving DecidableEq

/-- What a token array holds. -/
inductive Token where
  | text (t : Text)
  | fn (f : Tree)
deriving DecidableEq

def bang : Text := word "!"
def opening : Token := .text (word "(")
def closing : Token := .text (word ")")

/-- The list in which a token is looked up. -/
def operators : List Text :=
  ["*", "/", "+", "-", "!", "<", "<=", ">", ">=", "==", "!=", "&&", "||", "("].map word

def priority : Token → Int
  | .text t => if t ∈ operators then operators.idxOf t else -1
  | .fn _ => -1

/-- The search for the operator: the index and the priority of the best so far. -/
def findOperatorFrom : List Token → Nat → Option Nat × Int → Option Nat × Int
  | [], _, best => best
  | t :: ts, j, best => findOperatorFrom ts (j + 1) (if best.2 < priority t then (some j, priority t) else best)

def findOperator (tokens : List Token) : Option Nat × Int := findOperatorFrom tokens 0 (none, -2)

/-- The steps from the start of `arr` to the closing parenthesis. -/
def closingFrom [DecidableEq α] («open» close : α) : Int → List α → Option Nat
  | _, [] => none
  | nesting, a :: rest =>
    let nesting := if a = «open» then nesting + 1 else nesting
    if a = close then
      if nesting - 1 = 0 then some 0 else (closingFrom «open» close (nesting - 1) rest).map (· + 1)
    else (closingFrom «open» close nesting rest).map (· + 1)

def find_closing_parens_index [DecidableEq α] (arr : List α) (i : Nat) («open» close : α) : Option Nat :=
  (closingFrom «open» close 0 (arr.drop i)).map (i + ·)

/-! ## Numbers -/

def digitValue (c : UInt16) : Option Nat :=
  let cc := c.toNat
  if 48 ≤ cc ∧ cc ≤ 57 then some (cc - 48)
  else if 65 ≤ cc ∧ cc ≤ 70 then some (cc - 55)
  else if 97 ≤ cc ∧ cc ≤ 102 then some (cc - 87)
  else none

/-- The number that digits to a base spell. -/
def numeral (base : Nat) (t : Text) : Option Nat :=
  t.foldlM (fun n c => (digitValue c).bind fun d => if d < base then some (base * n + d) else none) 0

/-- The exponent of the first number beyond the largest. -/
def overflow : Nat := 1024

/-- A double that is finite. -/
def finite (x : Int) : Option Int := if x.natAbs < 2 ^ overflow * Binary64.one then some x else none

theorem lt_two_pow_overflow : 2 ^ 53 + 1 < 2 ^ overflow :=
  Nat.lt_of_lt_of_le (by decide : 2 ^ 53 + 1 < 2 ^ 54) (Nat.pow_le_pow_right Nat.two_pos (by decide))

attribute [irreducible] overflow

/-- `Number` of a token. -/
def number : Option Token → Option Int
  | some (.text t) => if t = [] then none else (numeral 10 t).bind fun n => finite (Binary64.ofInt n)
  | _ => none

/-! ## The builder -/

/-- The function to which the token of a binary operator is put. -/
def Op.ofToken : Option Token → Option Op
  | some (.text t) =>
    [Op.mul, .div, .add, .sub, .lt, .le, .gt, .ge, .eq, .ne, .and, .or].find? fun o => o.text = t
  | _ => none

/-- One turn of the loop, which gives the next tokens. -/
def pass (buildExprTree : List Token → Option Tree) (tokens : List Token) : Option (List Token) :=
  let (found, operatorAndPriority) := findOperator tokens
  let i := found.getD 0
  let j := if operatorAndPriority = 13 then (find_closing_parens_index tokens i opening closing).getD 0 else 0
  if j ≠ 0 then
    (buildExprTree ((tokens.take j).drop (i + 1))).map fun f => tokens.take i ++ .fn f :: tokens.drop (j + 1)
  else if operatorAndPriority = 4 then
    -- `lastIndexOf`, counted from the end
    let i := tokens.length - 1 - tokens.reverse.idxOf (.text bang)
    (buildExprTree ((tokens.drop (i + 1)).take 1)).map fun innerExpr =>
      tokens.take i ++ .fn (.not innerExpr) :: tokens.drop (i + 2)
  else if 0 ≤ operatorAndPriority then
    (buildExprTree (tokens.take i)).bind fun left =>
      (buildExprTree (tokens.drop (i + 1))).map fun right =>
        match Op.ofToken tokens[i]? with
        | some o => [.fn (.bin o left right)]
        | none => [.fn (.num (number tokens[i]?))]
  else some [.fn (.num (number tokens[i]?))]

/-- The loop, with a bound on its turns and on the depth of its calls. -/
def build : Nat → List Token → Option Tree
  | 0, _ => none
  | k + 1, tokens =>
    match tokens with
    | [.fn f] => some f
    | tokens => (pass (build k) tokens).bind (build k)

def buildExprTree (tokens : List Token) : Option Tree := build (2 * tokens.length + 2) tokens

/-! ## Expressions -/

inductive Expr (α : Type) where
  | leaf (a : α)
  | paren (e : Expr α)
  | not (e : Expr α)
  | bin (o : Op) (left right : Expr α)

namespace Expr

/-- The binary operators outside parentheses and operands of `!`. -/
def tops : Expr α → List Op
  | leaf _ | paren _ | not _ => []
  | bin o l r => l.tops ++ o :: r.tops

def leaves : Expr α → List α
  | leaf a => [a]
  | paren e | not e => e.leaves
  | bin _ l r => l.leaves ++ r.leaves

/-- Which operators may stand in the operands of which. -/
def Grammar (inLeft inRight : Op → Op → Prop) : Expr α → Prop
  | leaf _ => True
  | paren e => e.Grammar inLeft inRight
  | not e => e.tops = [] ∧ e.Grammar inLeft inRight
  | bin o l r =>
    (∀ p ∈ l.tops, inLeft p o) ∧ (∀ p ∈ r.tops, inRight p o) ∧ l.Grammar inLeft inRight ∧ r.Grammar inLeft inRight

def tokens : Expr Token → List Token
  | leaf a => [a]
  | paren e => opening :: (e.tokens ++ [closing])
  | not e => .text bang :: e.tokens
  | bin o l r => l.tokens ++ .text o.text :: r.tokens

def tree : Expr Token → Tree
  | leaf (.fn f) => f
  | leaf t => .num (number t)
  | paren e => e.tree
  | not e => .not e.tree
  | bin o l r => .bin o l.tree r.tree

/-- A bound on the turns and the depth of the calls. -/
def weight : Expr Token → Nat
  | leaf (.fn _) => 1
  | leaf _ => 2
  | paren e => e.weight + 2
  | not e => e.weight + 1
  | bin _ l r => l.weight + r.weight + 1

end Expr

def Op.rank (o : Op) : Int := priority (.text o.text)

/-- An operator is the one to be taken first among those of its operands. -/
def Expr.TakenFirst : Expr α → Prop := Expr.Grammar (fun p o => p.rank < o.rank) fun p o => p.rank ≤ o.rank

/-- Neither an operator nor a parenthesis. -/
def Token.IsOperand (t : Token) : Prop := priority t = -1 ∧ t ≠ closing

theorem Op.rank_bounds (o : Op) : 0 ≤ o.rank ∧ o.rank ≤ 12 ∧ o.rank ≠ 4 := by
  cases o <;> decide

theorem Op.ofToken_text (o : Op) : Op.ofToken (some (.text o.text)) = some o := by
  cases o <;> decide

theorem priority_opening : priority opening = 13 := by decide
theorem priority_bang : priority (.text bang) = 4 := by decide

theorem neg_one_le_priority (t : Token) : -1 ≤ priority t := by
  cases t with
  | fn f => exact Int.le_refl _
  | text t =>
    simp only [priority]
    split
    · exact Int.le_trans (by decide : (-1 : Int) ≤ 0) (Int.natCast_nonneg _)
    · exact Int.le_refl _

variable {rec : List Token → Option Tree} {e : Expr Token} {t : Token} {k : Nat}

theorem mem_operators (h : 0 ≤ priority t) : ∃ s ∈ operators, t = .text s ∧ priority t = operators.idxOf s := by
  cases t with
  | fn f => cases h
  | text s =>
    have hmem : s ∈ operators := by
      by_contra hnot
      simp only [priority, if_neg hnot] at h
      exact absurd h (by decide)
    exact ⟨s, hmem, rfl, if_pos hmem⟩

theorem priority_inj {u : Token} (h : priority t = priority u) (ht : 0 ≤ priority t) : t = u := by
  obtain ⟨s, hs, rfl, hrank⟩ := mem_operators ht
  obtain ⟨s', hs', rfl, hrank'⟩ := mem_operators (h ▸ ht)
  have hidx : operators.idxOf s = operators.idxOf s' := by
    apply Int.ofNat_inj.1
    exact hrank.symm.trans (h.trans hrank')
  exact congrArg Token.text ((List.idxOf_inj hs).1 hidx)

theorem priority_le_opening (t : Token) : priority t ≤ priority opening := by
  rw [priority_opening]
  by_cases ht : 0 ≤ priority t
  · obtain ⟨s, hs, -, hrank⟩ := mem_operators ht
    have hlt : operators.idxOf s < 14 := List.idxOf_lt_length_iff.2 hs
    rw [hrank]
    exact Int.ofNat_le.2 (Nat.le_of_lt_succ hlt)
  · exact Int.le_trans (Int.le_of_lt (Int.not_le.1 ht)) (by decide)

theorem Token.IsOperand.ne_opening (h : t.IsOperand) : t ≠ opening := by
  intro heq
  have := h.1
  rw [heq, priority_opening] at this
  cases this

theorem Token.IsOperand.ne_bang (h : t.IsOperand) : t ≠ .text bang := by
  intro heq
  have := h.1
  rw [heq, priority_bang] at this
  cases this

theorem isOperand_fn (f : Tree) : (Token.fn f).IsOperand := ⟨rfl, Token.noConfusion⟩

/-! ## Contexts -/

/-- An expression with a hole. -/
inductive Ctx (α : Type) where
  | hole
  | paren (c : Ctx α)
  | not (c : Ctx α)
  | left (o : Op) (c : Ctx α) (r : Expr α)
  | right (o : Op) (l : Expr α) (c : Ctx α)

namespace Ctx

def fill : Ctx α → Expr α → Expr α
  | hole, e => e
  | paren c, e => .paren (c.fill e)
  | not c, e => .not (c.fill e)
  | left o c r, e => .bin o (c.fill e) r
  | right o l c, e => .bin o l (c.fill e)

def before : Ctx Token → List Token
  | hole => []
  | paren c => opening :: c.before
  | not c => .text bang :: c.before
  | left _ c _ => c.before
  | right o l c => l.tokens ++ .text o.text :: c.before

def after : Ctx Token → List Token
  | hole => []
  | paren c => c.after ++ [closing]
  | not c => c.after
  | left o c r => c.after ++ .text o.text :: r.tokens
  | right _ _ c => c.after

theorem tokens_fill (c : Ctx Token) (e : Expr Token) : (c.fill e).tokens = c.before ++ e.tokens ++ c.after := by
  induction c with
  | hole => simp [fill, before, after]
  | paren c ih => simp [fill, before, after, Expr.tokens, ih]
  | not c ih => simp [fill, before, after, Expr.tokens, ih]
  | left o c r ih => simp [fill, before, after, Expr.tokens, ih]
  | right o l c ih => simp [fill, before, after, Expr.tokens, ih]

theorem tree_fill {e' : Expr Token} (h : e'.tree = e.tree) (c : Ctx Token) :
    (c.fill e').tree = (c.fill e).tree := by
  induction c with
  | hole => exact h
  | paren c ih => exact ih
  | not c ih => exact congrArg Tree.not ih
  | left o c r ih => exact congrArg (Tree.bin o · _) ih
  | right o l c ih => exact congrArg (Tree.bin o _ ·) ih

theorem weight_fill {e' : Expr Token} (h : e'.weight < e.weight) (c : Ctx Token) :
    (c.fill e').weight < (c.fill e).weight := by
  induction c with
  | hole => exact h
  | paren c ih => exact Nat.add_lt_add_right ih 2
  | not c ih => exact Nat.add_lt_add_right ih 1
  | left o c r ih => exact Nat.add_lt_add_right (Nat.add_lt_add_right ih _) 1
  | right o l c ih => exact Nat.add_lt_add_right (Nat.add_lt_add_left ih _) 1

theorem weight_le_fill (e : Expr Token) (c : Ctx Token) : e.weight ≤ (c.fill e).weight := by
  induction c with
  | hole => exact le_refl _
  | paren c ih => exact Nat.le_add_right_of_le ih
  | not c ih => exact Nat.le_add_right_of_le ih
  | left o c r ih => exact Nat.le_add_right_of_le (Nat.le_add_right_of_le ih)
  | right o l c ih => exact Nat.le_add_right_of_le (Nat.le_add_left_of_le ih)

theorem tops_fill {e e' : Expr α} (h : e'.tops = e.tops) (c : Ctx α) : (c.fill e').tops = (c.fill e).tops := by
  induction c with
  | hole => exact h
  | paren c ih => rfl
  | not c ih => rfl
  | left o c r ih => exact congrArg (· ++ o :: r.tops) ih
  | right o l c ih => exact congrArg (l.tops ++ o :: ·) ih

/-- The grammar does not see what is inside an operand. -/
theorem grammar_fill {e e' : Expr α} (htops : e'.tops = e.tops) (h : e'.Grammar p q) (c : Ctx α)
    (hfill : (c.fill e).Grammar p q) : (c.fill e').Grammar p q := by
  induction c with
  | hole => exact h
  | paren c ih => exact ih hfill
  | not c ih => exact ⟨(tops_fill htops c).trans hfill.1, ih hfill.2⟩
  | left o c r ih =>
    obtain ⟨hleft, hright, hl, hr⟩ := hfill
    exact ⟨fun p hp => hleft p (tops_fill htops c ▸ hp), hright, ih hl, hr⟩
  | right o l c ih =>
    obtain ⟨hleft, hright, hl, hr⟩ := hfill
    exact ⟨hleft, fun p hp => hright p (tops_fill htops c ▸ hp), hl, ih hr⟩

theorem grammar_hole {e : Expr α} (c : Ctx α) (hfill : (c.fill e).Grammar p q) : e.Grammar p q := by
  induction c with
  | hole => exact hfill
  | paren c ih => exact ih hfill
  | not c ih => exact ih hfill.2
  | left o c r ih => exact ih hfill.2.2.1
  | right o l c ih => exact ih hfill.2.2.2

theorem leaves_hole {e : Expr α} {a : α} (c : Ctx α) (ha : a ∈ e.leaves) : a ∈ (c.fill e).leaves := by
  induction c with
  | hole => exact ha
  | paren c ih => exact ih
  | not c ih => exact ih
  | left o c r ih => exact List.mem_append_left _ ih
  | right o l c ih => exact List.mem_append_right _ ih

theorem leaves_fill {e e' : Expr α} {a : α} (c : Ctx α) (ha : a ∈ (c.fill e').leaves) :
    a ∈ (c.fill e).leaves ∨ a ∈ e'.leaves := by
  induction c with
  | hole => exact .inr ha
  | paren c ih => exact ih ha
  | not c ih => exact ih ha
  | left o c r ih =>
    cases List.mem_append.1 ha with
    | inl ha => exact (ih ha).imp_left (List.mem_append_left _)
    | inr ha => exact .inl (List.mem_append_right _ ha)
  | right o l c ih =>
    cases List.mem_append.1 ha with
    | inl ha => exact .inl (List.mem_append_left _ ha)
    | inr ha => exact (ih ha).imp_left (List.mem_append_right _)

/-- The first opening parenthesis is that of an expression in parentheses. -/
theorem exists_paren (hleaves : ∀ a ∈ e.leaves, a.IsOperand) (h : opening ∈ e.tokens) :
    ∃ (c : Ctx Token) (inner : Expr Token), e = c.fill (.paren inner) ∧ opening ∉ c.before := by
  induction e with
  | leaf a =>
    have heq := List.mem_singleton.1 h
    exact absurd heq.symm (hleaves a (List.mem_singleton_self a)).ne_opening
  | paren inner ih => exact ⟨hole, inner, rfl, List.not_mem_nil⟩
  | not e ih =>
    have hmem : opening ∈ e.tokens := (List.mem_cons.1 h).resolve_left (by decide)
    obtain ⟨c, inner, rfl, hc⟩ := ih hleaves hmem
    refine ⟨c.not, inner, rfl, ?_⟩
    intro hin
    exact hc ((List.mem_cons.1 hin).resolve_left (by decide))
  | bin o l r ihl ihr =>
    have hsymbol : opening ≠ .text o.text := by cases o <;> decide
    by_cases hl : opening ∈ l.tokens
    · obtain ⟨c, inner, rfl, hc⟩ := ihl (fun a ha => hleaves a (List.mem_append_left _ ha)) hl
      exact ⟨.left o c r, inner, rfl, hc⟩
    · have hr : opening ∈ r.tokens :=
        (List.mem_cons.1 ((List.mem_append.1 h).resolve_left hl)).resolve_left hsymbol
      obtain ⟨c, inner, rfl, hc⟩ := ihr (fun a ha => hleaves a (List.mem_append_right _ ha)) hr
      refine ⟨.right o l c, inner, rfl, ?_⟩
      intro hin
      cases List.mem_append.1 hin with
      | inl hin => exact hl hin
      | inr hin => exact hc ((List.mem_cons.1 hin).resolve_left hsymbol)

/-- The last `!` has a single token as its operand. -/
theorem exists_not (hgrammar : e.Grammar p q) (hleaves : ∀ a ∈ e.leaves, a.IsOperand)
    (hflat : opening ∉ e.tokens) (h : Token.text bang ∈ e.tokens) :
    ∃ (c : Ctx Token) (a : Token), e = c.fill (.not (.leaf a)) ∧ Token.text bang ∉ c.after := by
  induction e with
  | leaf a =>
    have heq := List.mem_singleton.1 h
    exact absurd heq.symm (hleaves a (List.mem_singleton_self a)).ne_bang
  | paren inner ih => exact absurd List.mem_cons_self hflat
  | not e ih =>
    have hin : opening ∉ e.tokens := fun hin => hflat (List.mem_cons_of_mem _ hin)
    cases e with
    | leaf a => exact ⟨hole, a, rfl, List.not_mem_nil⟩
    | paren inner => exact absurd List.mem_cons_self hin
    | not e =>
      obtain ⟨c, a, hfill, hc⟩ := ih hgrammar.2 hleaves hin List.mem_cons_self
      exact ⟨c.not, a, congrArg Expr.not hfill, hc⟩
    | bin o l r =>
      have hnone : l.tops ++ o :: r.tops = [] := hgrammar.1
      exact absurd (List.append_eq_nil_iff.1 hnone).2 (List.cons_ne_nil _ _)
  | bin o l r ihl ihr =>
    have hsymbol : Token.text bang ≠ .text o.text := by cases o <;> decide
    have hflatL : opening ∉ l.tokens := fun hin => hflat (List.mem_append_left _ hin)
    have hflatR : opening ∉ r.tokens := fun hin => hflat (List.mem_append_right _ (List.mem_cons_of_mem _ hin))
    by_cases hr : Token.text bang ∈ r.tokens
    · obtain ⟨c, a, rfl, hc⟩ := ihr hgrammar.2.2.2 (fun a ha => hleaves a (List.mem_append_right _ ha)) hflatR hr
      exact ⟨.right o l c, a, rfl, hc⟩
    · have hl : Token.text bang ∈ l.tokens := by
        apply (List.mem_append.1 h).resolve_right
        intro hin
        exact hr ((List.mem_cons.1 hin).resolve_left hsymbol)
      obtain ⟨c, a, rfl, hc⟩ := ihl hgrammar.2.2.1 (fun a ha => hleaves a (List.mem_append_left _ ha)) hflatL hl
      refine ⟨.left o c r, a, rfl, ?_⟩
      intro hin
      cases List.mem_append.1 hin with
      | inl hin => exact hc hin
      | inr hin => exact hr ((List.mem_cons.1 hin).resolve_left hsymbol)

end Ctx

/-! ## One turn -/

theorem findOperatorFrom_done {ts : List Token} {best : Option Nat × Int} (h : ∀ t ∈ ts, priority t ≤ best.2)
    (j : Nat) : findOperatorFrom ts j best = best := by
  induction ts generalizing j with
  | nil => rfl
  | cons t ts ih =>
    have ht : ¬ best.2 < priority t := Int.not_lt.2 (h t List.mem_cons_self)
    rw [findOperatorFrom, if_neg ht]
    exact ih (fun t ht => h t (List.mem_cons_of_mem _ ht)) (j + 1)

theorem findOperatorFrom_eq {pre post : List Token} {best : Option Nat × Int}
    (hpre : ∀ x ∈ pre, priority x < priority t) (hpost : ∀ x ∈ post, priority x ≤ priority t)
    (hbest : best.2 < priority t) (j : Nat) :
    findOperatorFrom (pre ++ t :: post) j best = (some (j + pre.length), priority t) := by
  induction pre generalizing j best with
  | nil =>
    rw [List.nil_append, findOperatorFrom, if_pos hbest]
    exact findOperatorFrom_done hpost (j + 1)
  | cons x pre ih =>
    have hnext : (if best.2 < priority x then (some j, priority x) else best).2 < priority t := by
      split
      · exact hpre x List.mem_cons_self
      · exact hbest
    rw [List.cons_append, findOperatorFrom, ih (fun x hx => hpre x (List.mem_cons_of_mem _ hx)) hnext]
    rw [List.length_cons, Nat.add_assoc, Nat.add_comm 1]

/-- The first of the tokens with the highest priority is found. -/
theorem findOperator_eq {pre post : List Token} (hpre : ∀ x ∈ pre, priority x < priority t)
    (hpost : ∀ x ∈ post, priority x ≤ priority t) :
    findOperator (pre ++ t :: post) = (some pre.length, priority t) := by
  unfold findOperator
  rw [findOperatorFrom_eq hpre hpost (Int.lt_of_lt_of_le (by decide) (neg_one_le_priority t)), Nat.zero_add]

/-- The parentheses of an expression are paired. -/
theorem closingFrom_tokens (hleaves : ∀ a ∈ e.leaves, a.IsOperand) {n : Int} (hn : 0 < n) (rest : List Token) :
    closingFrom opening closing n (e.tokens ++ rest) =
      (closingFrom opening closing n rest).map (· + e.tokens.length) := by
  induction e generalizing n rest with
  | leaf a =>
    have ha := hleaves a (List.mem_singleton_self a)
    simp [Expr.tokens, closingFrom, ha.ne_opening, ha.2]
  | paren e ih =>
    have hpair : opening ≠ closing := by decide
    have hsucc : 0 < n + 1 := by omega
    have hback : n + 1 - 1 ≠ 0 := by omega
    have htokens : (Expr.paren e).tokens ++ rest = opening :: (e.tokens ++ closing :: rest) := by simp [Expr.tokens]
    rw [htokens, closingFrom, if_pos rfl, if_neg hpair, ih hleaves hsucc, closingFrom, if_neg hpair.symm, if_pos rfl,
      if_neg hback, Int.add_sub_cancel]
    cases closingFrom opening closing n rest with
    | none => rfl
    | some j => simp [Expr.tokens]; omega
  | not e ih =>
    have hopen : Token.text bang ≠ opening := by decide
    have hclose : Token.text bang ≠ closing := by decide
    rw [Expr.tokens, List.cons_append, closingFrom, if_neg hopen, if_neg hclose, ih hleaves hn]
    simp [Function.comp_def, Nat.add_assoc]
  | bin o l r ihl ihr =>
    have hopen : Token.text o.text ≠ opening := by cases o <;> decide
    have hclose : Token.text o.text ≠ closing := by cases o <;> decide
    rw [Expr.tokens, List.append_assoc, ihl (fun a ha => hleaves a (List.mem_append_left _ ha)) hn, List.cons_append,
      closingFrom, if_neg hopen, if_neg hclose, ihr (fun a ha => hleaves a (List.mem_append_right _ ha)) hn]
    cases closingFrom opening closing n rest with
    | none => rfl
    | some j => simp; omega

theorem find_closing_eq (hleaves : ∀ a ∈ e.leaves, a.IsOperand) (pre post : List Token) :
    find_closing_parens_index (pre ++ opening :: (e.tokens ++ closing :: post)) pre.length opening closing =
      some (pre.length + e.tokens.length + 1) := by
  have hpair : opening ≠ closing := by decide
  unfold find_closing_parens_index
  rw [List.drop_left, closingFrom, if_pos rfl, if_neg hpair, closingFrom_tokens hleaves (by decide), closingFrom,
    if_neg hpair.symm, if_pos rfl, if_pos (by decide)]
  simp; omega

/-! ## The tree of an expression -/

theorem build_succ {tokens : List Token} (h : ∀ f, tokens ≠ [.fn f]) (k : Nat) :
    build (k + 1) tokens = (pass (build k) tokens).bind (build k) := by
  cases tokens with
  | nil => rfl
  | cons t rest =>
    cases t with
    | text t => rfl
    | fn f =>
      cases rest with
      | nil => exact absurd rfl (h f)
      | cons u rest => rfl

theorem build_fn (k : Nat) (f : Tree) : build (k + 1) [.fn f] = some f := rfl

theorem slice_between (a b c : List α) (x y : α) :
    ((a ++ x :: (b ++ y :: c)).take (a.length + b.length + 1)).drop (a.length + 1) = b := by
  induction a with
  | nil => simp
  | cons z a ih => simpa [Nat.add_right_comm] using ih

theorem drop_between (a b c : List α) (x y : α) :
    (a ++ x :: (b ++ y :: c)).drop (a.length + b.length + 1 + 1) = c := by
  induction a with
  | nil => simp
  | cons z a ih => simpa [Nat.add_right_comm] using ih

/-- Parentheses are replaced by the function of what they hold. -/
theorem pass_paren {inner : Expr Token} {pre : List Token} (post : List Token)
    (hleaves : ∀ a ∈ inner.leaves, a.IsOperand) (hpre : opening ∉ pre) :
    pass rec (pre ++ opening :: (inner.tokens ++ closing :: post)) =
      (rec inner.tokens).map fun f => pre ++ .fn f :: post := by
  have hlow : ∀ x ∈ pre, priority x < priority opening := by
    intro x hx
    refine Int.lt_iff_le_and_ne.2 ⟨priority_le_opening x, ?_⟩
    intro heq
    have hsame : opening = x := priority_inj heq.symm (by decide)
    exact hpre (hsame ▸ hx)
  simp only [pass, findOperator_eq hlow fun x _ => priority_le_opening x, priority_opening, Option.getD_some,
    if_true, find_closing_eq hleaves]
  rw [if_pos (by omega), slice_between, drop_between, List.take_left]

/-- The last `!` and its operand are replaced. -/
theorem pass_not {pre post : List Token} {a : Token}
    (hle : ∀ x ∈ pre ++ .text bang :: a :: post, priority x ≤ 4) (hlast : Token.text bang ∉ a :: post) :
    pass rec (pre ++ .text bang :: a :: post) = (rec [a]).map fun f => pre ++ .fn (.not f) :: post := by
  have hmem : Token.text bang ∈ pre ++ .text bang :: a :: post := by simp
  obtain ⟨front, back, hsplit, hfront⟩ := List.eq_append_cons_of_mem hmem
  have hfound : findOperator (pre ++ .text bang :: a :: post) = (some front.length, 4) := by
    rw [hsplit] at hle ⊢
    apply findOperator_eq
    · intro x hx
      refine Int.lt_iff_le_and_ne.2 ⟨hle x (List.mem_append_left _ hx), ?_⟩
      intro heq
      have hsame : Token.text bang = x := priority_inj heq.symm (by decide)
      exact hfront (hsame ▸ hx)
    · intro x hx
      exact hle x (List.mem_append_right _ (List.mem_cons_of_mem _ hx))
  have hindex : (pre ++ .text bang :: a :: post).length - 1 -
      (pre ++ .text bang :: a :: post).reverse.idxOf (.text bang) = pre.length := by
    have hrev : (pre ++ .text bang :: a :: post).reverse = (a :: post).reverse ++ .text bang :: pre.reverse := by simp
    have hnot : Token.text bang ∉ (a :: post).reverse := fun hin => hlast (List.mem_reverse.1 hin)
    rw [hrev, List.idxOf_append_of_notMem hnot, List.idxOf_cons_self]
    simp
  have htake : ((pre ++ .text bang :: a :: post).drop (pre.length + 1)).take 1 = [a] := by simp
  have hdrop : (pre ++ .text bang :: a :: post).drop (pre.length + 2) = post := by simp
  simp only [pass, hfound, hindex, htake, hdrop, List.take_left]
  rfl

theorem pass_leaf (h : priority t = -1) : pass rec [t] = some [.fn (.num (number (some t)))] := by
  have hnone : ∀ {P : Token → Prop}, ∀ x ∈ [], P x := fun x hx => nomatch hx
  have hfound : findOperator ([] ++ t :: []) = (some 0, priority t) := findOperator_eq hnone hnone
  rw [List.nil_append] at hfound
  simp only [pass, hfound, h]
  rfl

/-- Without `!` and parentheses, the tokens are split at the operator that is found. -/
theorem pass_split {pre post : List Token} {o : Op} (hpre : ∀ x ∈ pre, priority x < o.rank)
    (hpost : ∀ x ∈ post, priority x ≤ o.rank) :
    pass rec (pre ++ .text o.text :: post) =
      (rec pre).bind fun left => (rec post).map fun right => [.fn (.bin o left right)] := by
  have ⟨hnonneg, hle, hnot⟩ := o.rank_bounds
  have hopen : o.rank ≠ 13 := by omega
  have hfound : findOperator (pre ++ .text o.text :: post) = (some pre.length, o.rank) := findOperator_eq hpre hpost
  have hat : (pre ++ .text o.text :: post)[pre.length]? = some (.text o.text) := by simp
  have hdrop : (pre ++ .text o.text :: post).drop (pre.length + 1) = post := by simp
  simp only [pass, hfound, Option.getD_some, if_neg hopen, if_neg hnot, if_pos hnonneg, hat, hdrop, Op.ofToken_text,
    List.take_left, ne_eq, not_true_eq_false, if_false]

theorem Expr.weight_pos (e : Expr Token) : 0 < e.weight := by
  cases e with
  | leaf a => cases a <;> simp [weight]
  | paren e => simp [weight]
  | not e => simp [weight]
  | bin o l r => simp [weight]

/-- Without parentheses there are operands, `!` and the outer binary operators. -/
theorem priority_flat (hgrammar : e.Grammar p q) (hleaves : ∀ a ∈ e.leaves, a.IsOperand)
    (hflat : opening ∉ e.tokens) {x : Token} (hx : x ∈ e.tokens) :
    priority x = -1 ∨ x = .text bang ∨ ∃ o ∈ e.tops, x = .text o.text := by
  induction e with
  | leaf a =>
    obtain rfl := List.mem_singleton.1 hx
    exact .inl (hleaves x (List.mem_singleton_self x)).1
  | paren e ih => exact absurd List.mem_cons_self hflat
  | not e ih =>
    cases List.mem_cons.1 hx with
    | inl heq => exact .inr (.inl heq)
    | inr hx =>
      obtain hlow | hbang | ⟨o, ho, -⟩ := ih hgrammar.2 hleaves (fun hin => hflat (List.mem_cons_of_mem _ hin)) hx
      · exact .inl hlow
      · exact .inr (.inl hbang)
      · rw [hgrammar.1] at ho
        cases ho
  | bin o l r ihl ihr =>
    obtain hx | hx := List.mem_append.1 hx
    · obtain hlow | hbang | ⟨o', ho', heq⟩ := ihl hgrammar.2.2.1 (fun a ha => hleaves a (List.mem_append_left _ ha))
        (fun hin => hflat (List.mem_append_left _ hin)) hx
      · exact .inl hlow
      · exact .inr (.inl hbang)
      · exact .inr (.inr ⟨o', List.mem_append_left _ ho', heq⟩)
    · obtain heq | hx := List.mem_cons.1 hx
      · exact .inr (.inr ⟨o, List.mem_append_right _ List.mem_cons_self, heq⟩)
      · obtain hlow | hbang | ⟨o', ho', heq⟩ := ihr hgrammar.2.2.2
          (fun a ha => hleaves a (List.mem_append_right _ ha))
          (fun hin => hflat (List.mem_append_right _ (List.mem_cons_of_mem _ hin))) hx
        · exact .inl hlow
        · exact .inr (.inl hbang)
        · exact .inr (.inr ⟨o', List.mem_append_right _ (List.mem_cons_of_mem _ ho'), heq⟩)

/-- What the builder with a bound `k` is known to do. -/
def Builds (k : Nat) : Prop :=
  ∀ e : Expr Token, e.weight ≤ k → e.TakenFirst → (∀ a ∈ e.leaves, a.IsOperand) → build k e.tokens = some e.tree

variable {c : Ctx Token}

/-- A part that is an operand of its own is replaced by its function. -/
theorem Builds.replaced (h : Builds k) {p : Expr Token} (htops : p.tops = []) (hweight : 1 < p.weight)
    (hk : (c.fill p).weight ≤ k + 1) (hfirst : (c.fill p).TakenFirst)
    (hleaves : ∀ a ∈ (c.fill p).leaves, a.IsOperand) :
    build k (c.before ++ .fn p.tree :: c.after) = some (c.fill p).tree := by
  have htokens : (c.fill (.leaf (.fn p.tree))).tokens = c.before ++ .fn p.tree :: c.after := by
    rw [Ctx.tokens_fill]
    simp [Expr.tokens]
  have htree : (c.fill (.leaf (.fn p.tree))).tree = (c.fill p).tree :=
    Ctx.tree_fill (show (Expr.leaf (.fn p.tree)).tree = p.tree from rfl) c
  have hless : (c.fill (.leaf (.fn p.tree))).weight < (c.fill p).weight :=
    Ctx.weight_fill (show (Expr.leaf (.fn p.tree)).weight < p.weight from hweight) c
  rw [← htokens, ← htree]
  apply h
  · exact Nat.le_of_lt_succ (Nat.lt_of_lt_of_le hless hk)
  · exact Ctx.grammar_fill (show (Expr.leaf (.fn p.tree)).tops = p.tops from htops.symm) True.intro c hfirst
  · intro a ha
    cases Ctx.leaves_fill c ha with
    | inl hin => exact hleaves a hin
    | inr hin =>
      obtain rfl := List.mem_singleton.1 hin
      exact isOperand_fn _

theorem Builds.paren (h : Builds k) {inner : Expr Token} (hc : opening ∉ c.before)
    (hk : (c.fill (.paren inner)).weight ≤ k + 1) (hfirst : (c.fill (.paren inner)).TakenFirst)
    (hleaves : ∀ a ∈ (c.fill (.paren inner)).leaves, a.IsOperand) :
    build (k + 1) (c.fill (.paren inner)).tokens = some (c.fill (.paren inner)).tree := by
  have hin : ∀ a ∈ inner.leaves, a.IsOperand := fun a ha => hleaves a (Ctx.leaves_hole (e := .paren inner) c ha)
  have hle : inner.weight + 2 ≤ (c.fill (.paren inner)).weight := Ctx.weight_le_fill (.paren inner) c
  have hsmall : inner.weight ≤ k := by omega
  have htokens : (c.fill (.paren inner)).tokens = c.before ++ opening :: (inner.tokens ++ closing :: c.after) := by
    rw [Ctx.tokens_fill]
    simp [Expr.tokens]
  have hmany : ∀ f, (c.fill (.paren inner)).tokens ≠ [.fn f] := by
    intro f heq
    have hmem : opening ∈ [Token.fn f] := by
      rw [← heq, htokens]
      simp
    exact absurd (List.mem_singleton.1 hmem) (by simp [opening])
  have hinner : inner.TakenFirst := Ctx.grammar_hole (e := .paren inner) c hfirst
  rw [build_succ hmany, htokens, pass_paren c.after hin hc, h inner hsmall hinner hin]
  exact h.replaced (p := .paren inner) rfl (Nat.lt_add_left _ Nat.one_lt_two) hk hfirst hleaves

theorem Builds.not (h : Builds k) {a : Token} (hc : Token.text bang ∉ c.after)
    (hlow : ∀ x ∈ (c.fill (.not (.leaf a))).tokens, priority x ≤ 4)
    (hk : (c.fill (.not (.leaf a))).weight ≤ k + 1) (hfirst : (c.fill (.not (.leaf a))).TakenFirst)
    (hleaves : ∀ a' ∈ (c.fill (.not (.leaf a))).leaves, a'.IsOperand) :
    build (k + 1) (c.fill (.not (.leaf a))).tokens = some (c.fill (.not (.leaf a))).tree := by
  have ha : a.IsOperand := hleaves a (Ctx.leaves_hole (e := .not (.leaf a)) c (List.mem_singleton_self a))
  have hle : (Expr.leaf a).weight + 1 ≤ (c.fill (.not (.leaf a))).weight := Ctx.weight_le_fill (.not (.leaf a)) c
  have hsmall : (Expr.leaf a).weight ≤ k := by omega
  have htokens : (c.fill (.not (.leaf a))).tokens = c.before ++ .text bang :: a :: c.after := by
    rw [Ctx.tokens_fill]
    simp [Expr.tokens]
  have hmany : ∀ f, (c.fill (.not (.leaf a))).tokens ≠ [.fn f] := by
    intro f heq
    have hmem : Token.text bang ∈ [Token.fn f] := by
      rw [← heq, htokens]
      simp
    exact absurd (List.mem_singleton.1 hmem) (by simp)
  have hlast : Token.text bang ∉ a :: c.after := by
    intro hin
    cases List.mem_cons.1 hin with
    | inl heq => exact ha.ne_bang heq.symm
    | inr hin => exact hc hin
  have hone : build k [a] = some (Expr.leaf a).tree := by
    apply h (.leaf a) hsmall True.intro
    intro a' ha'
    obtain rfl := List.mem_singleton.1 ha'
    exact ha
  rw [htokens] at hlow
  rw [build_succ hmany, htokens, pass_not hlow hlast, hone]
  exact h.replaced (p := .not (.leaf a)) rfl (Nat.lt_add_left_iff_pos.2 (Expr.weight_pos _)) hk hfirst hleaves

/-- An outer operator that is below `!` is taken after it. -/
theorem Builds.bin (h : Builds k) {o : Op} {l r : Expr Token} (hflat : opening ∉ (Expr.bin o l r).tokens)
    (hbang : Token.text bang ∈ (Expr.bin o l r).tokens → 4 < o.rank) (hk : (Expr.bin o l r).weight ≤ k + 1)
    (hfirst : (Expr.bin o l r).TakenFirst) (hleaves : ∀ a ∈ (Expr.bin o l r).leaves, a.IsOperand) :
    build (k + 1) (Expr.bin o l r).tokens = some (Expr.bin o l r).tree := by
  have hsum : l.weight + r.weight + 1 ≤ k + 1 := hk
  have hposL := l.weight_pos
  have hposR := r.weight_pos
  obtain ⟨hleft, hright, hl, hr⟩ := hfirst
  have hleavesL : ∀ a ∈ l.leaves, a.IsOperand := fun a ha => hleaves a (List.mem_append_left _ ha)
  have hleavesR : ∀ a ∈ r.leaves, a.IsOperand := fun a ha => hleaves a (List.mem_append_right _ ha)
  have hpre : ∀ x ∈ l.tokens, priority x < o.rank := by
    intro x hx
    obtain hlow | rfl | ⟨o', ho', rfl⟩ :=
      priority_flat hl hleavesL (fun hin => hflat (List.mem_append_left _ hin)) hx
    · have := o.rank_bounds
      omega
    · exact hbang (List.mem_append_left _ hx)
    · exact hleft o' ho'
  have hpost : ∀ x ∈ r.tokens, priority x ≤ o.rank := by
    intro x hx
    obtain hlow | rfl | ⟨o', ho', rfl⟩ :=
      priority_flat hr hleavesR (fun hin => hflat (List.mem_append_right _ (List.mem_cons_of_mem _ hin))) hx
    · have := o.rank_bounds
      omega
    · exact Int.le_of_lt (hbang (List.mem_append_right _ (List.mem_cons_of_mem _ hx)))
    · exact hright o' ho'
  have hmany : ∀ f, (Expr.bin o l r).tokens ≠ [.fn f] := by
    intro f heq
    have hmem : Token.text o.text ∈ [Token.fn f] := by
      rw [← heq]
      simp [Expr.tokens]
    exact absurd (List.mem_singleton.1 hmem) (by simp)
  rw [build_succ hmany, Expr.tokens, pass_split hpre hpost, h l (by omega) hl hleavesL, h r (by omega) hr hleavesR]
  obtain ⟨k, rfl⟩ : ∃ m, k = m + 1 := ⟨k - 1, by omega⟩
  exact build_fn k _

theorem builds (k : Nat) : Builds k := by
  induction k with
  | zero =>
    intro e he
    exact absurd he (Nat.not_le.2 e.weight_pos)
  | succ k ih =>
    intro e he hfirst hleaves
    by_cases hopen : opening ∈ e.tokens
    · obtain ⟨c, inner, rfl, hc⟩ := Ctx.exists_paren hleaves hopen
      exact ih.paren hc he hfirst hleaves
    by_cases hbang : Token.text bang ∈ e.tokens ∧ ∀ o ∈ e.tops, o.rank < 4
    · have hlow : ∀ x ∈ e.tokens, priority x ≤ 4 := by
        intro x hx
        obtain hlow | rfl | ⟨o, ho, rfl⟩ := priority_flat hfirst hleaves hopen hx
        · rw [hlow]
          decide
        · exact Int.le_of_eq priority_bang
        · exact Int.le_of_lt (hbang.2 o ho)
      obtain ⟨c, a, rfl, hc⟩ := Ctx.exists_not hfirst hleaves hopen hbang.1
      exact ih.not hc hlow he hfirst hleaves
    cases e with
    | leaf a =>
      cases a with
      | fn f => rfl
      | text t =>
        have ha := hleaves (.text t) (List.mem_singleton_self _)
        have hk : 2 ≤ k + 1 := he
        obtain ⟨k, rfl⟩ : ∃ m, k = m + 1 := ⟨k - 1, by omega⟩
        rw [Expr.tokens, build_succ (fun f => by simp), pass_leaf ha.1]
        exact build_fn k _
    | paren e => exact absurd List.mem_cons_self hopen
    | not e =>
      apply absurd _ hbang
      exact ⟨List.mem_cons_self, fun o ho => nomatch ho⟩
    | bin o l r =>
      refine ih.bin hopen ?_ he hfirst hleaves
      intro hin
      by_contra hnot
      apply hbang
      refine ⟨hin, ?_⟩
      intro o' ho'
      have ho := o.rank_bounds
      have hle : o'.rank ≤ o.rank := by
        obtain ho' | ho' := List.mem_append.1 ho'
        · exact Int.le_of_lt (hfirst.1 o' ho')
        · obtain rfl | ho' := List.mem_cons.1 ho'
          · exact Int.le_refl _
          · exact hfirst.2.1 o' ho'
      omega

theorem Expr.weight_le (e : Expr Token) : e.weight ≤ 2 * e.tokens.length := by
  induction e with
  | leaf a => cases a <;> simp [weight, tokens]
  | paren e ih =>
    simp only [weight, tokens, List.length_cons, List.length_append, List.length_nil]
    omega
  | not e ih =>
    simp only [weight, tokens, List.length_cons]
    omega
  | bin o l r ihl ihr =>
    simp only [weight, tokens, List.length_cons, List.length_append]
    omega

/-- The tree of an expression in which every operator is the one to be taken first. -/
theorem buildExprTree_eq (hfirst : e.TakenFirst) (hleaves : ∀ a ∈ e.leaves, a.IsOperand) :
    buildExprTree e.tokens = some e.tree :=
  builds _ e (Nat.le_add_right_of_le e.weight_le) hfirst hleaves

end Shader
