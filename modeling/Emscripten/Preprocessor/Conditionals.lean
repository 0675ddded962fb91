-- SUMMARY: Conditional directives of the shader preprocessor: which lines it processes, against the branches that hold.
import Emscripten.Preprocessor.ShaderComments

/-!
# Conditional directives

`preprocess_c_code` keeps a stack of numbers: 1 in a branch that is read, 0 in one that is not, and `NaN` behind
one that was. `#elif` alone does not look at the number below the top.
-/

namespace Shader

open Unicode

/-! ## Numbers of the stack -/

inductive Activity where
  | zero
  | one
  | nan
deriving DecidableEq

namespace Activity

def ofBool : Bool → Activity
  | true => one
  | false => zero

def mul : Activity → Activity → Activity
  | nan, _ => nan
  | _, nan => nan
  | one, one => one
  | _, _ => zero

/-- `1 - a` -/
def complement : Activity → Activity
  | zero => one
  | one => zero
  | nan => nan

/-- The factor of a condition of `#elif`. -/
def remaining (a : Activity) : Activity := if a = one then nan else a.complement

end Activity

open Activity

/-! ## Lines -/

/-- `#if`, `#ifdef` and `#ifndef`. -/
inductive Opening where
  | if (expression : Text)
  | ifdef (expression : Text)
  | ifndef (expression : Text)
deriving DecidableEq

/-- The lines that are no conditional directives. -/
inductive Body where
  | plain (text : Text)
  | define (expression : Text)
  | undef (expression : Text)
  | other (text : Text)
deriving DecidableEq

inductive Line where
  | body (b : Body)
  | opening (o : Opening)
  | elif (expression : Text)
  | else
  | endif
deriving DecidableEq

def isWhitespace (c : UInt16) : Bool := c.toNat ≤ 32

/-- What `trim` takes away. -/
def isTrimmed (c : UInt16) : Bool :=
  (0x9 ≤ c ∧ c ≤ 0xD) ∨ (0x2000 ≤ c ∧ c ≤ 0x200A) ∨
    c ∈ ([0x20, 0xA0, 0x1680, 0x2028, 0x2029, 0x202F, 0x205F, 0x3000, 0xFEFF] : Text)

def trim (text : Text) : Text := ((text.dropWhile isTrimmed).reverse.dropWhile isTrimmed).reverse

def word (s : String) : Text := s.toList.map fun c => UInt16.ofNat c.toNat

/-- One turn of the loop as far as it reads its line. -/
def parseLine (line : Text) : Line :=
  match line.dropWhile isWhitespace with
  | [] => .body (.plain line)
  | c :: rest =>
    if c ≠ 0x23 then .body (.plain line)
    else
      let directive := rest.takeWhile (!isWhitespace ·)
      let expression := trim (rest.dropWhile (!isWhitespace ·))
      if directive = word "if" then .opening (.if expression)
      else if directive = word "elif" then .elif expression
      else if directive = word "ifdef" then .opening (.ifdef expression)
      else if directive = word "ifndef" then .opening (.ifndef expression)
      else if directive = word "else" then .else
      else if directive = word "endif" then .endif
      else if directive = word "define" then .body (.define expression)
      else if directive = word "undef" then .body (.undef expression)
      else .body (.other line)

/-- The lines of a text; there is none behind a newline at the end. -/
def linesOf : Text → List Text
  | [] => []
  | c :: cs =>
    if c = newline then [] :: linesOf cs
    else
      match linesOf cs with
      | [] => [[c]]
      | l :: ls => (c :: l) :: ls

/-! ## The main loop -/

/-- What the loop does with its definitions: `expandMacros`, the value of a condition, a look for a name, `#define`
and `#undef`. -/
structure Macros (Defs : Type) where
  expandMacros : Defs → Text → Text
  evaluate : Defs → Text → Bool
  has : Defs → Text → Bool
  define : Defs → Text → Defs
  undef : Defs → Text → Defs

structure Env (Defs : Type) where
  defs : Defs
  out : Text

variable {Defs : Type} (m : Macros Defs)

def Opening.holds (env : Env Defs) : Opening → Bool
  | .if e => m.evaluate env.defs e
  | .ifdef e => m.has env.defs e
  | .ifndef e => !m.has env.defs e

/-- What a line does when it is processed. -/
def Body.process (env : Env Defs) : Body → Env Defs
  | .plain text => { env with out := env.out ++ m.expandMacros env.defs text ++ [newline] }
  | .define e => { env with defs := m.define env.defs e }
  | .undef e => { env with defs := m.undef env.defs e }
  | .other text => { env with out := env.out ++ m.expandMacros env.defs text ++ [newline] }

/-- An unknown directive is passed through from everywhere. -/
def Body.isProcessed (a : Activity) : Body → Bool
  | .other _ => true
  | _ => a = .one

/-- The top of the stack; `undefined` counts as `NaN`. -/
def top (stack : List Activity) : Activity := stack.headD .nan

/-- The stack behind a directive. -/
def push (env : Env Defs) (stack : List Activity) : Line → List Activity
  | .body _ => stack
  | .opening o => mul (ofBool (o.holds m env)) (top stack) :: stack
  | .elif e => mul (ofBool (m.evaluate env.defs e)) (top stack).remaining :: stack.tail
  | .else => mul (top stack).complement (top stack.tail) :: stack.tail
  | .endif => stack.tail

/-- Which lines are processed, and what they leave. -/
abbrev Outcome (Defs : Type) := List Bool × Env Defs

/-- A line and then others. -/
def Outcome.line (processed : Bool) (r : Outcome Defs) : Outcome Defs := (processed :: r.1, r.2)

def Outcome.then (r : Outcome Defs) (next : Env Defs → Outcome Defs) : Outcome Defs :=
  (r.1 ++ (next r.2).1, (next r.2).2)

/-- The turns of the loop. -/
def run : List Activity → Env Defs → List Line → Outcome Defs
  | _, env, [] => ([], env)
  | stack, env, .body b :: lines =>
    if b.isProcessed (top stack) then (run stack (b.process m env) lines).line true else (run stack env lines).line false
  | stack, env, line :: lines => (run (push m env stack line) env lines).line false

def preprocess_c_code (code : Text) (defs : Defs) : Text :=
  (run m [.one] ⟨defs, []⟩ ((linesOf code).map parseLine)).2.out

/-! ## Nested texts -/

mutual

/-- Lines and conditionals one after the other. -/
inductive Group where
  | nil
  | line (b : Body) (rest : Group)
  | block (o : Opening) (body : Group) (tail : Tail) (rest : Group)

/-- The branches behind the first. -/
inductive Tail where
  | endif
  | otherwise (body : Group)
  | elif (expression : Text) (body : Group) (tail : Tail)

end

mutual

def Group.lines : Group → List Line
  | .nil => []
  | .line b rest => .body b :: rest.lines
  | .block o body tail rest => .opening o :: (body.lines ++ (tail.lines ++ rest.lines))

def Tail.lines : Tail → List Line
  | .endif => [.endif]
  | .otherwise body => .else :: (body.lines ++ [.endif])
  | .elif e body tail => .elif e :: (body.lines ++ tail.lines)

end

mutual

/-- A line is processed where in each conditional around it the branch is the first whose condition holds. -/
def Group.intended (active : Bool) (env : Env Defs) : Group → Outcome Defs
  | .nil => ([], env)
  | .line b rest => (rest.intended active (if active then b.process m env else env)).line active
  | .block o body tail rest =>
    let holds := o.holds m env
    (((body.intended (active && holds) env).then (tail.intended active holds)).then (rest.intended active)).line false

/-- `done` where the condition of a branch before held. -/
def Tail.intended (active done : Bool) (env : Env Defs) : Tail → Outcome Defs
  | .endif => ([false], env)
  | .otherwise body => ((body.intended (active && !done) env).then fun env => ([false], env)).line false
  | .elif e body tail =>
    let holds := m.evaluate env.defs e
    ((body.intended (active && (!done && holds)) env).then (tail.intended active (done || holds))).line false

end

mutual

/-- What the loop does with nested lines under a number of the stack. -/
def Group.actual (a : Activity) (env : Env Defs) : Group → Outcome Defs
  | .nil => ([], env)
  | .line b rest => (rest.actual a (if b.isProcessed a then b.process m env else env)).line (b.isProcessed a)
  | .block o body tail rest =>
    let t := mul (ofBool (o.holds m env)) a
    (((body.actual t env).then (tail.actual a t)).then (rest.actual a)).line false

/-- `t` is the number of the branch before. -/
def Tail.actual (a t : Activity) (env : Env Defs) : Tail → Outcome Defs
  | .endif => ([false], env)
  | .otherwise body => ((body.actual (mul t.complement a) env).then fun env => ([false], env)).line false
  | .elif e body tail =>
    let t' := mul (ofBool (m.evaluate env.defs e)) t.remaining
    ((body.actual t' env).then (tail.actual a t')).line false

end

/-! ## The loop on nested lines -/

theorem Outcome.then_then (r : Outcome Defs) (f g : Env Defs → Outcome Defs) :
    (r.then f).then g = r.then fun env => (f env).then g := by
  unfold Outcome.then
  dsimp only
  rw [List.append_assoc]

theorem Outcome.line_then (processed : Bool) (r : Outcome Defs) (f : Env Defs → Outcome Defs) :
    (r.line processed).then f = (r.then f).line processed := rfl

theorem run_body (stack : List Activity) (env : Env Defs) (b : Body) (lines : List Line) :
    run m stack env (.body b :: lines) =
      (run m stack (if b.isProcessed (top stack) then b.process m env else env) lines).line
        (b.isProcessed (top stack)) := by
  rw [run]
  split
  · next h => rw [h]
  · next h =>
    have hfalse : b.isProcessed (top stack) = false := Bool.not_eq_true _ ▸ h
    rw [hfalse]

mutual

/-- By induction on the group: the stack behind it is that before. -/
theorem run_group (a : Activity) : ∀ (g : Group) (stack : List Activity) (rest : List Line) (env : Env Defs),
    run m (a :: stack) env (g.lines ++ rest) = (g.actual m a env).then fun env => run m (a :: stack) env rest
  | .nil, stack, rest, env => rfl
  | .line b g, stack, rest, env => by
    have hnext := run_group a g stack rest (if b.isProcessed a then b.process m env else env)
    have hline := run_body m (a :: stack) env b (g.lines ++ rest)
    rw [Group.lines, List.cons_append, hline]
    exact congrArg (Outcome.line (b.isProcessed a)) hnext
  | .block o body tail g, stack, rest, env => by
    have hbody := run_group (mul (ofBool (o.holds m env)) a) body (a :: stack) (tail.lines ++ (g.lines ++ rest)) env
    have htail := funext (run_tail a (mul (ofBool (o.holds m env)) a) tail stack (g.lines ++ rest))
    have hrest := funext (run_group a g stack rest)
    rw [Group.lines, List.cons_append, List.append_assoc, List.append_assoc]
    change (run m (mul (ofBool (o.holds m env)) a :: a :: stack) env _).line false = _
    rw [hbody, htail, hrest, Group.actual, Outcome.line_then, Outcome.then_then, Outcome.then_then]

theorem run_tail (a t : Activity) : ∀ (tail : Tail) (stack : List Activity) (rest : List Line) (env : Env Defs),
    run m (t :: a :: stack) env (tail.lines ++ rest) = (tail.actual m a t env).then fun env => run m (a :: stack) env rest
  | .endif, stack, rest, env => rfl
  | .otherwise body, stack, rest, env => by
    have hbody := run_group (mul t.complement a) body (a :: stack) (.endif :: rest) env
    rw [Tail.lines, List.cons_append, List.append_assoc]
    change (run m (mul t.complement a :: a :: stack) env (body.lines ++ .endif :: rest)).line false = _
    rw [hbody, Tail.actual, Outcome.line_then, Outcome.then_then]
    rfl
  | .elif e body tail, stack, rest, env => by
    have hbody := run_group (mul (ofBool (m.evaluate env.defs e)) t.remaining) body (a :: stack) (tail.lines ++ rest) env
    have htail := funext (run_tail a (mul (ofBool (m.evaluate env.defs e)) t.remaining) tail stack rest)
    rw [Tail.lines, List.cons_append, List.append_assoc]
    change (run m (mul (ofBool (m.evaluate env.defs e)) t.remaining :: a :: stack) env _).line false = _
    rw [hbody, htail, Tail.actual, Outcome.line_then, Outcome.then_then]

end

/-! ## Where the loop does what is intended -/

def Body.isOther : Body → Prop
  | .other _ => True
  | _ => False

mutual

/-- No unknown directive where nothing is read, and in a conditional under the number 0 nothing to process in the first
branch behind `#elif` whose condition holds. -/
def Group.Good (a : Activity) (env : Env Defs) : Group → Prop
  | .nil => True
  | .line b rest => (b.isOther → a = one) ∧ rest.Good a (if a = one then b.process m env else env)
  | .block o body tail rest =>
    let t := mul (ofBool (o.holds m env)) a
    let middle := (body.intended m (t = one) env).2
    body.Good t env ∧ tail.Good a t middle ∧ rest.Good a (tail.intended m (a = one) (t ≠ zero) middle).2

def Tail.Good (a t : Activity) (env : Env Defs) : Tail → Prop
  | .endif => True
  | .otherwise body => body.Good (mul t.complement a) env
  | .elif e body tail =>
    let t' := mul (ofBool (m.evaluate env.defs e)) t.remaining
    body.Good t' env ∧ (t' = one → a ≠ one → true ∉ (body.intended m true env).1) ∧
      tail.Good a t' (body.intended m (a = one ∧ t' = one) env).2

end

variable {processed : Bool}

section

variable {m} {r r' : Outcome Defs} {f : Env Defs → Outcome Defs} {n k : Nat} {env : Env Defs}

theorem Outcome.mem_then {b : Bool} : b ∈ (r.then f).1 ↔ b ∈ r.1 ∨ b ∈ (f r.2).1 := List.mem_append

theorem Outcome.mem_line {b : Bool} : b ∈ (r.line processed).1 ↔ b = processed ∨ b ∈ r.1 := List.mem_cons

/-- Outcomes with the same marks, part by part. -/
theorem Outcome.then_inj {f' : Env Defs → Outcome Defs} (hlength : r.1.length = r'.1.length) :
    (r.then f).1 = (r'.then f').1 ↔ r.1 = r'.1 ∧ (f r.2).1 = (f' r'.2).1 := by
  constructor
  · exact fun h => List.append_inj h hlength
  · rintro ⟨hfirst, hsecond⟩
    unfold Outcome.then
    dsimp only
    rw [hfirst, hsecond]

/-- Nothing is processed. -/
def idle (n : Nat) (env : Env Defs) : Outcome Defs := (List.replicate n false, env)

theorem idle_then (hr : r = idle n env) (hf : ∀ env, f env = idle k env) : r.then f = idle (n + k) env := by
  subst hr
  unfold Outcome.then
  change (List.replicate n false ++ (f env).1, (f env).2) = _
  rw [hf]
  exact Prod.ext (List.replicate_append_replicate ..) rfl

theorem idle_line (hr : r = idle n env) : r.line false = idle (n + 1) env := by
  subst hr
  rfl

theorem marks_eq (hlength : r.1.length = n) (h : true ∉ r.1) : r.1 = List.replicate n false :=
  List.eq_replicate_iff.mpr ⟨hlength, fun b hb => (Bool.not_eq_true b).mp fun heq => h (heq ▸ hb)⟩

end

mutual

/-- Nothing is processed where nothing is read. -/
theorem Group.intended_false : ∀ (g : Group) (env : Env Defs), g.intended m false env = idle g.lines.length env
  | .nil, env => rfl
  | .line b g, env => idle_line (g.intended_false env)
  | .block o body tail g, env => by
    have hidle := idle_line (idle_then (idle_then (body.intended_false env) (tail.intended_false (o.holds m env)))
      g.intended_false)
    rw [Group.lines, List.length_cons, List.length_append, List.length_append, ← Nat.add_assoc]
    exact hidle

theorem Tail.intended_false : ∀ (tail : Tail) (done : Bool) (env : Env Defs),
    tail.intended m false done env = idle tail.lines.length env
  | .endif, done, env => rfl
  | .otherwise body, done, env => by
    have hidle := idle_line (idle_then (f := fun env => ([false], env)) (k := 1) (body.intended_false env) fun _ => rfl)
    rw [Tail.lines, List.length_cons, List.length_append]
    exact hidle
  | .elif e body tail, done, env => by
    have hidle := idle_line (idle_then (body.intended_false env)
      (tail.intended_false (done || m.evaluate env.defs e)))
    rw [Tail.lines, List.length_cons, List.length_append]
    exact hidle

end

/-! ### What processes nothing -/

section

variable {m} {r : Outcome Defs} {f : Env Defs → Outcome Defs} {env : Env Defs}

theorem Outcome.quiet_then (h : true ∉ (r.then f).1) : true ∉ r.1 ∧ true ∉ (f r.2).1 :=
  not_or.mp fun hmem => h (Outcome.mem_then.mpr hmem)

theorem Outcome.quiet_line (h : true ∉ (r.line processed).1) : processed = false ∧ true ∉ r.1 := by
  obtain ⟨hline, hrest⟩ := not_or.mp fun hmem => h (Outcome.mem_line.mpr hmem)
  exact ⟨(Bool.not_eq_true _).mp fun htrue => hline htrue.symm, hrest⟩

/-- A mark for each line; what processes nothing changes nothing. -/
def Steady (n : Nat) (env : Env Defs) (r : Outcome Defs) : Prop := r.1.length = n ∧ (true ∉ r.1 → r.2 = env)

theorem Steady.then {n k : Nat} (hr : Steady n env r) (hf : ∀ env, Steady k env (f env)) :
    Steady (n + k) env (r.then f) := by
  constructor
  · unfold Outcome.then
    rw [List.length_append, hr.1, (hf _).1]
  · intro h
    obtain ⟨hfirst, hsecond⟩ := Outcome.quiet_then h
    exact ((hf _).2 hsecond).trans (hr.2 hfirst)

theorem Steady.line {n : Nat} {env' : Env Defs} (hr : Steady n env' r) (henv : processed = false → env' = env) :
    Steady (n + 1) env (r.line processed) := by
  refine ⟨congrArg Nat.succ hr.1, fun h => ?_⟩
  obtain ⟨hline, hrest⟩ := Outcome.quiet_line h
  exact (hr.2 hrest).trans (henv hline)

theorem steady_endif : Steady 1 env ([false], env) := ⟨rfl, fun _ => rfl⟩

end

mutual

theorem Group.steady_actual : ∀ (g : Group) (a : Activity) (env : Env Defs),
    Steady g.lines.length env (g.actual m a env)
  | .nil, a, env => ⟨rfl, fun _ => rfl⟩
  | .line b g, a, env => (g.steady_actual a _).line fun hline => by
    rw [hline]
    rfl
  | .block o body tail g, a, env => by
    rw [Group.lines, List.length_cons, List.length_append, List.length_append, ← Nat.add_assoc]
    apply Steady.line _ fun _ => rfl
    exact ((body.steady_actual _ env).then (tail.steady_actual a _)).then (g.steady_actual a)

theorem Tail.steady_actual : ∀ (tail : Tail) (a t : Activity) (env : Env Defs),
    Steady tail.lines.length env (tail.actual m a t env)
  | .endif, a, t, env => steady_endif
  | .otherwise body, a, t, env => by
    rw [Tail.lines, List.length_cons, List.length_append]
    exact ((body.steady_actual _ env).then fun _ => steady_endif).line fun _ => rfl
  | .elif e body tail, a, t, env => by
    rw [Tail.lines, List.length_cons, List.length_append]
    exact ((body.steady_actual _ env).then (tail.steady_actual a _)).line fun _ => rfl

end

mutual

theorem Group.steady_intended : ∀ (g : Group) (active : Bool) (env : Env Defs),
    Steady g.lines.length env (g.intended m active env)
  | .nil, active, env => ⟨rfl, fun _ => rfl⟩
  | .line b g, active, env => (g.steady_intended active _).line fun hline => by
    rw [hline]
    rfl
  | .block o body tail g, active, env => by
    rw [Group.lines, List.length_cons, List.length_append, List.length_append, ← Nat.add_assoc]
    apply Steady.line _ fun _ => rfl
    exact ((body.steady_intended _ env).then (tail.steady_intended active _)).then (g.steady_intended active)

theorem Tail.steady_intended : ∀ (tail : Tail) (active done : Bool) (env : Env Defs),
    Steady tail.lines.length env (tail.intended m active done env)
  | .endif, active, done, env => steady_endif
  | .otherwise body, active, done, env => by
    rw [Tail.lines, List.length_cons, List.length_append]
    exact ((body.steady_intended _ env).then fun _ => steady_endif).line fun _ => rfl
  | .elif e body tail, active, done, env => by
    rw [Tail.lines, List.length_cons, List.length_append]
    exact ((body.steady_intended _ env).then (tail.steady_intended active _)).line fun _ => rfl

end

/-! ### The numbers, and the branches that are read -/

theorem opening_active (holds : Bool) (a : Activity) :
    decide (mul (ofBool holds) a = one) = (decide (a = one) && holds) := by
  cases holds <;> cases a <;> rfl

theorem else_active (a t : Activity) :
    decide (mul t.complement a = one) = (decide (a = one) && !decide (t ≠ zero)) := by
  cases t <;> cases a <;> rfl

theorem elif_active (holds : Bool) (t : Activity) :
    decide (mul (ofBool holds) t.remaining = one) = (!decide (t ≠ zero) && holds) := by
  cases holds <;> cases t <;> rfl

theorem elif_done (holds : Bool) (t : Activity) :
    decide (mul (ofBool holds) t.remaining ≠ zero) = (decide (t ≠ zero) || holds) := by
  cases holds <;> cases t <;> rfl

/-- The conditions before matter in what is read only. -/
theorem Tail.intended_done (tail : Tail) (a : Activity) (holds : Bool) (env : Env Defs) :
    tail.intended m (a = one) holds env = tail.intended m (a = one) (mul (ofBool holds) a ≠ zero) env := by
  by_cases ha : a = one
  · subst ha
    cases holds <;> rfl
  · rw [decide_eq_false ha, tail.intended_false, tail.intended_false]

mutual

/-- What the loop does not process in a part that is read is not to be processed. -/
theorem Group.quiet_of_actual : ∀ (g : Group) (env : Env Defs),
    true ∉ (g.actual m one env).1 → true ∉ (g.intended m true env).1
  | .nil, env, h => h
  | .line b g, env, h => by
    have hprocessed : b.isProcessed one = true := by cases b <;> rfl
    exact absurd ((Outcome.quiet_line h).1.symm.trans hprocessed) (by decide)
  | .block o body tail g, env, h => by
    obtain ⟨hfront, hrest⟩ := Outcome.quiet_then (Outcome.quiet_line h).2
    obtain ⟨hbody, htail⟩ := Outcome.quiet_then hfront
    have hsteady := body.steady_actual m (mul (ofBool (o.holds m env)) one) env
    rw [hsteady.2 hbody] at htail
    rw [(hsteady.then (tail.steady_actual m one _)).2 hfront] at hrest
    have hnobody : true ∉ (body.intended m (o.holds m env) env).1 := by
      cases hholds : o.holds m env with
      | false =>
        rw [body.intended_false]
        exact fun hmem => absurd (List.eq_of_mem_replicate hmem) (by decide)
      | true =>
        rw [hholds] at hbody
        exact body.quiet_of_actual env hbody
    have hdone := tail.intended_done m one (o.holds m env) env
    have hnotail := tail.quiet_of_actual (mul (ofBool (o.holds m env)) one) env htail
    have hnorest := g.quiet_of_actual env hrest
    have hsame := (body.steady_intended m _ env).2 hnobody
    change true ∉ (tail.intended m (decide (one = one)) _ env).1 at hnotail
    rw [← hdone] at hnotail
    have hlast := (tail.steady_intended m _ _ env).2 hnotail
    intro hmem
    rw [Group.intended] at hmem
    cases Outcome.mem_line.mp hmem with
    | inl hline => cases hline
    | inr hblock =>
      have hback : ((body.intended m (o.holds m env) env).then (tail.intended m true (o.holds m env))).2 = env := by
        unfold Outcome.then
        rw [hsame]
        exact hlast
      cases Outcome.mem_then.mp hblock with
      | inl hmiddle =>
        cases Outcome.mem_then.mp hmiddle with
        | inl hin => exact hnobody hin
        | inr hin =>
          rw [Bool.true_and, hsame] at hin
          exact hnotail hin
      | inr hin =>
        rw [Bool.true_and, hback] at hin
        exact hnorest hin

theorem Tail.quiet_of_actual : ∀ (tail : Tail) (t : Activity) (env : Env Defs),
    true ∉ (tail.actual m one t env).1 → true ∉ (tail.intended m true (t ≠ zero) env).1
  | .endif, t, env, h => h
  | .otherwise body, t, env, h => by
    have hbody := (Outcome.quiet_then (Outcome.quiet_line h).2).1
    have hnobody : true ∉ (body.intended m (!decide (t ≠ zero)) env).1 := by
      cases t with
      | zero => exact body.quiet_of_actual env hbody
      | one =>
        rw [show (!decide (one ≠ zero)) = false from rfl, body.intended_false]
        exact fun hmem => absurd (List.eq_of_mem_replicate hmem) (by decide)
      | nan =>
        rw [show (!decide (nan ≠ zero)) = false from rfl, body.intended_false]
        exact fun hmem => absurd (List.eq_of_mem_replicate hmem) (by decide)
    intro hmem
    rw [Tail.intended] at hmem
    cases Outcome.mem_line.mp hmem with
    | inl hline => cases hline
    | inr hrest =>
      cases Outcome.mem_then.mp hrest with
      | inl hin => exact hnobody hin
      | inr hin => exact absurd (List.mem_singleton.mp hin) (by decide)
  | .elif e body tail, t, env, h => by
    obtain ⟨hbody, htail⟩ := Outcome.quiet_then (Outcome.quiet_line h).2
    have hmiddle := (body.steady_actual m _ env).2 hbody
    rw [hmiddle] at htail
    have hnotail := tail.quiet_of_actual _ env htail
    rw [elif_done] at hnotail
    have hnobody : true ∉ (body.intended m (!decide (t ≠ zero) && m.evaluate env.defs e) env).1 := by
      rw [← elif_active]
      by_cases hone : mul (ofBool (m.evaluate env.defs e)) t.remaining = one
      · rw [hone] at hbody
        rw [decide_eq_true hone]
        exact body.quiet_of_actual env hbody
      · rw [decide_eq_false hone, body.intended_false]
        exact fun hmem => absurd (List.eq_of_mem_replicate hmem) (by decide)
    have hsame := (body.steady_intended m _ env).2 hnobody
    intro hmem
    rw [Tail.intended] at hmem
    cases Outcome.mem_line.mp hmem with
    | inl hline => cases hline
    | inr hrest =>
      cases Outcome.mem_then.mp hrest with
      | inl hin => exact hnobody hin
      | inr hin =>
        rw [Bool.true_and, hsame] at hin
        exact hnotail hin

end

/-! ### The two readings -/

theorem Body.isProcessed_eq {a : Activity} {b : Body} (h : b.isOther → a = one) :
    b.isProcessed a = decide (a = one) := by
  cases b with
  | other text =>
    rw [h trivial]
    rfl
  | _ => rfl

/-- A branch behind `#elif` in a part that is not read. -/
theorem intended_elif (body : Group) (a t : Activity) (holds : Bool) (env : Env Defs) :
    body.intended m (decide (a = one) && (!decide (t ≠ zero) && holds)) env =
      body.intended m (a = one ∧ mul (ofBool holds) t.remaining = one) env := by
  rw [← elif_active, Bool.decide_and]

mutual

theorem Group.actual_eq : ∀ (g : Group) (a : Activity) (env : Env Defs), g.Good m a env →
    g.actual m a env = g.intended m (a = one) env
  | .nil, a, env, _ => rfl
  | .line b g, a, env, ⟨hother, hgood⟩ => by
    have hprocessed := Body.isProcessed_eq hother
    have hnext := g.actual_eq a _ hgood
    rw [Group.actual, Group.intended, hprocessed]
    simp only [decide_eq_true_eq]
    rw [hnext]
  | .block o body tail g, a, env, ⟨hbody, htail, hgood⟩ => by
    have hfirst := body.actual_eq _ env hbody
    have hsecond := tail.actual_eq a _ _ htail
    have hthird := g.actual_eq a _ hgood
    have hdone := tail.intended_done m a (o.holds m env)
    rw [Group.actual, Group.intended]
    unfold Outcome.then
    dsimp only
    rw [hfirst, hsecond, hthird, opening_active, hdone]

theorem Tail.actual_eq : ∀ (tail : Tail) (a t : Activity) (env : Env Defs), tail.Good m a t env →
    tail.actual m a t env = tail.intended m (a = one) (t ≠ zero) env
  | .endif, a, t, env, _ => rfl
  | .otherwise body, a, t, env, hbody => by
    have hfirst := body.actual_eq _ env hbody
    rw [Tail.actual, Tail.intended, hfirst, else_active]
  | .elif e body tail, a, t, env, ⟨hbody, hquiet, htail⟩ => by
    have hfirst : body.actual m (mul (ofBool (m.evaluate env.defs e)) t.remaining) env =
        body.intended m (a = one ∧ mul (ofBool (m.evaluate env.defs e)) t.remaining = one) env := by
      have heq := body.actual_eq _ env hbody
      by_cases hone : mul (ofBool (m.evaluate env.defs e)) t.remaining = one
      · by_cases ha : a = one
        · rw [heq, decide_eq_true hone, decide_eq_true ⟨ha, hone⟩]
        · -- the branch is taken for one that is read
          have hnone := hquiet hone ha
          have hsteady := body.steady_intended m true env
          rw [heq, decide_eq_true hone, decide_eq_false fun h => ha h.1, body.intended_false]
          exact Prod.ext (marks_eq hsteady.1 hnone) (hsteady.2 hnone)
      · rw [heq, decide_eq_false hone, decide_eq_false fun h => hone h.2]
    have hsecond := tail.actual_eq a _ _ htail
    rw [Tail.actual, Tail.intended, intended_elif]
    unfold Outcome.then
    dsimp only
    rw [hfirst, hsecond, elif_done]

end

mutual

theorem Group.good_of_marks : ∀ (g : Group) (a : Activity) (env : Env Defs),
    (g.actual m a env).1 = (g.intended m (a = one) env).1 → g.Good m a env
  | .nil, a, env, _ => trivial
  | .line b g, a, env, h => by
    obtain ⟨hline, hrest⟩ := List.cons.inj h
    have hother : b.isOther → a = one := by
      intro hb
      cases b with
      | other text => exact of_decide_eq_true hline.symm
      | _ => exact hb.elim
    rw [hline] at hrest
    simp only [decide_eq_true_eq] at hrest
    exact ⟨hother, g.good_of_marks a _ hrest⟩
  | .block o body tail g, a, env, h => by
    have hdone := tail.intended_done m a (o.holds m env)
    rw [Group.actual, Group.intended, ← opening_active] at h
    have hmarks := List.cons.inj h |>.2
    have hactual := body.steady_actual m (mul (ofBool (o.holds m env)) a) env
    have hintended := body.steady_intended m (mul (ofBool (o.holds m env)) a = one) env
    have hfronts := (hactual.then (tail.steady_actual m a (mul (ofBool (o.holds m env)) a))).1.trans
      (hintended.then (tail.steady_intended m (a = one) (o.holds m env))).1.symm
    obtain ⟨hfront, hrest⟩ := (Outcome.then_inj hfronts).mp hmarks
    obtain ⟨hbody, htail⟩ := (Outcome.then_inj (hactual.1.trans hintended.1.symm)).mp hfront
    have hgood := body.good_of_marks _ env hbody
    have hmiddle := body.actual_eq m _ env hgood
    rw [hmiddle, hdone] at htail
    have hgoodTail := tail.good_of_marks a _ _ htail
    have hlast := tail.actual_eq m a _ _ hgoodTail
    unfold Outcome.then at hrest
    dsimp only at hrest
    rw [hmiddle, hlast, hdone] at hrest
    exact ⟨hgood, hgoodTail, g.good_of_marks a _ hrest⟩

theorem Tail.good_of_marks : ∀ (tail : Tail) (a t : Activity) (env : Env Defs),
    (tail.actual m a t env).1 = (tail.intended m (a = one) (t ≠ zero) env).1 → tail.Good m a t env
  | .endif, a, t, env, _ => trivial
  | .otherwise body, a, t, env, h => by
    rw [Tail.actual, Tail.intended, ← else_active] at h
    have hbodies := (body.steady_actual m (mul t.complement a) env).1.trans
      (body.steady_intended m (mul t.complement a = one) env).1.symm
    exact body.good_of_marks _ env ((Outcome.then_inj hbodies).mp (List.cons.inj h).2).1
  | .elif e body tail, a, t, env, h => by
    rw [Tail.actual, Tail.intended, intended_elif] at h
    have hlengths := (body.steady_actual m (mul (ofBool (m.evaluate env.defs e)) t.remaining) env).1.trans
      (body.steady_intended m (a = one ∧ mul (ofBool (m.evaluate env.defs e)) t.remaining = one) env).1.symm
    obtain ⟨hbody, htail⟩ := (Outcome.then_inj hlengths).mp (List.cons.inj h).2
    have hgood : body.Good m (mul (ofBool (m.evaluate env.defs e)) t.remaining) env ∧
        (mul (ofBool (m.evaluate env.defs e)) t.remaining = one → a ≠ one →
          true ∉ (body.intended m true env).1) ∧
        (body.actual m (mul (ofBool (m.evaluate env.defs e)) t.remaining) env).2 =
          (body.intended m (a = one ∧ mul (ofBool (m.evaluate env.defs e)) t.remaining = one) env).2 := by
      by_cases hone : mul (ofBool (m.evaluate env.defs e)) t.remaining = one
      · by_cases ha : a = one
        · rw [decide_eq_true ⟨ha, hone⟩] at hbody ⊢
          have hsame : (body.actual m (mul (ofBool (m.evaluate env.defs e)) t.remaining) env).1 =
              (body.intended m (mul (ofBool (m.evaluate env.defs e)) t.remaining = one) env).1 := by
            rw [decide_eq_true hone, hbody]
          have hin := body.good_of_marks _ env hsame
          have heq := body.actual_eq m _ env hin
          rw [decide_eq_true hone] at heq
          exact ⟨hin, fun _ hno => absurd ha hno, congrArg Prod.snd heq⟩
        · rw [decide_eq_false fun h => ha h.1, body.intended_false] at hbody ⊢
          have hquiet : true ∉ (body.actual m (mul (ofBool (m.evaluate env.defs e)) t.remaining) env).1 := by
            rw [hbody]
            exact fun hmem => absurd (List.eq_of_mem_replicate hmem) (by decide)
          have hnone : true ∉ (body.intended m true env).1 := by
            rw [hone] at hquiet
            exact body.quiet_of_actual m env hquiet
          have hsame : (body.actual m (mul (ofBool (m.evaluate env.defs e)) t.remaining) env).1 =
              (body.intended m (mul (ofBool (m.evaluate env.defs e)) t.remaining = one) env).1 := by
            rw [decide_eq_true hone, hbody, marks_eq (body.steady_intended m true env).1 hnone]
            rfl
          exact ⟨body.good_of_marks _ env hsame, fun _ _ => hnone, (body.steady_actual m _ env).2 hquiet⟩
      · rw [decide_eq_false fun h => hone h.2] at hbody ⊢
        have hsame : (body.actual m (mul (ofBool (m.evaluate env.defs e)) t.remaining) env).1 =
            (body.intended m (mul (ofBool (m.evaluate env.defs e)) t.remaining = one) env).1 := by
          rw [decide_eq_false hone, hbody]
        have hin := body.good_of_marks _ env hsame
        have heq := body.actual_eq m _ env hin
        rw [decide_eq_false hone] at heq
        exact ⟨hin, fun hyes => absurd hyes hone, congrArg Prod.snd heq⟩
    obtain ⟨hin, hquiet, henv⟩ := hgood
    rw [henv, ← elif_done] at htail
    exact ⟨hin, hquiet, tail.good_of_marks a _ _ htail⟩

end

/-- No definitions, and the condition `1` alone holds. -/
def bare : Macros Unit where
  expandMacros _ text := text
  evaluate _ e := e = word "1"
  has _ _ := false
  define _ _ := ()
  undef _ _ := ()

end Shader
