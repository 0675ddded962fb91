-- SUMMARY: Conditional directives of library sources at compile time: which lines are emitted.
import Emscripten.Preprocessor.Conditionals

/-!
# Conditional directives of library sources

`preprocess` keeps one of three states for each open conditional: its branch is not shown and none was, it is shown,
or one was shown before. A line is emitted where every state is that of a branch that is shown.
-/

namespace ParseTools

open Unicode
open Shader (linesOf trim word newline)

inductive Show
  | IGNORE | SHOW | IGNORE_ALL
deriving DecidableEq, Repr

/-- A condition is the text behind a directive in the line with this number. -/
abbrev Condition := Nat × Text

/-- Lines that do not change the stack. -/
inductive Body
  | ordinary (line : Text)
  | includes (includeFile : Text)
  | warning (text : Text)
  | error (text : Text)
  | preprocess
  | unknown (first : Text)
deriving DecidableEq

inductive Line
  | body (b : Body)
  | if (c : Condition)
  | elif (c : Condition)
  | else
  | endif
deriving DecidableEq

def space : UInt16 := 0x20

/-- `s.substring(s.indexOf(' '))`, the whole text where there is no space. -/
def fromSpace (s : Text) : Text := if space ∈ s then s.dropWhile (· ≠ space) else s

/-- `s.slice(s.indexOf(' ') + 1)`. -/
def behindSpace (s : Text) : Text := if space ∈ s then (s.dropWhile (· ≠ space)).drop 1 else s

/-- The name of the file without quotes. -/
def includeFile (line : Text) : Text :=
  let file := behindSpace line
  if word "\"" <+: file then file.tail.dropLast else file

/-- What a turn of the loop reads of its line. -/
def parseLine (line : Text) (i : Nat) : Line :=
  let trimmed := trim line
  if word "#" <+: trimmed then
    let first := trimmed.takeWhile (· ≠ space)
    if first = word "#if" ∨ first = word "#ifdef" then .if (i, fromSpace trimmed)
    else if first = word "#elif" then .elif (i, fromSpace trimmed)
    else if first = word "#include" then .body (.includes (includeFile line))
    else if first = word "#else" then .else
    else if first = word "#endif" then .endif
    else if first = word "#warning" then .body (.warning (trim (fromSpace trimmed)))
    else if first = word "#error" then .body (.error (trim (fromSpace trimmed)))
    else if first = word "#preprocess" then .body .preprocess
    else .body (.unknown first)
  else .body (.ordinary line)

def parseLines (text : Text) : List Line := (linesOf text).zipIdx.map fun x => parseLine x.1 x.2

/-- What the build and the files give: the replacements of `EXPORT_ES6` and `MODULARIZE`, the values of conditions, and
what is made of an included file, which is empty where there is no such file. -/
structure Env where
  replace : Text → Text
  truthy : Condition → Bool
  included : Text → Text

variable (env : Env)

/-- `text.replace(/\r\n/g, '\n')`. -/
def removeWindowsEndings : Text → Text
  | [] => []
  | c :: rest => if c = 0x0D ∧ rest.head? = some newline then removeWindowsEndings rest else c :: removeWindowsEndings rest

structure Output where
  ret : Text
  emptyLine : Bool
deriving DecidableEq

def Body.text : Body → Text
  | ordinary line => line ++ [newline]
  | includes file =>
    let result := env.included file
    if result = [] then []
    else word "// include: " ++ file ++ [newline] ++ (result ++ (word "// end include: " ++ file ++ [newline]))
  | _ => []

/-- What a line leaves where it is shown. -/
def Output.emit (o : Output) : Body → Output
  | .ordinary line => if o.emptyLine ∧ line = [] then o else ⟨o.ret ++ Body.text env (.ordinary line), line = []⟩
  | b => { o with ret := o.ret ++ b.text env }

def showCurrentLine (showStack : List Show) : Bool := showStack.all (· = .SHOW)

/-- The turns of the loop, with the top of the stack first; at the end the stack must be empty. -/
def run : List Show → Output → List Line → Option Text
  | showStack, o, [] => if showStack.length = 0 then some o.ret else none
  | showStack, o, .body b :: lines => run showStack (if showCurrentLine showStack then o.emit env b else o) lines
  | showStack, o, .if c :: lines => run ((if env.truthy c then .SHOW else .IGNORE) :: showStack) o lines
  | showStack, o, .elif c :: lines =>
    let curr := showStack.head?
    if curr = some .SHOW ∨ curr = some .IGNORE_ALL then run (.IGNORE_ALL :: showStack.tail) o lines
    else run ((if env.truthy c then .SHOW else .IGNORE) :: showStack.tail) o lines
  | showStack, o, .else :: lines =>
    run ((if showStack.head? = some .IGNORE then .SHOW else .IGNORE) :: showStack.tail) o lines
  | showStack, o, .endif :: lines => run showStack.tail o lines

def preprocess (text : Text) : Option Text :=
  run env [] ⟨[], false⟩ (parseLines (removeWindowsEndings (env.replace text)))

/-! ## Nested sources -/

mutual

inductive Group
  | nil
  | line (b : Body) (rest : Group)
  | block (c : Condition) (body : Group) (tail : Tail) (rest : Group)

/-- The branches behind the first. -/
inductive Tail
  | endif
  | otherwise (body : Group)
  | elif (c : Condition) (body : Group) (tail : Tail)

end

mutual

def Group.lines : Group → List Line
  | .nil => []
  | .line b rest => .body b :: rest.lines
  | .block c body tail rest => .if c :: (body.lines ++ (tail.lines ++ rest.lines))

def Tail.lines : Tail → List Line
  | .endif => [.endif]
  | .otherwise body => .else :: (body.lines ++ [.endif])
  | .elif c body tail => .elif c :: (body.lines ++ tail.lines)

end

mutual

/-- The lines of the first branches whose conditions are true, where `active` says so of the conditionals around. -/
def Group.shown (active : Bool) : Group → List Body
  | .nil => []
  | .line b rest => if active then b :: rest.shown active else rest.shown active
  | .block c body tail rest =>
    body.shown (active && env.truthy c) ++ (tail.shown active (env.truthy c) ++ rest.shown active)

/-- `done` where the condition of a branch before is true. -/
def Tail.shown (active done : Bool) : Tail → List Body
  | .endif => []
  | .otherwise body => body.shown (active && !done)
  | .elif c body tail => body.shown (active && (!done && env.truthy c)) ++ tail.shown active (done || env.truthy c)

end

/-- Of empty lines one behind the other the first; `empty` where the line before is one. -/
def collapse : Bool → List Body → List Body
  | _, [] => []
  | empty, .ordinary line :: rest =>
    if empty ∧ line = [] then collapse empty rest else .ordinary line :: collapse (line = []) rest
  | empty, b :: rest => b :: collapse empty rest

/-! ## The loop -/

theorem emit_collapse (bs : List Body) : ∀ o : Output,
    (bs.foldl (Output.emit env) o).ret = o.ret ++ (collapse o.emptyLine bs).flatMap (Body.text env) := by
  induction bs with
  | nil => exact fun o => (List.append_nil _).symm
  | cons b bs ih =>
    intro o
    rw [List.foldl_cons, ih]
    cases b with
    | ordinary line =>
      rw [Output.emit, collapse]
      split
      · rfl
      · rw [List.flatMap_cons, ← List.append_assoc]
    | _ =>
      rw [collapse, List.flatMap_cons, ← List.append_assoc]
      · rfl
      · exact nofun

theorem showCurrentLine_cons (s : Show) (stack : List Show) :
    showCurrentLine (s :: stack) = (showCurrentLine stack && decide (s = .SHOW)) := Bool.and_comm ..

theorem ofCondition_active (holds : Bool) : decide ((if holds then Show.SHOW else .IGNORE) = .SHOW) = holds := by
  cases holds <;> rfl

theorem ofCondition_done (holds : Bool) : decide ((if holds then Show.SHOW else .IGNORE) ≠ .IGNORE) = holds := by
  cases holds <;> rfl

mutual

/-- By induction on the group: the stack behind it is that before. -/
theorem run_group : ∀ (g : Group) (stack : List Show) (o : Output) (rest : List Line),
    run env stack o (g.lines ++ rest) = run env stack ((g.shown env (showCurrentLine stack)).foldl (Output.emit env) o) rest
  | .nil, stack, o, rest => rfl
  | .line b g, stack, o, rest => by
    have hrest := run_group g stack (if showCurrentLine stack then o.emit env b else o) rest
    rw [Group.lines, List.cons_append, run, hrest, Group.shown]
    split <;> rfl
  | .block c body tail g, stack, o, rest => by
    have hbody := run_group body ((if env.truthy c then .SHOW else .IGNORE) :: stack) o (tail.lines ++ (g.lines ++ rest))
    have htail := run_tail tail (if env.truthy c then .SHOW else .IGNORE) stack
      ((body.shown env (showCurrentLine stack && env.truthy c)).foldl (Output.emit env) o) (g.lines ++ rest)
    have hrest := run_group g stack ((tail.shown env (showCurrentLine stack) (env.truthy c)).foldl (Output.emit env)
      ((body.shown env (showCurrentLine stack && env.truthy c)).foldl (Output.emit env) o)) rest
    rw [showCurrentLine_cons, ofCondition_active] at hbody
    rw [ofCondition_done] at htail
    rw [Group.lines, List.cons_append, List.append_assoc, List.append_assoc, run, hbody, htail, hrest, Group.shown,
      List.foldl_append, List.foldl_append]

/-- Under the state of the branch before. -/
theorem run_tail : ∀ (tail : Tail) (s : Show) (stack : List Show) (o : Output) (rest : List Line),
    run env (s :: stack) o (tail.lines ++ rest) =
      run env stack ((tail.shown env (showCurrentLine stack) (s ≠ .IGNORE)).foldl (Output.emit env) o) rest
  | .endif, s, stack, o, rest => rfl
  | .otherwise body, s, stack, o, rest => by
    have hbody := run_group body ((if s = .IGNORE then .SHOW else .IGNORE) :: stack) o (.endif :: rest)
    have hactive : decide ((if s = .IGNORE then Show.SHOW else .IGNORE) = .SHOW) = !decide (s ≠ .IGNORE) := by
      cases s <;> rfl
    rw [showCurrentLine_cons, hactive] at hbody
    rw [Tail.lines, List.cons_append, List.append_assoc, run, Tail.shown]
    simp only [List.head?_cons, List.tail_cons, Option.some.injEq]
    exact hbody
  | .elif c body tail, s, stack, o, rest => by
    obtain ⟨s', hnext, hactive, hdone⟩ : ∃ s', run env (s :: stack) o (.elif c :: (body.lines ++ (tail.lines ++ rest))) =
          run env (s' :: stack) o (body.lines ++ (tail.lines ++ rest)) ∧
        decide (s' = .SHOW) = (!decide (s ≠ .IGNORE) && env.truthy c) ∧
        decide (s' ≠ .IGNORE) = (decide (s ≠ .IGNORE) || env.truthy c) := by
      cases s with
      | IGNORE => exact ⟨_, rfl, ofCondition_active _, ofCondition_done _⟩
      | SHOW => exact ⟨.IGNORE_ALL, rfl, rfl, rfl⟩
      | IGNORE_ALL => exact ⟨.IGNORE_ALL, rfl, rfl, rfl⟩
    have hbody := run_group body (s' :: stack) o (tail.lines ++ rest)
    rw [showCurrentLine_cons, hactive] at hbody
    have htail := run_tail tail s' stack
      ((body.shown env (showCurrentLine stack && (!decide (s ≠ .IGNORE) && env.truthy c))).foldl (Output.emit env) o) rest
    rw [hdone] at htail
    rw [Tail.lines, List.cons_append, List.append_assoc, hnext, hbody, htail, Tail.shown, List.foldl_append]

end

/-- The ordinary lines of the first branches that hold are emitted in order, and what other lines of theirs give; the
stack is empty at the end. -/
theorem preprocess_nested (text : Text) (g : Group) (h : parseLines (removeWindowsEndings (env.replace text)) = g.lines) :
    preprocess env text = some ((collapse false (g.shown env true)).flatMap (Body.text env)) := by
  have hrun := run_group env g [] ⟨[], false⟩ []
  rw [List.append_nil] at hrun
  unfold preprocess
  rw [h, hrun, run, if_pos (show ([] : List Show).length = 0 from rfl), emit_collapse]
  rfl

/-- The second branch, without the second of two empty lines. -/
theorem preprocess_nested_elif :
    preprocess ⟨id, fun c => c.1 = 2, fun _ => []⟩ (word "#if A\nx\n#elif B\n\n\ny\n#else\n#endif\n") = some (word "\ny\n") :=
  preprocess_nested ⟨id, fun c => c.1 = 2, fun _ => []⟩ (word "#if A\nx\n#elif B\n\n\ny\n#else\n#endif\n")
    (.block (0, word " A") (.line (.ordinary (word "x")) .nil)
      (.elif (2, word " B") (.line (.ordinary []) (.line (.ordinary []) (.line (.ordinary (word "y")) .nil)))
        (.otherwise .nil)) .nil) (by decide)

end ParseTools
