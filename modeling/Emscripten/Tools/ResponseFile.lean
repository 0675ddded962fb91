-- SUMMARY: Response files: how the tools write a list of arguments to a file and read it back, and which lists survive.
import Mathlib.Algebra.Ring.Int.Defs
import Mathlib.Algebra.Ring.Nat
import Emscripten.Lib.Shlex

/-!
# Response files

The writer escapes, puts quotes around arguments with spaces and ends each with a newline. The
reader translates newlines, splits like a shell and expands response files that are named in the
result. An argument comes back if the two agree about it: the writer escapes single quotes in double
quotes, where the reader keeps the backslash, and it takes only spaces for what separates words.
-/

namespace ResponseFile

open Shlex

abbrev Arg := List Char

/-! ## Writing -/

def escapeChars (windows : Bool) : List Char :=
  ['\\', '"'] ++ if windows then [] else ['\'']

/-- `arg.replace(char, '\\' + char)` -/
def replace (arg : Arg) (c : Char) : Arg := arg.flatMap fun x => if x = c then ['\\', c] else [x]

def escape (windows : Bool) (arg : Arg) : Arg := (escapeChars windows).foldl replace arg

/-- Arguments containing spaces need to be quoted. -/
def line (arg : Arg) : List Char := (if ' ' ∈ arg then '"' :: arg ++ ['"'] else arg) ++ ['\n']

def create_response_file_contents (windows : Bool) (args : List Arg) : List Char :=
  (args.map (escape windows)).flatMap line

/-- A text file that is written on Windows gets its line ends. -/
def writeText (windows : Bool) (text : List Char) : List Char :=
  if windows then text.flatMap fun c => if c = '\n' then ['\r', '\n'] else [c] else text

/-- A text file is read with universal newlines. -/
def readText : List Char → List Char
  | [] => []
  | '\r' :: '\n' :: cs => '\n' :: readText cs
  | '\r' :: cs => '\n' :: readText cs
  | c :: cs => c :: readText cs

/-! ## Reading -/

/-- The codecs of Python over some type of file contents. -/
structure Codecs (β : Type) where
  encode : List Char → β
  /-- by name; an error where the name is unknown or the contents do not fit -/
  decode : Arg → β → Option (List Char)
  /-- with `locale.getpreferredencoding()` -/
  decodePreferred : β → Option (List Char)
  utf8 : ∀ text, decode "utf-8".toList (encode text) = some text

inductive Failure
  | split (e : Shlex.Error)
  | decode
  | recursion
deriving DecidableEq, Repr

/-- `os.path.basename` -/
def basename (windows : Bool) (path : Arg) : Arg :=
  (path.reverse.takeWhile fun c => c ≠ '/' ∧ (windows = true → c ≠ '\\')).reverse

/-- `components[-1].lower()` of a name, and whether there are others. -/
def encodingSuffix (name : Arg) : Arg × Bool :=
  (((name.reverse.takeWhile (· ≠ '.')).reverse).map Char.toLower, '.' ∈ name)

def guessedEncoding (windows : Bool) (path : Arg) : Arg :=
  let x := encodingSuffix (basename windows path)
  if x.2 && (["utf", "cp", "iso"].any (fun p => p.toList.isPrefixOf x.1) ||
      ["ascii", "latin-1"].any fun p => p.toList = x.1) then x.1
  else "utf-8-sig".toList

/-- The name of the response file that an argument stands for. -/
def responseFilename (arg : Arg) : Option Arg :=
  let name := if "@".toList.isPrefixOf arg then arg.drop 1
    else if "-Wl,@".toList.isPrefixOf arg then arg.drop 5 else []
  if name = [] then none else some name

variable {β : Type}

/-- Read a file with the guessed encoding, or else with the preferred one. -/
def readFile (C : Codecs β) (windows : Bool) (path : Arg) (contents : β) : Option (List Char) :=
  ((C.decode (guessedEncoding windows path) contents).or (C.decodePreferred contents)).map readText

/-- `expand_response_file` and `substitute_response_files`, with a limit on the recursion. -/
def expand_response_file (C : Codecs β) (windows : Bool) (files : Arg → Option β) :
    Nat → Arg → Except Failure (List Arg)
  | n, arg => match (responseFilename arg).bind fun name => (files name).map (name, ·) with
    | none => .ok [arg]
    | some (name, contents) => match n with
      | 0 => .error .recursion
      | n + 1 => match readFile C windows name contents with
        | none => .error .decode
        | some text => match split text with
          | .error e => .error (.split e)
          | .ok args => List.flatten <$> args.mapM (expand_response_file C windows files n)

/-- The files after `create_response_file`. -/
def create_response_file (C : Codecs β) (windows : Bool) (path : Arg) (args : List Arg)
    (files : Arg → Option β) : Arg → Option β :=
  fun name => if name = path then
    some (C.encode (writeText windows (create_response_file_contents windows args))) else files name

/-- The argument names a response file that exists. -/
def Names (files : Arg → Option β) (arg : Arg) : Prop :=
  ∃ name, responseFilename arg = some name ∧ files name ≠ none

/-- Whatever other files there are, the list comes back, if none of the arguments is itself taken for a
response file. -/
def ReadsBack (windows : Bool) (args : List Arg) : Prop :=
  ∀ (β : Type) (C : Codecs β) (files : Arg → Option β) (path : Arg) (n : Nat),
    ".rsp.utf-8".toList <:+ path →
    (∀ a ∈ args, ¬ Names (create_response_file C windows path args files) a) →
    expand_response_file C windows (create_response_file C windows path args files) (n + 1)
      ('@' :: path) = .ok args

/-- The writer and the reader agree about an argument. -/
def Kept (windows : Bool) (a : Arg) : Prop :=
  a ≠ [] ∧ '\r' ∉ a ∧
    if ' ' ∈ a then windows = false → '\'' ∉ a
    else '\t' ∉ a ∧ '\n' ∉ a ∧ (windows = true → '\'' ∉ a)

instance (windows : Bool) (a : Arg) : Decidable (Kept windows a) := by
  unfold Kept; infer_instance

/-! ## Texts -/

/-- What is written for one character. -/
def escapeOne (windows : Bool) (c : Char) : List Char :=
  if c ∈ escapeChars windows then ['\\', c] else [c]

theorem escape_eq (windows : Bool) (a : Arg) : escape windows a = a.flatMap (escapeOne windows) := by
  have hone (c : Char) : escape windows [c] = escapeOne windows c := by
    cases windows
    · by_cases h₁ : c = '\\'
      · simp [escape, escapeChars, replace, escapeOne, h₁]
      by_cases h₂ : c = '"'
      · simp [escape, escapeChars, replace, escapeOne, h₂]
      by_cases h₃ : c = '\''
      · simp [escape, escapeChars, replace, escapeOne, h₃]
      · simp [escape, escapeChars, replace, escapeOne, h₁, h₂, h₃]
    · by_cases h₁ : c = '\\'
      · simp [escape, escapeChars, replace, escapeOne, h₁]
      by_cases h₂ : c = '"'
      · simp [escape, escapeChars, replace, escapeOne, h₂]
      · simp [escape, escapeChars, replace, escapeOne, h₁, h₂]
  have happ (l : List Char) (a b : Arg) : l.foldl replace (a ++ b) =
      l.foldl replace a ++ l.foldl replace b := by
    induction l generalizing a b with
    | nil => rfl
    | cons c l ih => simp [replace, ← ih]
  induction a with
  | nil =>
    have hnil (l : List Char) : l.foldl replace [] = [] := by
      induction l with
      | nil => rfl
      | cons c l ih => exact ih
    exact hnil _
  | cons c a ih =>
    calc escape windows (c :: a) = escape windows [c] ++ escape windows a := happ _ [c] a
      _ = (c :: a).flatMap (escapeOne windows) := by simp [hone, ih]

/-- Escaping makes no spaces. -/
theorem space_mem_escape (windows : Bool) (a : Arg) : ' ' ∈ escape windows a ↔ ' ' ∈ a := by
  have hone (c : Char) : ' ' ∈ escapeOne windows c ↔ ' ' = c := by
    unfold escapeOne
    split
    next h =>
      have : ' ' ≠ c := by
        rintro rfl
        cases windows <;> simp [escapeChars] at h
      simp [this]
    next => simp
  simp [escape_eq, hone]

variable {a : Arg} {x : Char} {γ : Type} {l : List γ} {s : List Char}

theorem readText_of_not_mem (h : '\r' ∉ s) : readText s = s := by
  induction s with
  | nil => rfl
  | cons c s ih =>
    simp only [List.mem_cons, not_or] at h
    rw [readText]
    · rw [ih h.2]
    · exact fun _ hc _ => h.1 hc.symm
    · exact fun hc => h.1 hc.symm

/-- What is written comes back but for carriage returns. -/
theorem readText_writeText {windows : Bool} (h : '\r' ∉ s) : readText (writeText windows s) = s := by
  cases windows with
  | false => exact readText_of_not_mem h
  | true =>
    simp only [writeText, if_true]
    induction s with
    | nil => rfl
    | cons c s ih =>
      simp only [List.mem_cons, not_or] at h
      by_cases hc : c = '\n'
      · simp [hc, readText, ih h.2]
      · simp only [List.flatMap_cons, hc, if_false, List.cons_append, List.nil_append]
        rw [readText, ih h.2]
        · exact fun _ hc' _ => h.1 hc'.symm
        · exact fun hc' => h.1 hc'.symm

theorem return_not_mem_readText (s : List Char) : '\r' ∉ readText s := by
  induction s using readText.induct with
  | case1 => simp [readText]
  | case2 cs ih => simpa [readText] using ih
  | case3 cs h ih =>
    rw [readText]
    · simpa using ih
    · exact h
  | case4 c cs h₁ h₂ ih =>
    rw [readText]
    · rw [List.mem_cons, not_or]
      exact ⟨fun hc => h₂ hc.symm, ih⟩
    · exact h₁
    · exact h₂

/-! ## Words of a response file -/

/-- What becomes of a character that is written in double quotes. -/
def garbleOne (windows : Bool) (c : Char) : List Char :=
  if c = '\'' ∧ windows = false then ['\\', '\''] else [c]

/-- The words that an argument without quotes falls into, with the one it continues. -/
def pieces (token : List Char) : Arg → List Arg
  | [] => if token = [] then [] else [token]
  | c :: cs =>
    if c ∈ whitespace then (if token = [] then id else (token :: ·)) (pieces [] cs)
    else pieces (token ++ [c]) cs

/-- The words that an argument falls into. -/
def words (windows : Bool) (a : Arg) : List Arg :=
  if ' ' ∈ a then [a.flatMap (garbleOne windows)] else pieces [] a

theorem scan_escapeOne_quote (windows : Bool) (c : Char) (token rest : List Char) (quoted : Bool) :
    scan (.quote '"') token quoted (escapeOne windows c ++ rest) =
      scan (.quote '"') (token ++ garbleOne windows c) true rest := by
  by_cases h₁ : c = '\\'
  · simp [h₁, escapeOne, escapeChars, garbleOne, scan]
  by_cases h₂ : c = '"'
  · simp [h₂, escapeOne, escapeChars, garbleOne, scan]
  by_cases h₃ : c = '\''
  · cases windows <;> simp [h₃, escapeOne, escapeChars, garbleOne, scan]
  · cases windows <;> simp [h₁, h₂, h₃, escapeOne, escapeChars, garbleOne, scan]

theorem scan_quoted (windows : Bool) (a : Arg) (token rest : List Char) (quoted : Bool) :
    scan (.quote '"') token quoted (a.flatMap (escapeOne windows) ++ '"' :: rest) =
      scan .word (token ++ a.flatMap (garbleOne windows)) true rest := by
  induction a generalizing token quoted with
  | nil => simp [scan]
  | cons c a ih =>
    rw [List.flatMap_cons, List.append_assoc, scan_escapeOne_quote, ih]
    simp

/-- The character does not begin a quotation when it is written without quotes. -/
def Plain (windows : Bool) (c : Char) : Prop := windows = true → c ≠ '\''

theorem scan_escapeOne_word {windows : Bool} {c : Char} (hc : c ∉ whitespace) (hp : Plain windows c)
    (token rest : List Char) : scan .word token false (escapeOne windows c ++ rest) =
      scan .word (token ++ [c]) false rest := by
  by_cases h₁ : c = '\\'
  · simp [h₁, escapeOne, escapeChars, scan, whitespace]
  by_cases h₂ : c = '"'
  · simp [h₂, escapeOne, escapeChars, scan, whitespace]
  by_cases h₃ : c = '\''
  · cases windows with
    | true => exact absurd h₃ (hp rfl)
    | false => simp [h₃, escapeOne, escapeChars, scan, whitespace]
  · cases windows <;> simp [h₁, h₂, h₃, hc, escapeOne, escapeChars, scan]

theorem escapeOne_whitespace {windows : Bool} {c : Char} (hc : c ∈ whitespace) :
    escapeOne windows c = [c] := by
  unfold escapeOne
  rw [if_neg]
  intro h
  simp only [whitespace, List.mem_cons, List.not_mem_nil, or_false] at hc
  obtain rfl | rfl | rfl | rfl := hc <;> cases windows <;> simp [escapeChars] at h

theorem emit_map (token : List Char) (ws : List (List Char))
    (x : Except Shlex.Error (List (List Char))) :
    (emit token false ·) <$> (ws ++ ·) <$> x =
      ((if token = [] then id else (token :: ·)) ws ++ ·) <$> x := by
  cases x with
  | error e => rfl
  | ok ws' =>
    by_cases h : token = []
    · simp [emit, h]
    · simp [emit, h]

/-- An argument without quotes, up to its end. -/
theorem scan_unquoted {windows : Bool} (hp : ∀ c ∈ a, Plain windows c) (token rest : List Char) :
    scan .word token false (a.flatMap (escapeOne windows) ++ '\n' :: rest) =
      (pieces token a ++ ·) <$> scan .space [] false rest := by
  induction a generalizing token with
  | nil =>
    simp only [List.flatMap_nil, List.nil_append, scan, whitespace, pieces]
    cases scan .space [] false rest with
    | error e => rfl
    | ok ws =>
      by_cases h : token = []
      · simp [emit, h]
      · simp [emit, h]
  | cons c a ih =>
    have hpa : ∀ c ∈ a, Plain windows c := fun x hx => hp x (List.mem_cons_of_mem _ hx)
    rw [List.flatMap_cons, List.append_assoc]
    by_cases hc : c ∈ whitespace
    · rw [escapeOne_whitespace hc]
      simp only [List.cons_append, List.nil_append, scan, hc, if_true, pieces]
      rw [scan_space, ih hpa]
      exact emit_map ..
    · rw [scan_escapeOne_word hc (hp c List.mem_cons_self), ih hpa, pieces, if_neg hc]

/-- The reader is in step with the writer after the argument. -/
def InStep (windows : Bool) (a : Arg) : Prop := ' ' ∉ a → ∀ c ∈ a, Plain windows c

theorem scan_line {windows : Bool} (h : InStep windows a) (rest : List Char) :
    scan .space [] false (line (escape windows a) ++ rest) =
      (words windows a ++ ·) <$> scan .space [] false rest := by
  unfold line words
  simp only [space_mem_escape]
  by_cases hs : ' ' ∈ a
  · simp only [hs, if_true, escape_eq, List.cons_append, List.append_assoc, List.nil_append]
    calc scan .space [] false ('"' :: (a.flatMap (escapeOne windows) ++ '"' :: '\n' :: rest))
      _ = scan (.quote '"') [] false (a.flatMap (escapeOne windows) ++ '"' :: '\n' :: rest) := by
          simp [scan, whitespace]
      _ = scan .word (a.flatMap (garbleOne windows)) true ('\n' :: rest) :=
          scan_quoted windows a [] _ false
      _ = ([a.flatMap (garbleOne windows)] ++ ·) <$> scan .space [] false rest := by
          simp [scan, whitespace, emit]
  · simp only [hs, if_false, escape_eq, List.append_assoc, List.cons_append, List.nil_append]
    rw [scan_space]
    exact scan_unquoted (h hs) [] rest

theorem contents_cons (windows : Bool) (a : Arg) (args : List Arg) :
    create_response_file_contents windows (a :: args) =
      line (escape windows a) ++ create_response_file_contents windows args := by
  simp [create_response_file_contents]

theorem contents_append (windows : Bool) (args args' : List Arg) :
    create_response_file_contents windows (args ++ args') =
      create_response_file_contents windows args ++ create_response_file_contents windows args' := by
  simp [create_response_file_contents]

/-- Arguments that the reader follows, and what comes after them. -/
theorem scan_contents {windows : Bool} {args : List Arg} (h : ∀ a ∈ args, InStep windows a)
    (rest : List Char) :
    scan .space [] false (create_response_file_contents windows args ++ rest) =
      (args.flatMap (words windows) ++ ·) <$> scan .space [] false rest := by
  induction args with
  | nil =>
    simp only [create_response_file_contents, List.map_nil, List.flatMap_nil, List.nil_append]
    cases scan .space [] false rest <;> rfl
  | cons a args ih =>
    rw [contents_cons, List.append_assoc, scan_line (h a List.mem_cons_self),
      ih fun b hb => h b (List.mem_cons_of_mem _ hb)]
    cases scan .space [] false rest with
    | error e => rfl
    | ok ws => simp

theorem split_contents {windows : Bool} {args : List Arg} (h : ∀ a ∈ args, InStep windows a) :
    split (create_response_file_contents windows args) = .ok (args.flatMap (words windows)) := by
  have := scan_contents h []
  simpa [split, scan] using this

/-! ## Arguments that come back -/

theorem pieces_eq (h : ∀ c ∈ a, c ∉ whitespace) (token : List Char) :
    pieces token a = if token ++ a = [] then [] else [token ++ a] := by
  induction a generalizing token with
  | nil => simp [pieces]
  | cons c a ih =>
    rw [pieces, if_neg (h c List.mem_cons_self), ih fun x hx => h x (List.mem_cons_of_mem _ hx)]
    simp

theorem garble_eq {windows : Bool} (h : windows = false → '\'' ∉ a) : a.flatMap (garbleOne windows) = a := by
  induction a with
  | nil => rfl
  | cons c a ih =>
    have hone : garbleOne windows c = [c] := by
      unfold garbleOne
      rw [if_neg]
      rintro ⟨rfl, hw⟩
      exact h hw List.mem_cons_self
    rw [List.flatMap_cons, hone, ih fun hw hmem => h hw (List.mem_cons_of_mem _ hmem)]
    rfl

theorem words_eq {windows : Bool} (h : Kept windows a) : words windows a = [a] := by
  obtain ⟨hne, hr, hrest⟩ := h
  unfold words
  split
  next hs =>
    rw [if_pos hs] at hrest
    rw [garble_eq hrest]
  next hs =>
    rw [if_neg hs] at hrest
    obtain ⟨ht, hn, -⟩ := hrest
    have hws : ∀ c ∈ a, c ∉ whitespace := by
      intro c hc hmem
      simp only [whitespace, List.mem_cons, List.not_mem_nil, or_false] at hmem
      obtain rfl | rfl | rfl | rfl := hmem <;> contradiction
    rw [pieces_eq hws]
    simp [hne]

theorem inStep_of_kept {windows : Bool} (h : Kept windows a) : InStep windows a := by
  intro hs c hc hw heq
  obtain ⟨-, -, hrest⟩ := h
  rw [if_neg hs] at hrest
  exact hrest.2.2 hw (heq ▸ hc)

theorem count_escape (windows : Bool) (hx : x ≠ '\\') (a : Arg) : (escape windows a).count x = a.count x := by
  rw [escape_eq]
  induction a with
  | nil => rfl
  | cons c a ih =>
    rw [List.flatMap_cons, List.count_append, ih, count_head]
    unfold escapeOne
    split
    · simp [List.count_cons, Ne.symm hx, Nat.add_comm]
    · simp [Nat.add_comm]

/-- A character that the writer does not make is in the file as often as in the arguments. -/
theorem count_contents (windows : Bool) (h₁ : x ≠ '\\') (h₂ : x ≠ '"') (h₃ : x ≠ '\n') (args : List Arg) :
    (create_response_file_contents windows args).count x = occurrences x args := by
  induction args with
  | nil => rfl
  | cons a args ih =>
    have hline : (line (escape windows a)).count x = a.count x := by
      unfold line
      rw [List.count_append, ← count_escape windows h₁ a]
      split <;> simp [Ne.symm h₂, Ne.symm h₃]
    rw [contents_cons, List.count_append, hline, ih]
    simp [occurrences]

theorem return_mem_contents {windows : Bool} {args : List Arg} :
    '\r' ∈ create_response_file_contents windows args ↔ ∃ a ∈ args, '\r' ∈ a := by
  rw [← List.count_pos_iff, count_contents windows (by decide) (by decide) (by decide),
    occurrences, List.count_pos_iff, List.mem_flatten]

/-- What the reader makes of the file that the writer wrote. -/
def roundTrip (windows : Bool) (args : List Arg) : Except Shlex.Error (List Arg) :=
  split (readText (writeText windows (create_response_file_contents windows args)))

theorem roundTrip_of_kept {windows : Bool} {args : List Arg} (h : ∀ a ∈ args, Kept windows a) :
    roundTrip windows args = .ok args := by
  have hr : '\r' ∉ create_response_file_contents windows args := by
    rw [return_mem_contents]
    rintro ⟨a, ha, hmem⟩
    exact (h a ha).2.1 hmem
  rw [roundTrip, readText_writeText hr, split_contents fun a ha => inStep_of_kept (h a ha)]
  refine congrArg _ ?_
  calc args.flatMap (words windows) = args.flatMap fun a => [a] :=
        List.flatMap_congr fun a ha => words_eq (h a ha)
    _ = args := by simp

/-! ## Arguments that do not -/

theorem occurrences_eq_sum (x : Char) (l : List Arg) :
    occurrences x l = (l.map (List.count x)).sum := by
  simp [occurrences, List.count_flatten]

theorem occurrences_append (x : Char) (l l' : List Arg) :
    occurrences x (l ++ l') = occurrences x l + occurrences x l' := by
  simp [occurrences]

theorem occurrences_flatMap (x : Char) (f : Arg → List Arg) (l : List Arg) :
    occurrences x (l.flatMap f) = (l.map fun a => occurrences x (f a)).sum := by
  induction l with
  | nil => rfl
  | cons a l ih => rw [List.flatMap_cons, occurrences_append, ih, List.map_cons, List.sum_cons]

theorem sum_le_sum {f g : γ → Nat} (hle : ∀ a ∈ l, f a ≤ g a) : (l.map f).sum ≤ (l.map g).sum := by
  induction l with
  | nil => simp
  | cons b l ih =>
    have hb := hle b List.mem_cons_self
    have hl := ih fun a ha => hle a (List.mem_cons_of_mem _ ha)
    simp only [List.map_cons, List.sum_cons]
    omega

theorem eq_of_sum_eq {f g : γ → Nat} (hle : ∀ a ∈ l, f a ≤ g a) (h : (l.map f).sum = (l.map g).sum) :
    ∀ a ∈ l, f a = g a := by
  induction l with
  | nil => simp
  | cons b l ih =>
    have hb := hle b List.mem_cons_self
    have hl : ∀ a ∈ l, f a ≤ g a := fun a ha => hle a (List.mem_cons_of_mem _ ha)
    have hsum := sum_le_sum hl
    simp only [List.map_cons, List.sum_cons] at h
    intro a ha
    obtain rfl | ha := List.mem_cons.mp ha
    · omega
    · exact ih hl (by omega) a ha

/-- The characters that the reader finds behind a single quote that is not written in double quotes. -/
theorem occurrences_le_of_quote {cs : Arg} (hcs : '\'' ∉ cs) {token : List Char} {ws : List (List Char)}
    (h : scan .word token false (cs.flatMap (escapeOne true) ++ '\'' :: s) = .ok ws) :
    occurrences '\'' ws ≤ token.count '\'' + s.count '\'' := by
  induction cs generalizing token ws with
  | nil =>
    have hq : scan (.quote '\'') token false s = .ok ws := by
      simpa [scan, whitespace] using h
    simpa [pending] using occurrences_le '\'' hq
  | cons c cs ih =>
    simp only [List.mem_cons, not_or] at hcs
    rw [List.flatMap_cons, List.append_assoc] at h
    by_cases hc : c ∈ whitespace
    · rw [escapeOne_whitespace hc] at h
      simp only [List.cons_append, List.nil_append, scan, hc, if_true] at h
      rw [scan_space] at h
      cases hr : scan .word [] false (cs.flatMap (escapeOne true) ++ '\'' :: s) with
      | error e => simp [hr] at h
      | ok ws' =>
        have hws : emit token false ws' = ws := by simpa [hr] using h
        have := ih hcs.2 hr
        rw [← hws, occurrences_emit]
        simp only [List.count_nil] at this
        omega
    · rw [scan_escapeOne_word hc fun _ => Ne.symm hcs.1] at h
      have := ih hcs.2 h
      rw [count_snoc] at this
      simpa [Ne.symm hcs.1] using this

theorem exists_first {p : γ → Prop} (h : ¬ ∀ a ∈ l, p a) :
    ∃ pre a post, l = pre ++ a :: post ∧ (∀ b ∈ pre, p b) ∧ ¬ p a := by
  induction l with
  | nil => exact absurd (by simp) h
  | cons b l ih =>
    by_cases hb : p b
    · have hl : ¬ ∀ a ∈ l, p a := fun hl => h fun a ha => by
        obtain rfl | ha := List.mem_cons.mp ha
        · exact hb
        · exact hl a ha
      obtain ⟨pre, a, post, rfl, hpre, ha⟩ := ih hl
      refine ⟨b :: pre, a, post, rfl, fun x hx => ?_, ha⟩
      obtain rfl | hx := List.mem_cons.mp hx
      · exact hb
      · exact hpre x hx
    · exact ⟨[], b, l, rfl, by simp, hb⟩

/-- A single quote that begins a quotation is lost. -/
theorem inStep_of_split {windows : Bool} {args : List Arg}
    (h : split (create_response_file_contents windows args) = .ok args) :
    ∀ a ∈ args, InStep windows a := by
  by_contra hnot
  obtain ⟨pre, a, post, rfl, hpre, ha⟩ := exists_first hnot
  simp only [InStep, Plain, not_forall] at ha
  obtain ⟨hs, c, hc, hw, heq⟩ := ha
  simp only [ne_eq, not_not] at heq
  subst hw heq
  obtain ⟨cs, cs', rfl, hcs⟩ := List.eq_append_cons_of_mem hc
  have hsplit : scan .space [] false (create_response_file_contents true pre ++
      (cs.flatMap (escapeOne true) ++ '\'' :: (cs'.flatMap (escapeOne true) ++
        '\n' :: create_response_file_contents true post))) =
      .ok (pre ++ (cs ++ '\'' :: cs') :: post) := by
    rw [← h, split, contents_append, contents_cons, line, if_neg (by rwa [space_mem_escape]),
      escape_eq]
    simp [escapeOne, escapeChars]
  rw [scan_contents hpre, scan_space] at hsplit
  cases hr : scan .word [] false (cs.flatMap (escapeOne true) ++ '\'' ::
      (cs'.flatMap (escapeOne true) ++ '\n' :: create_response_file_contents true post)) with
  | error e => simp [hr] at hsplit
  | ok ws =>
    have hargs : pre.flatMap (words true) ++ ws = pre ++ (cs ++ '\'' :: cs') :: post := by
      simpa [hr] using hsplit
    have hws := occurrences_le_of_quote hcs hr
    have hpost := count_contents true (x := '\'') (by decide) (by decide) (by decide) post
    have hpre' : occurrences '\'' (pre.flatMap (words true)) ≤ occurrences '\'' pre := by
      have := occurrences_le '\'' (split_contents hpre)
      rw [count_contents true (by decide) (by decide) (by decide)] at this
      simpa [pending] using this
    have hesc := count_escape true (x := '\'') (by decide) cs'
    rw [escape_eq] at hesc
    have hcount := congrArg (occurrences '\'') hargs
    simp only [List.count_append, List.count_cons, hesc, hpost, occurrences_eq_sum,
      List.count_nil] at hcount hws hpre'
    simp at hcount hws
    omega

/-- Words without quotes have no whitespace. -/
theorem occurrences_pieces (hx : x ∈ whitespace) (token : List Char) (a : Arg) :
    occurrences x (pieces token a) = token.count x := by
  induction a generalizing token with
  | nil =>
    unfold pieces
    split
    next h => simp [h, occurrences]
    next => simp [occurrences]
  | cons c a ih =>
    unfold pieces
    split
    next =>
      have := ih []
      split
      next h => simpa [h] using this
      next => simpa [occurrences_eq_sum] using this
    next hc =>
      have hne : c ≠ x := fun heq => hc (heq ▸ hx)
      rw [ih, count_snoc]
      simp [hne]

theorem count_garble (windows : Bool) (h₁ : x ≠ '\\') (a : Arg) :
    (a.flatMap (garbleOne windows)).count x = a.count x := by
  induction a with
  | nil => rfl
  | cons c a ih =>
    rw [List.flatMap_cons, List.count_append, ih, count_head]
    unfold garbleOne
    split
    next h => simp [h.1, List.count_cons, Ne.symm h₁, Nat.add_comm]
    next => simp [Nat.add_comm]

theorem count_backslash_garble (a : Arg) :
    (a.flatMap (garbleOne false)).count '\\' = a.count '\\' + a.count '\'' := by
  induction a with
  | nil => rfl
  | cons c a ih =>
    rw [List.flatMap_cons, List.count_append, ih, count_head, count_head (x := '\'')]
    by_cases h : c = '\''
    · simp [garbleOne, h]
      omega
    · simp [garbleOne, h]
      omega

theorem eq_of_flatMap {f : Arg → List Arg} {l : List Arg} (hone : ∀ a ∈ l, ∃ b, f a = [b])
    (h : l.flatMap f = l) : ∀ a ∈ l, f a = [a] := by
  induction l with
  | nil => simp
  | cons b l ih =>
    obtain ⟨b', hb⟩ := hone b List.mem_cons_self
    simp only [List.flatMap_cons, hb, List.cons_append, List.nil_append, List.cons.injEq] at h
    intro a ha
    obtain rfl | ha := List.mem_cons.mp ha
    · rw [hb, h.1]
    · exact ih (fun x hx => hone x (List.mem_cons_of_mem _ hx)) h.2 a ha

theorem kept_of_roundTrip {windows : Bool} {args : List Arg}
    (h : roundTrip windows args = .ok args) : ∀ a ∈ args, Kept windows a := by
  -- the text that is read has no carriage return
  have hret : ∀ a ∈ args, '\r' ∉ a := by
    have hle := occurrences_le '\r' h
    rw [List.count_eq_zero_of_not_mem (return_not_mem_readText _)] at hle
    have hzero : occurrences '\r' args = 0 := by simpa [pending] using hle
    intro a ha hmem
    rw [occurrences, List.count_eq_zero] at hzero
    exact hzero (List.mem_flatten.mpr ⟨a, ha, hmem⟩)
  have hr : '\r' ∉ create_response_file_contents windows args := by
    rw [return_mem_contents]
    rintro ⟨a, ha, hmem⟩
    exact hret a ha hmem
  rw [roundTrip, readText_writeText hr] at h
  have hstep := inStep_of_split h
  rw [split_contents hstep] at h
  have hwords : args.flatMap (words windows) = args := by simpa using h
  -- whitespace outside double quotes is lost
  have hspace {x : Char} (hx : x ∈ whitespace) : ∀ a ∈ args, ' ' ∉ a → x ∉ a := by
    have hxb : x ≠ '\\' := by
      rintro rfl
      simp [whitespace] at hx
    have hle : ∀ a ∈ args, occurrences x (words windows a) ≤ a.count x := by
      intro a _
      unfold words
      split
      next => simp [occurrences, count_garble windows hxb]
      next => simp [occurrences_pieces hx]
    have hsum := congrArg (occurrences x) hwords
    rw [occurrences_flatMap, occurrences_eq_sum] at hsum
    intro a ha hs hmem
    have := eq_of_sum_eq hle hsum a ha
    rw [words, if_neg hs, occurrences_pieces hx] at this
    exact List.count_eq_zero.mp this.symm hmem
  -- an argument that falls apart into no words is lost
  have hplain : ∀ a ∈ args, ' ' ∉ a → words windows a = if a = [] then [] else [a] := by
    intro a ha hs
    have hnone : ∀ c ∈ a, c ∉ whitespace := fun c hc hmem => hspace hmem a ha hs hc
    rw [words, if_neg hs, pieces_eq hnone]
    rfl
  have hlen : ∀ a ∈ args, (words windows a).length = 1 := by
    refine eq_of_sum_eq (g := fun _ => 1) (fun a ha => ?_) ?_
    · by_cases hs : ' ' ∈ a
      · simp [words, hs]
      · rw [hplain a ha hs]
        split <;> simp
    · have := congrArg List.length hwords
      simpa [List.length_flatMap] using this
  have hself := eq_of_flatMap (fun a ha => List.length_eq_one_iff.mp (hlen a ha)) hwords
  intro a ha
  by_cases hs : ' ' ∈ a
  · refine ⟨by rintro rfl; simp at hs, hret a ha, ?_⟩
    rw [if_pos hs]
    rintro rfl hq
    have hga : a.flatMap (garbleOne false) = a := by
      simpa [words, hs] using hself a ha
    have := count_backslash_garble a
    rw [hga] at this
    have := List.count_pos_iff.mpr hq
    omega
  · refine ⟨?_, hret a ha, ?_⟩
    · rintro rfl
      have := hlen [] ha
      rw [hplain [] ha hs] at this
      simp at this
    · rw [if_neg hs]
      refine ⟨hspace (by simp [whitespace]) a ha hs, hspace (by simp [whitespace]) a ha hs, ?_⟩
      exact fun hw hq => hstep a ha hs '\'' hq hw rfl

/-! ## Reading a response file back -/

theorem responseFilename_at (path : Arg) (h : path ≠ []) : responseFilename ('@' :: path) = some path := by
  have hp : "@".toList.isPrefixOf ('@' :: path) = true := by
    simp
  simp only [responseFilename, hp, if_true, List.drop_succ_cons, List.drop_zero, h, if_false]

/-- The name of the file that the writer made tells the reader its encoding. -/
theorem guessedEncoding_of_suffix {windows : Bool} {path : Arg} (h : ".rsp.utf-8".toList <:+ path) :
    guessedEncoding windows path = "utf-8".toList := by
  obtain ⟨dir, rfl⟩ := h
  have hbase : ∃ name, basename windows (dir ++ ".rsp.utf-8".toList) = name ++ ".rsp.utf-8".toList := by
    refine ⟨basename windows dir, ?_⟩
    cases windows <;> simp [basename]
  obtain ⟨name, hname⟩ := hbase
  have hsuffix : encodingSuffix (name ++ ".rsp.utf-8".toList) = ("utf-8".toList, true) := by
    simp [encodingSuffix]
  rw [guessedEncoding, hname, hsuffix]
  decide

variable {C : Codecs β} {windows : Bool} {files : Arg → Option β} {path : Arg} {args : List Arg}

/-- An argument that names no response file stands for itself. -/
theorem expand_of_not_names (h : ¬ Names files a) (n : Nat) :
    expand_response_file C windows files n a = .ok [a] := by
  have hnone : (responseFilename a).bind (fun name => (files name).map (name, ·)) = none := by
    cases hr : responseFilename a with
    | none => rfl
    | some name =>
      have : files name = none := by
        by_contra hne
        exact h ⟨name, hr, hne⟩
      simp [this]
  unfold expand_response_file
  rw [hnone]

theorem substitute_of_not_names (h : ∀ a ∈ args, ¬ Names files a) (n : Nat) :
    List.flatten <$> args.mapM (expand_response_file C windows files n) = .ok args := by
  have hmap : args.mapM (expand_response_file C windows files n) = .ok (args.map fun a => [a]) := by
    induction args with
    | nil => rfl
    | cons a args ih =>
      rw [List.mapM_cons, expand_of_not_names (h a List.mem_cons_self),
        ih fun b hb => h b (List.mem_cons_of_mem _ hb)]
      rfl
  have hflat : (args.map fun a => [a]).flatten = args := by
    rw [← List.flatMap_def]
    simp
  rw [hmap]
  exact congrArg _ hflat

theorem expand_created (hpath : ".rsp.utf-8".toList <:+ path) (n : Nat) :
    expand_response_file C windows (create_response_file C windows path args files) (n + 1)
      ('@' :: path) = match roundTrip windows args with
      | .error e => .error (.split e)
      | .ok ws => List.flatten <$> ws.mapM (expand_response_file C windows
          (create_response_file C windows path args files) n) := by
  have hne : path ≠ [] := by
    rintro rfl
    simp at hpath
  rw [expand_response_file, responseFilename_at path hne]
  simp only [Option.bind_some, create_response_file, if_true, Option.map_some, readFile,
    guessedEncoding_of_suffix hpath, C.utf8, roundTrip]
  rfl

/-! ## Main result -/

/-- A codec that keeps texts as they are. -/
def plainCodecs : Codecs (List Char) where
  encode := id
  decode _ := some
  decodePreferred := some
  utf8 _ := rfl

theorem length_responseFilename {name : Arg} (h : responseFilename a = some name) : name.length ≤ a.length := by
  simp only [responseFilename, Option.ite_none_left_eq_some, Option.some.injEq] at h
  obtain ⟨-, rfl⟩ := h
  split
  · simp
  split
  · simp
  · simp

/-- A name that is longer than all these arguments. -/
def freshPath (l : List Arg) : Arg := List.replicate l.flatten.length 'x' ++ ".rsp.utf-8".toList

theorem suffix_freshPath (l : List Arg) : ".rsp.utf-8".toList <:+ freshPath l :=
  List.suffix_append ..

theorem not_names_fresh (C : Codecs β) (windows : Bool) (args : List Arg) {l : List Arg} (ha : a ∈ l) :
    ¬ Names (create_response_file C windows (freshPath l) args fun _ => none) a := by
  rintro ⟨name, hname, hfile⟩
  have hle := length_responseFilename hname
  have heq : name = freshPath l := by
    by_contra hne
    simp [create_response_file, hne] at hfile
  have hlen : a.length ≤ l.flatten.length := (List.sublist_flatten_of_mem ha).length_le
  simp only [heq, freshPath, List.length_append, List.length_replicate] at hle
  have hpos : 0 < ".rsp.utf-8".toList.length := by decide
  omega

/-- Where no argument and no word can be taken for a response file, the words come back as they are. -/
theorem roundTrip_of_readsBack {windows : Bool} {args : List Arg} (h : ReadsBack windows args) :
    roundTrip windows args = .ok args := by
  cases hr : roundTrip windows args with
  | error e =>
    have := h _ plainCodecs (fun _ => none) (freshPath args) 0 (suffix_freshPath _)
      fun a ha => not_names_fresh plainCodecs windows args ha
    rw [expand_created (suffix_freshPath _), hr] at this
    cases this
  | ok ws =>
    have hfresh {a : Arg} (ha : a ∈ args ++ ws) := not_names_fresh plainCodecs windows args ha
    have := h _ plainCodecs (fun _ => none) (freshPath (args ++ ws)) 0 (suffix_freshPath _)
      fun a ha => hfresh (List.mem_append_left _ ha)
    rw [expand_created (suffix_freshPath _), hr] at this
    have hws : List.flatten <$> ws.mapM (expand_response_file plainCodecs windows _ 0) = .ok ws :=
      substitute_of_not_names (fun a ha => hfresh (List.mem_append_right args ha)) 0
    rw [Except.ok.inj (hws.symm.trans this)]

theorem readsBack_iff (windows : Bool) (args : List Arg) :
    ReadsBack windows args ↔ ∀ a ∈ args, Kept windows a := by
  constructor
  · intro h
    exact kept_of_roundTrip (roundTrip_of_readsBack h)
  · intro h β C files path n hpath hnames
    rw [expand_created hpath, roundTrip_of_kept h]
    exact substitute_of_not_names hnames n

/-- A space and a single quote: the reader keeps the backslash. -/
theorem quote_not_readsBack : ¬ ReadsBack false ["it's a".toList] := by
  intro h
  have hkept := kept_of_roundTrip (roundTrip_of_readsBack h) _ (List.mem_singleton.mpr rfl)
  revert hkept
  decide

end ResponseFile
