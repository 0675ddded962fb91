-- SUMMARY: POSIX splitting of a text into words, with quotes and backslashes, as Python's shlex.split does it.
import Mathlib.Data.List.Basic

/-!
# Words of a shell

The text is read one character at a time. A backslash outside quotes takes the next character as it
is; inside double quotes it does so for a double quote and for another backslash, and stays before
any other character. Quotes that hold nothing still make a word.
-/

namespace Shlex

/-- `self.state` of the reader. -/
inductive Mode
  | space
  | word
  | quote (q : Char)
  /-- behind a backslash, outside quotes or inside double quotes -/
  | escape (quoted : Bool)
deriving DecidableEq, Repr

/-- The `ValueError`s of the reader. -/
inductive Error
  | noClosingQuotation
  | noEscapedCharacter
deriving DecidableEq, Repr

def whitespace : List Char := [' ', '\t', '\r', '\n']

/-- A word that has no characters and no quotes is none. -/
def emit (token : List Char) (quoted : Bool) (words : List (List Char)) : List (List Char) :=
  if token = [] ∧ quoted = false then words else token :: words

/-- Read the rest of a text, with the word so far. -/
def scan : Mode → List Char → Bool → List Char → Except Error (List (List Char))
  | .space, _, _, [] => .ok []
  | .space, _, _, c :: cs =>
    if c ∈ whitespace then scan .space [] false cs
    else if c = '\\' then scan (.escape false) [] false cs
    else if c = '\'' ∨ c = '"' then scan (.quote c) [] false cs
    else scan .word [c] false cs
  | .word, token, quoted, [] => .ok (emit token quoted [])
  | .word, token, quoted, c :: cs =>
    if c ∈ whitespace then (emit token quoted ·) <$> scan .space [] false cs
    else if c = '\'' ∨ c = '"' then scan (.quote c) token quoted cs
    else if c = '\\' then scan (.escape false) token quoted cs
    else scan .word (token ++ [c]) quoted cs
  | .quote _, _, _, [] => .error .noClosingQuotation
  | .quote q, token, _, c :: cs =>
    if c = q then scan .word token true cs
    else if c = '\\' ∧ q = '"' then scan (.escape true) token true cs
    else scan (.quote q) (token ++ [c]) true cs
  | .escape _, _, _, [] => .error .noEscapedCharacter
  | .escape false, token, quoted, c :: cs => scan .word (token ++ [c]) quoted cs
  | .escape true, token, quoted, c :: cs =>
    if c = '\\' ∨ c = '"' then scan (.quote '"') (token ++ [c]) quoted cs
    else scan (.quote '"') (token ++ ['\\', c]) quoted cs

def split (s : List Char) : Except Error (List (List Char)) := scan .space [] false s

example : split "a 'b c' \"d\\\"e\" ''".toList =
    .ok ["a".toList, "b c".toList, "d\"e".toList, []] := by decide

variable {token s cs : List Char} {quoted : Bool} {words : List (List Char)} {mode : Mode}

/-- Before a word nothing has been read of it. -/
theorem scan_space : scan .space [] false s = scan .word [] false s := by
  cases s with
  | nil => simp [scan, emit]
  | cons c cs =>
    simp only [scan, emit, List.nil_append]
    split
    · cases scan .space [] false cs <;> rfl
    · by_cases hb : c = '\\'
      · simp [hb]
      · simp [hb]

/-! ## Characters are not made -/

/-- How often a character occurs in some words. -/
def occurrences (x : Char) (words : List (List Char)) : Nat := words.flatten.count x

theorem occurrences_emit (x : Char) :
    occurrences x (emit token quoted words) = token.count x + occurrences x words := by
  unfold emit occurrences
  split
  next h => simp [h.1]
  next => simp

/-- The backslash that is read and not yet part of the word. -/
def pending (x : Char) : Mode → Nat
  | .escape _ => ['\\'].count x
  | _ => 0

theorem count_snoc (x c : Char) : (token ++ [c]).count x = token.count x + [c].count x :=
  List.count_append

theorem count_head (x c : Char) : (c :: cs).count x = cs.count x + [c].count x := by
  simp [List.count_cons]

/-- Every character of a word was read. -/
theorem occurrences_le (x : Char) (h : scan mode token quoted s = .ok words) :
    occurrences x words ≤ token.count x + s.count x + pending x mode := by
  induction s generalizing mode token quoted words with
  | nil =>
    cases mode with
    | space =>
      cases h
      simp [occurrences]
    | word =>
      cases h
      rw [occurrences_emit]
      simp [occurrences]
    | quote | escape => simp [scan] at h
  | cons c cs ih =>
    rw [count_head]
    cases mode with
    | space =>
      simp only [scan] at h
      split at h
      · have := ih h
        simp only [List.count_nil, pending] at this ⊢
        omega
      split at h
      next hb =>
        have := ih h
        simp only [hb, List.count_nil, pending] at this ⊢
        omega
      split at h
      · have := ih h
        simp only [List.count_nil, pending] at this ⊢
        omega
      · have := ih h
        simp only [pending] at this ⊢
        omega
    | word =>
      simp only [scan] at h
      split at h
      · obtain ⟨ws, hws, rfl⟩ : ∃ ws, scan .space [] false cs = .ok ws ∧
            emit token quoted ws = words := by
          cases hr : scan .space [] false cs with
          | error e => simp [hr] at h
          | ok ws => exact ⟨ws, rfl, by simpa [hr] using h⟩
        have := ih hws
        rw [occurrences_emit]
        simp only [List.count_nil, pending] at this ⊢
        omega
      split at h
      · have := ih h
        simp only [pending] at this ⊢
        omega
      split at h
      next hb =>
        have := ih h
        simp only [hb, pending] at this ⊢
        omega
      · have := ih h
        rw [count_snoc] at this
        simp only [pending] at this ⊢
        omega
    | quote q =>
      simp only [scan] at h
      split at h
      · have := ih h
        simp only [pending] at this ⊢
        omega
      split at h
      next hb =>
        have := ih h
        simp only [hb.1, pending] at this ⊢
        omega
      · have := ih h
        rw [count_snoc] at this
        simp only [pending] at this ⊢
        omega
    | escape b =>
      cases b with
      | false =>
        have := ih (by simpa only [scan] using h)
        rw [count_snoc] at this
        simp only [pending] at this ⊢
        omega
      | true =>
        simp only [scan] at h
        split at h
        · have := ih h
          rw [count_snoc] at this
          simp only [pending] at this ⊢
          omega
        · have := ih h
          rw [List.count_append, count_head] at this
          simp only [pending] at this ⊢
          omega

end Shlex
