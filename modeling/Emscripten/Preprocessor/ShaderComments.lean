-- SUMMARY: The comments that the shader preprocessor removes, against those of C.
import Mathlib.Algebra.Ring.Int.Defs
import Mathlib.Algebra.Ring.Nat
import Emscripten.Lib.Unicode

/-!
# Comments of shaders

`remove_cpp_comments_in_shaders` looks for the end of a block comment from its first character on, with the
character before each. So it takes a star before the comment, and that of its opener, for the star of its end.
-/

namespace Shader

open Unicode

def slash : UInt16 := 0x2F
def star : UInt16 := 0x2A
def newline : UInt16 := 0x0A

/-- A character that is not in a comment, or a comment. -/
inductive Piece where
  | char (ch : UInt16)
  | comment (text : Text)
deriving DecidableEq

/-- What is left of a text without its comments. -/
def out (ps : List Piece) : Text :=
  ps.flatMap fun
    | .char ch => [ch]
    | .comment _ => []

/-! ## The scanner -/

/-- The loop over a line comment, and the step of the outer one: what they pass over, and what is left. -/
def skipLine : Text → Text × Text
  | [] => ([], [])
  | ch :: rest =>
    if rest.head? = some newline then ([ch], rest)
    else
      let (passed, rest) := skipLine rest
      (ch :: passed, rest)

/-- The loop over a block comment, with the character before. -/
def skipBlock : Option UInt16 → Text → Text × Text
  | _, [] => ([], [])
  | prev, ch :: rest =>
    if prev ≠ some star ∨ ch ≠ slash then
      let (passed, rest) := skipBlock (some ch) rest
      (ch :: passed, rest)
    else ([ch], rest)

/-- The turns of the loop, with a bound on their number: what each appends or passes over. -/
def turns : Nat → Option UInt16 → Text → List Piece
  | 0, _, _ => []
  | _ + 1, _, [] => []
  | k + 1, prev, ch :: rest =>
    if ch = slash then
      if rest.head? = some slash then
        let (passed, rest) := skipLine (ch :: rest)
        .comment passed :: turns k passed.getLast? rest
      else if rest.head? = some star then
        let (passed, rest) := skipBlock prev (ch :: rest)
        .comment passed :: turns k passed.getLast? rest
      else .char ch :: turns k (some ch) rest
    else .char ch :: turns k (some ch) rest

def remove_cpp_comments_in_shaders (code : Text) : Text := out (turns code.length none code)

/-! ## Comments of C -/

/-- Up to the next newline. -/
def endOfLine : Text → Text × Text
  | [] => ([], [])
  | c :: rest =>
    if c = newline then ([], c :: rest)
    else
      let (passed, rest) := endOfLine rest
      (c :: passed, rest)

/-- Up to the first end of a block comment, and with it. -/
def endOfBlock : Text → Text × Text
  | [] => ([], [])
  | c :: rest =>
    if c = star ∧ rest.head? = some slash then ([star, slash], rest.tail)
    else
      let (passed, rest) := endOfBlock rest
      (c :: passed, rest)

/-- The characters and comments of a text of at most so many. -/
def pieces : Nat → Text → List Piece
  | 0, _ => []
  | _ + 1, [] => []
  | k + 1, c :: rest =>
    if c = slash ∧ rest.head? = some slash then
      let (passed, rest) := endOfLine rest
      .comment (c :: passed) :: pieces k rest
    else if c = slash ∧ rest.head? = some star then
      let (passed, rest) := endOfBlock rest.tail
      .comment (c :: star :: passed) :: pieces k rest
    else .char c :: pieces k rest

def piecesOf (code : Text) : List Piece := pieces code.length code

/-! ## The two ways of reading -/

/-- No block comment has a star before it, or a slash behind its opener, unless the text ends there. -/
def Apart : Option UInt16 → List Piece → Prop
  | _, [] => True
  | _, .char c :: ps => Apart (some c) ps
  | prev, .comment t :: ps =>
    (t[1]? = some star → prev ≠ some star ∧ (t[2]? = some slash → t.length = 3)) ∧ Apart none ps

theorem skipLine_cons (c : UInt16) (t : Text) : skipLine (c :: t) = (c :: (endOfLine t).1, (endOfLine t).2) := by
  induction t generalizing c with
  | nil => rfl
  | cons d t ih =>
    rw [skipLine, endOfLine, List.head?_cons]
    split
    · next hline => rw [if_pos (Option.some.inj hline)]
    · next hline => rw [if_neg fun heq => hline (congrArg some heq), ih d]

/-- Where the end has not been reached, the loop finds the first one. -/
theorem skipBlock_eq {c : UInt16} {t : Text} (h : ¬ (c = star ∧ t.head? = some slash)) :
    skipBlock (some c) t = endOfBlock t := by
  induction t generalizing c with
  | nil => rfl
  | cons d t ih =>
    have hgo : some c ≠ some star ∨ d ≠ slash := by
      by_contra hstop
      rw [not_or, not_not, not_not] at hstop
      exact h ⟨Option.some.inj hstop.1, congrArg some hstop.2⟩
    rw [skipBlock, if_pos hgo, endOfBlock]
    by_cases hend : d = star ∧ t.head? = some slash
    · rw [if_pos hend]
      cases t with
      | nil => cases hend.2
      | cons e t =>
        obtain rfl : e = slash := Option.some.inj hend.2
        rw [hend.1]
        rfl
    · rw [if_neg hend, ih hend]

theorem endOfLine_rest (t : Text) : (endOfLine t).2 = [] ∨ (endOfLine t).2.head? = some newline := by
  induction t with
  | nil => exact Or.inl rfl
  | cons c t ih =>
    rw [endOfLine]
    split
    · next hline => exact Or.inr (congrArg some hline)
    · exact ih

/-- Behind a block comment there is a slash, or nothing. -/
theorem endOfBlock_rest (t : Text) : (endOfBlock t).2 = [] ∨ (endOfBlock t).1.getLast? = some slash := by
  induction t with
  | nil => exact Or.inl rfl
  | cons c t ih =>
    rw [endOfBlock]
    split
    · exact Or.inr rfl
    · cases ih with
      | inl hnone => exact Or.inl hnone
      | inr hlast =>
        refine Or.inr ?_
        dsimp only
        rw [List.getLast?_cons, hlast]
        rfl

/-- The character before matters for a block comment only. -/
theorem apart_pieces (k : Nat) {prev : Option UInt16} {t : Text}
    (h : t = [] ∨ t.head? = some newline ∨ prev ≠ some star) : Apart prev (pieces k t) ↔ Apart none (pieces k t) := by
  have hnone : ∀ ps, prev ≠ some star → (Apart prev ps ↔ Apart none ps) := by
    intro ps hprev
    cases ps with
    | nil => rfl
    | cons p ps =>
      cases p with
      | char c => rfl
      | comment text =>
        unfold Apart
        simp only [hprev, ne_eq, not_false_eq_true, reduceCtorEq, true_and]
  rcases h with rfl | hline | hprev
  · cases k with
    | zero => rfl
    | succ k => rfl
  · cases k with
    | zero => rfl
    | succ k =>
      cases t with
      | nil => rfl
      | cons c t =>
        obtain rfl : c = newline := Option.some.inj hline
        have hchar : pieces (k + 1) (newline :: t) = .char newline :: pieces k t := rfl
        rw [hchar]
        rfl
  · exact hnone _ hprev

/-! ### One turn, and one piece -/

section

variable (k : Nat) {prev : Option UInt16} {c : UInt16} {rest : Text}

theorem pieces_char (h : c = slash → rest.head? ≠ some slash ∧ rest.head? ≠ some star) :
    pieces (k + 1) (c :: rest) = .char c :: pieces k rest := by
  rw [pieces, if_neg fun hline => (h hline.1).1 hline.2, if_neg fun hblock => (h hblock.1).2 hblock.2]

theorem turns_char (h : c = slash → rest.head? ≠ some slash ∧ rest.head? ≠ some star) :
    turns (k + 1) prev (c :: rest) = .char c :: turns k (some c) rest := by
  rw [turns]
  split
  · next hslash => rw [if_neg (h hslash).1, if_neg (h hslash).2]
  · rfl

theorem pieces_line : pieces (k + 1) (slash :: slash :: rest) =
    .comment (slash :: slash :: (endOfLine rest).1) :: pieces k (endOfLine rest).2 := rfl

theorem turns_line : turns (k + 1) prev (slash :: slash :: rest) =
    .comment (slash :: slash :: (endOfLine rest).1) ::
      turns k (slash :: slash :: (endOfLine rest).1).getLast? (endOfLine rest).2 := by
  have hpassed := skipLine_cons slash (slash :: rest)
  rw [turns, if_pos rfl, List.head?_cons, if_pos rfl, hpassed]
  rfl

theorem pieces_block : pieces (k + 1) (slash :: star :: rest) =
    .comment (slash :: star :: (endOfBlock rest).1) :: pieces k (endOfBlock rest).2 := rfl

/-- The star before the comment counts as that of its end. -/
theorem turns_star : turns (k + 1) (some star) (slash :: star :: rest) =
    .comment [slash] :: turns k (some slash) (star :: rest) := rfl

theorem turns_block (hprev : prev ≠ some star) : turns (k + 1) prev (slash :: star :: rest) =
    .comment (slash :: star :: (skipBlock (some star) rest).1) ::
      turns k (slash :: star :: (skipBlock (some star) rest).1).getLast? (skipBlock (some star) rest).2 := by
  have hpassed : skipBlock prev (slash :: star :: rest) =
      (slash :: star :: (skipBlock (some star) rest).1, (skipBlock (some star) rest).2) := by
    rw [skipBlock, if_pos (Or.inl hprev), skipBlock, if_pos (Or.inr (by decide))]
  rw [turns, if_pos rfl, List.head?_cons, if_neg (by decide), if_pos rfl, hpassed]

/-- The star of the opener counts as that of the end. -/
theorem turns_slash (hprev : prev ≠ some star) : turns (k + 1) prev (slash :: star :: slash :: rest) =
    .comment [slash, star, slash] :: turns k (some slash) rest := turns_block k hprev

end

/-- By induction on the turns: the scanner reads the comments of C exactly where they are apart. -/
theorem turns_eq_iff (k : Nat) (prev : Option UInt16) (t : Text) :
    turns k prev t = pieces k t ↔ Apart prev (pieces k t) := by
  induction k generalizing prev t with
  | zero => exact iff_of_true rfl trivial
  | succ k ih =>
    cases t with
    | nil => exact iff_of_true rfl trivial
    | cons c rest =>
      by_cases hchar : c = slash → rest.head? ≠ some slash ∧ rest.head? ≠ some star
      · rw [turns_char k hchar, pieces_char k hchar, List.cons_inj_right, ih]
        rfl
      rw [Classical.not_imp, ← not_or, not_not] at hchar
      obtain ⟨rfl, hopener⟩ := hchar
      cases rest with
      | nil => cases hopener with
        | inl h => cases h
        | inr h => cases h
      | cons d rest =>
      cases hopener with
      | inl hline =>
        obtain rfl : d = slash := Option.some.inj hline
        rw [turns_line, pieces_line, List.cons_inj_right, ih, apart_pieces k ((endOfLine_rest rest).imp_right Or.inl)]
        exact (and_iff_right fun h => absurd (Option.some.inj h) (by decide)).symm
      | inr hblock =>
        obtain rfl : d = star := Option.some.inj hblock
        rw [pieces_block, Apart]
        by_cases hprev : prev = some star
        · subst hprev
          refine iff_of_false (fun h => ?_) (fun h => (h.1 rfl).1 rfl)
          rw [turns_star] at h
          exact absurd (congrArg List.length (Piece.comment.inj (List.cons.inj h).1)) (by simp)
        by_cases hshort : rest.head? = some slash
        · cases rest with
          | nil => cases hshort
          | cons e rest =>
            obtain rfl : e = slash := Option.some.inj hshort
            have hpassed : endOfBlock (slash :: rest) = (slash :: (endOfBlock rest).1, (endOfBlock rest).2) := rfl
            rw [turns_slash k hprev, hpassed]
            cases rest with
            | nil =>
              have hnil : turns k (some slash) [] = pieces k [] := by cases k <;> rfl
              have hapart : Apart none (pieces k []) := by cases k <;> exact trivial
              exact iff_of_true (congrArg _ hnil) ⟨fun _ => ⟨hprev, fun _ => rfl⟩, hapart⟩
            | cons d rest =>
              have hlong : 1 ≤ (endOfBlock (d :: rest)).1.length := by
                rw [endOfBlock]
                split
                · exact Nat.le_succ 1
                · exact Nat.succ_pos _
              refine iff_of_false (fun h => ?_) (fun h => ?_)
              · have htext := congrArg List.length (Piece.comment.inj (List.cons.inj h).1)
                simp only [List.length_cons, List.length_nil] at htext
                omega
              · have hthree := (h.1 rfl).2 rfl
                simp only [List.length_cons] at hthree
                omega
        · have hthird : (endOfBlock rest).1[0]? ≠ some slash := by
            cases rest with
            | nil => exact nofun
            | cons d rest =>
              rw [endOfBlock]
              split
              · exact fun h => absurd (Option.some.inj h) (by decide)
              · exact hshort
          have hlast : (endOfBlock rest).2 = [] ∨ (endOfBlock rest).2.head? = some newline ∨
              (slash :: star :: (endOfBlock rest).1).getLast? ≠ some star := by
            refine (endOfBlock_rest rest).imp_right fun hslash => Or.inr ?_
            rw [List.getLast?_cons, List.getLast?_cons, hslash]
            exact fun h => absurd (Option.some.inj h) (by decide)
          rw [turns_block k hprev, skipBlock_eq fun h => hshort h.2, List.cons_inj_right, ih, apart_pieces k hlast]
          exact (and_iff_right fun _ => ⟨hprev, fun h => absurd h hthird⟩).symm

/-- The scanner passes over exactly the comments of C where no block comment has a star before it or a slash behind its
opener; and it then returns what is left without them. -/
theorem remove_comments_iff (code : Text) :
    (turns code.length none code = piecesOf code ↔ Apart none (piecesOf code)) ∧
      (Apart none (piecesOf code) → remove_cpp_comments_in_shaders code = out (piecesOf code)) :=
  ⟨turns_eq_iff _ _ _, fun h => congrArg out ((turns_eq_iff _ _ _).mpr h)⟩

/-- `/*/x*/` and `*/*x*/`: of the first all is a comment, of the second all but a star. -/
theorem remove_comments_cut :
    out (piecesOf [slash, star, slash, 0x78, star, slash]) = [] ∧
      remove_cpp_comments_in_shaders [slash, star, slash, 0x78, star, slash] = [0x78, star, slash] ∧
    out (piecesOf [star, slash, star, 0x78, star, slash]) = [star] ∧
      remove_cpp_comments_in_shaders [star, slash, star, 0x78, star, slash] = [star, star, 0x78, star, slash] := by
  decide

end Shader
