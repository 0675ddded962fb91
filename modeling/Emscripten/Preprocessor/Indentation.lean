-- SUMMARY: The indentation of JavaScript code, and the newlines that its scanner takes for newlines of code.
import Mathlib.Data.List.Basic
import Emscripten.Preprocessor.ShaderComments

/-!
# Indentation

`indentify` copies a text, and puts an indent behind each newline that it meets outside of comments and templates. What
these are it sees from `//`, `/*` and backquotes alone. Which newlines lie in template literals is given to the theorem.
-/

namespace Indentation

open Unicode Shader

def backquote : UInt16 := 0x60

def space : UInt16 := 0x20

/-! ## The scanner -/

/-- The inner loops: what they copy, and what is left. An end shows in a character and the one before. -/
def copy (ends : UInt16 → UInt16 → Bool) : (prev : UInt16) → Text → Text × Text
  | _, [] => ([], [])
  | prev, c :: text => if ends prev c then ([], c :: text) else (c :: (copy ends c text).1, (copy ends c text).2)

def lineEnd (_ c : UInt16) : Bool := c = newline

def blockEnd (prev c : UInt16) : Bool := prev = star ∧ c = slash

def templateEnd (_ c : UInt16) : Bool := c = backquote

def copyLine (text : Text) : Text × Text :=
  if text[0]? = some slash ∧ text[1]? = some slash then copy lineEnd 0 text else ([], text)

/-- The character before the first one that the loop looks at is the star of the opener. -/
def copyBlock (text : Text) : Text × Text :=
  if text[0]? = some slash ∧ text[1]? = some star then
    (slash :: star :: (copy blockEnd star (text.drop 2)).1, (copy blockEnd star (text.drop 2)).2)
  else ([], text)

def copyTemplate (text : Text) : Text × Text :=
  if text[0]? = some backquote then
    (backquote :: (copy templateEnd backquote (text.drop 1)).1, (copy templateEnd backquote (text.drop 1)).2)
  else ([], text)

/-- What a turn of the outer loop copies before its last character. -/
def turn (text : Text) : Text × Text :=
  let (line, text) := copyLine text
  let (block, text) := copyBlock text
  let (template, text) := copyTemplate text
  (line ++ block ++ template, text)

/-- The text that the value `undefined` becomes. -/
def undefined : Text := [117, 110, 100, 101, 102, 105, 110, 101, 100]

/-- The outer loop, with a bound on its turns. -/
def scan (indent : Text) : Nat → Text → Text
  | 0, _ => []
  | _ + 1, [] => []
  | k + 1, text =>
    match turn text with
    | (copied, []) => copied ++ undefined
    | (copied, c :: rest) => copied ++ c :: ((if c = newline then indent else []) ++ scan indent k rest)

def indentify (text : Text) (indent : Nat) : Text :=
  if text.length > 1024 * 1024 then text else scan (List.replicate indent space) text.length text

/-! ## What it is to do -/

/-- `out` is the text from position `i` on with the indent behind some of its newlines, at allowed positions. -/
inductive Inserted (indent : Text) (allowed : Nat → Prop) : (i : Nat) → (text out : Text) → Prop
  | nil (i : Nat) : Inserted indent allowed i [] []
  | copy {i : Nat} {text out : Text} (c : UInt16) :
    Inserted indent allowed (i + 1) text out → Inserted indent allowed i (c :: text) (c :: out)
  | indent {i : Nat} {text out : Text} :
    allowed i → Inserted indent allowed (i + 1) text out →
      Inserted indent allowed i (newline :: text) (newline :: (indent ++ out))

/-! ## Where it does that -/

/-- From the first character of a text up to the end `c`, with `prev` before it. -/
inductive Passed (ends : UInt16 → UInt16 → Bool) : (prev : UInt16) → Text → (c : UInt16) → Prop
  | stop {prev c : UInt16} : ends prev c = true → Passed ends prev [] c
  | go {prev d c : UInt16} {body : Text} : ends prev d = false → Passed ends d body c → Passed ends prev (d :: body) c

/-- The texts `p` and `c` are a line comment with its newline, a block comment, a text in backquotes, or another
character `c`. -/
inductive Area : (p : Text) → (c : UInt16) → (rest : Text) → Prop
  | line {body rest : Text} : Passed lineEnd slash body newline → Area (slash :: slash :: body) newline rest
  | block {body rest : Text} : Passed blockEnd star body slash → Area (slash :: star :: body) slash rest
  | template {body rest : Text} : Passed templateEnd backquote body backquote → Area (backquote :: body) backquote rest
  | other {c : UInt16} {rest : Text} :
    c ≠ backquote → (c = slash → rest[0]? ≠ some slash ∧ rest[0]? ≠ some star) → Area [] c rest

/-- From position `i` on the text is made of such areas, and the newlines at their ends are free to be indented. -/
inductive Clean (free : Nat → Prop) : (i : Nat) → Text → Prop
  | nil (i : Nat) : Clean free i []
  | area {i : Nat} {p rest : Text} {c : UInt16} :
    Area p c rest → (c = newline → free (i + p.length)) → Clean free (i + p.length + 1) rest →
      Clean free i (p ++ c :: rest)

/-! ## Turns -/

variable {indent : Text} {c : UInt16} (k : Nat)

theorem copy_of_passed {ends : UInt16 → UInt16 → Bool} {prev : UInt16} {body : Text} (rest : Text)
    (h : Passed ends prev body c) : copy ends prev (body ++ c :: rest) = (body, c :: rest) := by
  induction h with
  | stop hend => exact if_pos hend
  | go hgo _ ih =>
    rw [List.cons_append, copy, if_neg (by rw [hgo]; exact Bool.false_ne_true), ih]

theorem copy_cases (ends : UInt16 → UInt16 → Bool) (prev : UInt16) (text : Text) :
    copy ends prev text = (text, []) ∨ ∃ body c rest, Passed ends prev body c ∧ text = body ++ c :: rest := by
  induction text generalizing prev with
  | nil => exact .inl rfl
  | cons d text ih =>
    cases hend : ends prev d with
    | true => exact .inr ⟨[], d, text, .stop hend, rfl⟩
    | false =>
      obtain h | ⟨body, c, rest, hpassed, rfl⟩ := ih d
      · left
        rw [copy, hend, h]
        rfl
      · exact .inr ⟨d :: body, c, rest, .go hend hpassed, rfl⟩

theorem Passed.last {ends : UInt16 → UInt16 → Bool} {prev : UInt16} {body : Text} (h : Passed ends prev body c) :
    ∃ d, ends d c = true := by
  induction h with
  | stop hend => exact ⟨_, hend⟩
  | go _ _ ih => exact ih

theorem copyLine_eq {text : Text} (h : ¬ (text[0]? = some slash ∧ text[1]? = some slash)) :
    copyLine text = ([], text) := if_neg h

theorem copyBlock_eq {text : Text} (h : ¬ (text[0]? = some slash ∧ text[1]? = some star)) :
    copyBlock text = ([], text) := if_neg h

theorem copyTemplate_eq {text : Text} (h : text[0]? ≠ some backquote) : copyTemplate text = ([], text) := if_neg h

theorem copyLine_open (text : Text) : copyLine (slash :: slash :: text) =
    (slash :: slash :: (copy lineEnd slash text).1, (copy lineEnd slash text).2) := rfl

theorem copyBlock_open (text : Text) : copyBlock (slash :: star :: text) =
    (slash :: star :: (copy blockEnd star text).1, (copy blockEnd star text).2) := rfl

theorem copyTemplate_open (text : Text) : copyTemplate (backquote :: text) =
    (backquote :: (copy templateEnd backquote text).1, (copy templateEnd backquote text).2) := rfl

theorem head_ne {d : UInt16} {text : Text} (h : c ≠ d) : (c :: text)[0]? ≠ some d :=
  fun heq => h (Option.some.inj heq)

theorem turn_line {text copied rest : Text} (h : copyLine text = (copied, rest))
    (hslash : rest[0]? ≠ some slash) (hquote : rest[0]? ≠ some backquote) : turn text = (copied, rest) := by
  unfold turn
  rw [h]
  simp only [copyBlock_eq fun hblock => hslash hblock.1, copyTemplate_eq hquote, List.append_nil]

theorem turn_block {text copied rest : Text} (hline : ¬ (text[0]? = some slash ∧ text[1]? = some slash))
    (h : copyBlock text = (copied, rest)) (hquote : rest[0]? ≠ some backquote) : turn text = (copied, rest) := by
  unfold turn
  rw [copyLine_eq hline]
  simp only [h, copyTemplate_eq hquote, List.append_nil, List.nil_append]

theorem turn_template {text copied rest : Text} (hline : ¬ (text[0]? = some slash ∧ text[1]? = some slash))
    (hblock : ¬ (text[0]? = some slash ∧ text[1]? = some star)) (h : copyTemplate text = (copied, rest)) :
    turn text = (copied, rest) := by
  unfold turn
  rw [copyLine_eq hline]
  simp only [copyBlock_eq hblock, h, List.nil_append]

theorem turn_of_area {p rest : Text} (h : Area p c rest) : turn (p ++ c :: rest) = (p, c :: rest) := by
  cases h with
  | line h =>
    refine turn_line ?_ (head_ne (by decide)) (head_ne (by decide))
    rw [List.cons_append, List.cons_append, copyLine_open, copy_of_passed rest h]
  | @block body rest h =>
    have hstar : (star :: (body ++ slash :: rest))[0]? ≠ some slash := head_ne (by decide)
    refine turn_block (fun hline => hstar hline.2) ?_ (head_ne (by decide))
    rw [List.cons_append, List.cons_append, copyBlock_open, copy_of_passed rest h]
  | template h =>
    refine turn_template (fun hline => head_ne (by decide) hline.1) (fun hblock => head_ne (by decide) hblock.1) ?_
    rw [List.cons_append, copyTemplate_open, copy_of_passed rest h]
  | other hc hslash =>
    refine turn_template ?_ ?_ (copyTemplate_eq (head_ne hc))
    · rintro ⟨hhead, hnext⟩
      exact (hslash (Option.some.inj hhead)).1 hnext
    · rintro ⟨hhead, hnext⟩
      exact (hslash (Option.some.inj hhead)).2 hnext

/-- A comment or a template without an end goes up to the end of the text. -/
theorem turn_cases {text : Text} (h : text ≠ []) :
    turn text = (text, []) ∨ ∃ p c rest, Area p c rest ∧ text = p ++ c :: rest := by
  obtain ⟨c, text, rfl⟩ := List.exists_cons_of_ne_nil h
  have hnil (d : UInt16) : ([] : Text)[0]? ≠ some d := fun h => nomatch h
  by_cases hline : c = slash ∧ text[0]? = some slash
  · obtain ⟨rfl, hnext⟩ := hline
    obtain ⟨text, rfl⟩ : ∃ t, text = slash :: t := by
      cases text with
      | nil => cases hnext
      | cons d t => exact ⟨t, congrArg (· :: t) (Option.some.inj hnext)⟩
    obtain hopen | ⟨body, c, rest, hpassed, rfl⟩ := copy_cases lineEnd slash text
    · left
      refine turn_line ?_ (hnil _) (hnil _)
      rw [copyLine_open, hopen]
    · right
      obtain ⟨d, hend⟩ := hpassed.last
      obtain rfl : c = newline := of_decide_eq_true hend
      exact ⟨_, _, rest, .line hpassed, rfl⟩
  · by_cases hblock : c = slash ∧ text[0]? = some star
    · obtain ⟨rfl, hnext⟩ := hblock
      obtain ⟨text, rfl⟩ : ∃ t, text = star :: t := by
        cases text with
        | nil => cases hnext
        | cons d t => exact ⟨t, congrArg (· :: t) (Option.some.inj hnext)⟩
      obtain hopen | ⟨body, c, rest, hpassed, rfl⟩ := copy_cases blockEnd star text
      · left
        refine turn_block (fun h => hline ⟨rfl, h.2⟩) ?_ (hnil _)
        rw [copyBlock_open, hopen]
      · right
        obtain ⟨d, hend⟩ := hpassed.last
        obtain rfl : c = slash := (of_decide_eq_true hend).2
        exact ⟨_, _, rest, .block hpassed, rfl⟩
    · by_cases hc : c = backquote
      · subst hc
        obtain hopen | ⟨body, c, rest, hpassed, rfl⟩ := copy_cases templateEnd backquote text
        · left
          refine turn_template (fun h => head_ne (by decide) h.1) (fun h => head_ne (by decide) h.1) ?_
          rw [copyTemplate_open, hopen]
        · right
          obtain ⟨d, hend⟩ := hpassed.last
          obtain rfl : c = backquote := of_decide_eq_true hend
          exact ⟨_, _, rest, .template hpassed, rfl⟩
      · exact .inr ⟨[], c, text, .other hc fun h => ⟨fun hn => hline ⟨h, hn⟩, fun hn => hblock ⟨h, hn⟩⟩, rfl⟩

/-! ## Insertions -/

section

variable {n : Nat} {A B : Nat → Prop} {i j : Nat} {text o o' : Text}

theorem Inserted.before (p : Text) {i : Nat} (h : Inserted indent A (i + p.length) text o) :
    Inserted indent A i (p ++ text) (p ++ o) := by
  induction p generalizing i with
  | nil => exact h
  | cons c p ih =>
    apply Inserted.copy c
    apply ih
    rwa [Nat.add_right_comm]

/-- Two ways to put indents into a text never differ by spaces in front. -/
theorem Inserted.no_shift {k : Nat} {s s' : Text} (h : Inserted s A i text o) (h' : Inserted s' B j text o')
    (heq : List.replicate k space ++ o = o') : k = 0 := by
  induction h generalizing j o' with
  | nil => 
    cases h'
    simpa using heq
  | @copy i text o c h ih =>
    cases k with
    | zero => rfl
    | succ k =>
      cases h' with
      | copy _ h' =>
        obtain ⟨rfl, heq⟩ := List.cons.inj heq
        apply ih h'
        rw [← heq, List.replicate_succ', List.append_assoc]
        rfl
      | indent => cases (List.cons.inj heq).1
  | indent _ _ _ =>
    cases k with
    | zero => rfl
    | succ k => cases h' <;> cases (List.cons.inj heq).1

/-- What is behind a part that has been copied. -/
theorem Inserted.strip {p : Text} {i : Nat} (hb : ∀ j, Inserted (List.replicate n space) B j text o)
    (h : Inserted (List.replicate n space) A i (p ++ text) (p ++ o)) :
    Inserted (List.replicate n space) A (i + p.length) text o := by
  induction p generalizing i with
  | nil => exact h
  | cons c p ih =>
    rw [List.length_cons, ← Nat.add_assoc, Nat.add_right_comm]
    apply ih
    rw [List.cons_append, List.cons_append] at h
    generalize hw : p ++ o = w at h ⊢
    cases h with
    | copy _ h => exact h
    | @indent _ _ w hi h =>
      have hn : n = 0 := h.no_shift (Inserted.before p (i := i) (hb _)) hw.symm
      rw [hn] at h ⊢
      exact h

theorem Inserted.strip_char (hc : c ≠ newline) (h : Inserted indent A i (c :: text) (c :: o)) :
    Inserted indent A (i + 1) text o := by
  cases h with
  | copy _ h => exact h
  | indent => exact absurd rfl hc

/-- At a newline with an indent behind it, which is none, or is allowed. -/
theorem Inserted.strip_newline (hb : ∀ j, Inserted (List.replicate n space) B j text o)
    (h : Inserted (List.replicate n space) A i (newline :: text) (newline :: (List.replicate n space ++ o))) :
    (n = 0 ∨ A i) ∧ Inserted (List.replicate n space) A (i + 1) text o := by
  generalize hw : List.replicate n space ++ o = w at h
  cases h with
  | copy _ h =>
    have hn : n = 0 := (hb 0).no_shift h hw
    subst hn
    rw [List.replicate_zero, List.nil_append] at hw
    exact ⟨.inl rfl, hw ▸ h⟩
  | indent hi h =>
    rw [List.append_cancel_left hw]
    exact ⟨.inr hi, h⟩

/-- Indents have no `u`. -/
theorem Inserted.count_eq (h : Inserted (List.replicate n space) A i text o) : o.count 117 = text.count 117 := by
  induction h with
  | nil => rfl
  | copy c _ ih => rw [List.count_cons, List.count_cons, ih]
  | indent _ _ ih =>
    have hspaces : (List.replicate n space).count 117 = 0 := by
      rw [List.count_replicate]
      rfl
    rw [List.count_cons, List.count_cons, List.count_append, ih, hspaces, Nat.zero_add]

/-! ## Scans -/

theorem scan_open (hne : text ≠ []) (h : turn text = (text, [])) :
    scan indent (k + 1) text = text ++ undefined := by
  cases text with
  | nil => exact absurd rfl hne
  | cons c text =>
    rw [scan, h]
    exact hne

theorem scan_area {p rest : Text} (h : Area p c rest) :
    scan indent (k + 1) (p ++ c :: rest) =
      p ++ c :: ((if c = newline then indent else []) ++ scan indent k rest) := by
  have hturn := turn_of_area h
  cases hw : p ++ c :: rest with
  | nil => cases p <;> cases hw
  | cons d w =>
    rw [hw] at hturn
    rw [scan, hturn]
    exact fun h => nomatch h

/-- The scan leaves a text with indents, or it has come to its end within a comment or a template. -/
theorem scan_cases (n k : Nat) {text : Text} (hk : text.length ≤ k) :
    (∀ j, Inserted (List.replicate n space) (fun _ => True) j text (scan (List.replicate n space) k text)) ∨
      text.count 117 < (scan (List.replicate n space) k text).count 117 := by
  induction k generalizing text with
  | zero =>
    obtain rfl := List.eq_nil_of_length_eq_zero (Nat.le_zero.1 hk)
    exact .inl fun j => .nil j
  | succ k ih =>
    by_cases hne : text = []
    · subst hne
      exact .inl fun j => .nil j
    obtain hopen | ⟨p, c, rest, harea, rfl⟩ := turn_cases hne
    · right
      rw [scan_open k hne hopen, List.count_append]
      exact Nat.lt_add_of_pos_right (by decide)
    · rw [scan_area k harea]
      have hrest : rest.length ≤ k := by
        rw [List.length_append, List.length_cons] at hk
        omega
      obtain h | h := ih hrest
      · left
        intro j
        apply Inserted.before
        split
        · next hc => exact hc ▸ .indent trivial (h _)
        · exact .copy c (h _)
      · right
        simp only [List.count_append, List.count_cons]
        omega

theorem clean_of_inserted (hk : text.length ≤ k)
    (h : Inserted (List.replicate n space) A i text (scan (List.replicate n space) k text)) :
    Clean (fun i => n = 0 ∨ A i) i text := by
  induction k generalizing i text with
  | zero =>
    obtain rfl := List.eq_nil_of_length_eq_zero (Nat.le_zero.1 hk)
    exact .nil i
  | succ k ih =>
    by_cases hne : text = []
    · subst hne
      exact .nil i
    have hcount := h.count_eq
    obtain hopen | ⟨p, c, rest, harea, rfl⟩ := turn_cases hne
    · rw [scan_open k hne hopen, List.count_append] at hcount
      exact absurd hcount (Nat.ne_of_gt (Nat.lt_add_of_pos_right (by decide)))
    · rw [scan_area k harea] at h hcount
      have hrest : rest.length ≤ k := by
        rw [List.length_append, List.length_cons] at hk
        omega
      obtain hb | hlt := scan_cases n k hrest
      · by_cases hc : c = newline
        · subst hc
          rw [if_pos rfl] at h
          obtain ⟨hfree, h⟩ := Inserted.strip_newline hb (h.strip fun j => .indent trivial (hb _))
          exact .area harea (fun _ => hfree) (ih hrest h)
        · rw [if_neg hc, List.nil_append] at h
          have h := (h.strip fun j => .copy c (hb _)).strip_char hc
          exact .area harea (fun heq => absurd heq hc) (ih hrest h)
      · simp only [List.count_append, List.count_cons] at hcount
        omega

theorem inserted_of_clean (hk : text.length ≤ k) (h : Clean (fun i => n = 0 ∨ A i) i text) :
    Inserted (List.replicate n space) A i text (scan (List.replicate n space) k text) := by
  induction h generalizing k with
  | nil i => cases k <;> exact .nil i
  | @area i p rest c harea hfree _ ih =>
    rw [List.length_append, List.length_cons] at hk
    obtain ⟨k, rfl⟩ : ∃ m, k = m + 1 := ⟨k - 1, by omega⟩
    rw [scan_area k harea]
    apply Inserted.before
    have hrest := ih k (by omega)
    split
    · next hc =>
      subst hc
      obtain rfl | hi := hfree rfl
      · exact .copy _ hrest
      · exact .indent hi hrest
    · exact .copy c hrest

end

/-- The scan is right where the text can be cut at `//`, `/*` and backquotes so that the last comment or template has an
end, and no newline that is then outside of them lies in a template literal. -/
theorem indentify_iff (inTemplate : Nat → Prop) (text : Text) (indent : Nat) :
    Inserted (List.replicate indent space) (fun i => ¬ inTemplate i) 0 text (indentify text indent) ↔
      1024 * 1024 < text.length ∨ Clean (fun i => indent = 0 ∨ ¬ inTemplate i) 0 text := by
  unfold indentify
  split
  · next hlong =>
    have hself : ∀ (i : Nat) (t : Text), Inserted (List.replicate indent space) (fun i => ¬ inTemplate i) i t t := by
      intro i t
      induction t generalizing i with
      | nil => exact .nil i
      | cons c t ih => exact .copy c (ih _)
    exact iff_of_true (hself 0 text) (.inl hlong)
  · next hlong =>
    rw [or_iff_right hlong]
    exact ⟨clean_of_inserted _ (Nat.le_refl _), inserted_of_clean _ (Nat.le_refl _)⟩

/-- An escaped backquote and a newline in a template, and a comment at the end of a text. -/
theorem indentify_escaped :
    let text := [backquote, 92, backquote, newline, 92, backquote, backquote]
    indentify text 2 = [backquote, 92, backquote, newline, space, space, 92, backquote, backquote] ∧
      ¬ Inserted [space, space] (fun i => ¬ (0 < i ∧ i < 6)) 0 text (indentify text 2) ∧
      indentify [slash, slash] 2 = [slash, slash] ++ undefined := by
  have hrun : indentify [backquote, 92, backquote, newline, 92, backquote, backquote] 2 =
      [backquote, 92, backquote, newline, space, space, 92, backquote, backquote] := by decide
  refine ⟨hrun, ?_, by decide⟩
  rw [hrun]
  intro h
  cases h with | copy _ h => cases h with | copy _ h => cases h with | copy _ h => cases h with
    | copy _ h => cases h
    | indent hi => exact hi ⟨by decide, by decide⟩

end Indentation
