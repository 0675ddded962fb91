-- SUMMARY: Normalizing a path as a stack machine on its parts, and the relative path between two directories.
import Emscripten.JsFs.PathWalk
import Mathlib.Data.List.Induction

/-!
# Normal paths

`normalizeArray` goes through the parts from the last to the first and counts the ".." it has met. It
computes what a stack does that takes the parts from the first to the last. Normal paths are those that
the stack leaves as they are, and a relative path takes the stack of one directory to that of another.
-/

namespace JsFs.Path

variable {ps qs : List Name} {aboveRoot : Bool}

/-! ## The scan in place -/

/-- The loop of `normalizeArray`, which removes parts from the array that it walks, below the index `i`. -/
def scan : Nat → List Name → Nat → List Name × Nat
  | 0, parts, up => (parts, up)
  | i + 1, parts, up =>
    let last := parts.getD i []
    if last = dot then scan i (parts.eraseIdx i) up
    else if last = dotDot then scan i (parts.eraseIdx i) (up + 1)
    else if up ≠ 0 then scan i (parts.eraseIdx i) (up - 1)
    else scan i parts up

/-- `normalizeArray` as it is written. -/
def normalizeInPlace (parts : List Name) (allowAboveRoot : Bool) : List Name :=
  let (parts, up) := scan parts.length parts 0
  if allowAboveRoot then List.replicate up dotDot ++ parts else parts

/-- Behind the index lies what was kept; what is in front of it is folded into that. -/
theorem scan_append (ps : List Name) : ∀ kept up,
    scan ps.length (ps ++ kept) up = ps.foldr normalizePart (kept, up) := by
  induction ps using List.reverseRecOn with
  | nil => exact fun kept up => rfl
  | append_singleton ps p ih =>
    intro kept up
    have hlast : (ps ++ [p] ++ kept).getD ps.length [] = p := by simp [List.getD]
    have herase : (ps ++ [p] ++ kept).eraseIdx ps.length = ps ++ kept := by
      simp [List.eraseIdx_append_of_length_le]
    have hfold : (ps ++ [p]).foldr normalizePart (kept, up) =
        ps.foldr normalizePart (normalizePart p (kept, up)) := by simp
    have hassoc : ps ++ [p] ++ kept = ps ++ p :: kept := by simp
    rw [hfold, normalizePart]
    simp only [List.length_append, List.length_singleton, scan, hlast, herase, ih]
    split
    · rfl
    split
    · rfl
    cases up with
    | zero => simp only [hassoc, ih, ne_eq, not_true_eq_false, if_true, if_false]
    | succ up => simp

/-- The fold that the other functions are modelled with is the loop in place. -/
theorem normalizeInPlace_eq (ps : List Name) (aboveRoot : Bool) :
    normalizeInPlace ps aboveRoot = normalizeArray ps aboveRoot := by
  have hscan := scan_append ps [] 0
  simp only [List.append_nil] at hscan
  unfold normalizeInPlace normalizeArray
  rw [hscan]

/-! ## The stack -/

/-- The part ".." on a stack: it takes the top away, or is kept where it leads above a relative path. -/
def goUp (aboveRoot : Bool) : List Name → List Name
  | [] => if aboveRoot then [dotDot] else []
  | top :: stack => if top = dotDot then dotDot :: top :: stack else stack

/-- One part on a stack. -/
def push (aboveRoot : Bool) (stack : List Name) (p : Name) : List Name :=
  if p = dot then stack else if p = dotDot then goUp aboveRoot stack else p :: stack

/-- The parts from the left to the right on an empty stack. -/
def evaluate (aboveRoot : Bool) (ps : List Name) : List Name := (ps.foldl (push aboveRoot) []).reverse

/-- Whatever is on the stack, the parts take as many off it as the scan counts, and put on it what the
scan keeps. -/
theorem foldl_push (aboveRoot : Bool) (ps : List Name) : ∀ stack, ps.foldl (push aboveRoot) stack =
    (ps.foldr normalizePart ([], 0)).1.reverse ++
      (goUp aboveRoot)^[(ps.foldr normalizePart ([], 0)).2] stack := by
  induction ps with
  | nil => exact fun stack => rfl
  | cons p ps ih =>
    intro stack
    rw [List.foldl_cons, List.foldr_cons, ih]
    generalize ps.foldr normalizePart ([], 0) = state
    obtain ⟨kept, up⟩ := state
    unfold push normalizePart
    split
    · rfl
    next hdot =>
    split
    · -- the scan counts it behind the others
      rfl
    next hdotDot =>
    cases up with
    | zero => simp
    | succ up => simp [goUp, hdotDot]

theorem iterate_goUp (aboveRoot : Bool) (n : Nat) :
    (goUp aboveRoot)^[n] [] = if aboveRoot then List.replicate n dotDot else [] := by
  induction n with
  | zero => simp
  | succ n ih =>
    rw [Function.iterate_succ_apply', ih]
    cases aboveRoot with
    | false => rfl
    | true =>
      cases n with
      | zero => rfl
      | succ n => simp [List.replicate_succ, goUp]

/-- The scan from the right is the stack from the left. -/
theorem normalizeArray_eq_evaluate (ps : List Name) (aboveRoot : Bool) :
    normalizeArray ps aboveRoot = evaluate aboveRoot ps := by
  unfold normalizeArray evaluate
  rw [foldl_push, iterate_goUp]
  cases aboveRoot with
  | false => simp
  | true => simp

/-! ## Normal lists of parts -/

/-- No part is "." or "..". -/
def Plain (ps : List Name) : Prop := ∀ p ∈ ps, p ≠ dot ∧ p ≠ dotDot

theorem foldl_push_plain (h : Plain ps) (stack : List Name) :
    ps.foldl (push aboveRoot) stack = ps.reverse ++ stack := by
  induction ps generalizing stack with
  | nil => rfl
  | cons p ps ih =>
    obtain ⟨hdot, hdotDot⟩ := h p List.mem_cons_self
    rw [List.foldl_cons, ih fun q hq => h q (List.mem_cons_of_mem _ hq)]
    simp [push, hdot, hdotDot]

theorem plain_kept (ps : List Name) : Plain (ps.foldr normalizePart ([], 0)).1 := by
  induction ps with
  | nil => exact fun p hp => nomatch hp
  | cons q ps ih =>
    rw [List.foldr_cons]
    generalize ps.foldr normalizePart ([], 0) = state at *
    unfold normalizePart
    split
    · exact ih
    next hdot =>
    split
    · exact ih
    next hdotDot =>
    split
    · intro p hp
      cases hp with
      | head => exact ⟨hdot, hdotDot⟩
      | tail _ hp => exact ih p hp
    · exact ih

/-- Leading ".." in front of other parts, none of them where nothing is above the root. -/
theorem normalizeArray_form (ps : List Name) (aboveRoot : Bool) : ∃ n kept, Plain kept ∧
    (aboveRoot = false → n = 0) ∧ normalizeArray ps aboveRoot = List.replicate n dotDot ++ kept := by
  cases aboveRoot with
  | false => exact ⟨0, _, plain_kept ps, fun _ => rfl, rfl⟩
  | true => exact ⟨_, _, plain_kept ps, nofun, rfl⟩

theorem foldl_push_ups (n : Nat) (stack : List Name) :
    (List.replicate n dotDot).foldl (push aboveRoot) stack = (goUp aboveRoot)^[n] stack := by
  induction n with
  | zero => rfl
  | succ n ih =>
    rw [List.replicate_succ', List.foldl_append, ih, Function.iterate_succ_apply']
    rfl

/-- Normal parts stay as they are. -/
theorem normalizeArray_idem (ps : List Name) (aboveRoot : Bool) :
    normalizeArray (normalizeArray ps aboveRoot) aboveRoot = normalizeArray ps aboveRoot := by
  obtain ⟨n, kept, hplain, hzero, hform⟩ := normalizeArray_form ps aboveRoot
  rw [hform, normalizeArray_eq_evaluate, evaluate, List.foldl_append, foldl_push_ups,
    foldl_push_plain hplain, iterate_goUp]
  cases aboveRoot with
  | true => simp
  | false => simp [hzero rfl]

/-! ## Normal paths -/

theorem isPart_normalizeArray (h : ∀ p ∈ ps, IsPart p) :
    ∀ p ∈ normalizeArray ps aboveRoot, IsPart p := by
  have hkept : ∀ p ∈ (ps.foldr normalizePart ([], 0)).1, IsPart p := fun p hp =>
    h p ((foldr_normalizePart ps).2 p hp)
  unfold normalizeArray
  cases aboveRoot with
  | false => exact hkept
  | true =>
    intro p hp
    cases List.mem_append.mp hp with
    | inl hp => exact List.eq_of_mem_replicate hp ▸ ⟨by decide, by decide⟩
    | inr hp => exact hkept p hp

/-- What `normalize` makes of the parts that are left. -/
def render (isAbsolute trailingSlash : Bool) (ps : List Name) : Path :=
  let text := if join ps = [] ∧ !isAbsolute then dot else join ps
  (if isAbsolute then ['/'] else []) ++ (if text ≠ [] ∧ trailingSlash then text ++ ['/'] else text)

variable (path : Path)

theorem normalize_eq : normalize path =
    render (isAbs path) (path.getLast? = some '/') (normalizeArray (parts path) (!isAbs path)) := by
  unfold normalize render
  simp

theorem splitOn_join (h : ∀ p ∈ ps, IsPart p) (hne : ps ≠ []) : (join ps).splitOn '/' = ps := by
  unfold join
  exact List.splitOn_intercalate '/' (fun p hp => (h p hp).2) hne

theorem join_eq_nil (h : ∀ p ∈ ps, IsPart p) : join ps = [] ↔ ps = [] := by
  refine ⟨fun heq => ?_, fun heq => heq ▸ rfl⟩
  rw [← parts_join h, heq]
  rfl

/-- Joined parts neither start nor end with a slash. -/
theorem no_slash_at_ends (h : ∀ p ∈ ps, IsPart p) {l r : Path} (heq : join ps = l ++ '/' :: r) :
    l ≠ [] ∧ r ≠ [] := by
  have hne : ps ≠ [] := by
    rintro rfl
    simp [join] at heq
  have hsplit := splitOn_join h hne
  rw [heq, List.splitOn_append_cons_self] at hsplit
  refine ⟨?_, ?_⟩
  · rintro rfl
    exact (h [] (hsplit ▸ List.mem_append_left _ List.mem_cons_self)).1 rfl
  · rintro rfl
    exact (h [] (hsplit ▸ List.mem_append_right _ List.mem_cons_self)).1 rfl

/-- The text that is not rooted: what it starts and ends with, and its parts. -/
theorem text_spec (h : ∀ p ∈ ps, IsPart p) : (join ps).head? ≠ some '/' ∧
    (join ps).getLast? ≠ some '/' := by
  refine ⟨fun hhead => ?_, fun hlast => ?_⟩
  · obtain ⟨r, hr⟩ := List.head?_eq_some_iff.mp hhead
    exact (no_slash_at_ends h (l := []) hr).1 rfl
  · obtain ⟨l, hl⟩ := List.getLast?_eq_some_iff.mp hlast
    exact (no_slash_at_ends h hl).2 rfl

theorem render_cases (h : ∀ p ∈ ps, IsPart p) (isAbsolute trailingSlash : Bool) :
    (ps = [] ∧ isAbsolute = true ∧ render isAbsolute trailingSlash ps = ['/']) ∨
    ∃ qs, (∀ p ∈ qs, IsPart p) ∧ qs ≠ [] ∧
      (ps = qs ∨ ps = [] ∧ isAbsolute = false ∧ qs = [dot]) ∧ render isAbsolute trailingSlash ps =
        (if isAbsolute then ['/'] else []) ++ (join qs ++ if trailingSlash then ['/'] else []) := by
  have hdot : join [dot] = dot := rfl
  unfold render
  dsimp only
  cases ps with
  | nil =>
    cases isAbsolute with
    | true => exact .inl ⟨rfl, rfl, by simp [join]⟩
    | false =>
      refine .inr ⟨[dot], by simp [IsPart, dot], by simp, .inr ⟨rfl, rfl, rfl⟩, ?_⟩
      cases trailingSlash <;> simp [join, dot]
  | cons p ps =>
    have hne : join (p :: ps) ≠ [] := fun heq => List.cons_ne_nil _ _ ((join_eq_nil h).mp heq)
    refine .inr ⟨p :: ps, h, List.cons_ne_nil _ _, .inl rfl, ?_⟩
    simp only [hne, false_and, if_false, ne_eq, not_false_eq_true, true_and]
    cases trailingSlash <;> simp

/-- To normalize a normal path changes nothing. -/
theorem normalize_normalize : normalize (normalize path) = normalize path := by
  have hparts : ∀ p ∈ normalizeArray (parts path) (!isAbs path), IsPart p :=
    isPart_normalizeArray fun p hp => isPart_of_mem_parts hp
  have hidem := normalizeArray_idem (parts path) (!isAbs path)
  rw [normalize_eq path]
  generalize isAbs path = isAbsolute at *
  generalize decide (path.getLast? = some '/') = trailingSlash
  generalize normalizeArray (parts path) (!isAbsolute) = ps at *
  cases render_cases hparts isAbsolute trailingSlash with
  | inl hroot =>
    obtain ⟨-, -, heq⟩ := hroot
    rw [heq]
    decide
  | inr hsome =>
    obtain ⟨qs, hqs, hne, hcase, heq⟩ := hsome
    obtain ⟨hhead, hlast⟩ := text_spec hqs
    have htext : join qs ≠ [] := fun hnil => hne ((join_eq_nil hqs).mp hnil)
    have habs : isAbs (render isAbsolute trailingSlash ps) = isAbsolute := by
      rw [heq]
      cases isAbsolute with
      | true => rfl
      | false => simpa [isAbs, List.head?_append_of_ne_nil _ htext] using hhead
    have htrailing : decide ((render isAbsolute trailingSlash ps).getLast? = some '/') = trailingSlash := by
      rw [heq]
      cases trailingSlash with
      | true => simp [List.getLast?_append]
      | false => simpa [List.getLast?_append_of_ne_nil _ htext] using hlast
    have hkept : parts (render isAbsolute trailingSlash ps) = qs := by
      rw [heq]
      cases isAbsolute <;> cases trailingSlash <;> simp [parts_slash, parts_join hqs]
    have hnormal : normalizeArray qs (!isAbsolute) = ps := by
      cases hcase with
      | inl hsame => exact hsame ▸ hidem
      | inr hdot =>
        obtain ⟨rfl, -, rfl⟩ := hdot
        cases isAbsolute <;> rfl
    rw [normalize_eq, habs, htrailing, hkept, hnormal]

/-! ## Relative paths -/

theorem dropCommon_spec : ∀ as bs : List Name, ∃ common,
    as = common ++ (dropCommon as bs).1 ∧ bs = common ++ (dropCommon as bs).2
  | [], bs => ⟨[], by simp [dropCommon]⟩
  | a :: as, [] => ⟨[], by simp [dropCommon]⟩
  | a :: as, b :: bs => by
      unfold dropCommon
      split
      · next heq =>
          obtain ⟨common, has, hbs⟩ := dropCommon_spec as bs
          exact ⟨a :: common, congrArg (a :: ·) has, heq ▸ congrArg (a :: ·) hbs⟩
      · exact ⟨[], rfl, rfl⟩

/-- Where no part is empty there is nothing to trim. -/
theorem trim_splitOn_join (h : ∀ p ∈ ps, IsPart p) : trim ((join ps).splitOn '/') = ps := by
  cases ps with
  | nil => rfl
  | cons p ps =>
    rw [splitOn_join h (List.cons_ne_nil _ _)]
    have hfirst : (p :: ps).findIdx (· ≠ []) = 0 := by
      simp [List.findIdx_cons, (h p List.mem_cons_self).1]
    have hlast : (p :: ps).reverse.findIdx (· ≠ []) = 0 := by
      obtain ⟨q, qs, hq⟩ := List.exists_cons_of_ne_nil (List.reverse_ne_nil_iff.mpr (List.cons_ne_nil p ps))
      have hmem : q ∈ p :: ps := List.mem_reverse.mp (hq ▸ List.mem_cons_self)
      simp [hq, List.findIdx_cons, (h q hmem).1]
    unfold trim
    rw [hfirst, hlast]
    simp

/-- The normalized parts of an absolute path. -/
def segments (path : Path) : List Name := normalizeArray (parts path) false

theorem isPart_segments : ∀ p ∈ segments path, IsPart p :=
  isPart_normalizeArray fun _ hp => isPart_of_mem_parts hp

theorem parts_normalize {path : Path} (h : isAbs path = true) : parts (normalize path) = segments path := by
  have hjoin := parts_join (isPart_segments path)
  rw [normalize_eq, h]
  unfold render
  simp only [Bool.not_true, Bool.false_eq_true, and_false, if_false, if_true, List.singleton_append,
    parts_cons_slash]
  split
  · rw [parts_slash, parts_nil, List.append_nil]
    exact hjoin
  · exact hjoin

theorem relative_parts {cwd a b : Path} (ha : isAbs a = true) (hb : isAbs b = true) :
    relative cwd a b = join (List.replicate (dropCommon (segments a) (segments b)).1.length dotDot ++
      (dropCommon (segments a) (segments b)).2) := by
  have hresolve : ∀ c : Path, isAbs c = true →
      trim (((resolve cwd c).drop 1).splitOn '/') = segments c := by
    intro c hc
    have hne : c ≠ [] := fun hnil => by simp [hnil, isAbs] at hc
    have hparts : parts (c ++ ['/']) = parts c := by simp [parts_slash]
    rw [resolve, if_neg hne, if_pos hc, hparts]
    exact trim_splitOn_join (isPart_segments c)
  unfold relative
  rw [hresolve a ha, hresolve b hb]

theorem iterate_goUp_append (h : Plain ps) (stack : List Name) :
    (goUp aboveRoot)^[ps.length] (ps ++ stack) = stack := by
  induction ps with
  | nil => rfl
  | cons p ps ih =>
    rw [List.length_cons, Function.iterate_succ_apply, List.cons_append, goUp,
      if_neg (h p List.mem_cons_self).2]
    exact ih fun q hq => h q (List.mem_cons_of_mem _ hq)

theorem plain_segments : Plain (segments path) := plain_kept (parts path)

/-- The way to `b` relative to `a`, taken from `a`, leads to `b`. -/
theorem segments_relative {cwd a b : Path} (ha : isAbs a = true) (hb : isAbs b = true) :
    segments (a ++ '/' :: relative cwd a b) = segments b := by
  obtain ⟨common, hup, hdown⟩ := dropCommon_spec (segments a) (segments b)
  rw [relative_parts ha hb]
  generalize (dropCommon (segments a) (segments b)).1 = up at *
  generalize (dropCommon (segments a) (segments b)).2 = down at *
  have hplain_up : Plain up.reverse := fun p hp =>
    plain_segments a p (hup ▸ List.mem_append_right _ (List.mem_reverse.mp hp))
  have hplain_down : Plain down := fun p hp => plain_segments b p (hdown ▸ List.mem_append_right _ hp)
  have hparts : ∀ p ∈ List.replicate up.length dotDot ++ down, IsPart p := by
    intro p hp
    cases List.mem_append.mp hp with
    | inl hp => exact List.eq_of_mem_replicate hp ▸ ⟨by decide, by decide⟩
    | inr hp => exact isPart_segments b p (hdown ▸ List.mem_append_right _ hp)
  -- the stack of `a`, with what is not in `b` on top
  have hstack : (parts a).foldl (push false) [] = up.reverse ++ common.reverse := by
    have heq := normalizeArray_eq_evaluate (parts a) false
    rw [← List.reverse_append, ← hup, segments, heq, evaluate, List.reverse_reverse]
  have htop : (goUp false)^[up.length] (up.reverse ++ common.reverse) = common.reverse := by
    have hall := @iterate_goUp_append _ false hplain_up common.reverse
    simpa using hall
  rw [segments, parts_slash, parts_join hparts, normalizeArray_eq_evaluate, evaluate, List.foldl_append,
    List.foldl_append, hstack, foldl_push_ups, htop, foldl_push_plain hplain_down, List.reverse_append,
    List.reverse_reverse, List.reverse_reverse, ← hdown]

/-- The scan is the stack, normal paths are left as they are, and a path and the relative path from it lead
to where the relative path was to lead. -/
theorem normalize_laws (ps : List Name) (allowAboveRoot : Bool) (path cwd : Path) {a b : Path}
    (ha : isAbs a = true) (hb : isAbs b = true) :
    normalizeInPlace ps allowAboveRoot = evaluate allowAboveRoot ps ∧
      normalize (normalize path) = normalize path ∧
      parts (normalize (a ++ '/' :: relative cwd a b)) = parts (normalize b) := by
  have happend : isAbs (a ++ '/' :: relative cwd a b) = true := by
    obtain ⟨rest, rfl⟩ := exists_of_isAbs ha
    rfl
  refine ⟨?_, normalize_normalize path, ?_⟩
  · exact (normalizeInPlace_eq ps allowAboveRoot).trans (normalizeArray_eq_evaluate ps allowAboveRoot)
  · rw [parts_normalize happend, parts_normalize hb]
    exact segments_relative ha hb

/-- From "/usr/lib" the path to "/usr/share/doc" is "../share/doc". -/
theorem normalize_laws_usr :
    relative [] "/usr/lib".toList "/usr/share/doc".toList = "../share/doc".toList ∧
    parts (normalize ("/usr/lib".toList ++ '/' :: relative [] "/usr/lib".toList "/usr/share/doc".toList)) =
      parts (normalize "/usr/share/doc".toList) :=
  ⟨by decide, (normalize_laws [] true [] [] (a := "/usr/lib".toList) (b := "/usr/share/doc".toList)
    (by decide) (by decide)).2.2⟩

end JsFs.Path
