-- SUMMARY: The search for a library in a path: the elements of a string, what ends the search, and when the first file is found.
import Mathlib.Data.List.Basic
import Mathlib.Data.List.TakeWhile

/-!
# Search paths

A search takes the elements of a string in order, and asks for the state of each directory's candidate.
Whether it goes on after a candidate is decided by `errno`, which only a call that fails sets.
-/

namespace SearchPath

/-! ## Strings and files -/

/-- The bytes of a string, one character each. -/
abbrev CString := List Char

inductive Errno
  | ENOENT | ENOTDIR | EACCES | ENAMETOOLONG | EOVERFLOW
  | other (n : Nat)
deriving DecidableEq, Repr

/-- What `stat` says of a path: `irregular` is whatever is there but not a regular file. -/
inductive Stat
  | regular
  | irregular
  | error (e : Errno)
deriving DecidableEq, Repr

def INT_MAX : Nat := 0x7FFFFFFF

/-- The characters of `":\n"`. -/
def isSeparator (c : Char) : Bool := c = ':' || c = '\n'

/-- What `strspn` skips, what `strcspn` takes, and what follows. -/
def skipped (s : CString) : CString := s.dropWhile isSeparator
def taken (s : CString) : CString := s.takeWhile fun c => !isSeparator c
def remaining (s : CString) : CString := s.dropWhile fun c => !isSeparator c

theorem length_remaining_lt {s : CString} (h : taken (skipped s) ≠ []) :
    (remaining (skipped s)).length < s.length := by
  have hlen : (taken (skipped s)).length + (remaining (skipped s)).length = (skipped s).length := by
    rw [← List.length_append]
    apply congrArg
    exact List.takeWhile_append_dropWhile
  have hle : (skipped s).length ≤ s.length := List.length_dropWhile_le ..
  have hpos : 0 < (taken (skipped s)).length := List.length_pos_iff.mpr h
  omega

/-! ## The search -/

/-- The errors after which the search goes on. -/
def Errno.goesOn : Errno → Bool
  | .ENOENT | .ENOTDIR | .EACCES | .ENAMETOOLONG => true
  | _ => false

/-- The result: 0 with the text in the buffer, -1, or -2. -/
inductive Result
  | found (buf : CString)
  | notFound
  | failed
deriving DecidableEq, Repr

/-- `"%.*s/%s"`. -/
def candidate (name dir : CString) : CString := dir ++ '/' :: name

variable {errno errno' : Errno}

section Search

variable (fs : CString → Stat) (name : CString) (bufSize : Nat)

/-- `snprintf` fails where it cannot return the length. -/
def overflows (dir : CString) : Prop := INT_MAX < (candidate name dir).length

instance : DecidablePred (overflows name) := fun _ => inferInstanceAs (Decidable (_ < _))

/-- One turn of the loop: the result, or the `errno` with which the loop goes on. -/
def visit (dir : CString) (errno : Errno) : Except (Result × Errno) Errno :=
  if dir = [] ∨ INT_MAX ≤ dir.length - 1 then .error (.notFound, errno)
  else if overflows name dir then .ok .EOVERFLOW
  else if (candidate name dir).length < bufSize then
    match fs (candidate name dir) with
    | .regular => .error (.found (candidate name dir), errno)
    -- this call of `stat` did not fail: `errno` is from before
    | .irregular => if errno.goesOn then .ok errno else .error (.failed, errno)
    | .error e => if e.goesOn then .ok e else .error (.failed, e)
  else .ok errno

theorem taken_ne_nil {dir : CString} (h : visit fs name bufSize dir errno = .ok errno') : dir ≠ [] := by
  rintro rfl
  simp [visit] at h

/-- The loop of `path_find`. -/
def path_find (s : CString) (errno : Errno) : Result × Errno :=
  match _h : visit fs name bufSize (taken (skipped s)) errno with
  | .error r => r
  | .ok errno' => path_find (remaining (skipped s)) errno'
termination_by s.length
decreasing_by exact length_remaining_lt (taken_ne_nil fs name bufSize _h)

/-- `_emscripten_find_dylib`. A string that is null is not searched. -/
def _emscripten_find_dylib (env_path rpath : Option CString) (errno : Errno) : Option CString × Errno :=
  if '/' ∈ name then (none, errno)
  else
    let search (s : Option CString) (errno : Errno) : Result × Errno :=
      match s with
      | none => (.notFound, errno)
      | some s => path_find fs name bufSize s errno
    match search env_path errno with
    | (.found buf, errno) => (some buf, errno)
    | (_, errno) =>
      match search rpath errno with
      | (.found buf, errno) => (some buf, errno)
      | (_, errno) => (none, errno)

/-! ## Elements -/

/-- The elements of a string, without those that are empty. -/
def elements (s : CString) : List CString := (s.splitOnP isSeparator).filter (· ≠ [])

variable (s : CString)

theorem elements_separator {c : Char} (h : isSeparator c) : elements (c :: s) = elements s := by
  unfold elements
  rw [List.splitOnP_cons_eq_if_modifyHead, if_pos h]
  rfl

theorem elements_skipped : elements (skipped s) = elements s := by
  induction s with
  | nil => rfl
  | cons c s ih =>
    cases h : isSeparator c with
    | true => simpa [skipped, h, elements_separator s h] using ih
    | false => simp [skipped, h]

theorem elements_append {dir : CString} (hdir : dir ≠ []) (h : ∀ c ∈ dir, isSeparator c = false) :
    ∀ s : CString, (∀ c ∈ s.head?, isSeparator c) → elements (dir ++ s) = dir :: elements s
  | [], _ => by
    unfold elements
    rw [List.append_nil, List.splitOnP_eq_singleton h]
    simp [hdir]
  | c :: s, hs => by
    have hc : isSeparator c := hs c rfl
    rw [elements_separator s hc]
    unfold elements
    rw [List.splitOnP_append_cons_of_forall_mem h c hc]
    simp [hdir]

theorem head_dropWhile {p : Char → Bool} {s : CString} {c : Char} (h : c ∈ (s.dropWhile p).head?) :
    p c = false := by
  have hhead := List.head?_dropWhile_not p s
  rw [Option.mem_def.mp h] at hhead
  exact hhead

/-- What is left when the separators are skipped begins with an element, if anything is left. -/
theorem elements_eq :
    elements s =
      if taken (skipped s) = [] then []
      else taken (skipped s) :: elements (remaining (skipped s)) := by
  have hs : taken (skipped s) ++ remaining (skipped s) = skipped s := List.takeWhile_append_dropWhile
  split
  · rename_i hnil
    have hskipped : skipped s = [] := by
      cases hcons : skipped s with
      | nil => rfl
      | cons c r =>
        -- the first character that is left is no separator, and would have been taken
        have hc : isSeparator c = false := head_dropWhile (p := isSeparator) (s := s) (by
          rw [show s.dropWhile isSeparator = c :: r from hcons]
          rfl)
        simp [hcons, taken, hc] at hnil
    rw [← elements_skipped s, hskipped]
    rfl
  · rename_i hne
    conv_lhs => rw [← elements_skipped s, ← hs]
    apply elements_append hne
    · intro c hc
      simpa using List.mem_takeWhile_imp hc
    · intro c hc
      simpa using head_dropWhile hc

/-! ## Runs -/

/-- The turns of the loop, one for each element. -/
def searchElements : List CString → Errno → Result × Errno
  | [], errno => (.notFound, errno)
  | dir :: dirs, errno =>
    match visit fs name bufSize dir errno with
    | .error r => r
    | .ok errno' => searchElements dirs errno'

/-- By induction on the length of the string: the loop goes over the elements. -/
theorem path_find_eq (errno : Errno) :
    path_find fs name bufSize s errno = searchElements fs name bufSize (elements s) errno := by
  fun_induction path_find fs name bufSize s errno with
  | case1 s errno r h =>
    rw [elements_eq]
    split
    · rename_i hnil
      simp only [hnil, visit, true_or, if_true, Except.error.injEq] at h
      exact h.symm
    · simp [searchElements, h]
  | case2 s errno errno' h ih =>
    rw [elements_eq, if_neg (taken_ne_nil fs name bufSize h)]
    simp [searchElements, h, ih]

/-- The candidate fits the buffer and is a regular file. -/
def Accepted (dir : CString) : Prop :=
  (candidate name dir).length < bufSize ∧ fs (candidate name dir) = .regular

/-- The candidate is absent, not a regular file, too long or below what is not a directory, or it may
not be looked at. -/
def Skipped (dir : CString) : Prop :=
  bufSize ≤ (candidate name dir).length ∨ fs (candidate name dir) = .irregular ∨
    ∃ e, e.goesOn = true ∧ fs (candidate name dir) = .error e

/-- The `errno` that a candidate leaves. -/
def errnoAfter (dir : CString) (errno : Errno) : Errno :=
  if overflows name dir then .EOVERFLOW
  else if (candidate name dir).length < bufSize then
    match fs (candidate name dir) with
    | .error e => e
    | _ => errno
  else errno

/-- The search goes on after a candidate that is skipped: its directory's text has at most `INT_MAX`
characters, and `errno` is not taken for the error of a call that did not fail. -/
def Passed (dir : CString) (errno : Errno) : Prop :=
  dir.length ≤ INT_MAX ∧
    ((candidate name dir).length < bufSize → fs (candidate name dir) = .irregular → errno.goesOn = true)

def Undisturbed : List CString → Errno → Prop
  | [], _ => True
  | dir :: dirs, errno =>
    Passed fs name bufSize dir errno ∧ Undisturbed dirs (errnoAfter fs name bufSize dir errno)

/-- The first candidate that fits the buffer and is a regular file is found, and no other. -/
def FindsFirst (s : CString) (errno : Errno) : Prop :=
  (∀ pre dir post, elements s = pre ++ dir :: post → (∀ d ∈ pre, Skipped fs name bufSize d) →
    Accepted fs name bufSize dir → (path_find fs name bufSize s errno).1 = .found (candidate name dir)) ∧
  ∀ buf, (path_find fs name bufSize s errno).1 = .found buf →
    ∃ pre dir post, elements s = pre ++ dir :: post ∧ (∀ d ∈ pre, Skipped fs name bufSize d) ∧
      Accepted fs name bufSize dir ∧ buf = candidate name dir

variable {fs name bufSize}

theorem visit_accepted {dir : CString} (hbuf : bufSize ≤ INT_MAX) (hdir : dir ≠ [])
    (h : Accepted fs name bufSize dir) (errno : Errno) :
    visit fs name bufSize dir errno = .error (.found (candidate name dir), errno) := by
  obtain ⟨hfits, hreg⟩ := h
  have hlen : dir.length < (candidate name dir).length := by simp [candidate]
  have hov : ¬ overflows name dir := by
    unfold overflows
    omega
  unfold visit
  rw [if_neg (by simp only [hdir, false_or]; omega), if_neg hov, if_pos hfits, hreg]

theorem visit_skipped {dir : CString} (hdir : dir ≠ []) (h : Skipped fs name bufSize dir)
    (hp : Passed fs name bufSize dir errno) :
    visit fs name bufSize dir errno = .ok (errnoAfter fs name bufSize dir errno) := by
  obtain ⟨hlen, herrno⟩ := hp
  have hpos : 0 < dir.length := List.length_pos_iff.mpr hdir
  unfold visit errnoAfter
  rw [if_neg (by simp only [hdir, false_or]; omega)]
  split
  · rfl
  · split
    · rename_i hfits
      obtain hlong | hirr | ⟨e, he, hfs⟩ := h
      · omega
      · rw [hirr]
        exact if_pos (herrno hfits hirr)
      · rw [hfs]
        exact if_pos he
    · rfl

/-- What is not passed ends the search. -/
theorem visit_stops {dir : CString} (hbuf : bufSize ≤ INT_MAX) (hp : ¬ Passed fs name bufSize dir errno) :
    ∃ r, visit fs name bufSize dir errno = .error r ∧ ∀ buf, r.1 ≠ .found buf := by
  by_cases hlen : dir.length ≤ INT_MAX
  · obtain ⟨hfits, hirr, herrno⟩ : (candidate name dir).length < bufSize ∧
        fs (candidate name dir) = .irregular ∧ ¬ errno.goesOn = true := by
      simpa [Passed, hlen] using hp
    cases hd : decide (dir = []) with
    | true =>
      refine ⟨(.notFound, errno), ?_, by simp⟩
      simp [visit, of_decide_eq_true hd]
    | false =>
      have hlt : dir.length < (candidate name dir).length := by simp [candidate]
      have hov : ¬ overflows name dir := by
        unfold overflows
        omega
      refine ⟨(.failed, errno), ?_, by simp⟩
      unfold visit
      rw [if_neg (by simp only [of_decide_eq_false hd, false_or]; omega), if_neg hov, if_pos hfits, hirr]
      exact if_neg herrno
  · -- the length is taken for that of an element that does not end
    refine ⟨(.notFound, errno), ?_, by simp⟩
    unfold visit
    exact if_pos (Or.inr (by omega))

/-- What is found is accepted, and what is passed before it was to be skipped. -/
theorem visit_found {dir : CString} {r : Result × Errno} {buf : CString}
    (h : visit fs name bufSize dir errno = .error r) (hr : r.1 = .found buf) :
    Accepted fs name bufSize dir ∧ buf = candidate name dir := by
  unfold visit at h
  split at h
  · cases h
    cases hr
  split at h
  · cases h
  split at h
  · rename_i hfits
    split at h
    · rename_i hreg
      cases h
      cases hr
      exact ⟨⟨hfits, hreg⟩, rfl⟩
    · split at h
      · cases h
      · cases h
        cases hr
    · split at h
      · cases h
      · cases h
        cases hr
  · cases h

theorem skipped_of_visit {dir : CString} (hbuf : bufSize ≤ INT_MAX)
    (h : visit fs name bufSize dir errno = .ok errno') : Skipped fs name bufSize dir := by
  by_cases hfits : (candidate name dir).length < bufSize
  · right
    have hov : ¬ overflows name dir := by
      unfold overflows
      omega
    unfold visit at h
    rw [if_neg hov, if_pos hfits] at h
    split at h
    · cases h
    · split at h
      · cases h
      · left
        assumption
      · rename_i e he
        split at h
        · right
          exact ⟨e, by assumption, he⟩
        · cases h
  · left
    exact Nat.le_of_not_lt hfits

/-- By induction on the elements before it, the first file is found exactly when they are passed. -/
theorem searchElements_first {dir : CString} (post : List CString) (hbuf : bufSize ≤ INT_MAX)
    (hdir : dir ≠ []) (hacc : Accepted fs name bufSize dir) :
    ∀ (pre : List CString) (errno : Errno), (∀ d ∈ pre, d ≠ [] ∧ Skipped fs name bufSize d) →
      ((searchElements fs name bufSize (pre ++ dir :: post) errno).1 = .found (candidate name dir) ↔
        Undisturbed fs name bufSize pre errno)
  | [], errno, _ => by
    simp [searchElements, Undisturbed, visit_accepted hbuf hdir hacc errno]
  | d :: pre, errno, hpre => by
    obtain ⟨⟨hd, hskip⟩, hpre⟩ := List.forall_mem_cons.mp hpre
    by_cases hp : Passed fs name bufSize d errno
    · have ih := searchElements_first post hbuf hdir hacc pre (errnoAfter fs name bufSize d errno) hpre
      simpa [searchElements, visit_skipped hd hskip hp, Undisturbed, hp] using ih
    · obtain ⟨r, hr, hne⟩ := visit_stops hbuf hp
      simp [searchElements, hr, Undisturbed, hp, hne]

/-- By induction on the elements: what is found is the first file. -/
theorem searchElements_found (buf : CString) (hbuf : bufSize ≤ INT_MAX) :
    ∀ (dirs : List CString) (errno : Errno), (searchElements fs name bufSize dirs errno).1 = .found buf →
      ∃ pre dir post, dirs = pre ++ dir :: post ∧ (∀ d ∈ pre, Skipped fs name bufSize d) ∧
        Accepted fs name bufSize dir ∧ buf = candidate name dir
  | [], _, h => by cases h
  | d :: dirs, errno, h => by
    unfold searchElements at h
    split at h
    · rename_i r hr
      obtain ⟨hacc, hbuf'⟩ := visit_found hr h
      exact ⟨[], d, dirs, rfl, by simp, hacc, hbuf'⟩
    · rename_i errno' hr
      obtain ⟨pre, dir, post, rfl, hpre, hacc, hbuf'⟩ := searchElements_found buf hbuf dirs errno' h
      refine ⟨d :: pre, dir, post, rfl, ?_, hacc, hbuf'⟩
      exact List.forall_mem_cons.mpr ⟨skipped_of_visit hbuf hr, hpre⟩

theorem ne_nil_of_mem_elements {s dir : CString} (h : dir ∈ elements s) : dir ≠ [] := by
  simpa using (List.mem_filter.mp h).2

/-! ## The first file -/

/-- The search finds the first file exactly when nothing that is to be skipped before it disturbs it.
The callers' buffer has 512 bytes. -/
theorem path_find_finds_first (fs : CString → Stat) (name : CString) (bufSize : Nat)
    (hbuf : bufSize ≤ INT_MAX) (s : CString) (errno : Errno) :
    FindsFirst fs name bufSize s errno ↔
      ∀ pre dir post, elements s = pre ++ dir :: post → (∀ d ∈ pre, Skipped fs name bufSize d) →
        Accepted fs name bufSize dir → Undisturbed fs name bufSize pre errno := by
  have hsplit : ∀ {pre dir post}, elements s = pre ++ dir :: post →
      (∀ d ∈ pre, d ≠ []) ∧ dir ≠ [] := by
    intro pre dir post hs
    refine ⟨fun d hd => ?_, ?_⟩
    · exact ne_nil_of_mem_elements (s := s) (by simp [hs, hd])
    · exact ne_nil_of_mem_elements (s := s) (by simp [hs])
  unfold FindsFirst
  rw [path_find_eq]
  constructor
  · rintro ⟨hfirst, -⟩ pre dir post hs hpre hacc
    have hfound := hfirst pre dir post hs hpre hacc
    rw [hs] at hfound
    exact (searchElements_first post hbuf (hsplit hs).2 hacc pre errno fun d hd =>
      ⟨(hsplit hs).1 d hd, hpre d hd⟩).mp hfound
  · intro hund
    refine ⟨?_, fun buf hfound => searchElements_found buf hbuf _ errno hfound⟩
    intro pre dir post hs hpre hacc
    have hmain := searchElements_first post hbuf (hsplit hs).2 hacc pre errno fun d hd =>
      ⟨(hsplit hs).1 d hd, hpre d hd⟩
    rw [hs]
    exact hmain.mpr (hund pre dir post hs hpre hacc)

theorem Undisturbed.of_append {pre post : List CString} (h : Undisturbed fs name bufSize (pre ++ post) errno) :
    Undisturbed fs name bufSize pre errno := by
  induction pre generalizing errno with
  | nil => trivial
  | cons d pre ih => exact ⟨h.1, ih h.2⟩

/-- A path that is returned is one of an element of the variable or of the path of the library. -/
theorem _emscripten_find_dylib_accepted {env_path rpath : Option CString} {buf : CString}
    (hbuf : bufSize ≤ INT_MAX)
    (h : _emscripten_find_dylib fs name bufSize env_path rpath errno = (some buf, errno')) :
    ∃ s dir, (env_path = some s ∨ rpath = some s) ∧ dir ∈ elements s ∧ Accepted fs name bufSize dir ∧
      buf = candidate name dir := by
  have hsearch : ∀ {s : CString} {errno errno' : Errno} {buf : CString},
      path_find fs name bufSize s errno = (.found buf, errno') →
        ∃ dir ∈ elements s, Accepted fs name bufSize dir ∧ buf = candidate name dir := by
    intro s errno errno' buf hs
    rw [path_find_eq] at hs
    obtain ⟨pre, dir, post, hdirs, -, hacc, hbuf'⟩ :=
      searchElements_found buf hbuf (elements s) errno (by rw [hs])
    exact ⟨dir, by simp [hdirs], hacc, hbuf'⟩
  unfold _emscripten_find_dylib at h
  split at h
  · cases h
  dsimp only at h
  split at h
  · rename_i hs
    cases h
    cases env_path with
    | none => cases hs
    | some s =>
      obtain ⟨dir, hdir, hacc⟩ := hsearch hs
      exact ⟨s, dir, Or.inl rfl, hdir, hacc⟩
  · split at h
    · rename_i hs
      cases h
      cases rpath with
      | none => cases hs
      | some s =>
        obtain ⟨dir, hdir, hacc⟩ := hsearch hs
        exact ⟨s, dir, Or.inr rfl, hdir, hacc⟩
    · cases h

end Search

/-- `/a/l` is a directory, and `/b/l` is a file. -/
def sampleFs (path : CString) : Stat :=
  if path = "/a/l".toList then .irregular
  else if path = "/b/l".toList then .regular
  else .error .ENOENT

/-- The second element of the variable has the library. -/
theorem _emscripten_find_dylib_accepted_sample :
    ∃ dir ∈ elements "/c:/b".toList, Accepted sampleFs "l".toList 512 dir := by
  have hrun : _emscripten_find_dylib sampleFs "l".toList 512 (some "/c:/b".toList) none .ENOENT =
      (some "/b/l".toList, .ENOENT) := by
    simp only [_emscripten_find_dylib, path_find_eq]
    decide
  obtain ⟨s, dir, hs, hdir, hacc, -⟩ := _emscripten_find_dylib_accepted (by decide) hrun
  cases hs with
  | inl hs =>
    cases hs
    exact ⟨dir, hdir, hacc⟩
  | inr hs => cases hs

theorem path_find_finds_first_sample : FindsFirst sampleFs "l".toList 512 "/c::/a:/b".toList .ENOENT := by
  apply (path_find_finds_first _ _ _ (by decide) _ _).mpr
  intro pre dir post hs _ _
  have hdirs : elements "/c::/a:/b".toList = ["/c".toList, "/a".toList, "/b".toList] := by decide
  have hall : Undisturbed sampleFs "l".toList 512 (elements "/c::/a:/b".toList) .ENOENT := by
    rw [hdirs]
    exact ⟨⟨by decide, by decide⟩, ⟨by decide, by decide⟩, ⟨by decide, by decide⟩, trivial⟩
  rw [hs] at hall
  exact hall.of_append

/-- Where no call has failed, a directory ends the search before the file. -/
theorem path_find_stops_early :
    elements "/a:/b".toList = ["/a".toList, "/b".toList] ∧
    sampleFs (candidate "l".toList "/a".toList) = .irregular ∧
    Accepted sampleFs "l".toList 512 "/b".toList ∧
    path_find sampleFs "l".toList 512 "/a:/b".toList (.other 0) = (.failed, .other 0) ∧
    ¬ FindsFirst sampleFs "l".toList 512 "/a:/b".toList (.other 0) := by
  have hrun : path_find sampleFs "l".toList 512 "/a:/b".toList (.other 0) = (.failed, .other 0) := by
    rw [path_find_eq]
    decide
  refine ⟨by decide, by decide, ⟨by decide, by decide⟩, hrun, ?_⟩
  rintro ⟨hfirst, -⟩
  have hfound := hfirst ["/a".toList] "/b".toList [] (by decide)
    (List.forall_mem_singleton.mpr (Or.inr (Or.inl (by decide)))) ⟨by decide, by decide⟩
  rw [hrun] at hfound
  cases hfound

end SearchPath
