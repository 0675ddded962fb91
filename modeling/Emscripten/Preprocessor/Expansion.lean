-- SUMMARY: The expansion of macros in a line of a shader, and when it ends.
import Mathlib.Data.Multiset.DershowitzManna
import Emscripten.Preprocessor.ExprTree

/-!
# Expansion of macros

`expandMacros` replaces the first macro that it finds and starts again with the whole line. It does not record
where a text comes from. Here every character of a line also carries the macros in whose expansion it stands, which
is what a preprocessor of C needs to leave a macro alone inside its own expansion.
-/

namespace Shader

open Unicode

/-! ## Definitions -/

def slice (s : List α) (a b : Nat) : List α := (s.take b).drop a

/-- `substring`, which takes its bounds in either order. -/
def substring (s : List α) (a b : Nat) : List α := slice s (min a b) (max a b)

/-- A definition: a function without arguments, one of its arguments, or the built-in `defined`. -/
inductive Definition where
  | value (text : Text)
  | call (params body : List Text)
  | defined

abbrev Definitions := List (Text × Definition)

def Definitions.get (defs : Definitions) (name : Text) : Option Definition :=
  (defs.find? fun d => d.1 = name).map (·.2)

/-- What an expansion is put together of: a text, or a part of the line. -/
inductive Part where
  | text (t : Text)
  | argument (start stop : Nat)

/-- `split(',')`: where the arguments stand in the line. -/
def argumentsFrom : Nat → Nat → Text → List (Nat × Nat)
  | start, pos, [] => [(start, pos)]
  | start, pos, c :: rest =>
    if c = 0x2C then (start, pos) :: argumentsFrom (pos + 1) (pos + 1) rest else argumentsFrom start (pos + 1) rest

/-- The call of a definition. -/
def Definition.parts (defs : Definitions) (str : Text) (args : List (Nat × Nat)) : Definition → List Part
  | value text => [.text text]
  | call params body => body.map fun x =>
    if x ∈ params then
      match args[params.idxOf x]? with
      | some (start, stop) => .argument start stop
      | none => .text (word "undefined")
    else .text x
  | defined =>
    let name := args.head?.elim [] fun (start, stop) => trim (slice str start stop)
    [.text (word (if (defs.get name).isSome then "1" else "0"))]

/-! ## The search for a macro -/

/-- A macro that is found: its name from `i` to `nameEnd`, the end `j` of its call, and what the call gives. There
is no end without the closing parenthesis. -/
structure Site where
  name : Text
  i : Nat
  nameEnd : Nat
  j : Option Nat
  parts : List Part

def skipWhitespace (str : Text) (j : Nat) : Nat := j + ((str.drop j).takeWhile isWhitespace).length

def nextWhitespace (str : Text) (i : Nat) : Nat := i + ((str.drop i).takeWhile (!isWhitespace ·)).length

/-- The call of a function with arguments, whose parts are `pp` of them. -/
def callSite (str name : Text) (i nameEnd : Nat) (pp : List (Nat × Nat) → List Part) : Site :=
  let j := skipWhitespace str nameEnd
  if str[j]? = some 0x28 then
    match find_closing_parens_index str j 0x28 0x29 with
    | some closeParens =>
      ⟨name, i, nameEnd, some (closeParens + 1), pp (argumentsFrom (j + 1) (j + 1) (slice str (j + 1) closeParens))⟩
    | none => ⟨name, i, nameEnd, none, pp (argumentsFrom (j + 1) (j + 1) (str.drop (j + 1)))⟩
  else ⟨name, i, nameEnd, some (nextWhitespace str j), pp [(j, nextWhitespace str j)]⟩

def Definition.site (defs : Definitions) (str name : Text) (i j : Nat) : Definition → Site
  | value text => ⟨name, i, j, some j, [.text text]⟩
  | pp => callSite str name i j (pp.parts defs str)

/-- The first character behind `i` that is neither a letter nor a digit. -/
def symbolEnd (str : Text) (lineEnd i : Nat) : Option Nat :=
  (List.range' (i + 1) (lineEnd - i)).find? fun j => classifyChar str[j]? ≠ 2 ∧ classifyChar str[j]? ≠ 3

inductive Found where
  | site (s : Site)
  | out (text : Text)

/-- The loop over the line. The code passes over no macro. -/
def search (defs : Definitions) (passed : Nat → Nat → Bool) (str : Text) (lineEnd : Nat) : Nat → Nat → Text → Found
  | 0, _, out => .out out
  | k + 1, i, out =>
    if lineEnd ≤ i then .out out
    else if classifyChar str[i]? = 3 then
      match symbolEnd str lineEnd i with
      | none => search defs passed str lineEnd k (i + 1) out
      | some j =>
        let symbol := slice str i j
        match defs.get symbol with
        | none => search defs passed str lineEnd k j (out ++ symbol)
        | some pp =>
          if passed i j then search defs passed str lineEnd k j (out ++ symbol)
          else .site (pp.site defs str symbol i j)
    else search defs passed str lineEnd k (i + 1) (out ++ str[i]?.toList)

/-! ## Expansion -/

def Part.chars (str : Text) : Part → Text
  | text t => t
  | argument start stop => slice str start stop

/-- The line with the expansion. Where there is no end, the whole line follows. -/
def Site.next (s : Site) (str : Text) (lineStart lineEnd : Nat) : Text :=
  slice str lineStart s.i ++ s.parts.flatMap (Part.chars str) ++ substring str (s.j.getD 0) lineEnd

/-- At most so many expansions. -/
def expandMacros (defs : Definitions) : Nat → Text → Nat → Nat → Option Text
  | 0, _, _, _ => none
  | k + 1, str, lineStart, lineEnd =>
    match search defs (fun _ _ => false) str lineEnd (lineEnd - lineStart) lineStart [] with
    | .out text => some text
    | .site s =>
      let str := s.next str lineStart lineEnd
      expandMacros defs k str 0 str.length

/-- `#define`. -/
def define (defs : Definitions) (k : Nat) (expression : Text) : Option Definitions :=
  let firstWs := (expression.takeWhile (!isWhitespace ·)).length
  let macroStart := expression.idxOf 0x28
  if 0 < macroStart ∧ macroStart < expression.length ∧ macroStart ≤ firstWs then
    let behind := expression.drop (macroStart + 1)
    -- without `)` both parts are cut at zero
    let params := if 0x29 ∈ behind then behind.takeWhile (· ≠ 0x29) else expression.take (macroStart + 1)
    let body := if 0x29 ∈ behind then (behind.dropWhile (· ≠ 0x29)).drop 1 else expression
    let params := (argumentsFrom 0 0 params).map fun (a, b) => trim (slice params a b)
    some ((expression.take macroStart, .call params (tokenize (trim body))) :: defs)
  else
    let value := trim (expression.drop (firstWs + 1))
    (expandMacros defs k value 0 value.length).map fun value => (expression.take firstWs, .value value) :: defs

/-! ## Where a text comes from -/

/-- A line in which every character has the macros in whose expansion it stands. -/
abbrev Painted := List (UInt16 × List Text)

def plain (p : Painted) : Text := p.map (·.1)

def unpainted (str : Text) : Painted := str.map fun c => (c, [])

def Part.painted (name : Text) (inside : List Text) (p : Painted) : Part → Painted
  | text t => t.map fun c => (c, name :: inside)
  | argument start stop => (slice p start stop).map fun c => (c.1, name :: c.2)

def Site.paintedNext (s : Site) (p : Painted) (lineStart lineEnd : Nat) : Painted :=
  let inside := (slice p s.i s.nameEnd).flatMap (·.2)
  slice p lineStart s.i ++ s.parts.flatMap (Part.painted s.name inside p) ++ substring p (s.j.getD 0) lineEnd

/-- A name with a character from an expansion of that macro. -/
def isOwn (p : Painted) (i j : Nat) : Bool := (slice p i j).any fun c => slice (plain p) i j ∈ c.2

/-- The same expansion with the names left alone that stand in an expansion of theirs. -/
def expandOnce (defs : Definitions) : Nat → Painted → Nat → Nat → Option Text
  | 0, _, _, _ => none
  | k + 1, p, lineStart, lineEnd =>
    match search defs (isOwn p) (plain p) lineEnd (lineEnd - lineStart) lineStart [] with
    | .out text => some text
    | .site s =>
      let p := s.paintedNext p lineStart lineEnd
      expandOnce defs k p 0 p.length

/-- The call is closed, and nothing in it is from an expansion of the same macro. -/
def Site.Clean (s : Site) (p : Painted) : Prop := ∃ j, s.j = some j ∧ ∀ c ∈ slice p s.i j, s.name ∉ c.2

/-- The first expansions of the code are of calls of this kind. -/
def CleanRun (defs : Definitions) : Nat → Painted → Nat → Nat → Prop
  | 0, _, _, _ => True
  | k + 1, p, lineStart, lineEnd =>
    match search defs (fun _ _ => false) (plain p) lineEnd (lineEnd - lineStart) lineStart [] with
    | .out _ => True
    | .site s =>
      s.Clean p ∧
        let p := s.paintedNext p lineStart lineEnd
        CleanRun defs k p 0 p.length

/-! ## Slices -/

variable {defs : Definitions} {p : Painted} {s : List α}

theorem mem_slice {a b : Nat} {x : α} : x ∈ slice s a b ↔ ∃ n, a ≤ n ∧ n < b ∧ s[n]? = some x := by
  unfold slice
  rw [List.mem_iff_getElem?]
  constructor
  · rintro ⟨n, hn⟩
    rw [List.getElem?_drop, List.getElem?_take] at hn
    split at hn
    · next hlt => exact ⟨a + n, Nat.le_add_right a n, hlt, hn⟩
    · cases hn
  · rintro ⟨n, hle, hlt, hn⟩
    refine ⟨n - a, ?_⟩
    rw [List.getElem?_drop, List.getElem?_take, Nat.add_sub_cancel' hle, if_pos hlt]
    exact hn

theorem mem_slice_of_le {a b i j : Nat} {x : α} (hx : x ∈ slice s a b) (hi : i ≤ a) (hj : b ≤ j) :
    x ∈ slice s i j := by
  obtain ⟨n, hle, hlt, hn⟩ := mem_slice.1 hx
  exact mem_slice.2 ⟨n, Nat.le_trans hi hle, Nat.lt_of_lt_of_le hlt hj, hn⟩

theorem map_slice (f : α → β) (s : List α) (a b : Nat) : (slice s a b).map f = slice (s.map f) a b := by
  unfold slice
  rw [List.map_drop, List.map_take]

theorem slice_append {i j : Nat} (h : i ≤ j) : slice s 0 i ++ slice s i j ++ s.drop j = s := by
  have htake : s.take i = (s.take j).take i := by rw [List.take_take, Nat.min_eq_left h]
  unfold slice
  rw [List.drop_zero, htake, List.take_append_drop, List.take_append_drop]

/-! ## What is found -/

theorem closingFrom_lt {left right : UInt16} {n : Int} {arr : Text} {m : Nat}
    (h : closingFrom left right n arr = some m) : m < arr.length := by
  induction arr generalizing n m with
  | nil => cases h
  | cons a rest ih =>
    have hnext : ∀ {n : Int}, (closingFrom left right n rest).map (· + 1) = some m → m < (a :: rest).length := by
      intro n h
      obtain ⟨k, hk, rfl⟩ := Option.map_eq_some_iff.1 h
      exact Nat.succ_lt_succ (ih hk)
    rw [closingFrom] at h
    by_cases hclose : a = right
    · rw [if_pos hclose] at h
      generalize (if a = left then n + 1 else n) = nesting at h
      by_cases hzero : nesting - 1 = 0
      · rw [if_pos hzero] at h
        obtain rfl := Option.some.inj h
        exact Nat.succ_pos _
      · rw [if_neg hzero] at h
        exact hnext h
    · rw [if_neg hclose] at h
      exact hnext h

theorem mem_argumentsFrom {start pos a b : Nat} {t : Text} (h : (a, b) ∈ argumentsFrom start pos t)
    (hle : start ≤ pos) : start ≤ a ∧ b ≤ pos + t.length := by
  induction t generalizing start pos with
  | nil =>
    obtain ⟨rfl, rfl⟩ := Prod.mk.inj (List.mem_singleton.1 h)
    exact ⟨Nat.le_refl _, Nat.le_refl _⟩
  | cons c t ih =>
    simp only [argumentsFrom] at h
    rw [List.length_cons]
    split at h
    · obtain heq | h := List.mem_cons.1 h
      · obtain ⟨rfl, rfl⟩ := Prod.mk.inj heq
        exact ⟨Nat.le_refl _, Nat.le_add_right _ _⟩
      · have := ih h (Nat.le_refl _)
        omega
    · have := ih h (Nat.le_succ_of_le hle)
      omega

theorem mem_parts {str : Text} {args : List (Nat × Nat)} {pp : Definition} {a b : Nat}
    (h : Part.argument a b ∈ pp.parts defs str args) : (a, b) ∈ args := by
  cases pp with
  | value text => cases List.mem_singleton.1 h
  | defined => cases List.mem_singleton.1 h
  | call params body =>
    obtain ⟨x, -, hx⟩ := List.mem_map.1 h
    split at hx
    · split at hx
      · next hget =>
        obtain ⟨rfl, rfl⟩ := Part.argument.inj hx
        exact List.mem_of_getElem? hget
      · cases hx
    · cases hx

theorem length_takeWhile_le (p : UInt16 → Bool) {str : Text} {j : Nat} (hj : j ≤ str.length) :
    j + ((str.drop j).takeWhile p).length ≤ str.length := by
  have hle : ((str.drop j).takeWhile p).length ≤ (str.drop j).length := (List.takeWhile_prefix p).length_le
  rw [List.length_drop] at hle
  omega

/-- The call is a part of the line behind the name, and so are its arguments. -/
structure Site.Within (s : Site) (str : Text) : Prop where
  name_lt : s.i < s.nameEnd
  bounds : ∀ j, s.j = some j → s.nameEnd ≤ j ∧ j ≤ str.length ∧ ∀ a b, .argument a b ∈ s.parts → s.i ≤ a ∧ b ≤ j

theorem within_some {str name : Text} {i nameEnd j : Nat} {parts : List Part} (hlt : i < nameEnd) (hle : nameEnd ≤ j)
    (hlen : j ≤ str.length) (hparts : ∀ a b, .argument a b ∈ parts → i ≤ a ∧ b ≤ j) :
    (Site.mk name i nameEnd (some j) parts).Within str := by
  refine ⟨hlt, ?_⟩
  intro j' hj'
  obtain rfl : j = j' := Option.some.inj hj'
  exact ⟨hle, hlen, hparts⟩

theorem callSite_within {str : Text} (name : Text) {i nameEnd : Nat} (hlt : i < nameEnd) (hlen : nameEnd ≤ str.length)
    {pp : List (Nat × Nat) → List Part} (hpp : ∀ args a b, .argument a b ∈ pp args → (a, b) ∈ args) :
    (callSite str name i nameEnd pp).Within str := by
  have hskip : nameEnd ≤ skipWhitespace str nameEnd := Nat.le_add_right _ _
  have hstart : skipWhitespace str nameEnd ≤ str.length := length_takeWhile_le isWhitespace hlen
  unfold callSite
  generalize skipWhitespace str nameEnd = start at hskip hstart
  simp only
  split
  · split
    · next close hclose =>
      obtain ⟨m, hm, rfl⟩ := Option.map_eq_some_iff.1 hclose
      have hend := closingFrom_lt hm
      rw [List.length_drop] at hend
      apply within_some hlt (by omega) (by omega)
      intro a b hab
      have hin := mem_argumentsFrom (hpp _ a b hab) (Nat.le_refl _)
      have hcut : (slice str (start + 1) (start + m)).length ≤ m - 1 := by
        unfold slice
        rw [List.length_drop, List.length_take]
        omega
      omega
    · refine ⟨hlt, fun j hj => ?_⟩
      cases hj
  · have hstop : nextWhitespace str start ≤ str.length := length_takeWhile_le (!isWhitespace ·) hstart
    have hle : start ≤ nextWhitespace str start := Nat.le_add_right _ _
    apply within_some hlt (Nat.le_trans hskip hle) hstop
    intro a b hab
    obtain ⟨rfl, rfl⟩ := Prod.mk.inj (List.mem_singleton.1 (hpp _ a b hab))
    exact ⟨by omega, Nat.le_refl _⟩

theorem Definition.site_within {str : Text} (name : Text) {i nameEnd : Nat} (hlt : i < nameEnd)
    (hlen : nameEnd ≤ str.length) (pp : Definition) : (pp.site defs str name i nameEnd).Within str := by
  have hcall : ∀ pp : Definition, (callSite str name i nameEnd (pp.parts defs str)).Within str :=
    fun pp => callSite_within name hlt hlen fun args a b => mem_parts
  cases pp with
  | value text =>
    apply within_some hlt (Nat.le_refl _) hlen
    intro a b hab
    cases List.mem_singleton.1 hab
  | call params body => exact hcall _
  | defined => exact hcall _

theorem Definitions.mem_of_get {name : Text} {pp : Definition} (h : defs.get name = some pp) :
    name ∈ defs.map (·.1) := by
  obtain ⟨d, hd, -⟩ := Option.map_eq_some_iff.1 h
  refine List.mem_map.2 ⟨d, List.mem_of_find?_eq_some hd, ?_⟩
  simpa using List.find?_some hd

theorem callSite_name (str name : Text) (i j : Nat) (pp : List (Nat × Nat) → List Part) :
    (callSite str name i j pp).name = name ∧ (callSite str name i j pp).i = i ∧ (callSite str name i j pp).nameEnd = j := by
  simp only [callSite]
  split
  · split <;> exact ⟨rfl, rfl, rfl⟩
  · exact ⟨rfl, rfl, rfl⟩

theorem Definition.site_name (defs : Definitions) (str name : Text) (i j : Nat) (pp : Definition) :
    (pp.site defs str name i j).name = name ∧ (pp.site defs str name i j).i = i ∧
      (pp.site defs str name i j).nameEnd = j := by
  cases pp with
  | value text => exact ⟨rfl, rfl, rfl⟩
  | call params body => exact callSite_name str name i j _
  | defined => exact callSite_name str name i j _

theorem symbolEnd_bounds {str : Text} {lineEnd i j : Nat} (h : symbolEnd str lineEnd i = some j) (hi : i < lineEnd) :
    i < j ∧ j ≤ lineEnd := by
  have hmem := List.mem_range'_1.1 (List.mem_of_find?_eq_some h)
  omega

/-- What is found is a macro, and the code finds it too where nothing is passed over. -/
structure Site.OfSearch (s : Site) (defs : Definitions) (str : Text) : Prop where
  within : s.Within str
  name_mem : s.name ∈ defs.map (·.1)
  name_eq : s.name = slice str s.i s.nameEnd

theorem search_site {passed : Nat → Nat → Bool} {str : Text} {lineEnd : Nat} (hend : lineEnd ≤ str.length)
    {k i : Nat} {out : Text} {s : Site} (h : search defs passed str lineEnd k i out = .site s) :
    s.OfSearch defs str := by
  induction k generalizing i out with
  | zero => cases h
  | succ k ih =>
    rw [search] at h
    split at h
    · cases h
    split at h
    · next hlt hkind =>
      split at h
      · exact ih h
      · next j hj =>
        have hbounds := symbolEnd_bounds hj (Nat.lt_of_not_le hlt)
        simp only at h
        split at h
        · exact ih h
        · next pp hpp =>
          split at h
          · exact ih h
          · obtain rfl := Found.site.inj h
            obtain ⟨hname, hi, hnameEnd⟩ := pp.site_name defs str (slice str i j) i j
            refine ⟨pp.site_within _ hbounds.1 (Nat.le_trans hbounds.2 hend), ?_, ?_⟩
            · rw [hname]
              exact Definitions.mem_of_get hpp
            · rw [hname, hi, hnameEnd]
    · exact ih h

/-- To pass over macros changes nothing where the first one is not passed over. -/
theorem search_passed {passed : Nat → Nat → Bool} {str : Text} {lineEnd k i : Nat} {out : Text}
    (h : ∀ s, search defs (fun _ _ => false) str lineEnd k i out = .site s → passed s.i s.nameEnd = false) :
    search defs passed str lineEnd k i out = search defs (fun _ _ => false) str lineEnd k i out := by
  induction k generalizing i out with
  | zero => rfl
  | succ k ih =>
    rw [search] at h ⊢
    rw [search]
    split
    · rfl
    · next hlt =>
      rw [if_neg hlt] at h
      split
      · next hkind =>
        rw [if_pos hkind] at h
        split
        · next hnone =>
          rw [hnone] at h
          exact ih h
        · next j hj =>
          rw [hj] at h
          simp only at h ⊢
          split
          · next hget =>
            rw [hget] at h
            exact ih h
          · next pp hget =>
            rw [hget] at h
            obtain ⟨-, hi, hnameEnd⟩ := pp.site_name defs str (slice str i j) i j
            have hkeep := h _ rfl
            rw [hi, hnameEnd] at hkeep
            rw [hkeep]
            rfl
      · next hkind =>
        rw [if_neg hkind] at h
        exact ih h

/-! ## Every expansion lowers the ranks -/

theorem plain_unpainted (str : Text) : plain (unpainted str) = str := by
  simp [plain, unpainted, Function.comp_def]

theorem plain_painted (name : Text) (inside : List Text) (p : Painted) (part : Part) :
    plain (part.painted name inside p) = part.chars (plain p) := by
  cases part with
  | text t => simp [Part.painted, Part.chars, plain, Function.comp_def]
  | argument start stop =>
    simp only [Part.painted, Part.chars, plain, List.map_map, Function.comp_def, map_slice]

/-- The code's line is the painted one without its colours. -/
theorem plain_paintedNext (s : Site) (p : Painted) (lineStart lineEnd : Nat) :
    plain (s.paintedNext p lineStart lineEnd) = s.next (plain p) lineStart lineEnd := by
  have hparts : ∀ inside, plain (s.parts.flatMap (Part.painted s.name inside p)) =
      s.parts.flatMap (Part.chars (plain p)) := by
    intro inside
    unfold plain
    rw [List.map_flatMap]
    exact List.flatMap_congr fun part _ => plain_painted s.name inside p part
  have hslice : ∀ a b, plain (slice p a b) = slice (plain p) a b := fun a b => map_slice _ p a b
  have happend : ∀ p q : Painted, plain (p ++ q) = plain p ++ plain q := fun p q => List.map_append
  rw [Site.paintedNext, happend, happend, hparts, substring, hslice, hslice]
  rfl

theorem length_plain (p : Painted) : (plain p).length = p.length := List.length_map _

/-- How many macros may still be expanded in a character. -/
def rank (names : List Text) (colours : List Text) : Nat := (names.filter fun m => m ∉ colours).length

theorem rank_lt {names a b : List Text} {n : Text} (hsub : b ⊆ a) (hmem : n ∈ names) (ha : n ∈ a) (hb : n ∉ b) :
    rank names a < rank names b := by
  have hfilter : names.filter (fun m => m ∉ a) = (names.filter fun m => m ∉ b).filter fun m => m ∉ a := by
    rw [List.filter_filter]
    apply List.filter_congr
    intro m _
    by_cases hm : m ∈ a
    · simp [hm]
    · have hm' : m ∉ b := fun hin => hm (hsub hin)
      simp [hm, hm']
  unfold rank
  rw [hfilter]
  apply List.length_filter_lt_length_iff_exists.2
  exact ⟨n, List.mem_filter.2 ⟨hmem, decide_eq_true hb⟩, by simp [ha]⟩

def ranks (names : List Text) (p : Painted) : Multiset Nat := (p.map fun c => rank names c.2 : List Nat)

theorem ranks_append (names : List Text) (p q : Painted) : ranks names (p ++ q) = ranks names p + ranks names q := by
  simp [ranks]

/-- What an expansion gives is below something that it takes. -/
theorem ranks_paintedNext {s : Site} (hsite : s.OfSearch defs (plain p)) (hclean : s.Clean p) :
    Multiset.IsDershowitzMannaLT (ranks (defs.map (·.1)) (s.paintedNext p 0 p.length))
      (ranks (defs.map (·.1)) p) := by
  obtain ⟨j, hj, hown⟩ := hclean
  obtain ⟨hle, hlen, hparts⟩ := hsite.within.bounds j hj
  have hlt := hsite.within.name_lt
  rw [length_plain] at hlen
  have hij : s.i ≤ j := by omega
  have hrest : substring p (s.j.getD 0) p.length = p.drop j := by
    rw [hj]
    unfold substring slice
    rw [Option.getD_some, Nat.min_eq_left hlen, Nat.max_eq_right hlen, List.take_length]
  obtain ⟨c, hc⟩ : ∃ c, p[s.i]? = some c := ⟨_, List.getElem?_eq_getElem (by omega)⟩
  have hfirst : c ∈ slice p s.i s.nameEnd := mem_slice.2 ⟨s.i, Nat.le_refl _, hlt, hc⟩
  have htaken : c ∈ slice p s.i j := mem_slice_of_le hfirst (Nat.le_refl _) hle
  have hname := hsite.name_mem
  generalize defs.map (·.1) = names at hname ⊢
  refine ⟨ranks names (slice p 0 s.i ++ p.drop j), ranks names (s.parts.flatMap
    (Part.painted s.name ((slice p s.i s.nameEnd).flatMap (·.2)) p)), ranks names (slice p s.i j), ?_, ?_, ?_, ?_⟩
  · intro hempty
    have hmem : rank names c.2 ∈ ranks names (slice p s.i j) :=
      Multiset.mem_coe.2 (List.mem_map.2 ⟨c, htaken, rfl⟩)
    rw [hempty] at hmem
    cases hmem
  · rw [Site.paintedNext, hrest, ranks_append, ranks_append, ranks_append, add_right_comm]
  · have hsplit : ranks names p = ranks names (slice p 0 s.i ++ slice p s.i j ++ p.drop j) := by
      rw [slice_append hij]
    rw [hsplit, ranks_append, ranks_append, ranks_append, add_right_comm]
  · intro y hy
    obtain ⟨d, hd, rfl⟩ := List.mem_map.1 (Multiset.mem_coe.1 hy)
    obtain ⟨part, hpart, hd⟩ := List.mem_flatMap.1 hd
    cases part with
    | text t =>
      obtain ⟨u, -, rfl⟩ := List.mem_map.1 hd
      refine ⟨_, Multiset.mem_coe.2 (List.mem_map.2 ⟨c, htaken, rfl⟩), ?_⟩
      apply rank_lt _ hname List.mem_cons_self (hown c htaken)
      exact fun m hm => List.mem_cons_of_mem _ (List.mem_flatMap.2 ⟨c, hfirst, hm⟩)
    | argument start stop =>
      obtain ⟨u, hu, rfl⟩ := List.mem_map.1 hd
      obtain ⟨hstart, hstop⟩ := hparts start stop hpart
      have hin := mem_slice_of_le hu hstart hstop
      refine ⟨_, Multiset.mem_coe.2 (List.mem_map.2 ⟨u, hin, rfl⟩), ?_⟩
      exact rank_lt (List.subset_cons_self _ _) hname List.mem_cons_self (hown u hin)

/-! ## Runs -/

/-- What both ways of expansion come to. -/
def Ends (defs : Definitions) (p : Painted) (lineStart lineEnd : Nat) : Prop :=
  ∃ k out, expandMacros defs k (plain p) lineStart lineEnd = some out ∧ expandOnce defs k p lineStart lineEnd = some out

theorem isOwn_clean {s : Site} (hsite : s.OfSearch defs (plain p)) (hclean : s.Clean p) :
    isOwn p s.i s.nameEnd = false := by
  obtain ⟨j, hj, hown⟩ := hclean
  obtain ⟨hle, -, -⟩ := hsite.within.bounds j hj
  apply List.any_eq_false.2
  intro c hc
  rw [← hsite.name_eq, decide_eq_true_eq]
  exact hown c (mem_slice_of_le hc (Nat.le_refl _) hle)

/-- A clean expansion is one step of both. -/
theorem Ends.step {lineStart lineEnd : Nat} (hend : lineEnd ≤ p.length)
    (hclean : CleanRun defs 1 p lineStart lineEnd)
    (hnext : ∀ s, search defs (fun _ _ => false) (plain p) lineEnd (lineEnd - lineStart) lineStart [] = .site s →
      Ends defs (s.paintedNext p lineStart lineEnd) 0 (s.paintedNext p lineStart lineEnd).length) :
    Ends defs p lineStart lineEnd := by
  rw [← length_plain] at hend
  cases hfound : search defs (fun _ _ => false) (plain p) lineEnd (lineEnd - lineStart) lineStart [] with
  | out text =>
    have hnone : ∀ s, search defs (fun _ _ => false) (plain p) lineEnd (lineEnd - lineStart) lineStart [] = .site s →
        isOwn p s.i s.nameEnd = false := fun s hs => Found.noConfusion (hfound.symm.trans hs)
    have hsame := search_passed hnone
    refine ⟨1, text, ?_, ?_⟩
    · rw [expandMacros, hfound]
    · rw [expandOnce, hsame, hfound]
  | site s =>
    rw [CleanRun, hfound] at hclean
    have hsite := search_site hend hfound
    have hnone : ∀ s', search defs (fun _ _ => false) (plain p) lineEnd (lineEnd - lineStart) lineStart [] =
        .site s' → isOwn p s'.i s'.nameEnd = false := by
      intro s' hs'
      obtain rfl := Found.site.inj (hfound.symm.trans hs')
      exact isOwn_clean hsite hclean.1
    have hsame := search_passed hnone
    obtain ⟨k, out, hcode, honce⟩ := hnext s hfound
    rw [plain_paintedNext] at hcode
    rw [← length_plain, plain_paintedNext] at hcode
    refine ⟨k + 1, out, ?_, ?_⟩
    · rw [expandMacros, hfound]
      exact hcode
    · rw [expandOnce, hsame, hfound]
      exact honce

theorem ends_of_cleanRun (p : Painted) (h : ∀ k, CleanRun defs k p 0 p.length) : Ends defs p 0 p.length := by
  have hwf := InvImage.wf (ranks (defs.map (·.1))) Multiset.wellFounded_isDershowitzMannaLT
  induction p using hwf.induction with
  | _ p ih =>
    apply Ends.step (Nat.le_refl _) (h 1)
    intro s hs
    have hrun : ∀ k, s.Clean p ∧ CleanRun defs k (s.paintedNext p 0 p.length) 0 (s.paintedNext p 0 p.length).length := by
      intro k
      have hk := h (k + 1)
      rw [CleanRun, hs] at hk
      exact hk
    have hsite := search_site (Nat.le_of_eq (length_plain p).symm) hs
    exact ih _ (ranks_paintedNext hsite (hrun 0).1) fun k => (hrun k).2

end Shader
