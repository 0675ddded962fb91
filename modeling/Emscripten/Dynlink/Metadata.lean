-- SUMMARY: The dylink.0 section of a side module, as the run-time reader and the build-time reader read it.
import Emscripten.JsRuntime.TextDecoding
import Emscripten.Lib.Readers

/-!
# Metadata of side modules

`getDylinkMetadata` reads the subsections of a dylink.0 section as `parse_dylink_section` does, but it counts in
doubles, cuts strings at NUL, takes a single byte for a kind and keeps the last list of libraries only.
-/

namespace Dylink

open Unicode Strings Reader

/-! ## Subsections -/

/-- What a subsection holds, by the numbers and strings of its reader. -/
inductive Content (N S : Type) where
  | memInfo (sizes : (N × N) × N × N)
  | needed (names : N × List S)
  | exportInfo (symbols : N × List (S × N))
  | importInfo (symbols : N × List ((S × S) × N))
  | runtimePath (paths : N × List S)
  | unknown

def counted (num : Reader N) (value : N → Nat) (r : Reader α) : Reader (N × List α) :=
  dependent num fun count => r.times (value count)

/-- The branches for the kinds, in both readers. -/
def content (num : Reader N) (value : N → Nat) (str : Reader S) (kind size : Nat) : Reader (Content N S) :=
  match kind with
  | 1 => map .memInfo (pair (pair num num) (pair num num))
  | 2 => map .needed (counted num value str)
  | 3 => map .exportInfo (counted num value (pair str num))
  | 4 => map .importInfo (counted num value (pair (pair str str) num))
  | 5 => map .runtimePath (counted num value str)
  | _ => fun off => some (.unknown, off + size)

def position : Reader Nat := fun off => some (off, off)

/-- The size of the section, the offset behind it, the name and the subsections. -/
def dylinkSection (num : Reader N) (value : N → Nat) (str : Reader S) (text : S → Text)
    (subsection : Reader α) : Reader (((N × Nat) × S) × List α) :=
  dependent (pair (pair num position) str) fun x =>
    -- the name is dylink.0
    if text x.2 = [0x64, 0x79, 0x6C, 0x69, 0x6E, 0x6B, 0x2E, 0x30] then
      subsection.untilEnd (x.1.2 + value x.1.1) (x.1.2 + value x.1.1)
    else fun _ => none

/-! ## The build-time reader -/

/-- A number and the bytes that it takes. -/
structure Num where
  value : Nat
  length : Nat

/-- A string, with the bytes that were there of those that are announced. -/
structure Str where
  announced : Num
  bytes : List UInt8
  text : Text

def decodeReader : List UInt8 → Option Num
  | [] => none
  | c :: rest =>
    if c.toNat < 128 then some ⟨c.toNat, 1⟩
    else (decodeReader rest).map fun n => ⟨c.toNat % 128 + 128 * n.value, n.length + 1⟩

def read_uleb (file : List UInt8) : Reader Num := fun off =>
  (decodeReader (file.drop off)).map fun n => (n, off + n.length)

/-- The strict decoder: there are characters with these bytes. -/
def decode (bs : List UInt8) : Option Text :=
  let cs := (Utf8Decoder.run Utf8Decoder.initial bs).map Char.ofNat
  if bytes cs = bs then some ((cs.map Char.toNat).flatMap units) else none

def read_string (file : List UInt8) : Reader Str := fun off =>
  (read_uleb file off).bind fun x =>
    let bs := (file.drop x.2).take x.1.value
    (decode bs).map fun text => (⟨x.1, bs, text⟩, x.2 + bs.length)

/-- One turn of the loop, with the assertion behind it. -/
def readSubsection (file : List UInt8) : Reader ((Num × Num) × Content Num Str) :=
  dependent (pair (read_uleb file) (read_uleb file)) fun x off =>
    (content (read_uleb file) Num.value (read_string file) x.1.value x.2.value off).bind fun y =>
      if y.2 = off + x.2.value then some y else none

/-- What is read of a section, and the offset behind it. -/
abbrev Document := (((Num × Nat) × Str) × List ((Num × Num) × Content Num Str)) × Nat

def Content.isMemInfo : Content N S → Bool
  | memInfo _ => true
  | _ => false

/-- A file whose first section is a dylink.0 section. The sizes that are returned must have been set. -/
def parse_dylink_section (file : List UInt8) : Option Document :=
  if file.take 9 = [0, 0x61, 0x73, 0x6D, 1, 0, 0, 0, 0] then
    (dylinkSection (read_uleb file) Num.value (read_string file) Str.text (readSubsection file) 9).filter
      fun d => d.1.2.any fun s => s.2.isMemInfo
  else none

/-! ## The run-time reader -/

/-- The loop of `getLEB`, where `mul` is `128 ^ k`. There is no number where a double would not be exact. -/
def getLEBFrom : Nat → Nat → List UInt8 → Option (Nat × Nat)
  | ret, _, [] => some (ret, 1)
  | ret, k, c :: rest =>
    let ret := ret + c.toNat % 128 * 128 ^ k
    if 2 ^ 53 < ret ∨ 146 < k then none
    else if c.toNat < 128 then some (ret, 1)
    else (getLEBFrom ret (k + 1) rest).map fun x => (x.1, x.2 + 1)

def getLEB (binary : List UInt8) : Reader Nat := fun off =>
  (getLEBFrom 0 0 (binary.drop off)).map fun x => (x.1, off + x.2)

def getU8 (binary : List UInt8) : Reader (Option Nat) := fun off => some (binary[off]?.map UInt8.toNat, off + 1)

def getString (decoder : Bool) (binary : List UInt8) : Reader Text := fun off =>
  (getLEB binary off).map fun x => (UTF8ArrayToString true decoder binary x.2 (some x.1) false, x.2 + x.1)

def getSubsection (decoder : Bool) (binary : List UInt8) : Reader ((Option Nat × Nat) × Content Nat Text) :=
  dependent (pair (getU8 binary) (getLEB binary)) fun x =>
    content (getLEB binary) id (getString decoder binary) (x.1.getD 0) x.2

/-! ## The metadata -/

structure Metadata where
  sizes : Option ((Nat × Nat) × Nat × Nat)
  neededDynlibs : List Text
  runtimePaths : List Text
  weakImports : List Text

def Content.sizes : Content Nat Text → Option ((Nat × Nat) × Nat × Nat)
  | memInfo sizes => some sizes
  | _ => none

def Content.names : Content Nat Text → Option (List Text)
  | needed names => some names.2
  | _ => none

def Content.paths : Content Nat Text → Option (List Text)
  | runtimePath paths => some paths.2
  | _ => none

def Content.imports : Content Nat Text → List ((Text × Text) × Nat)
  | importInfo symbols => symbols.2
  | _ => []

def isWeak (flags : Nat) : Bool := flags % 4 = 1

/-- The flags of a field of a module in `import_info`: the last ones. -/
def lastFlags (entries : List ((Text × Text) × Nat)) (key : Text × Text) : Option Nat :=
  (entries.reverse.find? fun e => e.1 = key).map (·.2)

/-- The result of the build-time reader, and of `get_weak_imports`. -/
def buildTime (cs : List (Content Nat Text)) : Metadata where
  sizes := (cs.filterMap Content.sizes).getLast?
  neededDynlibs := (cs.filterMap Content.names).flatten
  runtimePaths := (cs.filterMap Content.paths).flatten
  weakImports :=
    let entries := cs.flatMap Content.imports
    (entries.filter fun e => (lastFlags entries e.1).any isWeak).map (·.1.2)

/-- The result of the run-time reader. -/
def runTime (cs : List (Content Nat Text)) : Metadata where
  sizes := (cs.filterMap Content.sizes).getLast?
  neededDynlibs := (cs.filterMap Content.names).getLast?.getD []
  runtimePaths := (cs.filterMap Content.paths).getLast?.getD []
  weakImports := ((cs.flatMap Content.imports).filter fun e => isWeak e.2).map (·.1.2)

def getDylinkMetadata (assertions decoder : Bool) (binary : List UInt8) : Option Metadata :=
  if binary.take 4 = [0, 0x61, 0x73, 0x6D] ∧ binary[8]? = some 0 then
    (dylinkSection (getLEB binary) id (getString decoder binary) id (getSubsection decoder binary) 9).bind
      fun x =>
        let customSection := runTime (x.1.2.map (·.2))
        let aligned := customSection.sizes.any fun sizes => sizes.2.2 = 0
        if assertions ∧ ¬ (aligned ∧ x.2 = x.1.1.1.2 + x.1.1.1.1) then none else some customSection
  else none

/-! ## What both readers read alike -/

/-- A double counts it exactly. -/
def Num.Plain (n : Num) : Prop := n.value ≤ 2 ^ 53 ∧ n.length ≤ 147

/-- All of it is in the file, without NUL, and without a byte order mark that a `TextDecoder` would drop. -/
def Str.Plain (decoder : Bool) (s : Str) : Prop :=
  s.announced.Plain ∧ s.bytes.length = s.announced.value ∧ 0 ∉ s.bytes ∧
    ¬ (decoder = true ∧ 16 < s.bytes.length ∧ ∃ rest, s.bytes = 0xEF :: 0xBB :: 0xBF :: rest)

def Content.All (P : N → Prop) (Q : S → Prop) : Content N S → Prop
  | memInfo sizes => (P sizes.1.1 ∧ P sizes.1.2) ∧ P sizes.2.1 ∧ P sizes.2.2
  | needed names => P names.1 ∧ ∀ s ∈ names.2, Q s
  | exportInfo symbols => P symbols.1 ∧ ∀ x ∈ symbols.2, Q x.1 ∧ P x.2
  | importInfo symbols => P symbols.1 ∧ ∀ x ∈ symbols.2, (Q x.1.1 ∧ Q x.1.2) ∧ P x.2
  | runtimePath paths => P paths.1 ∧ ∀ s ∈ paths.2, Q s
  | unknown => True

def Content.map (f : N → N') (g : S → S') : Content N S → Content N' S'
  | memInfo sizes => .memInfo ((f sizes.1.1, f sizes.1.2), f sizes.2.1, f sizes.2.2)
  | needed names => .needed (f names.1, names.2.map g)
  | exportInfo symbols => .exportInfo (f symbols.1, symbols.2.map fun x => (g x.1, f x.2))
  | importInfo symbols => .importInfo (f symbols.1, symbols.2.map fun x => ((g x.1.1, g x.1.2), f x.2))
  | runtimePath paths => .runtimePath (f paths.1, paths.2.map g)
  | unknown => .unknown

theorem getLEBFrom_eq {bs : List UInt8} {n : Num} {ret k : Nat} (h : decodeReader bs = some n)
    (hvalue : ret + n.value * 128 ^ k ≤ 2 ^ 53) (hlength : n.length + k ≤ 147) :
    getLEBFrom ret k bs = some (ret + n.value * 128 ^ k, n.length) := by
  induction bs generalizing n ret k with
  | nil => cases h
  | cons c rest ih =>
    rw [decodeReader] at h
    rw [getLEBFrom]
    split at h
    · next hlast =>
      obtain rfl := Option.some.inj h
      have hvalue : ret + c.toNat * 128 ^ k ≤ 2 ^ 53 := hvalue
      have hlength : 1 + k ≤ 147 := hlength
      simp only [Nat.mod_eq_of_lt hlast, if_pos hlast]
      rw [if_neg (by omega)]
    · next hmore =>
      obtain ⟨m, hm, rfl⟩ := Option.map_eq_some_iff.1 h
      have hlength : m.length + 1 + k ≤ 147 := hlength
      have hsplit : ret + c.toNat % 128 * 128 ^ k + m.value * 128 ^ (k + 1) =
          ret + (c.toNat % 128 + 128 * m.value) * 128 ^ k := by
        rw [Nat.pow_succ, Nat.add_mul, Nat.add_assoc, Nat.mul_comm (128 ^ k) 128, ← Nat.mul_assoc, Nat.mul_comm m.value]
      have hvalue' := hsplit ▸ hvalue
      simp only [if_neg hmore]
      rw [if_neg (by omega), ih hm hvalue' (by omega), hsplit]
      rfl

theorem follows_uleb (file : List UInt8) : Follows (read_uleb file) (getLEB file) Num.Plain Num.value := by
  intro off n off' hr hn
  obtain ⟨m, hm, heq⟩ := Option.map_eq_some_iff.1 hr
  obtain ⟨rfl, rfl⟩ := Prod.mk.inj heq
  have hleb := @getLEBFrom_eq _ _ 0 0 hm (by simpa using hn.1) (by simpa using hn.2)
  rw [getLEB, hleb]
  simp

/-- A kind of one byte. -/
theorem follows_kind (file : List UInt8) :
    Follows (read_uleb file) (getU8 file) (fun n => n.length = 1) fun n => some n.value := by
  intro off n off' hr hn
  obtain ⟨m, hm, heq⟩ := Option.map_eq_some_iff.1 hr
  obtain ⟨rfl, rfl⟩ := Prod.mk.inj heq
  have hone : ∀ bs m, decodeReader bs = some m → m.length = 1 → bs.head?.map UInt8.toNat = some m.value := by
    intro bs m hm hone
    cases bs with
    | nil => cases hm
    | cons c rest =>
      rw [decodeReader] at hm
      split at hm
      · obtain rfl := Option.some.inj hm
        rfl
      · obtain ⟨m', hm', rfl⟩ := Option.map_eq_some_iff.1 hm
        have hpos : m'.length = 0 := Nat.succ.inj hone
        cases rest with
        | nil => cases hm'
        | cons d rest =>
          rw [decodeReader] at hm'
          split at hm'
          · obtain rfl := Option.some.inj hm'
            cases hpos
          · obtain ⟨m'', -, rfl⟩ := Option.map_eq_some_iff.1 hm'
            cases hpos
  have hhead := hone _ m hm hn
  rw [List.head?_drop] at hhead
  rw [getU8, hhead, hn]

theorem scanEnd_limit {bs : List UInt8} (h : 0 ∉ bs) (rest : List UInt8) (idx : Nat) :
    scanEnd (some (idx + bs.length)) (bs ++ rest) idx = idx + bs.length := by
  induction bs generalizing idx with
  | nil => cases rest <;> simp [scanEnd]
  | cons b bs ih =>
    have hb : b ≠ 0 := fun heq => h (heq ▸ List.mem_cons_self)
    have hgo : b ≠ 0 ∧ ¬ (some (idx + (b :: bs).length)).any (· ≤ idx) := by simp [hb]
    have hnext := ih (fun hin => h (List.mem_cons_of_mem _ hin)) (idx + 1)
    rw [List.cons_append, scanEnd, if_pos hgo, List.length_cons]
    rwa [Nat.add_right_comm, Nat.add_assoc] at hnext

/-- All bytes of characters are those characters. -/
theorem points_all (cs : List Char) :
    scalarPoints cs (bytes cs).length = cs.map Char.toNat ∧ Unbroken cs (bytes cs).length := by
  induction cs with
  | nil => exact ⟨rfl, True.intro⟩
  | cons c cs ih =>
    have hpos := utf8Length_pos c
    have hlength : (bytes (c :: cs)).length = utf8Length c + (bytes cs).length := by
      rw [bytes_cons, List.length_append]
      rfl
    rw [hlength, scalarPoints, Unbroken, if_neg (by omega), if_neg (by omega), Nat.add_sub_cancel_left, ih.1]
    exact ⟨rfl, .inr ih.2⟩

theorem utf8ArrayToString_chars {heap : List UInt8} {idx : Nat} {cs : List Char} {decoder : Bool}
    (hshows : Shows heap idx (bytes cs)) (hzero : 0 ∉ bytes cs)
    (hmark : ¬ (decoder = true ∧ 16 < (bytes cs).length ∧ ∃ rest, bytes cs = 0xEF :: 0xBB :: 0xBF :: rest)) :
    UTF8ArrayToString true decoder heap idx (some (bytes cs).length) false = (cs.map Char.toNat).flatMap units := by
  have hfound : findStringEnd heap idx (some (bytes cs).length) false = some (idx + (bytes cs).length) := by
    have hscan := scanEnd_limit hzero (heap.drop (idx + (bytes cs).length)) idx
    rw [← drop_of_shows hshows] at hscan
    exact congrArg some hscan
  have hscalar : (decodeScalar heap idx (idx + (bytes cs).length)).1 = (cs.map Char.toNat).flatMap units := by
    unfold decodeScalar
    rw [decodeLoop_take cs hshows (Nat.le_refl _) (by omega), (points_all cs).1]
  simp only [UTF8ArrayToString, hfound, Nat.add_sub_cancel_left]
  split
  · next hview =>
    have hmarked : ¬ Marked cs (bytes cs).length := by
      intro hm
      obtain ⟨rest, hrest⟩ := (marked_iff cs _).1 hm
      rw [List.take_length] at hrest
      exact hmark ⟨hview.2.2, hview.1, rest, hrest⟩
    have htexts := (texts_eq_iff cs (bytes cs).length).2 ⟨hmarked, (points_all cs).2⟩
    unfold decodeView
    rw [Nat.add_sub_cancel_left, take_of_shows hshows (Nat.le_refl _), ← htexts, (points_all cs).1]
  · exact hscalar

theorem follows_string (decoder : Bool) (file : List UInt8) :
    Follows (read_string file) (getString decoder file) (Str.Plain decoder) Str.text := by
  intro off str off' hr hstr
  obtain ⟨⟨n, start⟩, hn, hr⟩ := Option.bind_eq_some_iff.1 hr
  obtain ⟨text, htext, heq⟩ := Option.map_eq_some_iff.1 hr
  obtain ⟨rfl, rfl⟩ := Prod.mk.inj heq
  obtain ⟨hplain, hlength, hzero, hmark⟩ := hstr
  simp only at hlength hzero hmark htext ⊢
  generalize hbs : (file.drop start).take n.value = bs at hlength hzero hmark htext ⊢
  have hcs : ∃ cs, bytes cs = bs ∧ text = (cs.map Char.toNat).flatMap units := by
    simp only [decode] at htext
    split at htext
    · next hsame => exact ⟨_, hsame, (Option.some.inj htext).symm⟩
    · cases htext
  obtain ⟨cs, rfl, rfl⟩ := hcs
  have hshows : Shows file start (bytes cs) := by
    intro k hk
    rw [← hbs, List.getElem?_take, if_pos (hlength ▸ hk), List.getElem?_drop]
  rw [getString, follows_uleb file off n start hn hplain, Option.map_some, ← hlength,
    utf8ArrayToString_chars hshows hzero hmark]

theorem follows_counted {N N' S S' : Type} {num : Reader N} {num' : Reader N'} {value : N → Nat} {value' : N' → Nat}
    {r : Reader S} {r' : Reader S'} {P : N → Prop} {Q : S → Prop} {f : N → N'} {g : S → S'} (hnum : Follows num num' P f)
    (hvalue : ∀ n, value' (f n) = value n) (hr : Follows r r' Q g) :
    Follows (counted num value r) (counted num' value' r') (fun x => P x.1 ∧ ∀ s ∈ x.2, Q s)
      fun x => (f x.1, x.2.map g) := by
  apply @Follows.dependent _ _ _ _ _ _ _ _ (fun as => ∀ s ∈ as, Q s) (List.map g) (fun n => r.times (value n))
    (fun n => r'.times (value' n)) hnum
  intro n _
  rw [hvalue]
  exact hr.times (value n)

/-- The branches go alike where the numbers and strings do. -/
theorem follows_content {N N' S S' : Type} {num : Reader N} {num' : Reader N'} {value : N → Nat} {value' : N' → Nat}
    {str : Reader S} {str' : Reader S'} {P : N → Prop} {Q : S → Prop} {f : N → N'} {g : S → S'}
    (hnum : Follows num num' P f) (hvalue : ∀ n, value' (f n) = value n) (hstr : Follows str str' Q g) (kind size : Nat) :
    Follows (content num value str kind size) (content num' value' str' kind size) (Content.All P Q) (Content.map f g) := by
  unfold content
  split
  · exact ((hnum.pair hnum).pair (hnum.pair hnum)).map (fun _ h => h) fun _ => rfl
  · exact (follows_counted hnum hvalue hstr).map (fun _ h => h) fun _ => rfl
  · exact (follows_counted hnum hvalue (hstr.pair hnum)).map (fun _ h => h) fun _ => rfl
  · exact (follows_counted hnum hvalue ((hstr.pair hstr).pair hnum)).map (fun _ h => h) fun _ => rfl
  · exact (follows_counted hnum hvalue hstr).map (fun _ h => h) fun _ => rfl
  · intro off c off' hr _
    obtain ⟨rfl, rfl⟩ := Prod.mk.inj (Option.some.inj hr)
    rfl

def subsectionPlain (decoder : Bool) (s : (Num × Num) × Content Num Str) : Prop :=
  (s.1.1.length = 1 ∧ s.1.2.Plain) ∧ s.2.All Num.Plain (Str.Plain decoder)

def subsectionOf (s : (Num × Num) × Content Num Str) : (Option Nat × Nat) × Content Nat Text :=
  ((some s.1.1.value, s.1.2.value), s.2.map Num.value Str.text)

theorem follows_subsection (decoder : Bool) (file : List UInt8) :
    Follows (readSubsection file) (getSubsection decoder file) (subsectionPlain decoder) subsectionOf := by
  apply ((follows_kind file).pair (follows_uleb file)).dependent
  intro x _ off c off' hr hc
  obtain ⟨y, hy, hr⟩ := Option.bind_eq_some_iff.1 hr
  split at hr
  · obtain rfl := Option.some.inj hr
    exact follows_content (follows_uleb file) (fun _ => rfl) (follows_string decoder file) _ _ off c off' hy hc
  · cases hr

namespace Document

def sectionEnd (d : Document) : Nat := d.1.1.1.2 + d.1.1.1.1.value

def contents (d : Document) : List (Content Nat Text) := d.1.2.map fun s => s.2.map Num.value Str.text

/-- All numbers and strings are read alike by both readers. -/
structure Plain (decoder : Bool) (d : Document) : Prop where
  size : d.1.1.1.1.Plain
  name : d.1.1.2.Plain decoder
  subsections : ∀ s ∈ d.1.2, subsectionPlain decoder s

/-- Only the last list of libraries and the last list of paths has any, a weak import is not listed again as
another one, and where assertions are on the table has no alignment and the last subsection ends the section. -/
structure Same (assertions : Bool) (d : Document) : Prop where
  needed : ∀ names ∈ (d.contents.filterMap Content.names).dropLast, names = []
  paths : ∀ paths ∈ (d.contents.filterMap Content.paths).dropLast, paths = []
  imports : ∀ e ∈ d.contents.flatMap Content.imports, isWeak e.2 = true →
    ∃ e' ∈ d.contents.flatMap Content.imports, e'.1.2 = e.1.2 ∧
      (lastFlags (d.contents.flatMap Content.imports) e'.1).any isWeak = true
  asserted : assertions = true →
    ((d.contents.filterMap Content.sizes).getLast?.any fun sizes => sizes.2.2 = 0) = true ∧ d.2 = d.sectionEnd

end Document

theorem dylinkSection_eq {decoder : Bool} {file : List UInt8} {d : Document} (hplain : d.Plain decoder)
    (h : dylinkSection (read_uleb file) Num.value (read_string file) Str.text (readSubsection file) 9 = some d) :
    dylinkSection (getLEB file) id (getString decoder file) id (getSubsection decoder file) 9 =
      some ((((d.1.1.1.1.value, d.1.1.1.2), d.1.1.2.text), d.1.2.map subsectionOf), d.2) := by
  have hposition : Follows position position (fun _ => True) id := fun off n off' hr _ => hr
  have hfollows := @Follows.dependent _ _ _ _ _ _ _ _ (fun as => ∀ s ∈ as, subsectionPlain decoder s)
    (List.map subsectionOf) (fun x : (Num × Nat) × Str =>
      if Str.text x.2 = [0x64, 0x79, 0x6C, 0x69, 0x6E, 0x6B, 0x2E, 0x30] then
        (readSubsection file).untilEnd (x.1.2 + x.1.1.value) (x.1.2 + x.1.1.value)
      else fun _ => none)
    (fun x => if x.2 = [0x64, 0x79, 0x6C, 0x69, 0x6E, 0x6B, 0x2E, 0x30] then
        (getSubsection decoder file).untilEnd (x.1.2 + x.1.1) (x.1.2 + x.1.1)
      else fun _ => none)
    (((follows_uleb file).pair hposition).pair (follows_string decoder file)) ?_
  · exact hfollows 9 d.1 d.2 h ⟨⟨⟨hplain.size, True.intro⟩, hplain.name⟩, hplain.subsections⟩
  · intro x _
    split
    · exact (follows_subsection decoder file).untilEnd _ _
    · exact fun off as off' hr => nomatch hr

/-! ## The metadata of both -/

structure Metadata.Agrees (m m' : Metadata) : Prop where
  sizes : m.sizes = m'.sizes
  neededDynlibs : m.neededDynlibs = m'.neededDynlibs
  runtimePaths : m.runtimePaths = m'.runtimePaths
  weakImports : ∀ name, name ∈ m.weakImports ↔ name ∈ m'.weakImports

/-- A list is the last one of its parts if the others are empty. -/
theorem last_eq_flatten (ls : List (List α)) : ls.getLast?.getD [] = ls.flatten ↔ ∀ l ∈ ls.dropLast, l = [] := by
  obtain rfl | ⟨init, last, rfl⟩ := List.eq_nil_or_concat ls
  · simp
  · simp [eq_comm (a := last)]

theorem mem_of_lastFlags {entries : List ((Text × Text) × Nat)} {key : Text × Text}
    (h : (lastFlags entries key).any isWeak = true) : ∃ e ∈ entries, e.1 = key ∧ isWeak e.2 = true := by
  unfold lastFlags at h
  cases hfind : entries.reverse.find? fun e => e.1 = key with
  | none =>
    rw [hfind] at h
    cases h
  | some e =>
    rw [hfind] at h
    refine ⟨e, List.mem_reverse.1 (List.mem_of_find?_eq_some hfind), ?_, h⟩
    simpa using List.find?_some hfind

theorem weakImports_iff (cs : List (Content Nat Text)) :
    (∀ name, name ∈ (runTime cs).weakImports ↔ name ∈ (buildTime cs).weakImports) ↔
      ∀ e ∈ cs.flatMap Content.imports, isWeak e.2 = true → ∃ e' ∈ cs.flatMap Content.imports, e'.1.2 = e.1.2 ∧
        (lastFlags (cs.flatMap Content.imports) e'.1).any isWeak = true := by
  simp only [runTime, buildTime, List.mem_map, List.mem_filter]
  constructor
  · intro h e he hweak
    obtain ⟨e', ⟨he', hlast⟩, hname⟩ := (h e.1.2).1 ⟨e, ⟨he, hweak⟩, rfl⟩
    exact ⟨e', he', hname, hlast⟩
  · intro h name
    constructor
    · rintro ⟨e, ⟨he, hweak⟩, rfl⟩
      obtain ⟨e', he', hname, hlast⟩ := h e he hweak
      exact ⟨e', ⟨he', hlast⟩, hname⟩
    · rintro ⟨e', ⟨-, hlast⟩, rfl⟩
      obtain ⟨e, he, hkey, hweak⟩ := mem_of_lastFlags hlast
      exact ⟨e, ⟨he, hweak⟩, congrArg Prod.snd hkey⟩

/-- A file with a dylink.0 section that has no alignments and sizes, and other subsections. -/
def fileOf (subsections : List UInt8) : List UInt8 :=
  [0, 0x61, 0x73, 0x6D, 1, 0, 0, 0, 0, UInt8.ofNat (15 + subsections.length), 8, 0x64, 0x79, 0x6C, 0x69, 0x6E, 0x6B, 0x2E,
    0x30, 1, 4, 0, 0, 0, 0] ++ subsections

def documentOf (subsections : List ((Num × Num) × Content Num Str)) (size stop : Nat) : Document :=
  let name := [0x64, 0x79, 0x6C, 0x69, 0x6E, 0x6B, 0x2E, 0x30]
  ((((⟨size, 1⟩, 10), ⟨⟨8, 1⟩, name, name.map UInt8.toUInt16⟩),
    ((⟨1, 1⟩, ⟨4, 1⟩), .memInfo ((⟨0, 1⟩, ⟨0, 1⟩), ⟨0, 1⟩, ⟨0, 1⟩)) :: subsections), stop)

def neededOf (letter : UInt8) : (Num × Num) × Content Num Str :=
  ((⟨2, 1⟩, ⟨3, 1⟩), .needed (⟨1, 1⟩, [⟨⟨1, 1⟩, [letter], [letter.toUInt16]⟩]))

end Dylink
