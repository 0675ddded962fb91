-- SUMMARY: The two ways in which UTF8ArrayToString reads a string: when they agree, and what its loop reads.
import Emscripten.JsRuntime.Utf8Strings

/-!
# Decoding UTF-8

A string of more than 16 bytes goes to `TextDecoder`, which takes a byte order mark away and puts U+FFFD in the
place of what is not UTF-8. A shorter one goes through a loop that trusts the first byte of a sequence for its
length.
-/

namespace Strings

open Unicode

/-! ## The decoder of the Encoding standard -/

/-- The variables of the UTF-8 decoder. -/
structure Utf8Decoder where
  codePoint : Nat
  bytesSeen : Nat
  bytesNeeded : Nat
  lowerBoundary : Nat
  upperBoundary : Nat

namespace Utf8Decoder

def initial : Utf8Decoder := ⟨0, 0, 0, 0x80, 0xBF⟩

def replacement : Nat := 0xFFFD

/-- A byte where none is needed: a code point that is emitted, and the decoder after it. -/
def lead (byte : Nat) : List Nat × Utf8Decoder :=
  if byte ≤ 0x7F then ([byte], initial)
  else if 0xC2 ≤ byte ∧ byte ≤ 0xDF then ([], ⟨byte % 0x20, 0, 1, 0x80, 0xBF⟩)
  else if 0xE0 ≤ byte ∧ byte ≤ 0xEF then
    ([], ⟨byte % 0x10, 0, 2, if byte = 0xE0 then 0xA0 else 0x80, if byte = 0xED then 0x9F else 0xBF⟩)
  else if 0xF0 ≤ byte ∧ byte ≤ 0xF4 then
    ([], ⟨byte % 0x8, 0, 3, if byte = 0xF0 then 0x90 else 0x80, if byte = 0xF4 then 0x8F else 0xBF⟩)
  else ([replacement], initial)

/-- The code points of the bytes, with U+FFFD for errors. -/
def run : Utf8Decoder → List UInt8 → List Nat
  | d, [] => if d.bytesNeeded ≠ 0 then [replacement] else []
  | d, b :: bs =>
    if d.bytesNeeded = 0 then (lead b.toNat).1 ++ run (lead b.toNat).2 bs
    else if ¬ (d.lowerBoundary ≤ b.toNat ∧ b.toNat ≤ d.upperBoundary) then
      -- the byte is looked at again
      replacement :: ((lead b.toNat).1 ++ run (lead b.toNat).2 bs)
    else
      let codePoint := d.codePoint * 0x40 + b.toNat % 0x40
      if d.bytesSeen + 1 ≠ d.bytesNeeded then run ⟨codePoint, d.bytesSeen + 1, d.bytesNeeded, 0x80, 0xBF⟩ bs
      else codePoint :: run initial bs

end Utf8Decoder

open Utf8Decoder

def withoutMark : List UInt8 → List UInt8
  | 0xEF :: 0xBB :: 0xBF :: bs => bs
  | bs => bs

/-- `TextDecoder.decode`, as a string. -/
def textDecode (bs : List UInt8) : Text := (run initial (withoutMark bs)).flatMap units

/-- The view of the memory that goes to the decoder. -/
def decodeView (heap : List UInt8) (idx endPtr : Nat) : Text := textDecode ((heap.drop idx).take (endPtr - idx))

/-- `UTF8ArrayToString`, of a typed array or another one, in an environment with `TextDecoder` or without it. -/
def UTF8ArrayToString (typed decoder : Bool) (heap : List UInt8) (idx : Nat) (maxBytesToRead : Option Nat)
    (ignoreNul : Bool) : Text :=
  match findStringEnd heap idx maxBytesToRead ignoreNul with
  | none => []
  | some endPtr =>
    if 16 < endPtr - idx ∧ typed ∧ decoder then decodeView heap idx endPtr else (decodeScalar heap idx endPtr).1

/-! ## What the decoder makes of a character -/

def utf8Length (c : Char) : Nat := (utf8 c.toNat).length

theorem utf8Length_pos (c : Char) : 0 < utf8Length c := by
  unfold utf8Length
  rw [length_utf8]
  repeat' split
  all_goals decide

/-- One more byte of a sequence. -/
theorem run_next {d : Utf8Decoder} {x : Nat} (hx : x < 0x40) (hneeded : d.bytesNeeded ≠ 0)
    (hlower : d.lowerBoundary ≤ 0x80 + x) (hupper : 0x80 + x ≤ d.upperBoundary) (bs : List UInt8) :
    run d (UInt8.ofNat (0x80 + x) :: bs) =
      if d.bytesSeen + 1 ≠ d.bytesNeeded then
        run ⟨d.codePoint * 0x40 + x, d.bytesSeen + 1, d.bytesNeeded, 0x80, 0xBF⟩ bs
      else (d.codePoint * 0x40 + x) :: run initial bs := by
  have hnat : (UInt8.ofNat (0x80 + x)).toNat = 0x80 + x := UInt8.toNat_ofNat_of_lt' (by change _ < 256; omega)
  have hbits : (0x80 + x) % 0x40 = x := by omega
  rw [run, hnat, if_neg hneeded, if_neg (not_not.mpr ⟨hlower, hupper⟩), hbits]

theorem run_lead {n : Nat} (hn : n < 256) (bs : List UInt8) :
    run initial (UInt8.ofNat n :: bs) = (lead n).1 ++ run (lead n).2 bs := by
  have hnat : (UInt8.ofNat n).toNat = n := UInt8.toNat_ofNat_of_lt' hn
  rw [run, hnat]
  exact if_pos rfl

/-- The bytes end inside a sequence. -/
theorem run_stop (codePoint seen needed lower upper : Nat) :
    run ⟨codePoint, seen, needed + 1, lower, upper⟩ [] = [replacement] :=
  if_pos (Nat.succ_ne_zero needed)

/-- What the decoder has after the first byte of a character of more than one byte. -/
def afterLead (u : Nat) : Utf8Decoder :=
  if u ≤ 0x7FF then ⟨u / 0x40, 0, 1, 0x80, 0xBF⟩
  else if u ≤ 0xFFFF then
    ⟨u / 0x1000, 0, 2, if u / 0x1000 = 0 then 0xA0 else 0x80, if u / 0x1000 = 0xD then 0x9F else 0xBF⟩
  else ⟨u / 0x40000, 0, 3, if u / 0x40000 = 0 then 0x90 else 0x80, if u / 0x40000 = 4 then 0x8F else 0xBF⟩

theorem run_first {u : Nat} (hone : ¬ u ≤ 0x7F) (hmax : u ≤ 0x10FFFF) (k : Nat) (bs : List UInt8) :
    run initial ((utf8 u).take (k + 1) ++ bs) = run (afterLead u) (((utf8 u).drop 1).take k ++ bs) := by
  unfold utf8 afterLead
  rw [if_neg hone]
  split
  · rw [List.take_succ_cons, List.cons_append, run_lead (by omega)]
    have hbits : (0xC0 + u / 0x40) % 0x20 = u / 0x40 := by omega
    rw [lead, if_neg (by omega), if_pos (by omega), hbits]
    rfl
  · split
    · rw [List.take_succ_cons, List.cons_append, run_lead (by omega)]
      have hbits : (0xE0 + u / 0x1000) % 0x10 = u / 0x1000 := by omega
      have hlower : 0xE0 + u / 0x1000 = 0xE0 ↔ u / 0x1000 = 0 := by omega
      have hupper : 0xE0 + u / 0x1000 = 0xED ↔ u / 0x1000 = 0xD := by omega
      rw [lead, if_neg (by omega), if_neg (by omega), if_pos (by omega), hbits]
      simp only [hlower, hupper]
      rfl
    · rw [List.take_succ_cons, List.cons_append, run_lead (by omega)]
      have hbits : (0xF0 + u / 0x40000) % 0x8 = u / 0x40000 := by omega
      have hlower : 0xF0 + u / 0x40000 = 0xF0 ↔ u / 0x40000 = 0 := by omega
      have hupper : 0xF0 + u / 0x40000 = 0xF4 ↔ u / 0x40000 = 4 := by omega
      rw [lead, if_neg (by omega), if_neg (by omega), if_neg (by omega), if_pos (by omega), hbits]
      simp only [hlower, hupper]
      rfl

/-- The decoder takes a character's bytes for the character, and makes one U+FFFD of less than all of them. -/
theorem run_char (c : Char) : (∀ bs, run initial (utf8 c.toNat ++ bs) = c.toNat :: run initial bs) ∧
    ∀ k, 0 < k → k < utf8Length c → run initial ((utf8 c.toNat).take k) = [replacement] := by
  obtain ⟨hmax, hscalar⟩ := toNat_char_bounds c
  unfold utf8Length
  generalize c.toNat = u at *
  rw [length_utf8]
  by_cases hone : u ≤ 0x7F
  · rw [if_pos hone]
    refine ⟨fun bs => ?_, fun k hpos hlt => absurd hpos (by omega)⟩
    have hbytes : utf8 u = [UInt8.ofNat u] := if_pos hone
    rw [hbytes, List.singleton_append, run_lead (by omega), lead, if_pos hone]
    rfl
  have hfirst := run_first hone hmax
  have hwhole : ∀ bs, run initial (utf8 u ++ bs) = run (afterLead u) ((utf8 u).drop 1 ++ bs) := by
    intro bs
    have hlong := hfirst 3 bs
    have hlength := length_utf8 u
    rw [List.take_of_length_le, List.take_of_length_le] at hlong
    · exact hlong
    · rw [List.length_drop, hlength]
      repeat' split
      all_goals omega
    · rw [hlength]
      repeat' split
      all_goals omega
  have hcut : ∀ k, run initial ((utf8 u).take (k + 1)) = run (afterLead u) (((utf8 u).drop 1).take k) := by
    intro k
    have hnil := hfirst k []
    rwa [List.append_nil, List.append_nil] at hnil
  rw [if_neg hone]
  constructor
  · intro bs
    rw [hwhole]
    unfold utf8 afterLead
    rw [if_neg hone]
    split
    · rw [List.drop_succ_cons, List.drop_zero, List.singleton_append]
      rw [run_next (by omega) (Nat.succ_ne_zero _) (by dsimp only; omega) (by dsimp only; omega)]
      have hvalue : u / 0x40 * 0x40 + u % 0x40 = u := by omega
      simp only [hvalue]
      rfl
    · split
      · rw [List.drop_succ_cons, List.drop_zero, List.cons_append, List.singleton_append]
        rw [run_next (by omega) (Nat.succ_ne_zero _) (by dsimp only; split <;> omega) (by dsimp only; split <;> omega)]
        dsimp only
        rw [if_pos (by decide), run_next (by omega) (Nat.succ_ne_zero _) (by dsimp only; omega) (by dsimp only; omega)]
        have hvalue : (u / 0x1000 * 0x40 + u / 0x40 % 0x40) * 0x40 + u % 0x40 = u := by omega
        simp only [hvalue]
        rfl
      · rw [List.drop_succ_cons, List.drop_zero, List.cons_append, List.cons_append, List.singleton_append]
        rw [run_next (by omega) (Nat.succ_ne_zero _) (by dsimp only; split <;> omega) (by dsimp only; split <;> omega)]
        dsimp only
        rw [if_pos (by decide), run_next (by omega) (Nat.succ_ne_zero _) (by dsimp only; omega) (by dsimp only; omega)]
        dsimp only
        rw [if_pos (by decide), run_next (by omega) (Nat.succ_ne_zero _) (by dsimp only; omega) (by dsimp only; omega)]
        have hvalue : ((u / 0x40000 * 0x40 + u / 0x1000 % 0x40) * 0x40 + u / 0x40 % 0x40) * 0x40 + u % 0x40 = u := by
          omega
        simp only [hvalue]
        rfl
  · intro k hpos hlt
    obtain ⟨k, rfl⟩ : ∃ m, k = m + 1 := ⟨k - 1, by omega⟩
    rw [hcut]
    unfold utf8 afterLead
    rw [if_neg hone]
    split
    · next htwo =>
      rw [if_pos htwo] at hlt
      obtain rfl : k = 0 := by omega
      exact run_stop ..
    · next htwo =>
      rw [if_neg htwo] at hlt
      split
      · next hthree =>
        rw [if_pos hthree] at hlt
        rw [List.drop_succ_cons, List.drop_zero]
        obtain rfl | rfl : k = 0 ∨ k = 1 := by omega
        · exact run_stop ..
        · rw [List.take_succ_cons, run_next (by omega) (Nat.succ_ne_zero _) (by dsimp only; split <;> omega)
            (by dsimp only; split <;> omega), if_pos (by dsimp only; decide)]
          exact run_stop ..
      · next hthree =>
        rw [if_neg hthree] at hlt
        rw [List.drop_succ_cons, List.drop_zero]
        obtain rfl | rfl | rfl : k = 0 ∨ k = 1 ∨ k = 2 := by omega
        · exact run_stop ..
        · rw [List.take_succ_cons, run_next (by omega) (Nat.succ_ne_zero _) (by dsimp only; split <;> omega)
            (by dsimp only; split <;> omega), if_pos (by dsimp only; decide)]
          exact run_stop ..
        · rw [List.take_succ_cons, run_next (by omega) (Nat.succ_ne_zero _) (by dsimp only; split <;> omega)
            (by dsimp only; split <;> omega), List.take_succ_cons]
          dsimp only
          rw [if_pos (by decide), run_next (by omega) (Nat.succ_ne_zero _) (by dsimp only; omega) (by dsimp only; omega),
            if_pos (by dsimp only; decide)]
          exact run_stop ..

/-! ## The two ways on the bytes of characters -/

def bytes (cs : List Char) : List UInt8 := cs.flatMap fun c => utf8 c.toNat

/-- What the loop makes of the first bytes of characters: of a character that is cut it reads the rest, too. -/
def scalarPoints : List Char → Nat → List Nat
  | [], _ => []
  | c :: cs, n => if n = 0 then [] else c.toNat :: scalarPoints cs (n - utf8Length c)

/-- What the decoder makes of them. -/
def runPoints : List Char → Nat → List Nat
  | [], _ => []
  | c :: cs, n =>
    if n = 0 then [] else if n < utf8Length c then [replacement] else c.toNat :: runPoints cs (n - utf8Length c)

/-- The first bytes of the characters are whole characters, or what is cut is the replacement character. -/
def Unbroken : List Char → Nat → Prop
  | [], _ => True
  | c :: cs, n => n = 0 ∨ if n < utf8Length c then c.toNat = replacement else Unbroken cs (n - utf8Length c)

theorem bytes_cons (c : Char) (cs : List Char) : bytes (c :: cs) = utf8 c.toNat ++ bytes cs := List.flatMap_cons

variable (cs : List Char) (heap : List UInt8) (n : Nat)

/-- By induction on the characters. -/
theorem run_take : run initial ((bytes cs).take n) = runPoints cs n := by
  induction cs generalizing n with
  | nil => exact congrArg (run initial) (List.take_nil (i := n))
  | cons c cs ih =>
    obtain ⟨hwhole, hcut⟩ := run_char c
    rw [bytes_cons, runPoints]
    split
    · next hzero =>
      subst hzero
      rfl
    · next hpos =>
      split
      · next hlt =>
        rw [List.take_append_of_le_length (Nat.le_of_lt hlt)]
        exact hcut n (Nat.pos_of_ne_zero hpos) hlt
      · next hge =>
        rw [List.take_append, List.take_of_length_le (Nat.le_of_not_lt hge), hwhole]
        exact congrArg _ (ih _)

theorem decodeLoop_stop {endPtr idx : Nat} (h : endPtr ≤ idx) (k : Nat) :
    decodeLoop heap endPtr k idx = ([], idx) := by
  cases k with
  | zero => rfl
  | succ k => exact if_neg (Nat.not_lt.mpr h)

theorem decodeLoop_take {heap : List UInt8} {idx n fuel : Nat} (h : Shows heap idx (bytes cs))
    (hn : n ≤ (bytes cs).length) (hfuel : n ≤ fuel) :
    (decodeLoop heap (idx + n) fuel idx).1 = (scalarPoints cs n).flatMap units := by
  induction cs generalizing idx n fuel with
  | nil =>
    obtain rfl : n = 0 := Nat.le_zero.mp hn
    rw [decodeLoop_stop heap (Nat.le_of_eq (Nat.add_zero idx))]
    rfl
  | cons c cs ih =>
    rw [scalarPoints]
    split
    · next hzero =>
      rw [decodeLoop_stop heap (by omega)]
      rfl
    · next hpos =>
      obtain ⟨fuel, rfl⟩ : ∃ k, fuel = k + 1 := ⟨fuel - 1, by omega⟩
      have hlength := utf8Length_pos c
      rw [bytes_cons] at h hn
      rw [List.length_append] at hn
      change n ≤ utf8Length c + _ at hn
      have hturn := decodeTurn_utf8 (toNat_char_bounds c).1 h.left
      have hrest : (decodeLoop heap (idx + n) fuel (idx + utf8Length c)).1 =
          (scalarPoints cs (n - utf8Length c)).flatMap units := by
        cases Nat.lt_or_ge n (utf8Length c) with
        | inl hlt =>
          have hcut : n - utf8Length c = 0 := Nat.sub_eq_zero_of_le (Nat.le_of_lt hlt)
          have hnone : scalarPoints cs 0 = [] := by cases cs <;> rfl
          rw [decodeLoop_stop heap (by omega), hcut, hnone]
          rfl
        | inr hge =>
          have hend : idx + utf8Length c + (n - utf8Length c) = idx + n := by omega
          have hnext := @ih (idx + utf8Length c) (n - utf8Length c) fuel h.right (by omega) (by omega)
          rw [← hend]
          exact hnext
      rw [decodeLoop, if_pos (by omega), hturn]
      dsimp only
      rw [List.flatMap_cons]
      exact congrArg _ hrest

theorem units_eq_replacement {u : Nat} (h : units u = units replacement) : u = replacement := by
  unfold units at h
  split at h
  · next hsmall =>
    have hunit := congrArg UInt16.toNat (List.cons.inj h).1
    rwa [UInt16.toNat_ofNat_of_lt' hsmall] at hunit
  · have hlength : 2 = 1 := congrArg List.length h
    cases hlength

/-- Only a cut character makes a difference. -/
theorem points_eq_iff : (scalarPoints cs n).flatMap units = (runPoints cs n).flatMap units ↔ Unbroken cs n := by
  induction cs generalizing n with
  | nil => exact iff_of_true rfl trivial
  | cons c cs ih =>
    rw [scalarPoints, runPoints, Unbroken]
    split
    · next hzero => exact iff_of_true rfl (Or.inl hzero)
    · next hpos =>
      rw [or_iff_right hpos]
      split
      · next hlt =>
        have hcut : n - utf8Length c = 0 := Nat.sub_eq_zero_of_le (Nat.le_of_lt hlt)
        have hnone : scalarPoints cs 0 = [] := by cases cs <;> rfl
        rw [hcut, hnone, List.flatMap_cons, List.flatMap_cons, List.flatMap_nil, List.append_nil, List.append_nil]
        exact ⟨units_eq_replacement, fun h => congrArg units h⟩
      · rw [List.flatMap_cons, List.flatMap_cons, List.append_cancel_left_eq]
        exact ih _

/-- A point that replaces one has no more units than it. -/
theorem length_runPoints_le :
    ((runPoints cs n).flatMap units).length ≤ ((scalarPoints cs n).flatMap units).length := by
  induction cs generalizing n with
  | nil => exact Nat.le_refl _
  | cons c cs ih =>
    rw [scalarPoints, runPoints]
    split
    · exact Nat.le_refl _
    · split
      · have hone : (units replacement).length = 1 := rfl
        have hpos : 1 ≤ (units c.toNat).length := by
          unfold units
          split
          · exact Nat.le_refl 1
          · exact Nat.le_succ 1
        rw [List.flatMap_cons, List.flatMap_cons, List.flatMap_nil, List.append_nil, List.length_append, hone]
        omega
      · rw [List.flatMap_cons, List.flatMap_cons, List.length_append, List.length_append]
        exact Nat.add_le_add_left (ih _) _

/-! ## The byte order mark -/

def byteOrderMark : Nat := 0xFEFF

theorem withoutMark_cases (bs : List UInt8) :
    (∃ rest, bs = 0xEF :: 0xBB :: 0xBF :: rest ∧ withoutMark bs = rest) ∨ withoutMark bs = bs := by
  unfold withoutMark
  split
  · exact Or.inl ⟨_, rfl, rfl⟩
  · exact Or.inr rfl

theorem run_mark (rest : List UInt8) :
    run initial (0xEF :: 0xBB :: 0xBF :: rest) = byteOrderMark :: run initial rest :=
  rfl

/-- The mark is at the front of what is read. -/
def Marked (cs : List Char) (n : Nat) : Prop := cs.head?.map Char.toNat = some byteOrderMark ∧ 3 ≤ n

/-- The bytes of the mark are those of the first character. -/
theorem marked_iff : Marked cs n ↔ ∃ rest, (bytes cs).take n = 0xEF :: 0xBB :: 0xBF :: rest := by
  constructor
  · rintro ⟨hhead, hn⟩
    cases cs with
    | nil => cases hhead
    | cons c cs =>
      obtain ⟨m, rfl⟩ : ∃ m, n = m + 3 := ⟨n - 3, by omega⟩
      have hc : c.toNat = byteOrderMark := Option.some.inj hhead
      refine ⟨(bytes cs).take m, ?_⟩
      rw [bytes_cons, hc]
      rfl
  · rintro ⟨rest, hrest⟩
    have hpoints := run_take cs n
    rw [hrest, run_mark] at hpoints
    constructor
    · cases cs with
      | nil => cases hpoints
      | cons c cs =>
        rw [runPoints] at hpoints
        split at hpoints
        · cases hpoints
        · split at hpoints
          · exact absurd (List.cons.inj hpoints).1 (by decide)
          · exact congrArg some (List.cons.inj hpoints).1.symm
    · have hlength := congrArg List.length hrest
      rw [List.length_take] at hlength
      simp only [List.length_cons] at hlength
      omega

/-- The two texts of the first `n` bytes. -/
theorem texts_eq_iff :
    (scalarPoints cs n).flatMap units = textDecode ((bytes cs).take n) ↔ ¬ Marked cs n ∧ Unbroken cs n := by
  unfold textDecode
  rcases withoutMark_cases ((bytes cs).take n) with ⟨rest, hmark, hrest⟩ | hsame
  · have hmarked : Marked cs n := (marked_iff cs n).mpr ⟨rest, hmark⟩
    have hpoints := run_take cs n
    have hlength := length_runPoints_le cs n
    rw [hmark, run_mark] at hpoints
    rw [← hpoints, List.flatMap_cons, List.length_append] at hlength
    have hone : (units byteOrderMark).length = 1 := rfl
    refine iff_of_false (fun heq => ?_) (fun h => h.1 hmarked)
    rw [heq, hrest, hone] at hlength
    omega
  · rw [hsame, run_take, points_eq_iff]
    by_cases hmarked : Marked cs n
    · obtain ⟨rest, hrest⟩ := (marked_iff cs n).mp hmarked
      rw [hrest] at hsame
      have hlength := congrArg List.length hsame
      simp only [withoutMark, List.length_cons] at hlength
      omega
    · exact ⟨fun h => ⟨hmarked, h⟩, fun h => h.2⟩

/-! ## What the loop reads -/

/-- The number of bytes that the loop takes for a first byte. -/
def seqLength (u0 : Nat) : Nat :=
  if u0 < 0x80 then 1 else if 0xC0 ≤ u0 ∧ u0 < 0xE0 then 2 else if 0xE0 ≤ u0 ∧ u0 < 0xF0 then 3 else 4

/-- The bytes are sequences of the lengths that their first bytes say, behind the first `skip` of them. -/
def Sequences : Nat → List Nat → Prop
  | skip, [] => skip = 0
  | 0, u :: us => Sequences (seqLength u - 1) us
  | skip + 1, _ :: us => Sequences skip us

/-- What is between two indices. -/
def view (heap : List UInt8) (idx : Nat) : Nat → List Nat
  | 0 => []
  | n + 1 => byteAt heap idx :: view heap (idx + 1) n

theorem decodeTurn_next (idx : Nat) : (decodeTurn heap idx).2 = idx + seqLength (byteAt heap idx) := by
  obtain ⟨hone, htwo, hthree⟩ := and_masks (heap[idx]?.getD 0)
  change (byteAt heap idx &&& 0x80 = 0 ↔ byteAt heap idx < 0x80) at hone
  change (byteAt heap idx &&& 0xE0 = 0xC0 ↔ 0xC0 ≤ byteAt heap idx ∧ byteAt heap idx < 0xE0) at htwo
  change (byteAt heap idx &&& 0xF0 = 0xE0 ↔ 0xE0 ≤ byteAt heap idx ∧ byteAt heap idx < 0xF0) at hthree
  unfold decodeTurn seqLength
  simp only [hone, htwo, hthree]
  repeat' split
  all_goals rfl

theorem seqLength_pos (u : Nat) : 0 < seqLength u := by
  unfold seqLength
  repeat' split
  all_goals decide

theorem sequences_view (skip idx n : Nat) :
    Sequences skip (view heap idx n) ↔ skip ≤ n ∧ Sequences 0 (view heap (idx + skip) (n - skip)) := by
  induction n generalizing skip idx with
  | zero =>
    cases skip with
    | zero => exact ⟨fun h => ⟨Nat.le_refl _, h⟩, fun h => h.2⟩
    | succ skip => exact iff_of_false (Nat.succ_ne_zero _) (fun h => absurd h.1 (Nat.not_succ_le_zero _))
  | succ n ih =>
    cases skip with
    | zero => exact ⟨fun h => ⟨Nat.zero_le _, h⟩, fun h => h.2⟩
    | succ skip =>
      have hnext := ih skip (idx + 1)
      rw [Nat.add_assoc, Nat.add_comm 1 skip] at hnext
      rw [Nat.succ_le_succ_iff, Nat.add_sub_add_right]
      exact hnext

/-- By induction on the turns. -/
theorem decodeLoop_inside {idx n fuel : Nat} (hfuel : n ≤ fuel) :
    (decodeLoop heap (idx + n) fuel idx).2 ≤ idx + n ↔ Sequences 0 (view heap idx n) := by
  induction fuel generalizing idx n with
  | zero =>
    obtain rfl : n = 0 := Nat.le_zero.mp hfuel
    exact iff_of_true (Nat.le_refl _) rfl
  | succ fuel ih =>
    cases n with
    | zero =>
      rw [decodeLoop_stop heap (Nat.le_of_eq (Nat.add_zero idx))]
      exact iff_of_true (Nat.le_refl _) rfl
    | succ n =>
      have hpos := seqLength_pos (byteAt heap idx)
      have hnext : idx + 1 + (seqLength (byteAt heap idx) - 1) = (decodeTurn heap idx).2 := by
        rw [decodeTurn_next]
        omega
      rw [decodeLoop, if_pos (by omega), view, Sequences, sequences_view, hnext]
      dsimp only
      cases Nat.lt_or_ge n (seqLength (byteAt heap idx) - 1) with
      | inl hlt =>
        -- the turn has read beyond the end
        rw [decodeLoop_stop heap (by omega)]
        exact iff_of_false (by dsimp only; omega) (by omega)
      | inr hge =>
        have hend : (decodeTurn heap idx).2 + (n - (seqLength (byteAt heap idx) - 1)) = idx + (n + 1) := by omega
        have hrest := @ih (decodeTurn heap idx).2 (n - (seqLength (byteAt heap idx) - 1)) (by omega)
        rw [hend] at hrest
        rw [hrest]
        exact ⟨fun h => ⟨hge, h⟩, fun h => h.2⟩

/-! ## The two ways -/

theorem le_scanEnd (limit : Option Nat) (bs : List UInt8) (idx : Nat) : idx ≤ scanEnd limit bs idx := by
  induction bs generalizing idx with
  | nil => exact Nat.le_refl _
  | cons b bs ih =>
    rw [scanEnd]
    split
    · exact Nat.le_trans (Nat.le_succ _) (ih _)
    · exact Nat.le_refl _

theorem le_findStringEnd {heap : List UInt8} {idx endPtr : Nat} {maxBytesToRead : Option Nat} {ignoreNul : Bool}
    (h : findStringEnd heap idx maxBytesToRead ignoreNul = some endPtr) : idx ≤ endPtr := by
  unfold findStringEnd at h
  dsimp only at h
  split at h
  · obtain ⟨n, -, rfl⟩ := Option.map_eq_some_iff.mp h
    exact Nat.le_add_right _ _
  · cases h
    exact le_scanEnd _ _ _

/-- The characters are in memory, and a zero byte or nothing behind them. -/
structure Holds (heap : List UInt8) (idx : Nat) (cs : List Char) : Prop where
  shows : Shows heap idx (bytes cs)
  ended : byteAt heap (idx + (bytes cs).length) = 0

/-- The number of bytes that a limit leaves. -/
def readable (cs : List Char) (maxBytesToRead : Option Nat) : Nat :=
  min (maxBytesToRead.getD (bytes cs).length) (bytes cs).length

theorem bytes_ne_zero {cs : List Char} (hcs : ∀ c ∈ cs, c.toNat ≠ 0) : (0 : UInt8) ∉ bytes cs := by
  intro hmem
  obtain ⟨c, hc, hbyte⟩ := List.mem_flatMap.mp hmem
  exact utf8_ne_zero (Nat.pos_of_ne_zero (hcs c hc)) (toNat_char_bounds c).1 hbyte

theorem findStringEnd_holds {heap : List UInt8} {idx endPtr : Nat} {cs : List Char} {maxBytesToRead : Option Nat}
    {ignoreNul : Bool} (hend : findStringEnd heap idx maxBytesToRead ignoreNul = some endPtr)
    (hcs : ∀ c ∈ cs, c.toNat ≠ 0) (hholds : Holds heap idx cs)
    (hignore : ignoreNul = true → ∀ n, maxBytesToRead = some n → n ≤ (bytes cs).length) :
    endPtr = idx + readable cs maxBytesToRead := by
  unfold findStringEnd at hend
  dsimp only at hend
  split at hend
  · next htrue =>
    obtain ⟨n, hn, rfl⟩ := Option.map_eq_some_iff.mp hend
    have hle := hignore htrue n hn
    rw [hn, readable, Option.getD_some, Nat.min_eq_left hle]
  · have hzero : (heap.drop (idx + (bytes cs).length)).head?.getD 0 = 0 := by
      rw [List.head?_drop]
      exact UInt8.toNat_inj.mp hholds.ended
    have hscan := scanEnd_append (bytes_ne_zero hcs) hzero maxBytesToRead idx
    rw [← drop_of_shows hholds.shows] at hscan
    exact (Option.some.inj hend).symm.trans hscan

theorem take_of_shows {heap bs : List UInt8} {idx n : Nat} (h : Shows heap idx bs) (hn : n ≤ bs.length) :
    (heap.drop idx).take n = bs.take n := by
  rw [drop_of_shows h, List.take_append_of_le_length hn]

/-- The loop reads nothing behind the end exactly where the bytes before it are whole sequences; and on characters
without NUL the two ways agree exactly where no byte order mark is in front and the limit cuts no character. -/
theorem utf8ArrayToString_iff (heap : List UInt8) (idx : Nat) (maxBytesToRead : Option Nat) (ignoreNul : Bool)
    (endPtr : Nat) (hend : findStringEnd heap idx maxBytesToRead ignoreNul = some endPtr) :
    ((decodeScalar heap idx endPtr).2 ≤ endPtr ↔ Sequences 0 (view heap idx (endPtr - idx))) ∧
      ∀ cs : List Char, (∀ c ∈ cs, c.toNat ≠ 0) → Holds heap idx cs →
        (ignoreNul = true → ∀ n, maxBytesToRead = some n → n ≤ (bytes cs).length) →
        ((decodeScalar heap idx endPtr).1 = decodeView heap idx endPtr ↔
          ¬ Marked cs (readable cs maxBytesToRead) ∧ Unbroken cs (readable cs maxBytesToRead)) := by
  have hle := le_findStringEnd hend
  constructor
  · have hinside := @decodeLoop_inside heap idx (endPtr - idx) _ (Nat.le_refl _)
    rw [Nat.add_sub_cancel' hle] at hinside
    exact hinside
  · intro cs hcs hholds hignore
    have hn : readable cs maxBytesToRead ≤ (bytes cs).length := Nat.min_le_right _ _
    have hpoints := decodeLoop_take cs hholds.shows hn (Nat.le_refl _)
    rw [findStringEnd_holds hend hcs hholds hignore]
    unfold decodeScalar decodeView
    rw [Nat.add_sub_cancel_left, hpoints, take_of_shows hholds.shows hn]
    exact texts_eq_iff _ _

/-- A string that the limit does not cut. -/
theorem utf8ArrayToString_accented :
    (decodeScalar [0x61, 0xC3, 0xA9, 0] 0 3).1 = decodeView [0x61, 0xC3, 0xA9, 0] 0 3 := by
  have hiff := utf8ArrayToString_iff [0x61, 0xC3, 0xA9, 0] 0 none false 3 (by decide)
  have hcs : ∀ c ∈ ['a', Char.ofNat 0xE9], c.toNat ≠ 0 :=
    List.forall_mem_cons.mpr ⟨by decide, List.forall_mem_singleton.mpr (by decide)⟩
  have hshows : ∀ k < 3, ([0x61, 0xC3, 0xA9, 0] : List UInt8)[0 + k]? = (bytes ['a', Char.ofNat 0xE9])[k]? := by
    decide
  refine (hiff.2 ['a', Char.ofNat 0xE9] hcs ⟨hshows, by decide⟩ nofun).mpr ⟨?_, ?_⟩
  · rintro ⟨hhead, -⟩
    exact absurd hhead (by decide)
  · refine Or.inr ?_
    rw [if_neg (by decide)]
    refine Or.inr ?_
    rw [if_neg (by decide)]
    trivial

/-- A byte order mark in front of 14 letters, which the loop keeps; and an accented letter of which the limit leaves
one byte, where the loop reads the second. -/
theorem utf8_ways_differ :
    (let heap : List UInt8 := 0xEF :: 0xBB :: 0xBF :: List.replicate 14 0x61
     findStringEnd heap 0 none false = some 17 ∧ (decodeScalar heap 0 17).1.length = 15 ∧
       UTF8ArrayToString true true heap 0 none false = List.replicate 14 0x61) ∧
    findStringEnd [0xC3, 0xA9] 0 (some 1) false = some 1 ∧ decodeScalar [0xC3, 0xA9] 0 1 = ([0xE9], 2) ∧
      decodeView [0xC3, 0xA9] 0 1 = [0xFFFD] := by
  decide

end Strings
