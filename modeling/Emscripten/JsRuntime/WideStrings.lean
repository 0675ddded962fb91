-- SUMMARY: UTF-16 and UTF-32 strings: which limits the writers keep to, and what is read back.
import Emscripten.JsRuntime.TextDecoding
import Emscripten.Lib.Words

/-!
# Wide strings

`stringToUTF16` takes half of its limit for a number of units, which is not whole for an odd one, and
`stringToUTF32` looks at its limit after its first store. `UTF16ToString` goes through `TextDecoder` for
strings of more than 16 units.
-/

namespace Strings

open Unicode Heap Words

/-! ## Units in memory -/

/-- A store to `HEAP16` or `HEAP32`. -/
def setUnit (w : Nat) (heap : List UInt8) (ptr value : Nat) : List UInt8 := put (w * (ptr / w)) (toLE w value) heap

/-- The elements of `HEAPU16` from some byte on. -/
def halfwords : List UInt8 → List Nat
  | b₀ :: b₁ :: bs => ofLE [b₀, b₁] :: halfwords bs
  | _ => []

/-- The elements of `HEAPU32`. -/
def fullwords : List UInt8 → List Nat
  | b₀ :: b₁ :: b₂ :: b₃ :: bs => ofLE [b₀, b₁, b₂, b₃] :: fullwords bs
  | _ => []

/-! ## The writers -/

/-- The loop of `stringToUTF16`. `numCharsToWrite` may be half a unit more than a whole number: it is given twice. -/
def writeHalfwords (numCharsToWrite : Nat) : Text → Nat → Nat → List UInt8 → Nat × List UInt8
  | [], _, outPtr, heap => (outPtr, heap)
  | codeUnit :: str, i, outPtr, heap =>
    if 2 * i < numCharsToWrite then
      writeHalfwords numCharsToWrite str (i + 1) (outPtr + 2) (setUnit 2 heap outPtr codeUnit.toNat)
    else (outPtr, heap)

/-- `stringToUTF16`: the number of bytes in front of the terminator, and the memory. -/
def stringToUTF16 (str : Text) (heap : List UInt8) (outPtr : Nat) (maxBytesToWrite : Option Int) :
    Nat × List UInt8 :=
  let maxBytesToWrite := maxBytesToWrite.getD 0x7FFFFFFF
  if maxBytesToWrite < 2 then (0, heap)
  else
    let maxBytesToWrite := (maxBytesToWrite - 2).toNat
    let numCharsToWrite := if maxBytesToWrite < str.length * 2 then maxBytesToWrite else 2 * str.length
    let (endPtr, heap) := writeHalfwords numCharsToWrite str 0 outPtr heap
    (endPtr - outPtr, setUnit 2 heap endPtr 0)

/-- The loop of `stringToUTF32`. -/
def writeFullwords (endPtr : Nat) : Text → Nat → List UInt8 → Nat × List UInt8
  | [], outPtr, heap => (outPtr, heap)
  | c :: str, outPtr, heap =>
    let codePoint := pointAt c str
    let rest := if 0xFFFF < codePoint then str.tail else str
    let heap := setUnit 4 heap outPtr codePoint
    if outPtr + 4 + 4 > endPtr then (outPtr + 4, heap) else writeFullwords endPtr rest (outPtr + 4) heap
termination_by str => str.length
decreasing_by
  rw [List.length_cons]
  split
  · rw [List.length_tail]
    omega
  · exact Nat.lt_succ_self _

def stringToUTF32 (str : Text) (heap : List UInt8) (outPtr : Nat) (maxBytesToWrite : Option Int) :
    Nat × List UInt8 :=
  let maxBytesToWrite := maxBytesToWrite.getD 0x7FFFFFFF
  if maxBytesToWrite < 4 then (0, heap)
  else
    let endPtr := outPtr + (maxBytesToWrite - 4).toNat
    let (last, heap) := writeFullwords endPtr str outPtr heap
    (last - outPtr, setUnit 4 heap last 0)

/-! ## The readers -/

/-- Where `UTF16ToString` has a decoder: in a build with `TEXTDECODER` 2, or when the environment has one. -/
structure Decoding where
  always : Bool
  present : Bool

/-- The UTF-16 decoder of the Encoding standard, with the lead surrogate that it has kept. -/
def runWide : Option UInt16 → Text → List Nat
  | none, [] => []
  | some _, [] => [Utf8Decoder.replacement]
  | none, c :: cs =>
    if isLead c then runWide (some c) cs
    else (if isTrail c then Utf8Decoder.replacement else c.toNat) :: runWide none cs
  | some l, c :: cs =>
    if isTrail c then pair l c :: runWide none cs
    else if isLead c then Utf8Decoder.replacement :: runWide (some c) cs
    else Utf8Decoder.replacement :: c.toNat :: runWide none cs

/-- `UTF16Decoder.decode`, which takes a byte order mark away. -/
def decodeWide (text : Text) : Text :=
  let points := runWide none text
  (if points.head? = some byteOrderMark then points.tail else points).flatMap units

/-- `findStringEnd` of `HEAPU16`; the limit and the index are given twice. -/
def scanWide (maxIdx : Option Nat) : List Nat → Nat → Nat
  | [], idx => idx
  | u :: us, idx => if u ≠ 0 ∧ ¬ maxIdx.any (· ≤ 2 * idx) then scanWide maxIdx us (idx + 1) else idx

def UTF16ToString (d : Decoding) (heap : List UInt8) (ptr : Nat) (maxBytesToRead : Option Nat) (ignoreNul : Bool) :
    Text :=
  let idx := ptr / 2
  let elements := halfwords (heap.drop (2 * idx))
  let maxIdx := maxBytesToRead.map (2 * idx + ·)
  -- twice the end, which is `NaN` where there is no limit
  let endIdx := if ignoreNul then maxIdx else some (2 * scanWide maxIdx elements idx)
  match endIdx with
  | none => []
  | some endIdx =>
    if d.always ∨ (2 * 16 < endIdx - 2 * idx ∧ d.present) then
      decodeWide ((elements.take (endIdx / 2 - idx)).map UInt16.ofNat)
    else
      -- an element that is not there counts as 0
      let n := (endIdx + 1) / 2 - idx
      (elements.take n ++ List.replicate (n - elements.length) 0).map UInt16.ofNat

/-- The loop of `UTF32ToString` from the turn `i` on. `String.fromCodePoint` throws at what is no code point. -/
def readFullwords (maxBytesToRead : Option Nat) (ignoreNul : Bool) : List Nat → Nat → Option Text
  | [], i => if maxBytesToRead.any (· ≤ 4 * i) then some [] else if ignoreNul then none else some []
  | utf32 :: us, i =>
    if maxBytesToRead.any (· ≤ 4 * i) then some []
    else if utf32 = 0 ∧ ignoreNul = false then some []
    else if 0x10FFFF < utf32 then none
    else (readFullwords maxBytesToRead ignoreNul us (i + 1)).map (units utf32 ++ ·)

def UTF32ToString (heap : List UInt8) (ptr : Nat) (maxBytesToRead : Option Nat) (ignoreNul : Bool) : Option Text :=
  readFullwords maxBytesToRead ignoreNul (fullwords (heap.drop (4 * (ptr / 4)))) 0

/-! ## What is written -/

/-- Units as bytes. -/
def wide (w : Nat) (us : List Nat) : List UInt8 := us.flatMap (toLE w)

theorem wide_cons (w u : Nat) (us : List Nat) : wide w (u :: us) = toLE w u ++ wide w us := List.flatMap_cons

theorem length_wide (w : Nat) (us : List Nat) : (wide w us).length = w * us.length := by
  induction us with
  | nil => rfl
  | cons u us ih => rw [wide_cons, List.length_append, length_toLE, ih, List.length_cons, Nat.mul_succ, Nat.add_comm]

theorem setUnit_aligned {w ptr : Nat} (hptr : ptr % w = 0) (heap : List UInt8) (value : Nat) :
    setUnit w heap ptr value = put ptr (toLE w value) heap := by
  unfold setUnit
  rw [Nat.mul_div_cancel' (Nat.dvd_of_mod_eq_zero hptr)]

theorem put_wide_cons (w u : Nat) (us : List Nat) (ptr : Nat) (heap : List UInt8) :
    put (ptr + w) (wide w us) (put ptr (toLE w u) heap) = put ptr (wide w (u :: us)) heap := by
  rw [wide_cons, put_append, length_toLE]

variable {outPtr : Nat} {maxBytesToWrite : Int} {us : List Nat} {heap : List UInt8}

/-- By induction on the string. -/
theorem writeHalfwords_eq (numCharsToWrite : Nat) (str : Text) (i : Nat) (hptr : outPtr % 2 = 0)
    (heap : List UInt8) : writeHalfwords numCharsToWrite str i outPtr heap =
      let us := (str.take ((numCharsToWrite + 1) / 2 - i)).map UInt16.toNat
      (outPtr + 2 * us.length, put outPtr (wide 2 us) heap) := by
  induction str generalizing i outPtr heap with
  | nil =>
    rw [List.take_nil]
    rfl
  | cons c str ih =>
    rw [writeHalfwords]
    split
    · next hlt =>
      have hturns : (numCharsToWrite + 1) / 2 - i = (numCharsToWrite + 1) / 2 - (i + 1) + 1 := by omega
      rw [ih (i + 1) (by omega), setUnit_aligned hptr, hturns, List.take_succ_cons, List.map_cons]
      dsimp only
      rw [put_wide_cons, List.length_cons]
      exact Prod.ext (by dsimp only; omega) rfl
    · next hge =>
      have hturns : (numCharsToWrite + 1) / 2 - i = 0 := by omega
      rw [hturns]
      rfl

/-- The number of code points that the loop stores, when `room` bytes are left in front of its end. -/
def turns (room : Nat) (us : List Nat) : Nat := min us.length (max 1 (room / 4))

/-- By induction on the code points that are left. -/
theorem writeFullwords_eq {endPtr : Nat} (str : Text) (hptr : outPtr % 4 = 0) (heap : List UInt8) :
    writeFullwords endPtr str outPtr heap =
      let us := (codePoints str).take (turns (endPtr - outPtr) (codePoints str))
      (outPtr + 4 * us.length, put outPtr (wide 4 us) heap) := by
  induction str, outPtr, heap using writeFullwords.induct endPtr with
  | case1 outPtr heap => rw [writeFullwords, codePoints]; rfl
  | case2 c str outPtr heap hend =>
    have hone : turns (endPtr - outPtr) (codePoints (c :: str)) = 1 := by
      rw [turns, codePoints_cons, List.length_cons]
      omega
    rw [writeFullwords]
    dsimp only
    rw [if_pos hend, hone, codePoints_cons, List.take_succ_cons, List.take_zero, setUnit_aligned hptr]
    rw [wide_cons, wide, List.flatMap_nil, List.append_nil]
    rfl
  | case3 c str outPtr heap codePoint rest heap' hend ih =>
    have hpoints : codePoints (c :: str) = codePoint :: codePoints rest := codePoints_cons c str
    have hmore : turns (endPtr - outPtr) (codePoints (c :: str)) =
        turns (endPtr - (outPtr + 4)) (codePoints rest) + 1 := by
      rw [turns, turns, hpoints, List.length_cons]
      omega
    have hnext := ih (by omega)
    have hheap : heap' = put outPtr (toLE 4 codePoint) heap := setUnit_aligned hptr heap _
    rw [writeFullwords]
    dsimp only
    rw [if_neg hend, hmore, hpoints, List.take_succ_cons]
    refine hnext.trans ?_
    dsimp only
    rw [hheap, put_wide_cons, List.length_cons]
    exact Prod.ext (by dsimp only; omega) rfl

/-- The first `k` units and a zero one are stored. -/
def Wrote (w : Nat) (us : List Nat) (k : Nat) (heap : List UInt8) (outPtr : Nat) (r : Nat × List UInt8) : Prop :=
  r = (w * k, put outPtr (wide w (us.take k ++ [0])) heap)

/-- The number of units that `stringToUTF16` stores. -/
def stored (str : Text) (maxBytesToWrite : Int) : Nat := min str.length ((maxBytesToWrite - 1) / 2).toNat

theorem stringToUTF16_wrote (str : Text) (heap : List UInt8) (hptr : outPtr % 2 = 0)
    (hmax : 2 ≤ maxBytesToWrite) :
    Wrote 2 (str.map UInt16.toNat) (stored str maxBytesToWrite) heap outPtr
      (stringToUTF16 str heap outPtr (some maxBytesToWrite)) := by
  have hcount : ∀ n : Nat, (maxBytesToWrite - 2).toNat = n →
      str.take (((if n < str.length * 2 then n else 2 * str.length) + 1) / 2 - 0) =
        str.take (stored str maxBytesToWrite) := by
    intro n hn
    unfold stored
    split
    · congr 1
      omega
    · rw [List.take_of_length_le (by omega), List.take_of_length_le (by omega)]
  have hlength : (str.take (stored str maxBytesToWrite)).length = stored str maxBytesToWrite := by
    rw [List.length_take]
    exact Nat.min_eq_left (Nat.min_le_left _ _)
  unfold Wrote stringToUTF16
  rw [Option.getD_some, if_neg (by omega)]
  dsimp only
  rw [writeHalfwords_eq _ _ _ hptr, hcount _ rfl]
  dsimp only
  rw [List.length_map, hlength, setUnit_aligned (by omega), ← List.map_take]
  have hbytes : wide 2 ((str.take (stored str maxBytesToWrite)).map UInt16.toNat ++ [0]) =
      wide 2 ((str.take (stored str maxBytesToWrite)).map UInt16.toNat) ++ toLE 2 0 := by
    unfold wide
    rw [List.flatMap_append, List.flatMap_singleton]
  rw [hbytes, put_append, length_wide, List.length_map, hlength, Nat.add_sub_cancel_left]

theorem stringToUTF32_wrote (str : Text) (heap : List UInt8) (hptr : outPtr % 4 = 0)
    (hmax : 4 ≤ maxBytesToWrite) :
    Wrote 4 (codePoints str) (turns (maxBytesToWrite - 4).toNat (codePoints str)) heap outPtr
      (stringToUTF32 str heap outPtr (some maxBytesToWrite)) := by
  have hlength : ((codePoints str).take (turns (maxBytesToWrite - 4).toNat (codePoints str))).length =
      turns (maxBytesToWrite - 4).toNat (codePoints str) := by
    rw [List.length_take]
    exact Nat.min_eq_left (Nat.min_le_left _ _)
  unfold Wrote stringToUTF32
  rw [Option.getD_some, if_neg (by omega)]
  dsimp only
  have hroom := Nat.add_sub_cancel_left (n := outPtr) (m := (maxBytesToWrite - 4).toNat)
  rw [writeFullwords_eq _ hptr, hroom]
  dsimp only
  rw [hlength, setUnit_aligned (by omega)]
  have hbytes : ∀ us : List Nat, wide 4 (us ++ [0]) = wide 4 us ++ toLE 4 0 := by
    intro us
    unfold wide
    rw [List.flatMap_append, List.flatMap_singleton]
  rw [hbytes, put_append, length_wide, hlength, Nat.add_sub_cancel_left]

/-! ## Which limits the writers keep to -/

/-- The stores are inside the limit, and the most units that fit in front of a zero one are there. -/
structure Fits (w : Nat) (us : List Nat) (heap : List UInt8) (outPtr : Nat) (maxBytesToWrite : Int)
    (r : Nat × List UInt8) : Prop where
  inside : ∀ i : Nat, ¬ (outPtr ≤ i ∧ (i : Int) < outPtr + maxBytesToWrite) → r.2[i]? = heap[i]?
  ended : (w : Int) ≤ maxBytesToWrite → ∃ j ≤ us.length, r.1 = w * j ∧ (w * j + w : Nat) ≤ maxBytesToWrite ∧
    (∀ k ≤ us.length, (w * k + w : Nat) ≤ maxBytesToWrite → k ≤ j) ∧
    (outPtr + (w * j + w) ≤ heap.length → Shows r.2 outPtr (wide w (us.take j ++ [0])))

theorem fits_iff {w : Nat} (hw : 0 < w) {k : Nat} {r : Nat × List UInt8} (hwrote : Wrote w us k heap outPtr r)
    (hk : k ≤ us.length) (hroom : (w : Int) ≤ maxBytesToWrite)
    (hmost : ∀ j ≤ us.length, (w * j + w : Nat) ≤ maxBytesToWrite → j ≤ k) :
    Fits w us heap outPtr maxBytesToWrite r ↔ (w * k + w : Nat) ≤ maxBytesToWrite := by
  have hlength : (wide w (us.take k ++ [0])).length = w * k + w := by
    rw [length_wide, List.length_append, List.length_take, Nat.min_eq_left hk, List.length_singleton, Nat.mul_succ]
  subst hwrote
  constructor
  · intro hfits
    obtain ⟨j, -, hcount, hj, -⟩ := hfits.ended hroom
    have heq : k = j := Nat.eq_of_mul_eq_mul_left hw hcount
    rwa [heq]
  · intro hle
    constructor
    · intro i hi
      rw [getElem?_put, hlength, if_neg (by omega)]
    · intro _
      refine ⟨k, hk, rfl, hle, hmost, fun hheap => ?_⟩
      apply shows_put
      rwa [hlength]

/-- The units that fit in front of a zero one. -/
def prefix16 (str : Text) (maxBytesToWrite : Int) : Text := str.take ((maxBytesToWrite - 2) / 2).toNat

def prefix32 (str : Text) (maxBytesToWrite : Int) : List Nat := (codePoints str).take ((maxBytesToWrite - 4) / 4).toNat

theorem stringToUTF16_fits (str : Text) (heap : List UInt8) (hptr : outPtr % 2 = 0) (hmax : 2 ≤ maxBytesToWrite) :
    Fits 2 (str.map UInt16.toNat) heap outPtr maxBytesToWrite (stringToUTF16 str heap outPtr (some maxBytesToWrite)) ↔
      maxBytesToWrite % 2 = 0 ∨ 2 * str.length + 2 ≤ maxBytesToWrite := by
  have hwrote := stringToUTF16_wrote str heap hptr hmax
  rw [fits_iff (by decide) hwrote]
  · unfold stored
    omega
  · rw [List.length_map]
    exact Nat.min_le_left _ _
  · exact hmax
  · intro j hj hle
    rw [List.length_map] at hj
    unfold stored
    omega

theorem stringToUTF32_fits (str : Text) (heap : List UInt8) (hptr : outPtr % 4 = 0) (hmax : 4 ≤ maxBytesToWrite) :
    Fits 4 (codePoints str) heap outPtr maxBytesToWrite (stringToUTF32 str heap outPtr (some maxBytesToWrite)) ↔
      8 ≤ maxBytesToWrite ∨ str = [] := by
  have hwrote := stringToUTF32_wrote str heap hptr hmax
  have hempty : (codePoints str).length = 0 ↔ str = [] := by
    cases str with
    | nil => exact iff_of_true rfl rfl
    | cons c str =>
      rw [codePoints_cons]
      exact iff_of_false (Nat.succ_ne_zero _) (List.cons_ne_nil _ _)
  rw [fits_iff (by decide) hwrote, ← hempty]
  · unfold turns
    omega
  · exact Nat.min_le_left _ _
  · exact hmax
  · intro j hj hle
    unfold turns
    omega

/-! ## Reading what was written -/

theorem halfwords_wide (hus : ∀ u ∈ us, u < 0x10000) (bs : List UInt8) :
    halfwords (wide 2 us ++ bs) = us ++ halfwords bs := by
  induction us with
  | nil => rfl
  | cons u us ih =>
    have hvalue : ofLE (toLE 2 u) = u := (ofLE_toLE 2 u).trans (Nat.mod_eq_of_lt (hus u List.mem_cons_self))
    have hfirst : halfwords (toLE 2 u ++ (wide 2 us ++ bs)) = ofLE (toLE 2 u) :: halfwords (wide 2 us ++ bs) := rfl
    rw [wide_cons, List.append_assoc, hfirst, hvalue, ih (fun v hv => hus v (List.mem_cons_of_mem _ hv))]
    rfl

theorem fullwords_wide (hus : ∀ u ∈ us, u ≤ 0x10FFFF) (bs : List UInt8) :
    fullwords (wide 4 us ++ bs) = us ++ fullwords bs := by
  induction us with
  | nil => rfl
  | cons u us ih =>
    have hvalue : ofLE (toLE 4 u) = u :=
      (ofLE_toLE 4 u).trans (Nat.mod_eq_of_lt (Nat.lt_of_le_of_lt (hus u List.mem_cons_self) (by decide)))
    have hfirst : fullwords (toLE 4 u ++ (wide 4 us ++ bs)) = ofLE (toLE 4 u) :: fullwords (wide 4 us ++ bs) := rfl
    rw [wide_cons, List.append_assoc, hfirst, hvalue, ih (fun v hv => hus v (List.mem_cons_of_mem _ hv))]
    rfl

theorem scanWide_append (hus : 0 ∉ us) (rest : List Nat) (idx : Nat) :
    scanWide none (us ++ 0 :: rest) idx = idx + us.length := by
  induction us generalizing idx with
  | nil => exact if_neg fun h => h.1 rfl
  | cons u us ih =>
    obtain ⟨hu, hus⟩ := not_or.mp (fun h => hus (List.mem_cons.mpr h))
    rw [List.cons_append, scanWide, if_pos ⟨Ne.symm hu, by simp⟩, ih hus, List.length_cons]
    omega

theorem zero_mem_toNat {text : Text} : 0 ∈ text.map UInt16.toNat ↔ (0 : UInt16) ∈ text := by
  constructor
  · intro h
    obtain ⟨c, hc, hzero⟩ := List.mem_map.mp h
    rwa [← (UInt16.toNat_inj (b := 0)).mp hzero]
  · exact fun h => List.mem_map.mpr ⟨0, h, rfl⟩

/-- The text goes through the decoder. -/
def Decoded (d : Decoding) (text : Text) : Prop := d.always = true ∨ (16 < text.length ∧ d.present = true)

instance (d : Decoding) (text : Text) : Decidable (Decoded d text) :=
  inferInstanceAs (Decidable (d.always = true ∨ (16 < text.length ∧ d.present = true)))

theorem UTF16ToString_eq {ptr : Nat} {text : Text} (d : Decoding) (hptr : ptr % 2 = 0)
    (hzero : (0 : UInt16) ∉ text) (h : Shows heap ptr (wide 2 (text.map UInt16.toNat ++ [0]))) :
    UTF16ToString d heap ptr none false = if Decoded d text then decodeWide text else text := by
  have hus : ∀ u ∈ text.map UInt16.toNat ++ [0], u < 0x10000 := by
    intro u hu
    cases List.mem_append.mp hu with
    | inl hmem =>
      obtain ⟨c, -, rfl⟩ := List.mem_map.mp hmem
      exact c.toNat_lt
    | inr hlast =>
      rw [List.mem_singleton.mp hlast]
      decide
  have hstart : 2 * (ptr / 2) = ptr := by omega
  obtain ⟨rest, helements⟩ : ∃ rest, halfwords (heap.drop ptr) = text.map UInt16.toNat ++ 0 :: rest := by
    rw [drop_of_shows h, halfwords_wide hus, List.append_assoc]
    exact ⟨_, rfl⟩
  have hlast := scanWide_append (zero_mem_toNat.not.mpr hzero) rest (ptr / 2)
  rw [List.length_map] at hlast
  have hwhole : ((text.map UInt16.toNat ++ 0 :: rest).take text.length).map UInt16.ofNat = text := by
    rw [List.take_left' (List.length_map ..), List.map_map]
    exact List.map_id'' (fun c => UInt16.ofNat_toNat) text
  have hnone : text.length - (text.map UInt16.toNat ++ 0 :: rest).length = 0 := by
    rw [List.length_append, List.length_map]
    omega
  have hdecoder : (16 < text.length ∧ d.present = true) ↔
      2 * 16 < 2 * (ptr / 2 + text.length) - 2 * (ptr / 2) ∧ d.present = true := by
    apply and_congr_left
    intro _
    omega
  have hhalf : 2 * (ptr / 2 + text.length) / 2 - ptr / 2 = text.length := by omega
  have hround : (2 * (ptr / 2 + text.length) + 1) / 2 - ptr / 2 = text.length := by omega
  unfold UTF16ToString Decoded
  dsimp only
  rw [hstart, helements]
  simp only [Option.map_none, hlast, hround, hnone, hhalf, hwhole, hdecoder, List.replicate_zero, List.append_nil,
    hstart, Bool.false_eq_true, if_false]

theorem readFullwords_append (hzero : 0 ∉ us) (hus : ∀ u ∈ us, u ≤ 0x10FFFF) (i : Nat) (rest : List Nat) :
    readFullwords none false (us ++ 0 :: rest) i = some (us.flatMap units) := by
  induction us generalizing i with
  | nil => rfl
  | cons u us ih =>
    obtain ⟨hu, hrest⟩ := not_or.mp (fun h => hzero (List.mem_cons.mpr h))
    have hnext := ih hrest (fun v hv => hus v (List.mem_cons_of_mem _ hv)) (i + 1)
    have hle := hus u List.mem_cons_self
    rw [List.cons_append, readFullwords, hnext, if_neg (by simp), if_neg (fun hstop => hu hstop.1.symm),
      if_neg (Nat.not_lt.mpr hle)]
    rfl

theorem UTF32ToString_eq {ptr : Nat} (hptr : ptr % 4 = 0) (hzero : 0 ∉ us) (hus : ∀ u ∈ us, u ≤ 0x10FFFF)
    (h : Shows heap ptr (wide 4 (us ++ [0]))) :
    UTF32ToString heap ptr none false = some (us.flatMap units) := by
  have hall : ∀ u ∈ us ++ [0], u ≤ 0x10FFFF := by
    intro u hu
    cases List.mem_append.mp hu with
    | inl hmem => exact hus u hmem
    | inr hlast =>
      rw [List.mem_singleton.mp hlast]
      decide
  have hstart : 4 * (ptr / 4) = ptr := by omega
  unfold UTF32ToString
  rw [hstart, drop_of_shows h, fullwords_wide hall, List.append_assoc]
  exact readFullwords_append hzero hus 0 _

/-! ## What the decoder leaves of a text -/

/-- What the decoder makes of a code point. -/
def shown (u : Nat) : Nat := if 0xD800 ≤ u ∧ u ≤ 0xDFFF then Utf8Decoder.replacement else u

theorem shown_unit {c : UInt16} : shown c.toNat = if isLead c ∨ isTrail c then Utf8Decoder.replacement else c.toNat := by
  unfold shown
  apply if_congr _ rfl rfl
  simp only [isLead, isTrail, decide_eq_true_eq]
  omega

/-- By induction on the units, with and without a lead surrogate that is kept. -/
theorem runWide_eq (text : Text) : runWide none text = (codePoints text).map shown ∧
    ∀ l, isLead l → runWide (some l) text = (codePoints (l :: text)).map shown := by
  induction text with
  | nil =>
    refine ⟨rfl, fun l hl => ?_⟩
    have hshown : shown l.toNat = Utf8Decoder.replacement := by
      rw [shown_unit, if_pos (Or.inl hl)]
    rw [codePoints, List.map_singleton, hshown]
    rfl
  | cons c cs ih =>
    obtain ⟨hnone, hsome⟩ := ih
    have hfirst : runWide none (c :: cs) = (codePoints (c :: cs)).map shown := by
      rw [runWide]
      split
      · next hlead => exact hsome c hlead
      · next hlead =>
        have hpoint := pointAt_of_not_lead (Bool.not_eq_true _ ▸ hlead) cs
        have hunit : ¬ 0xFFFF < c.toNat := Nat.not_lt.mpr (toNat_le c)
        rw [codePoints_cons, hpoint, if_neg hunit, List.map_cons, shown_unit, hnone]
        simp only [hlead, Bool.false_eq_true, false_or]
    refine ⟨hfirst, fun l hl => ?_⟩
    have hkept : shown l.toNat = Utf8Decoder.replacement := by
      rw [shown_unit, if_pos (Or.inl hl)]
    rw [runWide]
    split
    · next htrail =>
      have hbounds := pair_bounds hl htrail
      have hpoints : codePoints (l :: c :: cs) = pair l c :: codePoints cs := if_pos ⟨hl, htrail⟩
      have hpair : shown (pair l c) = pair l c := if_neg (by omega)
      rw [hpoints, List.map_cons, hpair, hnone]
    · next htrail =>
      have hpoints : codePoints (l :: c :: cs) = l.toNat :: codePoints (c :: cs) := if_neg fun hpair => htrail hpair.2
      rw [hpoints, List.map_cons, hkept, ← hfirst, runWide]
      split
      · rfl
      · rfl

/-- A text that the decoder leaves as it is: no byte order mark in front, and no unpaired surrogate. -/
structure Survives (text : Text) : Prop where
  unmarked : (codePoints text).head? ≠ some byteOrderMark
  paired : ∀ u ∈ codePoints text, ¬ (0xD800 ≤ u ∧ u ≤ 0xDFFF)

theorem length_units_shown (u : Nat) : (units (shown u)).length = (units u).length := by
  unfold shown
  split
  · next hsurrogate =>
    unfold units
    rw [if_pos (by decide), if_pos (by omega)]
    rfl
  · rfl

theorem shown_text_eq_iff (us : List Nat) :
    (us.map shown).flatMap units = us.flatMap units ↔ ∀ u ∈ us, ¬ (0xD800 ≤ u ∧ u ≤ 0xDFFF) := by
  induction us with
  | nil => exact iff_of_true rfl nofun
  | cons u us ih =>
    have hfirst : units (shown u) = units u ↔ ¬ (0xD800 ≤ u ∧ u ≤ 0xDFFF) := by
      unfold shown
      constructor
      · intro heq hsurrogate
        rw [if_pos hsurrogate] at heq
        have hu : u = Utf8Decoder.replacement := units_eq_replacement heq.symm
        rw [hu] at hsurrogate
        exact absurd hsurrogate (by decide)
      · intro hno
        rw [if_neg hno]
    rw [List.map_cons, List.flatMap_cons, List.flatMap_cons, List.forall_mem_cons, ← hfirst, ← ih]
    constructor
    · exact fun h => List.append_inj h (length_units_shown u)
    · rintro ⟨hhead, htail⟩
      rw [hhead, htail]

theorem decodeWide_eq_iff (text : Text) : decodeWide text = text ↔ Survives text := by
  have hlength : ∀ us : List Nat, ((us.map shown).flatMap units).length = (us.flatMap units).length := by
    intro us
    induction us with
    | nil => rfl
    | cons u us ih =>
      rw [List.map_cons, List.flatMap_cons, List.flatMap_cons, List.length_append, List.length_append, ih,
        length_units_shown]
  have htext := units_codePoints text
  have hmark : ∀ us : List Nat, (us.map shown).head? = some byteOrderMark ↔ us.head? = some byteOrderMark := by
    intro us
    cases us with
    | nil => exact iff_of_false nofun nofun
    | cons u us =>
      rw [List.map_cons, List.head?_cons, List.head?_cons, Option.some_inj, Option.some_inj]
      unfold shown
      split
      · next hsurrogate =>
        refine iff_of_false (by decide) (fun hu => ?_)
        rw [hu] at hsurrogate
        exact absurd hsurrogate (by decide)
      · rfl
  have hpoints := (runWide_eq text).1
  unfold decodeWide
  rw [hpoints]
  dsimp only
  simp only [hmark]
  split
  · next hmarked =>
    refine iff_of_false (fun heq => ?_) (fun h => h.unmarked hmarked)
    cases hus : codePoints text with
    | nil =>
      rw [hus] at hmarked
      cases hmarked
    | cons u us =>
      have hlonger := hlength us
      rw [hus] at heq htext
      rw [List.map_cons, List.tail_cons] at heq
      rw [heq, ← htext, List.flatMap_cons, List.length_append] at hlonger
      have hpos : 0 < (units u).length := by
        unfold units
        split
        · exact Nat.le_refl 1
        · exact Nat.le_succ 1
      omega
  · next hunmarked =>
    have hiff := shown_text_eq_iff (codePoints text)
    rw [htext] at hiff
    exact hiff.trans ⟨fun h => ⟨hunmarked, h⟩, fun h => h.paired⟩

/-! ## Writing and reading -/

/-- Everything that is asked of `stringToUTF16`, and of `UTF16ToString` of what it wrote. -/
def Sound16 (d : Decoding) (str : Text) (outPtr : Nat) (maxBytesToWrite : Int) : Prop :=
  ∀ heap : List UInt8,
    Fits 2 (str.map UInt16.toNat) heap outPtr maxBytesToWrite (stringToUTF16 str heap outPtr (some maxBytesToWrite)) ∧
    (2 ≤ maxBytesToWrite → (0 : UInt16) ∉ prefix16 str maxBytesToWrite →
      outPtr + (2 * str.length + 2) ≤ heap.length →
      UTF16ToString d (stringToUTF16 str heap outPtr (some maxBytesToWrite)).2 outPtr none false =
        prefix16 str maxBytesToWrite)

def Sound32 (str : Text) (outPtr : Nat) (maxBytesToWrite : Int) : Prop :=
  ∀ heap : List UInt8,
    Fits 4 (codePoints str) heap outPtr maxBytesToWrite (stringToUTF32 str heap outPtr (some maxBytesToWrite)) ∧
    (4 ≤ maxBytesToWrite → 0 ∉ prefix32 str maxBytesToWrite →
      outPtr + (4 * (codePoints str).length + 4) ≤ heap.length →
      UTF32ToString (stringToUTF32 str heap outPtr (some maxBytesToWrite)).2 outPtr none false =
        some ((prefix32 str maxBytesToWrite).flatMap units))

/-- A writer that fits leaves the prefix of its string. -/
theorem Fits.shows {w : Nat} {r : Nat × List UInt8} (h : Fits w us heap outPtr maxBytesToWrite r)
    (hmax : (w : Int) ≤ maxBytesToWrite) (hroom : outPtr + (w * us.length + w) ≤ heap.length) {n : Nat}
    (hn : ∀ k, (w * k + w : Nat) ≤ maxBytesToWrite ↔ k ≤ n) : Shows r.2 outPtr (wide w (us.take n ++ [0])) := by
  obtain ⟨j, hj, -, hle, hmost, hshows⟩ := h.ended hmax
  have htake : us.take n = us.take j := by
    have hjn : j ≤ n := (hn j).mp hle
    cases Nat.lt_or_ge j us.length with
    | inl hlt =>
      have hno : ¬ j + 1 ≤ n := fun hmore => absurd (hmost (j + 1) hlt ((hn (j + 1)).mpr hmore)) (by omega)
      have heq : n = j := by omega
      rw [heq]
    | inr hge => rw [List.take_of_length_le (by omega), List.take_of_length_le hge]
  have hmul : w * j ≤ w * us.length := Nat.mul_le_mul_left w hj
  rw [htake]
  exact hshows (by omega)

theorem sound16_iff (d : Decoding) (str : Text) (hptr : outPtr % 2 = 0) (maxBytesToWrite : Int) :
    Sound16 d str outPtr maxBytesToWrite ↔ maxBytesToWrite < 2 ∨
      ((maxBytesToWrite % 2 = 0 ∨ 2 * str.length + 2 ≤ maxBytesToWrite) ∧
        ((0 : UInt16) ∉ prefix16 str maxBytesToWrite → Decoded d (prefix16 str maxBytesToWrite) →
          Survives (prefix16 str maxBytesToWrite))) := by
  cases Int.lt_or_le maxBytesToWrite 2 with
  | inl hlt =>
    refine iff_of_true (fun heap => ⟨?_, fun hge => absurd hge (by omega)⟩) (Or.inl hlt)
    have hnothing : stringToUTF16 str heap outPtr (some maxBytesToWrite) = (0, heap) := if_pos hlt
    rw [hnothing]
    exact ⟨fun i _ => rfl, fun hge => absurd hge (by omega)⟩
  | inr hge =>
    have hread : ∀ heap : List UInt8, outPtr + (2 * str.length + 2) ≤ heap.length →
        (0 : UInt16) ∉ prefix16 str maxBytesToWrite →
        Fits 2 (str.map UInt16.toNat) heap outPtr maxBytesToWrite
          (stringToUTF16 str heap outPtr (some maxBytesToWrite)) →
        UTF16ToString d (stringToUTF16 str heap outPtr (some maxBytesToWrite)).2 outPtr none false =
          if Decoded d (prefix16 str maxBytesToWrite) then decodeWide (prefix16 str maxBytesToWrite)
          else prefix16 str maxBytesToWrite := by
      intro heap hroom hzero hfits
      apply UTF16ToString_eq d hptr hzero
      unfold prefix16
      rw [List.map_take]
      apply hfits.shows hge
      · rwa [List.length_map]
      · omega
    rw [or_iff_right (Int.not_lt.mpr hge)]
    constructor
    · intro h
      obtain ⟨hfits, hback⟩ := h (List.replicate (outPtr + (2 * str.length + 2)) 0)
      refine ⟨(stringToUTF16_fits str _ hptr hge).mp hfits, fun hzero hdecoded => ?_⟩
      have hroom : outPtr + (2 * str.length + 2) ≤
          (List.replicate (outPtr + (2 * str.length + 2)) (0 : UInt8)).length := by
        rw [List.length_replicate]
      have htext := hback hge hzero hroom
      rw [hread _ hroom hzero hfits, if_pos hdecoded] at htext
      exact (decodeWide_eq_iff _).mp htext
    · rintro ⟨hlimit, hsurvives⟩ heap
      have hfits := (stringToUTF16_fits str heap hptr hge).mpr hlimit
      refine ⟨hfits, fun _ hzero hroom => ?_⟩
      rw [hread heap hroom hzero hfits]
      split
      · next hdecoded => exact (decodeWide_eq_iff _).mpr (hsurvives hzero hdecoded)
      · rfl

theorem sound32_iff (str : Text) (hptr : outPtr % 4 = 0) (maxBytesToWrite : Int) :
    Sound32 str outPtr maxBytesToWrite ↔ maxBytesToWrite < 4 ∨ 8 ≤ maxBytesToWrite ∨ str = [] := by
  cases Int.lt_or_le maxBytesToWrite 4 with
  | inl hlt =>
    refine iff_of_true (fun heap => ⟨?_, fun hge => absurd hge (by omega)⟩) (Or.inl hlt)
    have hnothing : stringToUTF32 str heap outPtr (some maxBytesToWrite) = (0, heap) := if_pos hlt
    rw [hnothing]
    exact ⟨fun i _ => rfl, fun hge => absurd hge (by omega)⟩
  | inr hge =>
    rw [or_iff_right (Int.not_lt.mpr hge)]
    constructor
    · exact fun h => (stringToUTF32_fits str [] hptr hge).mp (h []).1
    · intro hlimit heap
      have hfits := (stringToUTF32_fits str heap hptr hge).mpr hlimit
      refine ⟨hfits, fun _ hzero hroom => ?_⟩
      apply UTF32ToString_eq hptr hzero
      · exact fun u hu => JsFs.LinkText.codePoints_le str u (List.mem_of_mem_take hu)
      · apply hfits.shows hge hroom
        omega

/-- The writers keep to their limits, and what they write is read back: for UTF-16 exactly with a limit that is even
or leaves room for the whole string, where what goes through the decoder has neither a byte order mark nor an
unpaired surrogate; for UTF-32 exactly with a limit that is not between 4 and 7, or for the empty string. -/
theorem wideStrings_iff (d : Decoding) (str : Text) (outPtr : Nat) (maxBytesToWrite : Int) :
    (outPtr % 2 = 0 → (Sound16 d str outPtr maxBytesToWrite ↔ maxBytesToWrite < 2 ∨
      ((maxBytesToWrite % 2 = 0 ∨ 2 * str.length + 2 ≤ maxBytesToWrite) ∧
        ((0 : UInt16) ∉ prefix16 str maxBytesToWrite → Decoded d (prefix16 str maxBytesToWrite) →
          Survives (prefix16 str maxBytesToWrite))))) ∧
    (outPtr % 4 = 0 → (Sound32 str outPtr maxBytesToWrite ↔
      maxBytesToWrite < 4 ∨ 8 ≤ maxBytesToWrite ∨ str = [])) :=
  ⟨fun hptr => sound16_iff d str hptr maxBytesToWrite, fun hptr => sound32_iff str hptr maxBytesToWrite⟩

/-- Two letters and limits with room for both. -/
theorem wideStrings_letters : Sound16 ⟨false, true⟩ [0x61, 0x62] 6 7 ∧ Sound32 [0x61, 0x62] 8 13 := by
  constructor
  · apply ((wideStrings_iff ⟨false, true⟩ [0x61, 0x62] 6 7).1 rfl).mpr
    exact Or.inr ⟨Or.inr (by decide), fun _ hdecoded => absurd hdecoded (by decide)⟩
  · apply ((wideStrings_iff ⟨false, true⟩ [0x61, 0x62] 8 13).2 rfl).mpr
    exact Or.inr (Or.inl (by decide))

/-- With the limit 3 four bytes are stored, and with the limit 4 a string of UTF-32 takes eight; a byte order mark in
front of 16 letters is not read back. -/
theorem wideStrings_overrun :
    (stringToUTF16 [0x61] [7, 7, 7, 7] 0 (some 3)).2 = [0x61, 0, 0, 0] ∧ ¬ Sound16 ⟨false, true⟩ [0x61] 0 3 ∧
    (stringToUTF32 [0x61] [7, 7, 7, 7, 7, 7, 7, 7] 0 (some 4)).2 = [0x61, 0, 0, 0, 0, 0, 0, 0] ∧
      ¬ Sound32 [0x61] 0 4 ∧
    ¬ Sound16 ⟨false, true⟩ (0xFEFF :: List.replicate 16 0x61) 0 36 := by
  refine ⟨by decide, ?_, ?_, ?_, ?_⟩
  · rw [sound16_iff _ _ rfl]
    rintro (hlt | ⟨hlimit, -⟩)
    · exact absurd hlt (by decide)
    · exact absurd hlimit (by decide)
  · rw [stringToUTF32, if_neg (by decide)]
    simp only [writeFullwords, pointAt]
    decide
  · rw [sound32_iff _ rfl]
    decide
  · rw [sound16_iff _ _ rfl]
    rintro (hlt | ⟨-, hsurvives⟩)
    · exact absurd hlt (by decide)
    · exact absurd (hsurvives (by decide) (by decide)).unmarked (by decide)

end Strings
