-- SUMMARY: Strings in memory as UTF-8: what the writer leaves in the buffer, what the reader makes of it, and how many bytes are counted.
import Emscripten.JsFs.LinkText

/-!
# UTF-8 strings

`stringToUTF8Array` writes code points, `UTF8ArrayToString` reads sequences of bytes whose length it takes from
their first byte, and `lengthBytesUTF8` counts units. The writer and the reader agree on every text, the
count on those in which the errors that it makes at unpaired surrogates cancel.
-/

namespace Strings

open Unicode Heap
open JsFs.LinkText

/-! ## The reader -/

/-- `heapOrArray[idx]`, where `undefined` becomes 0. -/
def byteAt (heap : List UInt8) (idx : Nat) : Nat := (heap[idx]?.getD 0).toNat

def fromCharCode (u : Nat) : Text := [UInt16.ofNat u]

/-- One turn of the loop: the units that it appends, and the index behind the bytes that it reads. -/
def decodeTurn (heap : List UInt8) (idx : Nat) : Text × Nat :=
  let u0 := byteAt heap idx
  if u0 &&& 0x80 = 0 then (fromCharCode u0, idx + 1)
  else
    let u1 := byteAt heap (idx + 1) &&& 63
    if u0 &&& 0xE0 = 0xC0 then (fromCharCode (((u0 &&& 31) <<< 6) ||| u1), idx + 2)
    else
      let u2 := byteAt heap (idx + 2) &&& 63
      let (u0, idx) :=
        if u0 &&& 0xF0 = 0xE0 then (((u0 &&& 15) <<< 12) ||| (u1 <<< 6) ||| u2, idx + 3)
        else (((u0 &&& 7) <<< 18) ||| (u1 <<< 12) ||| (u2 <<< 6) ||| (byteAt heap (idx + 3) &&& 63), idx + 4)
      if u0 < 0x10000 then (fromCharCode u0, idx)
      else
        let ch := u0 - 0x10000
        (fromCharCode (0xD800 ||| (ch >>> 10)) ++ fromCharCode (0xDC00 ||| (ch &&& 0x3FF)), idx)

/-- The loop, with a bound on its turns: the string, and the index behind the last byte that is read. -/
def decodeLoop (heap : List UInt8) (endPtr : Nat) : Nat → Nat → Text × Nat
  | 0, idx => ([], idx)
  | k + 1, idx =>
    if idx < endPtr then
      let (units, next) := decodeTurn heap idx
      let (str, last) := decodeLoop heap endPtr k next
      (units ++ str, last)
    else ([], idx)

/-- The bytes from `idx` on are one for each index. -/
def scanEnd (maxIdx : Option Nat) : List UInt8 → Nat → Nat
  | [], idx => idx
  | b :: bs, idx => if b ≠ 0 ∧ ¬ maxIdx.any (· ≤ idx) then scanEnd maxIdx bs (idx + 1) else idx

/-- `findStringEnd`. Without `maxBytesToRead` its `maxIdx` is `NaN`. -/
def findStringEnd (heap : List UInt8) (idx : Nat) (maxBytesToRead : Option Nat) (ignoreNul : Bool) : Option Nat :=
  let maxIdx := maxBytesToRead.map (idx + ·)
  if ignoreNul then maxIdx else some (scanEnd maxIdx (heap.drop idx) idx)

/-- The scalar loop of `UTF8ArrayToString` between two indices. -/
def decodeScalar (heap : List UInt8) (idx endPtr : Nat) : Text × Nat :=
  decodeLoop heap endPtr (endPtr - idx) idx

/-! ## Sequences of bytes -/

/-- The units of a code point. -/
def units (u : Nat) : Text :=
  if u < 0x10000 then [UInt16.ofNat u]
  else [UInt16.ofNat (0xD800 + (u - 0x10000) / 0x400), UInt16.ofNat (0xDC00 + (u - 0x10000) % 0x400)]

theorem and_mask (x i : Nat) : x &&& (2 ^ i - 1) = x % 2 ^ i := Nat.and_two_pow_sub_one_eq_mod x i

theorem continuation_and (u : Nat) : (UInt8.ofNat (0x80 + u % 0x40)).toNat &&& 63 = u % 0x40 := by
  have hlt : 0x80 + u % 0x40 < 256 := by omega
  rw [UInt8.toNat_ofNat_of_lt' hlt]
  exact (and_mask _ 6).trans (by omega)

set_option maxRecDepth 4000 in
/-- The masks of the first byte leave its class. -/
theorem and_masks (b : UInt8) : (b.toNat &&& 0x80 = 0 ↔ b.toNat < 0x80) ∧
    (b.toNat &&& 0xE0 = 0xC0 ↔ 0xC0 ≤ b.toNat ∧ b.toNat < 0xE0) ∧
    (b.toNat &&& 0xF0 = 0xE0 ↔ 0xE0 ≤ b.toNat ∧ b.toNat < 0xF0) := by
  have hall : ∀ n : Fin 256, (n.val &&& 0x80 = 0 ↔ n.val < 0x80) ∧
      (n.val &&& 0xE0 = 0xC0 ↔ 0xC0 ≤ n.val ∧ n.val < 0xE0) ∧
      (n.val &&& 0xF0 = 0xE0 ↔ 0xE0 ≤ n.val ∧ n.val < 0xF0) := by decide
  exact hall ⟨b.toNat, b.toNat_lt⟩

/-- The bytes are at the index. -/
def Shows (heap : List UInt8) (idx : Nat) (bs : List UInt8) : Prop := ∀ k < bs.length, heap[idx + k]? = bs[k]?

theorem Shows.byteAt {heap bs : List UInt8} {idx k : Nat} {b : UInt8} (h : Shows heap idx bs) (hk : bs[k]? = some b) :
    byteAt heap (idx + k) = b.toNat := by
  have hlt : k < bs.length := (List.getElem?_eq_some_iff.mp hk).1
  unfold Strings.byteAt
  rw [h k hlt, hk, Option.getD_some]

theorem Shows.left {heap as bs : List UInt8} {idx : Nat} (h : Shows heap idx (as ++ bs)) : Shows heap idx as :=
  fun k hk => (h k (by rw [List.length_append]; omega)).trans (List.getElem?_append_left hk)

theorem Shows.right {heap as bs : List UInt8} {idx : Nat} (h : Shows heap idx (as ++ bs)) :
    Shows heap (idx + as.length) bs := by
  intro k hk
  have hat := h (as.length + k) (by rw [List.length_append]; omega)
  rw [List.getElem?_append_right (Nat.le_add_right _ _), Nat.add_sub_cancel_left, ← Nat.add_assoc] at hat
  exact hat

/-- The bits of a prefix in front of those of a number. -/
theorem or_or {a b c : Nat} (hb : b < 64) (hc : c < 64) : (a <<< 12) ||| (b <<< 6) ||| c = a * 4096 + b * 64 + c := by
  have hshift : b <<< 6 = b * 64 := Nat.shiftLeft_eq ..
  have htop : a <<< 12 ||| b * 64 = a * 4096 + b * 64 := @shiftLeft_or a 12 _ (by omega)
  have hmiddle : a * 4096 + b * 64 = (a * 64 + b) <<< 6 := by
    rw [Nat.shiftLeft_eq]
    omega
  rw [hshift, htop, hmiddle, @shiftLeft_or _ 6 c hc]
  omega

theorem or_or_or {a b c d : Nat} (hb : b < 64) (hc : c < 64) (hd : d < 64) :
    (a <<< 18) ||| (b <<< 12) ||| (c <<< 6) ||| d = a * 262144 + b * 4096 + c * 64 + d := by
  have hmiddle : (a * 64 + b) * 4096 = a * 262144 + b * 4096 := by rw [Nat.add_mul, Nat.mul_assoc]
  have hlt : b * 4096 < 2 ^ 18 := Nat.mul_lt_mul_of_pos_right hb (by decide)
  have hshift : b <<< 12 = b * 4096 := by rw [Nat.shiftLeft_eq]
  have htop : a <<< 18 ||| b * 4096 = a * 262144 + b * 4096 := shiftLeft_or hlt
  have htwo : (a <<< 18) ||| (b <<< 12) = (a * 64 + b) <<< 12 := by
    rw [hshift, htop, Nat.shiftLeft_eq, hmiddle]
  rw [htwo, or_or hc hd, hmiddle]

/-- The first byte of a sequence, and which of the tests it meets. -/
theorem first_byte {heap bs : List UInt8} {idx n : Nat} (hn : n < 256) (h : Shows heap idx (UInt8.ofNat n :: bs)) :
    byteAt heap idx = n ∧ (n &&& 0x80 = 0 ↔ n < 0x80) ∧ (n &&& 0xE0 = 0xC0 ↔ 0xC0 ≤ n ∧ n < 0xE0) ∧
      (n &&& 0xF0 = 0xE0 ↔ 0xE0 ≤ n ∧ n < 0xF0) := by
  have hnat : (UInt8.ofNat n).toNat = n := UInt8.toNat_ofNat_of_lt' hn
  have hmasks := and_masks (UInt8.ofNat n)
  rw [hnat] at hmasks
  have hat : byteAt heap (idx + 0) = (UInt8.ofNat n).toNat := h.byteAt rfl
  exact ⟨hat.trans hnat, hmasks⟩

/-- A byte behind the first. -/
theorem next_byte {heap bs : List UInt8} {idx k u : Nat} (h : Shows heap idx bs)
    (hk : bs[k]? = some (UInt8.ofNat (0x80 + u % 0x40))) : byteAt heap (idx + k) &&& 63 = u % 0x40 := by
  rw [h.byteAt hk]
  exact continuation_and u

/-- The reader takes the bytes of a code point for its units. -/
theorem decodeTurn_utf8 {heap : List UInt8} {idx u : Nat} (hu : u ≤ 0x10FFFF) (h : Shows heap idx (utf8 u)) :
    decodeTurn heap idx = (units u, idx + (utf8 u).length) := by
  rw [length_utf8]
  unfold utf8 at h
  unfold decodeTurn
  dsimp only
  split at h
  · next hsmall =>
    obtain ⟨hbyte, htest, -⟩ := first_byte (by omega) h
    rw [hbyte, if_pos (htest.mpr (by omega)), if_pos hsmall]
    unfold units
    rw [if_pos (by omega)]
    rfl
  next hone =>
  split at h
  · next hsmall =>
    obtain ⟨hbyte, htest, htwo, -⟩ := first_byte (by omega) h
    have hsecond : byteAt heap (idx + 1) &&& 63 = u % 0x40 := next_byte h rfl
    have hprefix : (0xC0 + u / 0x40) &&& 31 = u / 0x40 := (and_mask _ 5).trans (by omega)
    have hvalue : (u / 0x40) <<< 6 ||| u % 0x40 = u := (shiftLeft_or (by omega)).trans (by omega)
    rw [hbyte, hsecond, hprefix, hvalue, if_neg (htest.not.mpr (by omega)), if_pos (htwo.mpr (by omega)), if_neg hone,
      if_pos hsmall]
    unfold units
    rw [if_pos (by omega)]
    rfl
  next htwo =>
  split at h
  · next hsmall =>
    obtain ⟨hbyte, htest, hC0, hE0⟩ := first_byte (by omega) h
    have hsecond : byteAt heap (idx + 1) &&& 63 = u / 0x40 % 0x40 := next_byte h rfl
    have hthird : byteAt heap (idx + 2) &&& 63 = u % 0x40 := next_byte h rfl
    have hprefix : (0xE0 + u / 0x1000) &&& 15 = u / 0x1000 := (and_mask _ 4).trans (by omega)
    have hvalue : (u / 0x1000) <<< 12 ||| (u / 0x40 % 0x40) <<< 6 ||| u % 0x40 = u :=
      (or_or (by omega) (by omega)).trans (by omega)
    rw [hbyte, hsecond, hthird, hprefix, hvalue, if_neg (htest.not.mpr (by omega)), if_neg (hC0.not.mpr (by omega)),
      if_pos (hE0.mpr (by omega)), if_neg hone, if_neg htwo, if_pos hsmall]
    dsimp only
    rw [if_pos (by omega)]
    unfold units
    rw [if_pos (by omega)]
    rfl
  · next hthree =>
    obtain ⟨hbyte, htest, hC0, hE0⟩ := first_byte (by omega) h
    have hsecond : byteAt heap (idx + 1) &&& 63 = u / 0x1000 % 0x40 := next_byte h rfl
    have hthird : byteAt heap (idx + 2) &&& 63 = u / 0x40 % 0x40 := next_byte h rfl
    have hfourth : byteAt heap (idx + 3) &&& 63 = u % 0x40 := next_byte h rfl
    have hprefix : (0xF0 + u / 0x40000) &&& 7 = u / 0x40000 := (and_mask _ 3).trans (by omega)
    have hvalue : (u / 0x40000) <<< 18 ||| (u / 0x1000 % 0x40) <<< 12 ||| (u / 0x40 % 0x40) <<< 6 ||| u % 0x40 = u :=
      (or_or_or (by omega) (by omega) (by omega)).trans (by omega)
    have hhigh : 0xD800 ||| ((u - 0x10000) >>> 10) = 0xD800 + (u - 0x10000) / 0x400 := by
      rw [Nat.shiftRight_eq_div_pow]
      exact @shiftLeft_or 54 10 _ (by omega)
    have hlow : 0xDC00 ||| ((u - 0x10000) &&& 0x3FF) = 0xDC00 + (u - 0x10000) % 0x400 := by
      have hmask : (u - 0x10000) &&& 0x3FF = (u - 0x10000) % 0x400 := and_mask _ 10
      rw [hmask]
      exact @shiftLeft_or 55 10 _ (by omega)
    rw [hbyte, hsecond, hthird, hfourth, hprefix, hvalue, if_neg (htest.not.mpr (by omega)),
      if_neg (hC0.not.mpr (by omega)), if_neg (hE0.not.mpr (by omega)), if_neg hone, if_neg htwo, if_neg hthree]
    dsimp only
    rw [if_neg (by omega), hhigh, hlow]
    unfold units
    rw [if_neg (by omega)]
    rfl

/-! ## Reading what was written -/

/-- By induction on the code points: the loop reads them all, and stops where they end. -/
theorem decodeLoop_points {heap : List UInt8} (us : List Nat) (hus : ∀ u ∈ us, u ≤ 0x10FFFF) {idx fuel : Nat}
    (h : Shows heap idx (us.flatMap utf8)) (hfuel : (us.flatMap utf8).length ≤ fuel) :
    decodeLoop heap (idx + (us.flatMap utf8).length) fuel idx = (us.flatMap units, idx + (us.flatMap utf8).length) := by
  induction us generalizing idx fuel with
  | nil =>
    cases fuel with
    | zero => rfl
    | succ k => exact if_neg (Nat.lt_irrefl _)
  | cons u us ih =>
    have hpos : 0 < (utf8 u).length := by
      rw [length_utf8]
      repeat' split
      all_goals decide
    rw [List.flatMap_cons] at h hfuel ⊢
    rw [List.length_append] at hfuel ⊢
    obtain ⟨k, rfl⟩ : ∃ k, fuel = k + 1 := ⟨fuel - 1, by omega⟩
    have hrest := @ih (fun v hv => hus v (List.mem_cons_of_mem _ hv)) (idx + (utf8 u).length) k h.right (by omega)
    unfold decodeLoop
    rw [if_pos (by omega), decodeTurn_utf8 (hus u List.mem_cons_self) h.left, ← Nat.add_assoc]
    dsimp only
    rw [hrest, List.flatMap_cons]

theorem units_toNat (c : UInt16) : units c.toNat = [c] := by
  unfold units
  rw [if_pos c.toNat_lt, UInt16.ofNat_toNat]

theorem units_pair {c d : UInt16} (hc : isLead c) (hd : isTrail d) : units (pair c d) = [c, d] := by
  have hbounds := pair_bounds hc hd
  simp only [isLead, isTrail, decide_eq_true_eq] at hc hd
  have hhigh : 0xD800 + (pair c d - 0x10000) / 0x400 = c.toNat := by
    unfold pair
    omega
  have hlow : 0xDC00 + (pair c d - 0x10000) % 0x400 = d.toNat := by
    unfold pair
    omega
  unfold units
  rw [if_neg (by omega), hhigh, hlow, UInt16.ofNat_toNat, UInt16.ofNat_toNat]

/-- The units of its code points are the text. -/
theorem units_codePoints : ∀ text : Text, (codePoints text).flatMap units = text
  | [] => rfl
  | [c] => by
    rw [codePoints, List.flatMap_cons, units_toNat]
    rfl
  | c :: d :: text => by
    rw [codePoints]
    split
    · next hpair =>
      rw [List.flatMap_cons, units_pair hpair.1 hpair.2, units_codePoints text]
      rfl
    · rw [List.flatMap_cons, units_toNat, units_codePoints (d :: text)]
      rfl

/-- The reader makes a text of its bytes. -/
theorem decodeScalar_encode {heap : List UInt8} {idx : Nat} {text : Text} (h : Shows heap idx (encode text)) :
    decodeScalar heap idx (idx + (encode text).length) = (text, idx + (encode text).length) := by
  have hloop := decodeLoop_points (codePoints text) (codePoints_le text) h (Nat.le_refl (encode text).length)
  rw [units_codePoints] at hloop
  unfold decodeScalar
  rw [Nat.add_sub_cancel_left]
  exact hloop

/-! ## The writer -/

variable {heap : List UInt8} {text : Text} {outIdx : Nat}

/-- What the writer may write, and what of it it does write. -/
structure Written (text : Text) (heap : List UInt8) (outIdx : Nat) (maxBytesToWrite : Int)
    (r : Nat × List UInt8) : Prop where
  inside : ∀ i : Nat, ¬ (outIdx ≤ i ∧ (i : Int) < outIdx + maxBytesToWrite) → r.2[i]? = heap[i]?
  nothing : ¬ maxBytesToWrite > 0 → r.1 = 0
  /-- The bytes of some code points and a zero byte, and no more code points fit. -/
  prefixed : maxBytesToWrite > 0 → ∃ j, r.1 = (((codePoints text).take j).flatMap utf8).length ∧
    (r.1 : Int) + 1 ≤ maxBytesToWrite ∧
    (∀ k, ((((codePoints text).take k).flatMap utf8).length : Int) + 1 ≤ maxBytesToWrite →
      (((codePoints text).take k).flatMap utf8).length ≤ r.1) ∧
    (outIdx + r.1 < heap.length → Shows r.2 outIdx (((codePoints text).take j).flatMap utf8 ++ [0]))

theorem count_eq (text : Text) (heap : List UInt8) (outIdx n : Nat) :
    (stringToUTF8Array text heap outIdx (n + 1)).1 = (fitting n (codePoints text)).length := by
  have hroom : outIdx + (n + 1) - 1 - outIdx = n := by omega
  have hcount : (stringToUTF8Array text heap outIdx (n + 1)).1 =
      (writeUnits (outIdx + (n + 1) - 1) text outIdx heap).1 - outIdx :=
    congrArg Prod.fst (if_neg fun hzero => hzero (Nat.succ_pos n))
  rw [hcount, writeUnits_eq, hroom, Nat.add_sub_cancel_left]

theorem shows_put {bs : List UInt8} (hfits : outIdx + bs.length ≤ heap.length) : Shows (put outIdx bs heap) outIdx bs := by
  intro k hk
  rw [getElem?_put_of_le hfits, if_pos (by omega), Nat.add_sub_cancel_left]

theorem stringToUTF8Array_written (text : Text) (heap : List UInt8) (outIdx : Nat) (maxBytesToWrite : Int) :
    Written text heap outIdx maxBytesToWrite (stringToUTF8Array text heap outIdx maxBytesToWrite.toNat) := by
  cases h : maxBytesToWrite.toNat with
  | zero =>
    have hle : ¬ maxBytesToWrite > 0 := by omega
    exact ⟨fun i _ => rfl, fun _ => rfl, fun hpos => absurd hpos hle⟩
  | succ n =>
    have hmax : maxBytesToWrite = n + 1 := by omega
    have hfits := length_fitting_le n (codePoints text)
    obtain ⟨j, hj⟩ := fitting_eq_take n (codePoints text)
    constructor
    · intro i hi
      rw [stringToUTF8Array_eq, getElem?_put, List.length_append, List.length_singleton, if_neg (by omega)]
    · exact fun hle => absurd hmax (by omega)
    · intro hpos
      rw [count_eq]
      refine ⟨j, congrArg List.length hj, by omega, fun k hk => le_length_fitting (by omega), fun hroom => ?_⟩
      rw [stringToUTF8Array_eq, ← hj]
      apply shows_put
      rw [List.length_append, List.length_singleton]
      omega

/-! ## The end of a string -/

theorem pos_of_mem_codePoints : ∀ {text : Text}, (0 : UInt16) ∉ text → ∀ u ∈ codePoints text, 0 < u
  | [], _, u, hu => nomatch hu
  | c :: text, hzero, u, hu => by
    have hc : c.toNat ≠ 0 := by
      intro hc
      have heq : c = 0 := UInt16.toNat_inj.mp hc
      exact hzero (heq ▸ List.mem_cons_self)
    rw [codePoints_cons] at hu
    cases List.mem_cons.mp hu with
    | inl heq =>
      subst heq
      unfold pointAt pair
      split
      · omega
      · split
        · omega
        · omega
    | inr htail =>
      apply pos_of_mem_codePoints (fun hmem => hzero (List.mem_cons_of_mem _ ?_)) u htail
      split at hmem
      · exact List.mem_of_mem_tail hmem
      · exact hmem
termination_by text => text.length
decreasing_by
  rw [List.length_cons]
  split
  · rw [List.length_tail]
    omega
  · exact Nat.lt_succ_self _

/-- Only the code point 0 has a zero byte. -/
theorem utf8_ne_zero {u : Nat} (hpos : 0 < u) (hu : u ≤ 0x10FFFF) : (0 : UInt8) ∉ utf8 u := by
  have hne : ∀ n : Nat, 0 < n → n < 256 → (0 : UInt8) ≠ UInt8.ofNat n := by
    intro n hn hlt heq
    have hnat := congrArg UInt8.toNat heq
    rw [UInt8.toNat_ofNat_of_lt' hlt] at hnat
    exact absurd hnat.symm (Nat.ne_of_gt hn)
  unfold utf8
  repeat' split
  all_goals simp only [List.mem_cons, List.not_mem_nil, or_false, not_or]
  · exact hne _ hpos (by omega)
  · exact ⟨hne _ (by omega) (by omega), hne _ (by omega) (by omega)⟩
  · exact ⟨hne _ (by omega) (by omega), hne _ (by omega) (by omega), hne _ (by omega) (by omega)⟩
  · exact ⟨hne _ (by omega) (by omega), hne _ (by omega) (by omega), hne _ (by omega) (by omega),
      hne _ (by omega) (by omega)⟩

theorem encode_ne_zero (hzero : (0 : UInt16) ∉ text) : (0 : UInt8) ∉ encode text := by
  intro hmem
  obtain ⟨u, hu, hbyte⟩ := List.mem_flatMap.mp hmem
  exact utf8_ne_zero (pos_of_mem_codePoints hzero u hu) (codePoints_le text u hu) hbyte

/-- The end is at the first zero byte, or where the limit is. -/
theorem scanEnd_append {bs rest : List UInt8} (hbs : (0 : UInt8) ∉ bs) (hrest : rest.head?.getD 0 = 0)
    (limit : Option Nat) (idx : Nat) :
    scanEnd (limit.map (idx + ·)) (bs ++ rest) idx = idx + min (limit.getD bs.length) bs.length := by
  induction bs generalizing limit idx with
  | nil =>
    cases rest with
    | nil => simp [scanEnd]
    | cons b rest =>
      obtain rfl : b = 0 := hrest
      simp [scanEnd]
  | cons b bs ih =>
    obtain ⟨hb, hbs⟩ := not_or.mp (fun h => hbs (List.mem_cons.mpr h))
    rw [List.cons_append, scanEnd]
    cases limit with
    | none =>
      rw [if_pos ⟨Ne.symm hb, by simp⟩]
      have hnext := ih hbs none (idx + 1)
      simp only [Option.map_none, Option.getD_none, Nat.min_self, List.length_cons] at hnext ⊢
      omega
    | some n =>
      cases n with
      | zero => simp
      | succ n =>
        have hnext := ih hbs (some n) (idx + 1)
        have hmap : idx + 1 + n = idx + (n + 1) := by omega
        simp only [Option.map_some, Option.getD_some, List.length_cons, hmap] at hnext ⊢
        rw [if_pos ⟨Ne.symm hb, by simp⟩, hnext]
        omega

theorem drop_of_shows {bs : List UInt8} {idx : Nat} (h : Shows heap idx bs) : heap.drop idx = bs ++ heap.drop (idx + bs.length) := by
  apply List.ext_getElem?
  intro i
  rw [List.getElem?_drop]
  cases Nat.lt_or_ge i bs.length with
  | inl hlt => rw [h i hlt, List.getElem?_append_left hlt]
  | inr hge =>
    have hsum : idx + bs.length + (i - bs.length) = idx + i := by omega
    rw [List.getElem?_append_right hge, List.getElem?_drop, hsum]

/-- Behind a text without zero units that is in memory there is its end. -/
theorem findStringEnd_encode (hzero : (0 : UInt16) ∉ text) (h : Shows heap outIdx (encode text ++ [0])) :
    findStringEnd heap outIdx none false = some (outIdx + (encode text).length) := by
  have hend : (heap.drop (outIdx + (encode text).length)).head?.getD 0 = 0 := by
    have hbyte := h (encode text).length (by simp)
    rw [List.head?_drop, hbyte, List.getElem?_append_right (Nat.le_refl _), Nat.sub_self]
    rfl
  have hscan := scanEnd_append (encode_ne_zero hzero) hend none outIdx
  unfold findStringEnd
  rw [drop_of_shows h.left]
  simpa using hscan

theorem fitting_all (text : Text) {n : Nat} (h : (encode text).length ≤ n) : fitting n (codePoints text) = encode text := by
  have hprefix := fitting_isPrefix n (codePoints text)
  apply hprefix.eq_of_length
  apply Nat.le_antisymm hprefix.length_le
  have hall := @le_length_fitting n (codePoints text).length (codePoints text)
  rw [List.take_length] at hall
  exact hall h

/-- The writer stays in its buffer, writes the longest prefix in whole code points that leaves room for the zero
byte, and counts it; and a text without zero units that fits is read back. -/
theorem stringToUTF8Array_correct (text : Text) (heap : List UInt8) (outIdx : Nat) (maxBytesToWrite : Int) :
    Written text heap outIdx maxBytesToWrite (stringToUTF8Array text heap outIdx maxBytesToWrite.toNat) ∧
      ((0 : UInt16) ∉ text → ((encode text).length : Int) < maxBytesToWrite →
        outIdx + (encode text).length < heap.length →
        ∃ endPtr, findStringEnd (stringToUTF8Array text heap outIdx maxBytesToWrite.toNat).2 outIdx none false =
            some endPtr ∧
          (decodeScalar (stringToUTF8Array text heap outIdx maxBytesToWrite.toNat).2 outIdx endPtr).1 = text) := by
  refine ⟨stringToUTF8Array_written text heap outIdx maxBytesToWrite, fun hzero hmax hheap => ?_⟩
  obtain ⟨n, hn⟩ : ∃ n, maxBytesToWrite.toNat = n + 1 := ⟨maxBytesToWrite.toNat - 1, by omega⟩
  have hmemory : Shows (stringToUTF8Array text heap outIdx (n + 1)).2 outIdx (encode text ++ [0]) := by
    rw [stringToUTF8Array_eq, fitting_all text (by omega)]
    apply shows_put
    rw [List.length_append, List.length_singleton]
    omega
  rw [hn]
  exact ⟨_, findStringEnd_encode hzero hmemory, congrArg Prod.fst (decodeScalar_encode hmemory.left)⟩

/-! ## The count of bytes -/

/-- What a unit adds to the bytes of a text that it is put in front of. -/
def added (d : UInt16) (text : Text) : Int :=
  if 0xFFFF < pointAt d text then 1 else (utf8 d.toNat).length

/-- The errors of `lengthBytesUTF8`, which counts four bytes for a surrogate and the unit behind it: one too many
for an unpaired surrogate at the end, and what the unit behind one adds, less one, too few. -/
def miscount : Text → Int
  | [] => 0
  | [c] => if isLead c ∨ isTrail c then 1 else 0
  | c :: d :: text =>
    if isLead c ∧ isTrail d then miscount text
    else if isLead c ∨ isTrail c then 1 - added d text + miscount text
    else miscount (d :: text)

theorem length_encode_cons (d : UInt16) (text : Text) :
    ((encode (d :: text)).length : Int) = added d text + (encode text).length := by
  have hd := toNat_le d
  unfold added encode
  rw [codePoints_cons]
  split
  · next hlarge =>
    cases text with
    | nil => exact absurd hlarge (Nat.not_lt.mpr hd)
    | cons e text =>
      have hcases : pointAt d (e :: text) = if isLead d ∧ isTrail e then pair d e else d.toNat := rfl
      have hpair : isLead d ∧ isTrail e := by
        rw [hcases] at hlarge
        split at hlarge
        · assumption
        · exact absurd hlarge (Nat.not_lt.mpr hd)
      have htrail : isLead e = false := by
        have he := hpair.2
        simp only [isLead, isTrail, decide_eq_true_eq, decide_eq_false_iff_not] at he ⊢
        omega
      have hpoint : pointAt e text = e.toNat := pointAt_of_not_lead htrail text
      have hunit := toNat_le e
      have hthree : (utf8 e.toNat).length = 3 := by
        have he := hpair.2
        simp only [isTrail, decide_eq_true_eq] at he
        rw [length_utf8, if_neg (by omega), if_neg (by omega), if_pos hunit]
      have hfour : (utf8 (pointAt d (e :: text))).length = 4 := by
        rw [length_utf8, if_neg (by omega), if_neg (by omega), if_neg (by omega)]
      rw [codePoints_cons, hpoint, if_neg (Nat.not_lt.mpr hunit), List.tail_cons, List.flatMap_cons,
        List.flatMap_cons, List.length_append, List.length_append, hthree, hfour]
      omega
  · next hsmall =>
    have hpoint : pointAt d text = d.toNat := by
      unfold pointAt at hsmall ⊢
      split
      · rfl
      · split
        · next hpair => exact absurd (pair_bounds hpair.1 hpair.2).1 (by simpa [hpair] using hsmall)
        · rfl
    rw [hpoint, List.flatMap_cons, List.length_append]
    omega

/-- By the units that are counted together. -/
theorem lengthBytesUTF8_eq : ∀ text : Text, (lengthBytesUTF8 text : Int) = (encode text).length + miscount text
  | [] => rfl
  | [c] => by
    have hc := toNat_le c
    have hbytes := length_encode_cons c []
    have hadded : added c [] = (utf8 c.toNat).length := if_neg (Nat.not_lt.mpr hc)
    have hnil : (encode []).length = 0 := rfl
    rw [hbytes, hadded, hnil, length_utf8, miscount, lengthBytesUTF8.eq_def]
    simp only [isLead, isTrail, decide_eq_true_eq, lengthBytesUTF8]
    split
    · rw [if_neg (by omega)]
      rfl
    split
    · rw [if_neg (by omega)]
      rfl
    split
    · rw [if_pos (by omega)]
      rfl
    · rw [if_neg (by omega)]
      rfl
  | c :: d :: text => by
    have hc := toNat_le c
    have hfirst := length_encode_cons c (d :: text)
    have hsecond := length_encode_cons d text
    have hskip := lengthBytesUTF8_eq text
    have hnext := lengthBytesUTF8_eq (d :: text)
    have hunit : ¬ (isLead c ∧ isTrail d) → added c (d :: text) = (utf8 c.toNat).length := by
      intro hno
      have hpoint : pointAt c (d :: text) = c.toNat := if_neg hno
      unfold added
      rw [hpoint, if_neg (Nat.not_lt.mpr hc)]
    rw [hfirst, miscount, lengthBytesUTF8.eq_def]
    by_cases hsurrogate : 0xD800 ≤ c.toNat ∧ c.toNat ≤ 0xDFFF
    · have heither : isLead c ∨ isTrail c := by
        simp only [isLead, isTrail, decide_eq_true_eq]
        omega
      simp only [if_neg (by omega : ¬ c.toNat ≤ 0x7F), if_neg (by omega : ¬ c.toNat ≤ 0x7FF), if_pos hsurrogate]
      split
      · next hpair =>
        have hpoint : pointAt c (d :: text) = pair c d := if_pos hpair
        have hone : added c (d :: text) = 1 := if_pos (hpoint ▸ (pair_bounds hpair.1 hpair.2).1)
        have htrail : added d text = 3 := by
          have hd := hpair.2
          simp only [isTrail, decide_eq_true_eq] at hd
          have hlead : isLead d = false := by
            simp only [isLead, decide_eq_false_iff_not]
            omega
          unfold added
          rw [pointAt_of_not_lead hlead, if_neg (by omega), length_utf8, if_neg (by omega), if_neg (by omega),
            if_pos (toNat_le d)]
          rfl
        omega
      · next hno =>
        have hthree : (utf8 c.toNat).length = 3 := by
          rw [length_utf8, if_neg (by omega), if_neg (by omega), if_pos hc]
        rw [hunit hno, hthree]
        omega
    · have hneither : ¬ (isLead c ∨ isTrail c) := by
        simp only [isLead, isTrail, decide_eq_true_eq]
        omega
      have hno : ¬ (isLead c ∧ isTrail d) := fun h => hneither (Or.inl h.1)
      rw [if_neg hno, if_neg hneither, hunit hno, length_utf8]
      simp only [if_neg hsurrogate, if_pos hc]
      split
      · omega
      · split
        · omega
        · omega

/-- The count is that of the bytes that are written into a buffer with room, and so the buffers of this size take
the whole string. -/
def Sized (text : Text) : Prop :=
  (∀ (heap : List UInt8) (outIdx room : Nat), (encode text).length < room →
    (stringToUTF8Array text heap outIdx room).1 = lengthBytesUTF8 text) ∧
  ∀ (heap : List UInt8) (ret : Nat), ret + lengthBytesUTF8 text < heap.length →
    Shows (stringToUTF8Array text heap ret (lengthBytesUTF8 text + 1)).2 ret (encode text ++ [0])

/-- Buffers sized by the count take the string exactly where the errors of the count cancel. -/
theorem sized_iff (text : Text) : Sized text ↔ miscount text = 0 := by
  have hcount := lengthBytesUTF8_eq text
  constructor
  · rintro ⟨hwritten, -⟩
    have hroom := hwritten [] 0 ((encode text).length + 1) (Nat.lt_succ_self _)
    rw [count_eq, fitting_all text (Nat.le_refl _)] at hroom
    omega
  · intro hzero
    have heq : lengthBytesUTF8 text = (encode text).length := by omega
    constructor
    · intro heap outIdx room hroom
      obtain ⟨n, rfl⟩ : ∃ n, room = n + 1 := ⟨room - 1, by omega⟩
      rw [count_eq, fitting_all text (Nat.le_of_lt_succ hroom), heq]
    · intro heap ret hret
      rw [heq, stringToUTF8Array_eq, fitting_all text (Nat.le_refl _)]
      apply shows_put
      rw [List.length_append, List.length_singleton, ← heq]
      exact hret

/-- A lead surrogate in front of a character of three bytes: the count is 4, the string has 6 bytes. -/
theorem lone_surrogate_cut : lengthBytesUTF8 [0xD800, 0x4E00] = 4 ∧
    (stringToUTF8Array [0xD800, 0x4E00] (List.replicate 8 7) 0 8).1 = 6 ∧
    (stringToUTF8Array [0xD800, 0x4E00] (List.replicate 8 7) 0 5).1 = 3 ∧ ¬ Sized [0xD800, 0x4E00] := by
  refine ⟨by decide, by decide, by decide, fun hsized => ?_⟩
  have hcount := hsized.1 (List.replicate 8 7) 0 8 (by decide)
  exact absurd hcount (by decide)

end Strings
