-- SUMMARY: The text of a symbolic link in the caller's buffer: when readlinkat stores its bytes and changes nothing else.
import Emscripten.Lib.Heap
import Emscripten.Lib.Unicode
import Emscripten.JsFs.Paths
import Emscripten.JsFs.Basic

/-!
# The text of a link

A link's text is a string of JavaScript, any sequence of code units. `readlinkat` counts the bytes of the
text, lets the writer of strings put whole characters and a zero byte into the buffer, and puts the byte back
that was where the count ends. This is right where the zero byte is at that place: the writer stops earlier at
a character that the buffer's end cuts, and the count has other bytes for surrogates without a partner.
-/

namespace JsFs.LinkText

open Unicode Heap

/-! ## Strings in memory -/

/-- `lengthBytesUTF8`, from some index of the string on. -/
def lengthBytesUTF8 : Text → Nat
  | [] => 0
  | c :: text =>
    if c.toNat ≤ 0x7F then 1 + lengthBytesUTF8 text
    else if c.toNat ≤ 0x7FF then 2 + lengthBytesUTF8 text
    else if 0xD800 ≤ c.toNat ∧ c.toNat ≤ 0xDFFF then
      -- the unit behind a surrogate is skipped, whatever it is
      match text with
      | [] => 4
      | _ :: text => 4 + lengthBytesUTF8 text
    else 3 + lengthBytesUTF8 text

def byte (n : Nat) : UInt8 := UInt8.ofNat n

/-- The loop of `stringToUTF8Array`, from some index of the string on: `outIdx` and the memory after it. -/
def writeUnits (endIdx : Nat) : Text → Nat → List UInt8 → Nat × List UInt8
  | [], outIdx, heap => (outIdx, heap)
  | c :: text, outIdx, heap =>
    let u := pointAt c text
    if u ≤ 0x7F then
      if outIdx ≥ endIdx then (outIdx, heap)
      else writeUnits endIdx text (outIdx + 1) (heap.set outIdx (byte u))
    else if u ≤ 0x7FF then
      if outIdx + 1 ≥ endIdx then (outIdx, heap)
      else
        let heap := heap.set outIdx (byte (0xC0 ||| (u >>> 6)))
        let heap := heap.set (outIdx + 1) (byte (0x80 ||| (u &&& 63)))
        writeUnits endIdx text (outIdx + 2) heap
    else if u ≤ 0xFFFF then
      if outIdx + 2 ≥ endIdx then (outIdx, heap)
      else
        let heap := heap.set outIdx (byte (0xE0 ||| (u >>> 12)))
        let heap := heap.set (outIdx + 1) (byte (0x80 ||| ((u >>> 6) &&& 63)))
        let heap := heap.set (outIdx + 2) (byte (0x80 ||| (u &&& 63)))
        writeUnits endIdx text (outIdx + 3) heap
    else if outIdx + 3 ≥ endIdx then (outIdx, heap)
    else
      let heap := heap.set outIdx (byte (0xF0 ||| (u >>> 18)))
      let heap := heap.set (outIdx + 1) (byte (0x80 ||| ((u >>> 12) &&& 63)))
      let heap := heap.set (outIdx + 2) (byte (0x80 ||| ((u >>> 6) &&& 63)))
      let heap := heap.set (outIdx + 3) (byte (0x80 ||| (u &&& 63)))
      -- the second unit of the pair
      match text with
      | [] => (outIdx + 4, heap)
      | _ :: text => writeUnits endIdx text (outIdx + 4) heap

/-- `stringToUTF8Array`: the count of bytes without the zero byte, and the memory. -/
def stringToUTF8Array (str : Text) (heap : List UInt8) (outIdx maxBytesToWrite : Nat) : Nat × List UInt8 :=
  if ¬ maxBytesToWrite > 0 then (0, heap)
  else
    let endIdx := outIdx + maxBytesToWrite - 1
    let (out, heap) := writeUnits endIdx str outIdx heap
    (out - outIdx, heap.set out 0)

/-- `__syscall_readlinkat`, with the path that `calculateAt` gives and the links of the file system. -/
def __syscall_readlinkat (readlink : Path → Except Errno Text) (path : Path) (heap : List UInt8) (buf : Nat)
    (bufsize : Int) : Except Errno (Nat × List UInt8) :=
  if bufsize ≤ 0 then .error .EINVAL
  else
    match readlink path with
    | .error e => .error e
    | .ok ret =>
      let len := min bufsize.toNat (lengthBytesUTF8 ret)
      let endChar := heap[buf + len]?.getD 0
      let heap := (stringToUTF8Array ret heap buf (bufsize.toNat + 1)).2
      .ok (len, heap.set (buf + len) endChar)

/-! ## Whole characters -/

/-- The bytes of the first code points, as many as fit. -/
def fitting (n : Nat) : List Nat → List UInt8
  | [] => []
  | u :: us => if (utf8 u).length ≤ n then utf8 u ++ fitting (n - (utf8 u).length) us else []

theorem length_fitting_le (n : Nat) (us : List Nat) : (fitting n us).length ≤ n := by
  induction us generalizing n with
  | nil => exact Nat.zero_le n
  | cons u us ih =>
    unfold fitting
    split
    · next hfits =>
        have hrest := ih (n - (utf8 u).length)
        rw [List.length_append]
        omega
    · exact Nat.zero_le n

theorem fitting_isPrefix (n : Nat) (us : List Nat) : fitting n us <+: us.flatMap utf8 := by
  induction us generalizing n with
  | nil => exact List.prefix_rfl
  | cons u us ih =>
    unfold fitting
    split
    · exact (List.prefix_append_right_inj _).mpr (ih _)
    · exact List.nil_prefix

theorem fitting_eq_take (n : Nat) (us : List Nat) : ∃ j, fitting n us = (us.take j).flatMap utf8 := by
  induction us generalizing n with
  | nil => exact ⟨0, rfl⟩
  | cons u us ih =>
    unfold fitting
    split
    · obtain ⟨j, hj⟩ := ih (n - (utf8 u).length)
      exact ⟨j + 1, congrArg (utf8 u ++ ·) hj⟩
    · exact ⟨0, rfl⟩

/-- No more whole characters fit. -/
theorem le_length_fitting {n j : Nat} {us : List Nat} (h : ((us.take j).flatMap utf8).length ≤ n) :
    ((us.take j).flatMap utf8).length ≤ (fitting n us).length := by
  induction us generalizing n j with
  | nil => exact Nat.le_of_eq (by simp [fitting])
  | cons u us ih =>
    cases j with
    | zero => exact Nat.zero_le _
    | succ j =>
      rw [List.take_succ_cons, List.flatMap_cons, List.length_append] at h ⊢
      have hrest := @ih (n - (utf8 u).length) j (by omega)
      unfold fitting
      rw [if_pos (by omega), List.length_append]
      omega

/-- What follows the characters that fit begins with no zero byte, unless the buffer is full. -/
theorem getElem?_length_fitting {n : Nat} {us : List Nat} (hus : ∀ u ∈ us, u ≤ 0x10FFFF)
    (hroom : (fitting n us).length < n) : (us.flatMap utf8)[(fitting n us).length]? ≠ some 0 := by
  induction us generalizing n with
  | nil => exact fun h => nomatch h
  | cons u us ih =>
    unfold fitting at hroom ⊢
    split
    · next hfits =>
        rw [if_pos hfits, List.length_append] at hroom
        rw [List.flatMap_cons, List.length_append, List.getElem?_append_right (Nat.le_add_right _ _),
          Nat.add_sub_cancel_left]
        apply ih (fun v hv => hus v (List.mem_cons_of_mem _ hv))
        omega
    · next hcut =>
        rw [if_neg hcut] at hroom
        have hlong : 1 < (utf8 u).length := by
          simp only [List.length_nil] at hroom
          omega
        rw [List.length_nil, List.flatMap_cons, List.getElem?_append_left (Nat.lt_trans Nat.one_pos hlong)]
        exact head_utf8_ne_zero hlong (hus u (List.mem_cons_self ..))

/-! ## What the writer writes -/

/-- Where the bits of a prefix and of a number do not meet. -/
theorem shiftLeft_or {a i x : Nat} (hx : x < 2 ^ i) : a <<< i ||| x = a * 2 ^ i + x := by
  rw [← Nat.shiftLeft_add_eq_or_of_lt hx, Nat.shiftLeft_eq]

theorem or_continuation (u : Nat) : 0x80 ||| (u &&& 63) = 0x80 + u % 0x40 := by
  have hmod : u &&& 63 = u % 64 := Nat.and_two_pow_sub_one_eq_mod u 6
  rw [hmod]
  exact @shiftLeft_or 2 6 _ (Nat.mod_lt _ (by decide))

variable {u : Nat}

theorem or_lead_two (hu : u ≤ 0x7FF) : 0xC0 ||| (u >>> 6) = 0xC0 + u / 0x40 := by
  rw [Nat.shiftRight_eq_div_pow]
  exact @shiftLeft_or 6 5 (u / 2 ^ 6) (by omega)

theorem or_lead_three (hu : u ≤ 0xFFFF) : 0xE0 ||| (u >>> 12) = 0xE0 + u / 0x1000 := by
  rw [Nat.shiftRight_eq_div_pow]
  exact @shiftLeft_or 14 4 (u / 2 ^ 12) (by omega)

theorem or_lead_four (hu : u ≤ 0x10FFFF) : 0xF0 ||| (u >>> 18) = 0xF0 + u / 0x40000 := by
  rw [Nat.shiftRight_eq_div_pow]
  exact @shiftLeft_or 30 3 (u / 2 ^ 18) (by omega)

/-- A character is written as its bytes, or the writer stops. -/
theorem writeUnits_cons (endIdx : Nat) (c : UInt16) (text : Text) (outIdx : Nat) (heap : List UInt8) :
    writeUnits endIdx (c :: text) outIdx heap =
      if outIdx + (utf8 (pointAt c text)).length ≤ endIdx then
        writeUnits endIdx (if 0xFFFF < pointAt c text then text.tail else text)
          (outIdx + (utf8 (pointAt c text)).length) (put outIdx (utf8 (pointAt c text)) heap)
      else (outIdx, heap) := by
  have hmax := pointAt_le c text
  have hsecond : pointAt c text >>> 6 = pointAt c text / 0x40 := Nat.shiftRight_eq_div_pow _ 6
  have hthird : pointAt c text >>> 12 = pointAt c text / 0x1000 := Nat.shiftRight_eq_div_pow _ 12
  rw [writeUnits]
  dsimp only
  split
  · next hu =>
      have hbytes : utf8 (pointAt c text) = [byte (pointAt c text)] := if_pos hu
      rw [hbytes, if_neg (by omega : ¬ 0xFFFF < pointAt c text)]
      split
      · next hfull => rw [if_neg (by simp; omega)]
      · next hroom =>
          rw [if_pos (by simp; omega)]
          rfl
  · next hu1 =>
      split
      · next hu =>
          have hbytes : utf8 (pointAt c text) =
              [byte (0xC0 + pointAt c text / 0x40), byte (0x80 + pointAt c text % 0x40)] := by
            unfold utf8
            rw [if_neg hu1, if_pos hu]
            rfl
          rw [or_lead_two hu, or_continuation, hbytes, if_neg (by omega : ¬ 0xFFFF < pointAt c text)]
          split
          · next hfull => rw [if_neg (by simp; omega)]
          · next hroom =>
              rw [if_pos (by simp; omega)]
              rfl
      · next hu2 =>
          split
          · next hu =>
              have hbytes : utf8 (pointAt c text) = [byte (0xE0 + pointAt c text / 0x1000),
                  byte (0x80 + pointAt c text / 0x40 % 0x40), byte (0x80 + pointAt c text % 0x40)] := by
                unfold utf8
                rw [if_neg hu1, if_neg hu2, if_pos hu]
                rfl
              rw [or_lead_three hu, or_continuation, or_continuation, hsecond, hbytes,
                if_neg (by omega : ¬ 0xFFFF < pointAt c text)]
              split
              · next hfull => rw [if_neg (by simp; omega)]
              · next hroom =>
                  rw [if_pos (by simp; omega)]
                  rfl
          · next hu3 =>
              have hbytes : utf8 (pointAt c text) = [byte (0xF0 + pointAt c text / 0x40000),
                  byte (0x80 + pointAt c text / 0x1000 % 0x40), byte (0x80 + pointAt c text / 0x40 % 0x40),
                  byte (0x80 + pointAt c text % 0x40)] := by
                unfold utf8
                rw [if_neg hu1, if_neg hu2, if_neg hu3]
                rfl
              rw [or_lead_four hmax, or_continuation, or_continuation, or_continuation, hsecond, hthird, hbytes,
                if_pos (by omega : 0xFFFF < pointAt c text)]
              split
              · next hfull => rw [if_neg (by simp; omega)]
              · next hroom =>
                  rw [if_pos (by simp; omega)]
                  cases text with
                  | nil => rfl
                  | cons d text => rfl

/-- The writer writes the characters that fit. -/
theorem writeUnits_eq (endIdx : Nat) (text : Text) (outIdx : Nat) (heap : List UInt8) :
    writeUnits endIdx text outIdx heap =
      (outIdx + (fitting (endIdx - outIdx) (codePoints text)).length,
        put outIdx (fitting (endIdx - outIdx) (codePoints text)) heap) := by
  cases text with
  | nil => rfl
  | cons c text =>
    rw [writeUnits_cons, codePoints_cons]
    unfold fitting
    split
    · next hfits =>
        rw [writeUnits_eq, if_pos (by omega : (utf8 (pointAt c text)).length ≤ endIdx - outIdx), Nat.sub_add_eq,
          List.length_append, Nat.add_assoc, put_append]
    · next hcut =>
        have hcut' : ¬ (utf8 (pointAt c text)).length ≤ endIdx - outIdx := by
          have hpos : 0 < (utf8 (pointAt c text)).length := by
            rw [length_utf8]
            repeat' split
            all_goals decide
          omega
        rw [if_neg hcut']
        rfl
termination_by text.length
decreasing_by
  rw [List.length_cons]
  split
  · rw [List.length_tail]
    omega
  · exact Nat.lt_succ_self _

/-! ## The buffer of the caller -/

/-- What the caller of `readlinkat` expects: as many bytes of the text as the buffer takes, and no other
change. -/
def Stores (target : Text) (n buf : Nat) (heap : List UInt8) (result : Except Errno (Nat × List UInt8)) : Prop :=
  ∀ k heap', result = .ok (k, heap') → k = min n (encode target).length ∧
    ∀ i : Nat, heap'[i]? = if buf ≤ i ∧ i < buf + k then (encode target)[i - buf]? else heap[i]?

/-- The text is one that the buffer takes as it should. -/
structure Uncut (target : Text) (n : Nat) : Prop where
  /-- The end of the buffer is not inside a character. -/
  whole : ∃ j, (((codePoints target).take j).flatMap utf8).length = min n (encode target).length
  /-- The count is right, as far as the buffer goes. -/
  counted : min n (lengthBytesUTF8 target) = min n (encode target).length

variable {target : Text} {n buf : Nat} {heap : List UInt8}

theorem codePoints_le (text : Text) : ∀ u ∈ codePoints text, u ≤ 0x10FFFF := by
  cases text with
  | nil => exact fun u hu => nomatch hu
  | cons c text =>
    intro u hu
    rw [codePoints_cons] at hu
    cases List.mem_cons.mp hu with
    | inl heq => exact heq ▸ pointAt_le c text
    | inr htail => exact codePoints_le _ u htail
termination_by text.length
decreasing_by
  rw [List.length_cons]
  split
  · rw [List.length_tail]
    omega
  · exact Nat.lt_succ_self _

theorem length_fitting_le_min (n : Nat) (text : Text) :
    (fitting n (codePoints text)).length ≤ min n (encode text).length :=
  Nat.le_min.mpr ⟨length_fitting_le _ _, (fitting_isPrefix _ _).length_le⟩

/-- No character is cut where the characters that fit fill the buffer, or are all. -/
theorem whole_iff (target : Text) (n : Nat) :
    (∃ j, (((codePoints target).take j).flatMap utf8).length = min n (encode target).length) ↔
      (fitting n (codePoints target)).length = min n (encode target).length := by
  constructor
  · rintro ⟨j, hj⟩
    apply Nat.le_antisymm (length_fitting_le_min n target)
    rw [← hj]
    apply le_length_fitting
    exact hj ▸ Nat.min_le_left ..
  · intro hfull
    obtain ⟨j, hj⟩ := fitting_eq_take n (codePoints target)
    exact ⟨j, hj ▸ hfull⟩

theorem stringToUTF8Array_eq (target : Text) (heap : List UInt8) (buf n : Nat) :
    (stringToUTF8Array target heap buf (n + 1)).2 = put buf (fitting n (codePoints target) ++ [0]) heap := by
  have hroom : buf + (n + 1) - 1 - buf = n := by omega
  have hwrite : (stringToUTF8Array target heap buf (n + 1)).2 =
      (writeUnits (buf + (n + 1) - 1) target buf heap).2.set (writeUnits (buf + (n + 1) - 1) target buf heap).1 0 :=
    congrArg Prod.snd (if_neg fun hzero => hzero (Nat.succ_pos n))
  rw [hwrite, writeUnits_eq, hroom, put_append]
  rfl

/-- The memory after the call. -/
theorem readlinkat_eq {readlink : Path → Except Errno Text} {path : Path} (hlink : readlink path = .ok target)
    (hn : 0 < n) : __syscall_readlinkat readlink path heap buf n =
      .ok (min n (lengthBytesUTF8 target), (put buf (fitting n (codePoints target) ++ [0]) heap).set
        (buf + min n (lengthBytesUTF8 target)) (heap[buf + min n (lengthBytesUTF8 target)]?.getD 0)) := by
  unfold __syscall_readlinkat
  rw [if_neg (by omega), hlink]
  dsimp only
  rw [Int.toNat_natCast, stringToUTF8Array_eq]

/-- The zero byte is put where the byte behind the text is put back. -/
theorem getElem?_restored (hbuf : buf + n ≤ heap.length)
    (hfull : (fitting n (codePoints target)).length = min n (encode target).length) (i : Nat) :
    ((put buf (fitting n (codePoints target) ++ [0]) heap).set (buf + min n (encode target).length)
      (heap[buf + min n (encode target).length]?.getD 0))[i]? =
        if buf ≤ i ∧ i < buf + min n (encode target).length then (encode target)[i - buf]? else heap[i]? := by
  have hle : min n (encode target).length ≤ n := Nat.min_le_left ..
  obtain ⟨rest, hrest⟩ := fitting_isPrefix n (codePoints target)
  rw [List.getElem?_set, length_put]
  split
  · next hat =>
      subst hat
      rw [if_neg (fun hin => Nat.lt_irrefl _ hin.2 : ¬ (_ ∧ buf + _ < buf + _))]
      split
      · next hlt => rw [List.getElem?_eq_getElem hlt, Option.getD_some]
      · next hout => rw [List.getElem?_eq_none (Nat.le_of_not_lt hout)]
  · next hat =>
      rw [getElem?_put, List.length_append, hfull]
      split
      · next hin =>
          have hlt : i - buf < (fitting n (codePoints target)).length := by
            simp only [List.length_singleton] at hin
            omega
          have htext : encode target = fitting n (codePoints target) ++ rest := hrest.symm
          rw [if_pos (by omega), List.getElem?_append_left hlt, htext, List.getElem?_append_left hlt]
      · next hout =>
          simp only [List.length_singleton] at hout
          rw [if_neg (by omega)]

/-- `readlinkat` does what its caller expects exactly where the buffer cuts no character and the count of
bytes is right. -/
theorem readlinkat_stores_iff (readlink : Path → Except Errno Text) (path : Path)
    (hlink : readlink path = .ok target) (hn : 0 < n) (hbuf : buf + n ≤ heap.length) :
    Stores target n buf heap (__syscall_readlinkat readlink path heap buf n) ↔ Uncut target n := by
  have hfits := length_fitting_le_min n target
  rw [readlinkat_eq hlink hn]
  constructor
  · intro hstores
    obtain ⟨hcount, hbytes⟩ := hstores _ _ rfl
    rw [hcount] at hbytes
    refine ⟨(whole_iff target n).mpr (Nat.le_antisymm hfits (Nat.le_of_not_lt fun hstops => ?_)), hcount⟩
    -- a zero byte stays where the next byte of the text should be
    have hat := hbytes (buf + (fitting n (codePoints target)).length)
    have hle : min n (encode target).length ≤ n := Nat.min_le_left ..
    rw [List.getElem?_set, if_neg (by omega), getElem?_put, if_pos (by simp; omega), if_pos (by omega),
      Nat.add_sub_cancel_left, List.getElem?_append_right (Nat.le_refl _), Nat.sub_self] at hat
    exact getElem?_length_fitting (codePoints_le target) (Nat.lt_of_lt_of_le hstops hle) hat.symm
  · rintro ⟨hwhole, hcount⟩ k heap' hok
    have hfull := (whole_iff target n).mp hwhole
    obtain ⟨rfl, rfl⟩ := Prod.mk.inj (Except.ok.inj hok)
    rw [hcount]
    exact ⟨rfl, getElem?_restored hbuf hfull⟩

/-- The text "Aé" in a buffer of three bytes. -/
theorem readlinkat_stores_accented :
    Stores [0x41, 0xE9] 3 1 [7, 7, 7, 7, 7]
      (__syscall_readlinkat (fun _ => .ok [0x41, 0xE9]) "/l".toList [7, 7, 7, 7, 7] 1 3) :=
  (readlinkat_stores_iff (fun _ => .ok [0x41, 0xE9]) "/l".toList rfl (by decide) (by decide)).mpr
    ⟨⟨2, by decide⟩, by decide⟩

/-- In a buffer of two bytes it leaves a zero byte behind the `A`. -/
theorem readlinkat_leaves_zero :
    __syscall_readlinkat (fun _ => .ok [0x41, 0xE9]) "/l".toList [7, 7, 7, 7, 7] 1 2 = .ok (2, [7, 0x41, 0, 7, 7]) ∧
      ¬ Stores [0x41, 0xE9] 2 1 [7, 7, 7, 7, 7]
        (__syscall_readlinkat (fun _ => .ok [0x41, 0xE9]) "/l".toList [7, 7, 7, 7, 7] 1 2) := by
  have hrun : __syscall_readlinkat (fun _ => .ok [0x41, 0xE9]) "/l".toList [7, 7, 7, 7, 7] 1 2 =
      .ok (2, [7, 0x41, 0, 7, 7]) := by decide
  refine ⟨hrun, fun hstores => ?_⟩
  have hbyte := (hstores _ _ hrun).2 2
  exact absurd hbyte (by decide)

end JsFs.LinkText
