-- SUMMARY: Text as UTF-16 code units, its code points, and their bytes in UTF-8.

/-!
# Code units, code points and bytes

A text is a list of code units of 16 bits, and any list is one: a surrogate without its partner is a code
point of its own. Its bytes are those that UTF-8 has for a number of its size. For texts without such
surrogates the encoding is the one of Lean's strings.
-/

namespace Unicode

/-- Code units. -/
abbrev Text := List UInt16

instance : LawfulBEq Text := inferInstanceAs (LawfulBEq (List UInt16))

def isLead (c : UInt16) : Bool := 0xD800 ≤ c.toNat ∧ c.toNat ≤ 0xDBFF

def isTrail (c : UInt16) : Bool := 0xDC00 ≤ c.toNat ∧ c.toNat ≤ 0xDFFF

/-- The code point of a surrogate pair. -/
def pair (c d : UInt16) : Nat := 0x10000 + (c.toNat - 0xD800) * 0x400 + (d.toNat - 0xDC00)

/-! ## Code points -/

/-- The code point that begins with the unit `c`. -/
def pointAt (c : UInt16) : Text → Nat
  | [] => c.toNat
  | d :: _ => if isLead c ∧ isTrail d then pair c d else c.toNat

def codePoints : Text → List Nat
  | [] => []
  | [c] => [c.toNat]
  | c :: d :: text =>
    if isLead c ∧ isTrail d then pair c d :: codePoints text else c.toNat :: codePoints (d :: text)

theorem pair_bounds {c d : UInt16} (hc : isLead c) (hd : isTrail d) : 0xFFFF < pair c d ∧ pair c d ≤ 0x10FFFF := by
  simp only [isLead, isTrail, decide_eq_true_eq] at hc hd
  unfold pair
  omega

theorem toNat_le (c : UInt16) : c.toNat ≤ 0xFFFF := Nat.le_of_lt_succ c.toNat_lt

/-- A code point beyond 16 bits stands for two units. -/
theorem codePoints_cons (c : UInt16) (text : Text) : codePoints (c :: text) =
    pointAt c text :: codePoints (if 0xFFFF < pointAt c text then text.tail else text) := by
  have hunit := toNat_le c
  cases text with
  | nil =>
    have hpoint : pointAt c [] = c.toNat := rfl
    rw [hpoint, if_neg (Nat.not_lt.mpr hunit)]
    rfl
  | cons d text =>
    have hpoint : pointAt c (d :: text) = if isLead c ∧ isTrail d then pair c d else c.toNat := rfl
    have hpoints : codePoints (c :: d :: text) =
        if isLead c ∧ isTrail d then pair c d :: codePoints text else c.toNat :: codePoints (d :: text) := rfl
    rw [hpoint, hpoints]
    split
    · next hpair => rw [if_pos (pair_bounds hpair.1 hpair.2).1, List.tail_cons]
    · rw [if_neg (Nat.not_lt.mpr hunit)]

theorem pointAt_le (c : UInt16) (text : Text) : pointAt c text ≤ 0x10FFFF := by
  have hunit := toNat_le c
  unfold pointAt
  split
  · omega
  · split
    · next hpair => exact (pair_bounds hpair.1 hpair.2).2
    · omega

/-- A unit that is no surrogate is a code point wherever it stands. -/
theorem pointAt_of_not_lead {c : UInt16} (hc : isLead c = false) (text : Text) : pointAt c text = c.toNat := by
  unfold pointAt
  split
  · rfl
  · rw [if_neg (by simp [hc])]

/-! ## Bytes -/

/-- The bytes of a code point. -/
def utf8 (u : Nat) : List UInt8 :=
  if u ≤ 0x7F then [UInt8.ofNat u]
  else if u ≤ 0x7FF then [UInt8.ofNat (0xC0 + u / 0x40), UInt8.ofNat (0x80 + u % 0x40)]
  else if u ≤ 0xFFFF then
    [UInt8.ofNat (0xE0 + u / 0x1000), UInt8.ofNat (0x80 + u / 0x40 % 0x40), UInt8.ofNat (0x80 + u % 0x40)]
  else
    [UInt8.ofNat (0xF0 + u / 0x40000), UInt8.ofNat (0x80 + u / 0x1000 % 0x40),
      UInt8.ofNat (0x80 + u / 0x40 % 0x40), UInt8.ofNat (0x80 + u % 0x40)]

def encode (text : Text) : List UInt8 := (codePoints text).flatMap utf8

theorem length_utf8 (u : Nat) :
    (utf8 u).length = if u ≤ 0x7F then 1 else if u ≤ 0x7FF then 2 else if u ≤ 0xFFFF then 3 else 4 := by
  unfold utf8
  repeat' split
  all_goals rfl

/-- No code point but zero has a zero byte first. -/
theorem head_utf8_ne_zero {u : Nat} (h : 1 < (utf8 u).length) (hu : u ≤ 0x10FFFF) : (utf8 u)[0]? ≠ some 0 := by
  have hne : ∀ n : Nat, 0 < n → n < 256 → UInt8.ofNat n ≠ 0 := by
    intro n hpos hlt heq
    have hzero := congrArg UInt8.toNat heq
    rw [UInt8.toNat_ofNat_of_lt' hlt] at hzero
    exact absurd hzero (Nat.ne_of_gt hpos)
  revert h
  unfold utf8
  split
  · exact fun h => absurd h (Nat.lt_irrefl 1)
  · split
    · intro _ heq
      exact hne _ (by omega) (by omega) (Option.some.inj heq)
    · split
      · intro _ heq
        exact hne _ (by omega) (by omega) (Option.some.inj heq)
      · intro _ heq
        exact hne _ (by omega) (by omega) (Option.some.inj heq)

/-! ## Strings of characters -/

/-- The units of a character. -/
def utf16 (c : Char) : Text :=
  if c.toNat ≤ 0xFFFF then [UInt16.ofNat c.toNat]
  else [UInt16.ofNat (0xD800 + (c.toNat - 0x10000) / 0x400), UInt16.ofNat (0xDC00 + (c.toNat - 0x10000) % 0x400)]

theorem toNat_char_bounds (c : Char) : c.toNat ≤ 0x10FFFF ∧ ¬ (0xD800 ≤ c.toNat ∧ c.toNat ≤ 0xDFFF) := by
  have hvalid := c.valid
  unfold UInt32.isValidChar Nat.isValidChar at hvalid
  have hnat : c.toNat = c.val.toNat := rfl
  omega

/-- The bytes of a character are those that Lean's strings have for it. -/
theorem utf8_toNat (c : Char) : utf8 c.toNat = String.utf8EncodeChar c := by
  have hnat : c.val.toNat = c.toNat := rfl
  have hle := (toNat_char_bounds c).1
  have hlast : 0x80 + c.toNat % 0x40 = c.toNat % 0x40 + 0x80 := Nat.add_comm ..
  have hmiddle : 0x80 + c.toNat / 0x40 % 0x40 = c.toNat / 0x40 % 0x40 + 0x80 := Nat.add_comm ..
  unfold utf8 String.utf8EncodeChar
  rw [hnat, hlast, hmiddle]
  dsimp only
  split
  · rfl
  · split
    · have hfirst : 0xC0 + c.toNat / 0x40 = c.toNat / 64 % 0x20 + 0xC0 := by omega
      rw [hfirst]
    · split
      · have hfirst : 0xE0 + c.toNat / 0x1000 = c.toNat / 4096 % 0x10 + 0xE0 := by omega
        rw [hfirst]
      · have hfirst : 0xF0 + c.toNat / 0x40000 = c.toNat / 262144 % 0x08 + 0xF0 := by omega
        have hsecond : 0x80 + c.toNat / 0x1000 % 0x40 = c.toNat / 4096 % 0x40 + 0x80 := Nat.add_comm ..
        rw [hfirst, hsecond]

theorem codePoints_utf16_append (c : Char) (text : Text) :
    codePoints (utf16 c ++ text) = c.toNat :: codePoints text := by
  obtain ⟨hle, hscalar⟩ := toNat_char_bounds c
  unfold utf16
  split
  · next hsmall =>
      have hunit : (UInt16.ofNat c.toNat).toNat = c.toNat := UInt16.toNat_ofNat_of_lt' (Nat.lt_succ_of_le hsmall)
      have hlead : isLead (UInt16.ofNat c.toNat) = false := by
        simp only [isLead, hunit, decide_eq_false_iff_not]
        omega
      have hpoint : pointAt (UInt16.ofNat c.toNat) text = c.toNat := (pointAt_of_not_lead hlead text).trans hunit
      rw [List.singleton_append, codePoints_cons, hpoint, if_neg (Nat.not_lt.mpr hsmall)]
  · next hlarge =>
      have hfirst : (UInt16.ofNat (0xD800 + (c.toNat - 0x10000) / 0x400)).toNat =
          0xD800 + (c.toNat - 0x10000) / 0x400 := UInt16.toNat_ofNat_of_lt' (by simp only [UInt16.size]; omega)
      have hsecond : (UInt16.ofNat (0xDC00 + (c.toNat - 0x10000) % 0x400)).toNat =
          0xDC00 + (c.toNat - 0x10000) % 0x400 := UInt16.toNat_ofNat_of_lt' (by simp only [UInt16.size]; omega)
      have hpair : isLead (UInt16.ofNat (0xD800 + (c.toNat - 0x10000) / 0x400)) ∧
          isTrail (UInt16.ofNat (0xDC00 + (c.toNat - 0x10000) % 0x400)) := by
        simp only [isLead, isTrail, hfirst, hsecond, decide_eq_true_eq]
        omega
      have hvalue : pair (UInt16.ofNat (0xD800 + (c.toNat - 0x10000) / 0x400))
          (UInt16.ofNat (0xDC00 + (c.toNat - 0x10000) % 0x400)) = c.toNat := by
        unfold pair
        rw [hfirst, hsecond]
        omega
      simp only [List.cons_append, List.nil_append, codePoints, if_pos hpair, hvalue]

theorem codePoints_utf16 (cs : List Char) : codePoints (cs.flatMap utf16) = cs.map Char.toNat := by
  induction cs with
  | nil => rfl
  | cons c cs ih => rw [List.flatMap_cons, codePoints_utf16_append, ih, List.map_cons]

/-- The encoding of a string of characters is the one of Lean. -/
theorem encode_utf16 (cs : List Char) : encode (cs.flatMap utf16) = cs.flatMap String.utf8EncodeChar := by
  unfold encode
  rw [codePoints_utf16, List.flatMap_map]
  simp only [utf8_toNat]

end Unicode
