-- SUMMARY: Words as bytes in memory: both byte orders, loads at an offset, and xor by words and by bytes.
import Mathlib.Algebra.Ring.Int.Defs
import Mathlib.Algebra.Ring.Nat
import Mathlib.Data.List.Basic
import Mathlib.Data.List.GetD

/-!
# Words in memory

`ofLE` and `toLE` go between a number and its bytes, the least significant first;
`ofBE` reads them the other way round. A load that is not wholly inside the memory has
no value.
-/

namespace Words

def ofLE : List UInt8 → Nat
  | [] => 0
  | b :: bs => b.toNat + 256 * ofLE bs

def toLE : Nat → Nat → List UInt8
  | 0, _ => []
  | w + 1, n => UInt8.ofNat n :: toLE w (n / 256)

def ofBE (bs : List UInt8) : Nat := ofLE bs.reverse

/-- The number with the bytes of an `w`-byte word in the other order. -/
def swap (w n : Nat) : Nat := ofBE (toLE w n)

def load (w off : Nat) (mem : List UInt8) : Option Nat :=
  if off + w ≤ mem.length then some (ofLE ((mem.drop off).take w)) else none

/-! ## Bytes of a number -/

@[simp] theorem length_toLE (w n : Nat) : (toLE w n).length = w := by
  induction w generalizing n with
  | zero => rfl
  | succ w ih => simp [toLE, ih]

@[simp] theorem toLE_ofLE (bs : List UInt8) : toLE bs.length (ofLE bs) = bs := by
  induction bs with
  | nil => rfl
  | cons b bs ih =>
    have hb : b.toNat < 256 := b.toNat_lt
    have hhead : UInt8.ofNat (b.toNat + 256 * ofLE bs) = b := by
      apply UInt8.toNat_inj.mp
      simp
    have htail : (b.toNat + 256 * ofLE bs) / 256 = ofLE bs := by omega
    simp [toLE, ofLE, hhead, htail, ih]

theorem ofLE_toLE (w n : Nat) : ofLE (toLE w n) = n % 256 ^ w := by
  induction w generalizing n with
  | zero => simp [toLE, ofLE, Nat.mod_one]
  | succ w ih =>
    simp only [toLE, ofLE, ih, UInt8.toNat_ofNat', Nat.pow_succ']
    exact (Nat.mod_mul).symm

theorem ofLE_lt (bs : List UInt8) : ofLE bs < 256 ^ bs.length := by
  induction bs with
  | nil => simp [ofLE]
  | cons b bs ih =>
    have hb : b.toNat < 256 := b.toNat_lt
    simp only [ofLE, List.length_cons, Nat.pow_succ]
    omega

theorem ofLE_append (as bs : List UInt8) :
    ofLE (as ++ bs) = ofLE as + 256 ^ as.length * ofLE bs := by
  induction as with
  | nil => simp [ofLE]
  | cons a as ih =>
    simp only [List.cons_append, ofLE, ih, List.length_cons, Nat.pow_succ', Nat.mul_add,
      Nat.mul_assoc, Nat.add_assoc]

theorem ofBE_append (as bs : List UInt8) :
    ofBE (as ++ bs) = ofBE bs + 256 ^ bs.length * ofBE as := by
  simp [ofBE, ofLE_append]

theorem ofBE_lt (bs : List UInt8) : ofBE bs < 256 ^ bs.length := by
  simpa [ofBE] using ofLE_lt bs.reverse

/-- The bytes of the low part, and behind them those of the high one. -/
theorem toLE_add {a lo : Nat} (hlo : lo < 256 ^ a) (b hi : Nat) :
    toLE (a + b) (lo + 256 ^ a * hi) = toLE a lo ++ toLE b hi := by
  induction a generalizing lo with
  | zero =>
    obtain rfl : lo = 0 := Nat.lt_one_iff.mp hlo
    rw [Nat.zero_add, Nat.zero_add, Nat.pow_zero, Nat.one_mul]
    rfl
  | succ a ih =>
    rw [Nat.pow_succ] at hlo ⊢
    have hshift : 256 ^ a * 256 * hi = 256 * (256 ^ a * hi) := by rw [Nat.mul_comm (256 ^ a), Nat.mul_assoc]
    have hrest : (lo + 256 * (256 ^ a * hi)) / 256 = lo / 256 + 256 ^ a * hi := by omega
    have hbyte : UInt8.ofNat (lo + 256 * (256 ^ a * hi)) = UInt8.ofNat lo := by
      apply UInt8.toNat_inj.mp
      rw [UInt8.toNat_ofNat', UInt8.toNat_ofNat']
      exact Nat.add_mul_mod_self_left ..
    rw [Nat.succ_add, toLE, toLE, hshift, hrest, hbyte, ih (by omega), List.cons_append]

/-! ## The other byte order -/

variable {bs : List UInt8}

theorem swap_ofLE {w : Nat} (h : bs.length = w) : swap w (ofLE bs) = ofBE bs := by
  subst h
  simp [swap]

theorem toLE_swap (w n : Nat) : toLE w (swap w n) = (toLE w n).reverse := by
  have h := toLE_ofLE (toLE w n).reverse
  simpa [swap, ofBE] using h

theorem swap_lt (w n : Nat) : swap w n < 256 ^ w := by
  simpa [swap] using ofBE_lt (toLE w n)

/-! ## Loads -/

theorem load_eq_some {w off n : Nat} {mem : List UInt8} :
    load w off mem = some n ↔ off + w ≤ mem.length ∧ ofLE ((mem.drop off).take w) = n := by
  simp [load]

theorem load_eq_none {w off : Nat} {mem : List UInt8} :
    load w off mem = none ↔ mem.length < off + w := by
  simp [load]

theorem load_append {w off : Nat} {mem : List UInt8} (h : off + w ≤ mem.length)
    (more : List UInt8) : load w off (mem ++ more) = load w off mem := by
  have htake : ((mem ++ more).drop off).take w = (mem.drop off).take w := by
    rw [List.drop_append_of_le_length (by omega), List.take_append_of_le_length (by simp; omega)]
  simp [load, htake, h, Nat.le_add_right_of_le h]

/-- The word behind the first part of the memory. -/
theorem load_middle {w off : Nat} {front word : List UInt8} (hfront : front.length = off)
    (hword : word.length = w) (back : List UInt8) :
    load w off (front ++ (word ++ back)) = some (ofLE word) := by
  subst hfront hword
  simp [load, ← Nat.add_assoc]

/-! ## Exclusive or -/

theorem toLE_xor (w a b : Nat) :
    toLE w (a ^^^ b) = List.zipWith (· ^^^ ·) (toLE w a) (toLE w b) := by
  induction w generalizing a b with
  | zero => rfl
  | succ w ih =>
    have hdiv : (a ^^^ b) / 256 = a / 256 ^^^ b / 256 := Nat.xor_div_two_pow (n := 8)
    have hhead : UInt8.ofNat (a ^^^ b) = UInt8.ofNat a ^^^ UInt8.ofNat b := UInt8.ofNat_xor ..
    simp [toLE, hdiv, ih, hhead]

/-- Each byte with the byte of the key at its place, the key repeated from place `i` on. -/
def xorFrom (key : List UInt8) : Nat → List UInt8 → List UInt8
  | _, [] => []
  | i, b :: bs => (b ^^^ key.getD (i % key.length) 0) :: xorFrom key (i + 1) bs

variable {key : List UInt8}

@[simp] theorem length_xorFrom (i : Nat) (bs : List UInt8) :
    (xorFrom key i bs).length = bs.length := by
  induction bs generalizing i with
  | nil => rfl
  | cons b bs ih => simp [xorFrom, ih]

theorem xorFrom_append (i : Nat) (as bs : List UInt8) :
    xorFrom key i (as ++ bs) = xorFrom key i as ++ xorFrom key (i + as.length) bs := by
  induction as generalizing i with
  | nil => rfl
  | cons a as ih => simp [xorFrom, ih, Nat.add_comm, Nat.add_left_comm]

/-- Twice with one key is nothing done. -/
@[simp] theorem xorFrom_xorFrom (i : Nat) (bs : List UInt8) :
    xorFrom key i (xorFrom key i bs) = bs := by
  induction bs generalizing i with
  | nil => rfl
  | cons b bs ih => simp [xorFrom, ih, UInt8.xor_assoc]

/-- From place `j` of the key on to its end, the key is read as it stands. -/
theorem xorFrom_drop {i j : Nat} (hi : key.length ∣ i) (hbs : j + bs.length = key.length) :
    xorFrom key (i + j) bs = List.zipWith (· ^^^ ·) bs (key.drop j) := by
  induction bs generalizing j with
  | nil => simp [xorFrom]
  | cons b bs ih =>
    have hj : j < key.length := by simp at hbs; omega
    have hplace : (i + j) % key.length = j := by
      rw [Nat.add_mod, Nat.mod_eq_zero_of_dvd hi, Nat.zero_add, Nat.mod_mod, Nat.mod_eq_of_lt hj]
    have hrest := ih (j := j + 1) (by simp at hbs; omega)
    have hdrop : key.drop j = key[j] :: key.drop (j + 1) := List.drop_eq_getElem_cons hj
    rw [hdrop]
    simp only [xorFrom, hplace, List.getD_eq_getElem _ _ hj, List.zipWith_cons_cons, ← hrest,
      Nat.add_assoc]

/-- A whole key's length of bytes at once. -/
theorem xorFrom_word {i : Nat} (hi : key.length ∣ i) (hbs : bs.length = key.length) :
    xorFrom key i bs = List.zipWith (· ^^^ ·) bs key := by
  simpa using xorFrom_drop (j := 0) hi (by simpa using hbs)

end Words
