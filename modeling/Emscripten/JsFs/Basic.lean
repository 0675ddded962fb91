-- SUMMARY: Errors, flags, modes and numbers of the JS file system, and the storage of a MEMFS file.
import Mathlib.Data.Nat.Log
import Emscripten.Lib.ByteSeq

/-!
# Basic definitions of the JS file system

Flags and modes are 32-bit words, as the bit operators of JavaScript make them. A number is
an integer until it passes `2^53`, where it is rounded. The bytes of a MEMFS file lie in a
typed array that may be larger than the file; allocations of typed arrays succeed.
-/

namespace JsFs

/-- The numbers of `FS.ErrnoError`, and the one other exception that is met. -/
inductive Errno
  | EACCES | EBADF | EBUSY | EEXIST | EINVAL | EISDIR | ELOOP | EMFILE | ENODEV | ENOENT | ENOTDIR
  | ENOTEMPTY | ENOTSUP | EOVERFLOW | EPERM | ESPIPE | EXDEV | ENXIO | TypeError
deriving DecidableEq, Repr

/-! ## Flags and modes -/

abbrev Flags := BitVec 32

def O_RDONLY : Flags := 0o0
def O_WRONLY : Flags := 0o1
def O_RDWR : Flags := 0o2
def O_ACCMODE : Flags := 0o10000003
def O_CREAT : Flags := 0o100
def O_EXCL : Flags := 0o200
def O_TRUNC : Flags := 0o1000
def O_APPEND : Flags := 0o2000
def O_DIRECTORY : Flags := 0o200000
def O_NOFOLLOW : Flags := 0o400000

abbrev Mode := BitVec 32

def S_IALLUGO : Mode := 0o7777
def S_IRUGO : Mode := 0o444
def S_IWUGO : Mode := 0o222
def S_IXUGO : Mode := 0o111
def S_IRWXUGO : Mode := 0o777
def S_ISVTX : Mode := 0o1000

/-- The test `flags & mask`. -/
def Has (flags mask : BitVec 32) : Prop := flags &&& mask ≠ 0

instance (flags mask : BitVec 32) : Decidable (Has flags mask) := inferInstanceAs (Decidable (_ ≠ _))

/-- The access mode, `flags & O_ACCMODE`. -/
def access (flags : Flags) : Flags := flags &&& O_ACCMODE

def F_DUPFD : Int := 0
def F_GETFD : Int := 1
def F_SETFD : Int := 2
def F_GETFL : Int := 3
def F_SETFL : Int := 4
def F_GETLK : Int := 12
def F_SETLK : Int := 13
def F_SETLKW : Int := 14

def SEEK_SET : Int := 0
def SEEK_CUR : Int := 1
def SEEK_END : Int := 2

/-! ## Numbers -/

/-- The integers that are numbers without rounding, those between `-2^53` and `2^53`. -/
def Exact (n : Int) : Prop := n.natAbs ≤ 2 ^ 53

instance (n : Int) : Decidable (Exact n) := inferInstanceAs (Decidable (_ ≤ _))

/-- The double nearest to an integer, the even one of two. -/
def number (n : Int) : Int :=
  if Exact n then n
  else
    let unit := 2 ^ (n.natAbs.log2 - 52)
    let q := n.natAbs / unit
    let r := n.natAbs % unit
    let up := unit < 2 * r ∨ unit = 2 * r ∧ q % 2 = 1
    n.sign * ((if up then q + 1 else q) * unit : Nat)

theorem number_of_exact {n : Int} (h : Exact n) : number n = n := if_pos h

/-! ## Storage of a file -/

/-- `node.contents`, a typed array whose length is the capacity, and `node.usedBytes`. -/
structure Storage where
  contents : List UInt8
  usedBytes : Nat
deriving DecidableEq, Repr

variable {f : Storage}

namespace Storage

open ByteSeq

/-- The file lies in its array, and what it does not use of it is zero. -/
structure Tidy (f : Storage) : Prop where
  used_le : f.usedBytes ≤ f.contents.length
  rest : ∀ i, f.usedBytes ≤ i → i < f.contents.length → f.contents[i]? = some 0

/-- `MEMFS.getFileDataAsTypedArray`. -/
def bytes (f : Storage) : List UInt8 := f.contents.take f.usedBytes

def CAPACITY_DOUBLING_MAX : Nat := 1024 * 1024

/-- The capacity `MEMFS.expandFileStorage` asks for. -/
def grownCapacity (prevCapacity newCapacity : Nat) : Nat :=
  let grown := (if prevCapacity < CAPACITY_DOUBLING_MAX then prevCapacity * 2
    else prevCapacity * 9 / 8) % 2 ^ 32
  let newCapacity := max newCapacity grown
  if prevCapacity = 0 then newCapacity else max newCapacity 256

def expandFileStorage (f : Storage) (newCapacity : Nat) : Storage :=
  if newCapacity ≤ f.contents.length then f
  else
    let capacity := grownCapacity f.contents.length newCapacity
    { f with contents := f.bytes ++ List.replicate (capacity - f.bytes.length) 0 }

def resizeFileStorage (f : Storage) (newSize : Nat) : Storage :=
  if f.usedBytes = newSize then f
  else
    let old := f.contents.take (min newSize f.usedBytes)
    ⟨old ++ List.replicate (newSize - old.length) 0, newSize⟩

/-- `MEMFS.stream_ops.write` of some bytes that are not owned. -/
def write (f : Storage) (buffer : List UInt8) (position : Nat) : Storage :=
  if f.usedBytes = 0 ∧ position = 0 then ⟨buffer, buffer.length⟩
  else
    let expanded := f.expandFileStorage (position + buffer.length)
    ⟨splice position buffer expanded.contents, max f.usedBytes (position + buffer.length)⟩

theorem length_bytes (h : f.Tidy) : f.bytes.length = f.usedBytes := by
  unfold bytes
  rw [List.length_take, Nat.min_eq_left h.used_le]

/-- The bytes of a tidy file, and zeros, at each place of its array. -/
theorem getElem?_bytes (f : Storage) (i : Nat) :
    f.bytes[i]? = if i < f.usedBytes then f.contents[i]? else none := by
  unfold bytes
  rw [List.getElem?_take]

theorem le_grownCapacity (prev new : Nat) : new ≤ grownCapacity prev new := by
  unfold grownCapacity
  dsimp only
  split
  · exact Nat.le_max_left _ _
  · exact Nat.le_trans (Nat.le_max_left _ _) (Nat.le_max_left _ _)

/-! ## Expansion -/

theorem expand_usedBytes (f : Storage) (n : Nat) :
    (f.expandFileStorage n).usedBytes = f.usedBytes := by
  unfold expandFileStorage
  split <;> rfl

theorem le_length_expand (f : Storage) (n : Nat) (h : f.Tidy) :
    n ≤ (f.expandFileStorage n).contents.length := by
  unfold expandFileStorage
  split
  · next hle => exact hle
  · next hlt =>
      have hle := le_grownCapacity f.contents.length n
      have hused := h.used_le
      simp only [List.length_append, List.length_replicate, length_bytes h]
      omega

/-- The new array holds the file, and zeros behind it. -/
theorem getElem?_expand (f : Storage) (n : Nat) (h : f.Tidy) (i : Nat) :
    (f.expandFileStorage n).contents[i]? =
      if i < (f.expandFileStorage n).contents.length then
        (if i < f.usedBytes then f.contents[i]? else some 0) else none := by
  unfold expandFileStorage
  split
  · split
    · next hlt =>
        split
        · rfl
        · next hge => exact h.rest i (Nat.le_of_not_lt hge) hlt
    · next hge => exact List.getElem?_eq_none (Nat.le_of_not_lt hge)
  · simp only [List.getElem?_append, length_bytes h, getElem?_bytes, List.getElem?_replicate,
      List.length_append, List.length_replicate]
    have hused := h.used_le
    split_ifs <;> first | rfl | omega

theorem Tidy.expandFileStorage (h : f.Tidy) (n : Nat) :
    (f.expandFileStorage n).Tidy where
  used_le := by
    rw [expand_usedBytes]
    have hle := h.used_le
    unfold Storage.expandFileStorage
    split
    · exact hle
    · simp only [List.length_append, List.length_replicate, length_bytes h]
      omega
  rest := by
    intro i hi hlt
    rw [expand_usedBytes] at hi
    rw [getElem?_expand f n h, if_pos hlt, if_neg (Nat.not_lt.mpr hi)]

/-! ## The bytes after each operation -/

theorem Tidy.resizeFileStorage (h : f.Tidy) (n : Nat) : (f.resizeFileStorage n).Tidy := by
  unfold Storage.resizeFileStorage
  split
  · exact h
  · have hused := h.used_le
    refine ⟨?_, fun i hi hlt => ?_⟩
    · simp only [List.length_append, List.length_replicate, List.length_take]
      omega
    · simp only [List.length_append, List.length_replicate, List.length_take] at hi hlt
      omega

theorem bytes_resizeFileStorage (h : f.Tidy) (n : Nat) :
    (f.resizeFileStorage n).bytes = resize 0 n f.bytes := by
  have hused := h.used_le
  refine List.ext_getElem? fun i => ?_
  rw [getElem?_resize, length_bytes h, getElem?_bytes, getElem?_bytes]
  unfold Storage.resizeFileStorage
  split
  · next he =>
      subst he
      split_ifs <;> rfl
  · simp only [List.getElem?_append, List.length_take, List.getElem?_take, List.getElem?_replicate]
    split_ifs <;> first | rfl | omega

theorem Tidy.write (h : f.Tidy) (buffer : List UInt8) (position : Nat) : (f.write buffer position).Tidy := by
  unfold Storage.write
  split
  · refine ⟨Nat.le_refl _, fun i hi hlt => ?_⟩
    exact absurd hlt (Nat.not_lt.mpr hi)
  · have hlen := le_length_expand f (position + buffer.length) h
    have htidy := h.expandFileStorage (position + buffer.length)
    have hused := htidy.used_le
    rw [expand_usedBytes] at hused
    have hsplice : (splice position buffer
        (f.expandFileStorage (position + buffer.length)).contents).length =
        (f.expandFileStorage (position + buffer.length)).contents.length := by
      unfold splice
      simp only [List.length_append, List.length_take, List.length_drop]
      omega
    refine ⟨?_, fun i hi hlt => ?_⟩
    · simp only [hsplice]
      omega
    · simp only [hsplice] at hlt
      simp only [getElem?_splice position buffer _ hlen, getElem?_expand f _ h, hlt, if_true]
      simp only at hi
      split_ifs <;> first | rfl | omega

theorem bytes_write (h : f.Tidy) (buffer : List UInt8) (position : Nat) :
    (f.write buffer position).bytes = writeAt 0 position buffer f.bytes := by
  have hlen := le_length_expand f (position + buffer.length) h
  have hused := (h.expandFileStorage (position + buffer.length)).used_le
  rw [expand_usedBytes] at hused
  refine List.ext_getElem? fun i => ?_
  rw [getElem?_writeAt, length_bytes h, getElem?_bytes, getElem?_bytes]
  unfold Storage.write
  split
  · next hzero =>
      simp only [hzero.1, hzero.2, Nat.not_lt_zero, if_false, Nat.zero_add, Nat.sub_zero]
  · simp only [getElem?_splice position buffer _ hlen, getElem?_expand f _ h]
    split_ifs <;> first | rfl | omega

end Storage

/-- The storage of a file: always tidy. -/
structure FileData extends Storage where
  tidy : toStorage.Tidy

namespace FileData

open ByteSeq

instance : DecidableEq FileData := fun f g =>
  decidable_of_iff (f.toStorage = g.toStorage) ⟨fun h => by cases f; cases g; simp_all, fun h => h ▸ rfl⟩

/-- `MEMFS.emptyFileContents`. -/
def empty : FileData := ⟨⟨[], 0⟩, ⟨Nat.le_refl _, fun _ _ h => absurd h (Nat.not_lt_zero _)⟩⟩

def bytes (f : FileData) : List UInt8 := f.toStorage.bytes

def resizeFileStorage (f : FileData) (newSize : Nat) : FileData :=
  ⟨f.toStorage.resizeFileStorage newSize, f.tidy.resizeFileStorage newSize⟩

def write (f : FileData) (buffer : List UInt8) (position : Nat) : FileData :=
  ⟨f.toStorage.write buffer position, f.tidy.write buffer position⟩

@[simp] theorem bytes_empty : empty.bytes = [] := rfl

@[simp] theorem length_bytes (f : FileData) : f.bytes.length = f.usedBytes :=
  Storage.length_bytes f.tidy

@[simp] theorem bytes_resizeFileStorage (f : FileData) (n : Nat) :
    (f.resizeFileStorage n).bytes = resize 0 n f.bytes := Storage.bytes_resizeFileStorage f.tidy n

@[simp] theorem bytes_write (f : FileData) (buffer : List UInt8) (position : Nat) :
    (f.write buffer position).bytes = writeAt 0 position buffer f.bytes :=
  Storage.bytes_write f.tidy buffer position

end FileData

end JsFs
