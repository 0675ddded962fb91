-- SUMMARY: The storage of a MEMFS file over any writes, truncations, reads and private mappings: it shows the bytes of the file and nothing else.
import Emscripten.JsFs.Basic

/-!
# The storage of a file over runs

The array of a file may be longer than the file, and calls read it beyond the file's end: an expansion makes
that part of the file, and a mapping copies it. It is always zero, so that the file is a plain list of bytes.
-/

namespace JsFs.Storage

open ByteSeq

variable {f : Storage}

/-! ## Reads and mappings -/

/-- `MEMFS.stream_ops.read`: the bytes that are put into the buffer. -/
def read (f : Storage) (length position : Nat) : List UInt8 :=
  if f.usedBytes ≤ position then []
  else
    let size := min (f.usedBytes - position) length
    (f.contents.take (position + size)).drop position

def WASM_PAGE_SIZE : Nat := 65536

def alignMemory (size alignment : Nat) : Nat := (size + alignment - 1) / alignment * alignment

/-- The memory that `mmapAlloc` gives, which is set to zero. -/
def mmapAlloc (size : Nat) : List UInt8 := List.replicate (alignMemory size WASM_PAGE_SIZE) 0

/-- `MEMFS.stream_ops.mmap` where the mapping is private: the memory of the new mapping. -/
def mmap (f : Storage) (length position : Nat) : List UInt8 :=
  let contents :=
    if position > 0 ∨ position + length < f.contents.length then
      (f.contents.take (position + length)).drop position
    else f.contents
  splice 0 contents (mmapAlloc length)

/-- Beyond the file the array holds zeros, as if there was nothing. -/
theorem getD_contents (h : f.Tidy) (i : Nat) : f.contents[i]?.getD 0 = f.bytes[i]?.getD 0 := by
  rw [getElem?_bytes]
  split
  · rfl
  · next hge =>
      cases Nat.lt_or_ge i f.contents.length with
      | inl hlt => simp [h.rest i (Nat.le_of_not_lt hge) hlt]
      | inr hle => simp [List.getElem?_eq_none hle]

/-- A read gives the bytes of the file. -/
theorem read_eq (h : f.Tidy) (length position : Nat) :
    f.read length position = readAt position length f.bytes := by
  have hlength := length_bytes h
  unfold read readAt
  split
  · next hend => rw [List.drop_of_length_le (hlength.symm ▸ hend), List.take_nil]
  · next hin =>
      have htake : (f.contents.take (position + min (f.usedBytes - position) length)) =
          f.bytes.take (position + length) := by
        unfold bytes
        rw [List.take_take]
        congr 1
        omega
      simp only [htake, List.drop_take, Nat.add_sub_cancel_left]

theorem le_alignMemory (size : Nat) : size ≤ alignMemory size WASM_PAGE_SIZE := by
  unfold alignMemory WASM_PAGE_SIZE
  omega

/-- What a mapping copies, whether it takes a part of the array or the whole. -/
theorem mapped_eq (f : Storage) (length position : Nat) :
    (if position > 0 ∨ position + length < f.contents.length then
      (f.contents.take (position + length)).drop position else f.contents) =
      readAt position length f.contents := by
  unfold readAt
  split
  · rw [List.drop_take, Nat.add_sub_cancel_left]
  · next hwhole =>
      obtain rfl : position = 0 := by omega
      rw [List.drop_zero, List.take_of_length_le (by omega)]

theorem getElem?_resize_getD (n : Nat) (l : List UInt8) (i : Nat) :
    (resize 0 n l)[i]? = if i < n then some (l[i]?.getD 0) else none := by
  rw [getElem?_resize]
  split
  · split
    · next hlt => simp [List.getElem?_eq_getElem hlt]
    · next hge => simp [List.getElem?_eq_none (Nat.le_of_not_lt hge)]
  · rfl

theorem splice_zeros {n : Nat} {l : List UInt8} (h : l.length ≤ n) :
    splice 0 l (List.replicate n 0) = resize 0 n l := by
  unfold splice resize
  simp [List.take_of_length_le h]

/-- A mapping shows the bytes of the file, and zeros behind them. -/
theorem mmap_eq (h : f.Tidy) (length position : Nat) : f.mmap length position =
    resize 0 (alignMemory length WASM_PAGE_SIZE) (readAt position length f.bytes) := by
  have hfits : (readAt position length f.contents).length ≤ alignMemory length WASM_PAGE_SIZE := by
    rw [length_readAt]
    exact Nat.le_trans (Nat.min_le_left _ _) (le_alignMemory length)
  have hmmap : f.mmap length position =
      resize 0 (alignMemory length WASM_PAGE_SIZE) (readAt position length f.contents) := by
    unfold mmap mmapAlloc
    simp only [mapped_eq, splice_zeros hfits]
  rw [hmmap]
  apply List.ext_getElem?
  intro i
  have hat : (readAt position length f.contents)[i]?.getD 0 = (readAt position length f.bytes)[i]?.getD 0 := by
    unfold readAt
    rw [List.getElem?_take, List.getElem?_take, List.getElem?_drop, List.getElem?_drop]
    split
    · exact getD_contents h _
    · rfl
  rw [getElem?_resize_getD, getElem?_resize_getD, hat]

/-! ## Growth -/

/-- A larger array holds the same file. -/
theorem bytes_expandFileStorage (h : f.Tidy) (newCapacity : Nat) :
    (f.expandFileStorage newCapacity).bytes = f.bytes := by
  unfold expandFileStorage
  split
  · rfl
  · have hlength := length_bytes h
    unfold bytes at hlength ⊢
    simp [hlength]

/-! ## Any calls on one file -/

/-- What is done to a file. A truncation is the size that `setattr` is given. -/
inductive Op
  | write (buffer : List UInt8) (position : Nat)
  | truncate (newSize : Nat)
  | read (length position : Nat)
  | mmap (length position : Nat)
deriving DecidableEq, Repr

inductive Result
  | done (bytesWritten : Nat)
  | data (bytes : List UInt8)
deriving DecidableEq, Repr

/-- `MEMFS.stream_ops` and `MEMFS.node_ops.setattr`. A write of no bytes does nothing. -/
def apply (f : Storage) : Op → Storage × Result
  | .write buffer position =>
    if buffer.length = 0 then (f, .done 0) else (f.write buffer position, .done buffer.length)
  | .truncate newSize => (f.resizeFileStorage newSize, .done 0)
  | .read length position => (f, .data (f.read length position))
  | .mmap length position => (f, .data (f.mmap length position))

def run : Storage → List Op → Storage × List Result
  | f, [] => (f, [])
  | f, op :: ops =>
    let (f, r) := f.apply op
    let (f, rs) := run f ops
    (f, r :: rs)

namespace Bytes

/-- The file as a list of bytes: a write beyond its end fills the gap with zeros, and so does a truncation
to a larger size. -/
def apply (l : List UInt8) : Op → List UInt8 × Result
  | .write buffer position => (store 0 position buffer l, .done buffer.length)
  | .truncate newSize => (resize 0 newSize l, .done 0)
  | .read length position => (l, .data (readAt position length l))
  | .mmap length position =>
    (l, .data (resize 0 (alignMemory length WASM_PAGE_SIZE) (readAt position length l)))

def run : List UInt8 → List Op → List UInt8 × List Result
  | l, [] => (l, [])
  | l, op :: ops =>
    let (l, r) := apply l op
    let (l, rs) := run l ops
    (l, r :: rs)

end Bytes

theorem apply_spec (h : f.Tidy) (op : Op) :
    (f.apply op).1.Tidy ∧ Bytes.apply f.bytes op = ((f.apply op).1.bytes, (f.apply op).2) := by
  cases op with
  | write buffer position =>
    unfold apply
    dsimp only
    split
    · next hnil =>
        obtain rfl := List.eq_nil_of_length_eq_zero hnil
        exact ⟨h, rfl⟩
    · next hsome =>
        have hne : buffer ≠ [] := fun hnil => hsome (congrArg List.length hnil)
        refine ⟨h.write buffer position, ?_⟩
        simp only [Bytes.apply, store_of_ne_nil 0 position buffer f.bytes hne, bytes_write h]
  | truncate newSize =>
    exact ⟨h.resizeFileStorage newSize, Prod.ext (bytes_resizeFileStorage h newSize).symm rfl⟩
  | read length position =>
    exact ⟨h, Prod.ext rfl (congrArg Result.data (read_eq h length position).symm)⟩
  | mmap length position =>
    exact ⟨h, Prod.ext rfl (congrArg Result.data (mmap_eq h length position).symm)⟩

theorem run_spec (ops : List Op) : ∀ {f : Storage}, f.Tidy →
    (f.run ops).1.Tidy ∧ Bytes.run f.bytes ops = ((f.run ops).1.bytes, (f.run ops).2) := by
  induction ops with
  | nil => exact fun h => ⟨h, rfl⟩
  | cons op ops ih =>
    intro f h
    obtain ⟨htidy, hstep⟩ := apply_spec h op
    obtain ⟨htidy', hrun⟩ := ih htidy
    refine ⟨htidy', ?_⟩
    simp only [Bytes.run, hstep, hrun, run]

/-- After any calls on a new file the unused part of its array is zero, all reads and mappings have shown the
bytes of the file, and no growth would change one. -/
theorem storage_is_bytes (ops : List Op) :
    let (f, rs) := run FileData.empty.toStorage ops
    f.usedBytes ≤ f.contents.length ∧
      (∀ i, f.usedBytes ≤ i → i < f.contents.length → f.contents[i]? = some 0) ∧
      Bytes.run [] ops = (f.bytes, rs) ∧
      ∀ newCapacity, (f.expandFileStorage newCapacity).bytes = f.bytes := by
  obtain ⟨htidy, hrun⟩ := run_spec ops FileData.empty.tidy
  exact ⟨htidy.used_le, htidy.rest, hrun, bytes_expandFileStorage htidy⟩

end JsFs.Storage
