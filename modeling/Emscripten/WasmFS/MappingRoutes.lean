-- SUMMARY: Mappings of data files by the C call and by the JavaScript call, and the units of their offsets.
import Emscripten.WasmFS.MemoryFiles

/-!
# Routes to a mapping

Both `mmap` and `FS.mmap` end in `__syscall_mmap2`, which takes its offset in units of 4096 bytes and
scales it. The first divides the offset that it is given.
-/

namespace WasmFS

open Prog

/-! ## Routes -/

def MAP_FIXED : Nat := 0x10

/-- The largest `ptrdiff_t`. -/
def PTRDIFF_MAX : Nat := 2 ^ 31 - 1

/-- `!(off & OFF_MASK)`: neither the bits from the 44th on nor the last twelve. -/
def OffT.Unmasked (off : OffT) : Prop := 0 ≤ off.val ∧ off.val < 2 ^ 44 ∧ off.val % SYSCALL_MMAP2_UNIT = 0

instance (off : OffT) : Decidable off.Unmasked := inferInstanceAs (Decidable (_ ∧ _ ∧ _))

/-- `off/UNIT`. -/
def OffT.units (off : OffT) : OffT where
  val := off.val / SYSCALL_MMAP2_UNIT
  min_le := by
    have := off.min_le
    simp only [OFF_MIN, SYSCALL_MMAP2_UNIT] at this ⊢
    omega
  le_max := by
    have := off.le_max
    simp only [OFF_MAX, SYSCALL_MMAP2_UNIT] at this ⊢
    omega

/-- The memory of a mapping: the bytes that were read, and zeros after them. -/
def cleared (length : Nat) (bytes : List UInt8) : List UInt8 :=
  bytes ++ List.replicate (length - bytes.length) 0

/-- The memory at the address that `__syscall_mmap2` returns. -/
def mapped (allocated : Bool) (addr : Int) (len prot flags : Nat) (fd : Int) (offset : OffT) :
    Sys (List UInt8) := do
  let bytes ← mmap2 allocated addr len prot flags fd offset
  pure (cleared len bytes)

/-- `__mmap` of C. -/
def mmap (allocated : Bool) (start : Int) (len prot flags : Nat) (fd : Int) (off : OffT) :
    Sys (List UInt8) := do
  Prog.failIf (¬ off.Unmasked) .EINVAL
  Prog.failIf (PTRDIFF_MAX ≤ len) .ENOMEM
  Prog.attempt (mapped allocated start len prot flags fd off.units) fun
    | .ok bytes => pure bytes
    | .error e =>
      if e = .EPERM ∧ start = 0 ∧ has flags MAP_ANONYMOUS ∧ ¬ has flags MAP_FIXED then Prog.fail .ENOMEM
      else Prog.fail e

def _wasmfs_mmap (allocated : Bool) (length prot flags : Nat) (fd : Int) (offset : OffT) : Sys (List UInt8) :=
  mapped allocated 0 length prot flags fd offset

/-- `FS.mmap` of a stream. -/
def FS.mmap (allocated : Bool) (fd : Int) (length : Nat) (offset : OffT) (prot flags : Nat) :
    Sys (List UInt8) :=
  _wasmfs_mmap allocated length prot flags fd offset

/-! ## Bytes -/

/-- What a mapping of the bytes at an offset is to hold. -/
def window (data : List UInt8) (offset length : Nat) : List UInt8 :=
  cleared length (ByteSeq.readAt offset length data)

/-- Reads of the file give its bytes. -/
def FS.Holds (s : FS) (f : FileId) (data : List UInt8) : Prop :=
  ∀ len (offset : Nat), ∃ s', DataFile.read f len offset s = some (s', .ok (ByteSeq.readAt offset len data))

/-- A file in memory holds its buffer. -/
theorem FS.holds_memory {s : FS} {f : FileId} {buffer : List UInt8} (h : (s.file f).data = .memory buffer) :
    s.Holds f buffer := by
  intro len offset
  refine ⟨s.requested (.read f len offset), ?_⟩
  have hdata : ((s.requested (.read f len offset)).file f).data = .memory buffer := h
  unfold DataFile.read
  simp only [hdata]
  rw [if_neg (by omega), Int.toNat_natCast]

variable {s : FS} {f : FileId} {data : List UInt8} {allocated : Bool} {len prot flags : Nat} {fd : Int}

/-- A mapping holds the bytes at the scaled offset. -/
theorem mapped_eq (hchecks : mmapChecks allocated len prot flags fd s = some (s, .ok f)) (hdata : s.Holds f data)
    (hflags : ¬ has flags MAP_ANONYMOUS) {offset : OffT} {position : Nat} (hpos : mmapOffset offset = position) :
    ∃ s', mapped allocated 0 len prot flags fd offset s = some (s', .ok (window data position len)) := by
  obtain ⟨s', hread⟩ := hdata len position
  refine ⟨s', ?_⟩
  have hmmap2 : mmap2 allocated 0 len prot flags fd offset s =
      some (s', .ok (ByteSeq.readAt position len data)) := by
    unfold mmap2
    rw [failIf_bind_apply, if_neg (not_not.mpr rfl), if_neg hflags]
    unfold mmapJs
    rw [bind_of_ok hchecks, hpos]
    exact hread
  exact bind_of_ok hmmap2

theorem bmod_of_small {x : Int} (h0 : 0 ≤ x) (h : x < 2 ^ 63) : x.bmod (2 ^ 64) = x := by
  apply Int.bmod_eq_of_le
  · omega
  · simpa using h

/-- An offset that is divided and scaled is itself. -/
theorem mmapOffset_units {off : OffT} (h : off.Unmasked) : mmapOffset off.units = off.val.toNat := by
  obtain ⟨hpos, hlt, hunit⟩ := h
  have hval : off.units.val * SYSCALL_MMAP2_UNIT = off.val := Int.ediv_mul_cancel_of_emod_eq_zero hunit
  unfold mmapOffset
  rw [hval, bmod_of_small hpos (by omega)]
  omega

theorem mmapOffset_of_unmasked {off : OffT} (h : off.Unmasked) :
    mmapOffset off = (4096 * off.val.toNat : Nat) := by
  obtain ⟨hpos, hlt, -⟩ := h
  unfold mmapOffset SYSCALL_MMAP2_UNIT
  rw [bmod_of_small (by omega) (by omega)]
  omega

/-! ## Agreement -/

/-- Both mappings hold the bytes of the file at the offset. -/
def FS.MapsAlike (s : FS) (allocated : Bool) (len prot flags : Nat) (fd : Int) (offset : OffT)
    (data : List UInt8) : Prop :=
  ∃ s₁ s₂, WasmFS.mmap allocated 0 len prot flags fd offset s =
      some (s₁, .ok (window data offset.val.toNat len)) ∧
    FS.mmap allocated fd len offset prot flags s = some (s₂, .ok (window data offset.val.toNat len))

/-- The mapping by `mmap` holds the bytes of the file. -/
theorem mmap_eq (hchecks : mmapChecks allocated len prot flags fd s = some (s, .ok f)) (hdata : s.Holds f data)
    (hflags : ¬ has flags MAP_ANONYMOUS) {offset : OffT} (hoff : offset.Unmasked) (hlen : len < PTRDIFF_MAX) :
    ∃ s', WasmFS.mmap allocated 0 len prot flags fd offset s =
      some (s', .ok (window data offset.val.toNat len)) := by
  obtain ⟨s', hmapped⟩ := mapped_eq hchecks hdata hflags (mmapOffset_units hoff)
  refine ⟨s', ?_⟩
  unfold WasmFS.mmap
  rw [failIf_bind_apply, if_neg (not_not.mpr hoff), failIf_bind_apply, if_neg (Nat.not_le.mpr hlen),
    attempt_of hmapped]
  rfl

/-- Where a file can be mapped, the mappings are alike at offset 0, and elsewhere if the file's bytes are
there what they are at 4096 times the offset. -/
theorem _wasmfs_mmap_maps_alike (s : FS) (f : FileId) (data : List UInt8) (allocated : Bool)
    (len prot flags : Nat) (fd : Int) (offset : OffT)
    (hchecks : mmapChecks allocated len prot flags fd s = some (s, .ok f)) (hdata : s.Holds f data)
    (hflags : ¬ has flags MAP_ANONYMOUS) (hoff : offset.Unmasked) (hlen : len < PTRDIFF_MAX) :
    s.MapsAlike allocated len prot flags fd offset data ↔
      offset.val = 0 ∨
        window data (4096 * offset.val.toNat) len = window data offset.val.toNat len := by
  obtain ⟨s₁, hmmap⟩ := mmap_eq hchecks hdata hflags hoff hlen
  obtain ⟨s₂, hjs⟩ := mapped_eq hchecks hdata hflags (mmapOffset_of_unmasked hoff)
  have halike : s.MapsAlike allocated len prot flags fd offset data ↔
      window data (4096 * offset.val.toNat) len = window data offset.val.toNat len := by
    constructor
    · rintro ⟨-, s₂', -, hjs'⟩
      have hsame := hjs.symm.trans hjs'
      simpa using congrArg Prod.snd (Option.some.inj hsame)
    · intro hsame
      rw [hsame] at hjs
      exact ⟨s₁, s₂, hmmap, hjs⟩
  rw [halike]
  constructor
  · exact Or.inr
  · rintro (hzero | hsame)
    · rw [hzero]
      rfl
    · exact hsame

/-! ## A file of two pages -/

/-- The file that descriptor 3 is open on has a page of zeros and then a byte. -/
def withPages : FS := withFile.modifyFile 9 fun x => { x with data := .memory (List.replicate 65536 0 ++ [7]) }

theorem withPages_holds : withPages.Holds 9 (List.replicate 65536 0 ++ [7]) := by
  apply FS.holds_memory
  rfl

theorem withPages_checks : mmapChecks true 1 1 MAP_PRIVATE 3 withPages = some (withPages, .ok 9) := by
  rfl

def offTPage : OffT := ⟨65536, by decide, by decide⟩

theorem offTPage_unmasked : offTPage.Unmasked := by decide

theorem _wasmfs_mmap_maps_alike_zero :
    withPages.MapsAlike true 1 1 MAP_PRIVATE 3 offTZero (List.replicate 65536 0 ++ [7]) := by
  apply (_wasmfs_mmap_maps_alike withPages 9 _ true 1 1 MAP_PRIVATE 3 offTZero withPages_checks
    withPages_holds (by decide) (by decide) (by decide)).mpr
  left
  rfl

theorem window_second_page : window (List.replicate 65536 0 ++ [7]) 65536 1 = [7] := by
  have hread : ByteSeq.readAt 65536 1 (List.replicate 65536 (0 : UInt8) ++ [7]) = [7] := by
    unfold ByteSeq.readAt
    rw [List.drop_left' List.length_replicate]
    rfl
  unfold window
  rw [hread]
  rfl

/-- Beyond the end a mapping holds zeros. -/
theorem window_beyond {data : List UInt8} {offset : Nat} (h : data.length ≤ offset) (length : Nat) :
    window data offset length = List.replicate length 0 := by
  unfold window cleared ByteSeq.readAt
  rw [List.drop_eq_nil_of_le h]
  simp

/-- The second page holds a 7 for `mmap`, and a 0 for `FS.mmap`. -/
theorem _wasmfs_mmap_maps_elsewhere :
    (∃ s', WasmFS.mmap true 0 1 1 MAP_PRIVATE 3 offTPage withPages = some (s', .ok [7])) ∧
    (∃ s', FS.mmap true 3 1 offTPage 1 MAP_PRIVATE withPages = some (s', .ok [0])) ∧
    ¬ withPages.MapsAlike true 1 1 MAP_PRIVATE 3 offTPage (List.replicate 65536 0 ++ [7]) := by
  have hpage : window (List.replicate 65536 0 ++ [7]) offTPage.val.toNat 1 = [7] := window_second_page
  have hlater : window (List.replicate 65536 (0 : UInt8) ++ [7]) (4096 * offTPage.val.toNat) 1 = [0] := by
    apply window_beyond
    rw [List.length_append, List.length_replicate]
    decide
  obtain ⟨s₁, hmmap⟩ := mmap_eq withPages_checks withPages_holds (by decide) offTPage_unmasked
    (by decide)
  obtain ⟨s₂, hjs⟩ := mapped_eq withPages_checks withPages_holds (by decide)
    (mmapOffset_of_unmasked offTPage_unmasked)
  rw [hpage] at hmmap
  rw [hlater] at hjs
  refine ⟨⟨s₁, hmmap⟩, ⟨s₂, hjs⟩, ?_⟩
  rintro ⟨-, s₂', -, hjs'⟩
  rw [hpage] at hjs'
  have hsame := hjs.symm.trans hjs'
  simp at hsame

end WasmFS
