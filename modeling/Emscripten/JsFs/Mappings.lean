-- SUMMARY: Mappings of files: mmap, msync and munmap over descriptors and memory, and what they write back to the file.
import Mathlib.Data.List.Pairwise
import Emscripten.JsFs.Opening

/-!
# Mappings

A mapping is a copy of a part of a file in memory. The record of a mapping has the number of
the descriptor it was made from; what is written back goes to the file that number means by
then. The memory of a file is never that of the program, so every mapping is allocated, and
memory does not run out.
-/

namespace JsFs

open Prog Machine

/-! ## The system calls -/

def SYSCALL_MMAP2_UNIT : Nat := 4096

def WASM_PAGE_SIZE : Nat := 65536

/-- `alignMemory(size, WASM_PAGE_SIZE)`. -/
def alignMemory (size : Nat) : Nat := (size + WASM_PAGE_SIZE - 1) / WASM_PAGE_SIZE * WASM_PAGE_SIZE

/-- `struct map`, of a file. -/
structure Mapping where
  addr : Nat
  length : Nat
  fd : Nat
  flags : BitVec 32
  offset : Nat
  prot : BitVec 32
deriving DecidableEq, Repr

/-- The file system, the memory, and `mappings`, latest first. -/
structure Process where
  fs : FS
  memory : Nat → UInt8
  mappings : List Mapping

abbrev ProcessSys := Prog Process Errno

/-- A call of the file system. -/
def onFs {α : Type} (m : Sys α) : ProcessSys α := fun s =>
  (m s.fs).map fun (fs, r) => ({ s with fs }, r)

namespace Process

variable (s : Process)

/-- `HEAPU8.slice(addr, addr + len)`. -/
def slice (addr len : Nat) : List UInt8 := (List.range len).map fun i => s.memory (addr + i)

def find_mapping (addr : Nat) : Option Mapping := s.mappings.find? (·.addr = addr)

/-- A block that overlaps the memory of no mapping. -/
def Free (ptr size : Nat) : Prop :=
  ∀ m ∈ s.mappings, m.addr + alignMemory m.length ≤ ptr ∨ ptr + size ≤ m.addr

instance (ptr size : Nat) : Decidable (s.Free ptr size) :=
  inferInstanceAs (Decidable (∀ m ∈ s.mappings, _))

/-- A block of zeros, with some bytes at its start. -/
def place (ptr size : Nat) (bytes : List UInt8) : Process :=
  { s with memory := fun a =>
      if ptr ≤ a ∧ a < ptr + size then bytes[a - ptr]?.getD 0 else s.memory a }

end Process

/-- `SYSCALLS.doMsync`, with `MEMFS.stream_ops.msync`. -/
def doMsync (addr : Nat) (st : Stream) (len : Nat) (flags : BitVec 32) (offset : Nat) :
    ProcessSys Unit := do
  let s ← Prog.gets id
  match (s.fs.node st.node).data with
  | .file f =>
    if Has flags MAP_PRIVATE then pure ()
    else onFs (doIf (len ≠ 0) (setFile st.node (f.write (s.slice addr len) offset)))
  | _ => Prog.fail .ENODEV

/-- `__syscall_mmap2` of a file. The allocator returns `ptr`, which is in no mapping. -/
def mmap2 (len : Nat) (prot flags : BitVec 32) (fd off ptr : Nat) : ProcessSys Nat := do
  let offset := off * SYSCALL_MMAP2_UNIT
  let bytes ← onFs (mmap_js fd len offset prot flags)
  let s ← Prog.gets id
  if s.Free ptr (alignMemory len) then do
    Prog.modify fun s => s.place ptr (alignMemory len) bytes
    Prog.modify fun s => { s with mappings := ⟨ptr, len, fd, flags, offset, prot⟩ :: s.mappings }
    pure ptr
  else Prog.crash

/-- `__syscall_msync`. -/
def msync (addr len : Nat) : ProcessSys Unit := do
  let s ← Prog.gets id
  match s.find_mapping addr with
  | none => Prog.fail .EINVAL
  | some m => do
      let st ← onFs (query fun s => s.getStreamChecked m.fd)
      doMsync addr st len m.flags m.offset

/-- `_munmap_js`. -/
def munmap_js (addr length : Nat) (m : Mapping) : ProcessSys Unit := do
  let st ← onFs (query fun s => s.getStreamChecked m.fd)
  if Has m.prot PROT_WRITE then doMsync addr st length m.flags m.offset else pure ()

/-- `__syscall_munmap`, which does not look at what `_munmap_js` returns. -/
def munmap (addr length : Nat) : ProcessSys Unit := do
  let s ← Prog.gets id
  match s.find_mapping addr with
  | none => Prog.fail .EINVAL
  | some m => do
      Prog.failIf (length = 0 ∨ m.length ≠ length) .EINVAL
      Prog.modify fun s => { s with mappings := s.mappings.erase m }
      Prog.attempt (munmap_js addr length m) fun _ => pure ()

/-! ## Runs -/

inductive MapCall
  | file (c : Call)
  | mmap2 (len : Nat) (prot flags : BitVec 32) (fd off ptr : Nat)
  | store (a : Nat) (value : UInt8)
  | msync (addr len : Nat)
  | munmap (addr length : Nat)
deriving DecidableEq, Repr

def store (a : Nat) (value : UInt8) : ProcessSys Unit :=
  Prog.modify fun s => { s with memory := Function.update s.memory a value }

def MapCall.run [Build] : MapCall → ProcessSys Result
  | .file c => onFs c.run
  | .mmap2 len prot flags fd off ptr => do pure (.count (← JsFs.mmap2 len prot flags fd off ptr))
  | .store a value => do
      JsFs.store a value
      pure .done
  | .msync addr len => do
      JsFs.msync addr len
      pure .done
  | .munmap addr length => do
      JsFs.munmap addr length
      pure .done

/-- The process, and what has happened to the mapping at an address. -/
structure MapRun where
  sys : Process
  /-- Ghost: the file that was mapped. -/
  origin : Nat → NodeId
  /-- Ghost: the program has stored to the mapping. -/
  stored : Nat → Bool
  /-- Ghost: another mapping that was stored to was written back over the part of the file. -/
  stale : Nat → Bool

namespace MapRun

def start (fs : FS) (memory : Nat → UInt8) : MapRun :=
  ⟨⟨fs, memory, []⟩, fun _ => 0, fun _ => false, fun _ => false⟩

variable (s : MapRun)

def file (m : Mapping) : Node := s.sys.fs.node (s.origin m.addr)

/-- The mapping a call writes back, with the length. -/
def target : MapCall → Option (Mapping × Nat)
  | .msync addr len => (s.sys.find_mapping addr).map (·, len)
  | .munmap addr length =>
    ((s.sys.find_mapping addr).filter fun m => length ≠ 0 ∧ m.length = length).map (·, length)
  | _ => none

/-- The first bytes of a mapping are those of a place in the file that another one has. -/
def Over (m : Mapping) (len : Nat) (m' : Mapping) : Prop :=
  m'.addr ≠ m.addr ∧ s.origin m'.addr = s.origin m.addr ∧
    m.offset < m'.offset + m'.length ∧ m'.offset < m.offset + len

instance (m : Mapping) (len : Nat) (m' : Mapping) : Decidable (s.Over m len m') :=
  inferInstanceAs (Decidable (_ ∧ _ ∧ _ ∧ _))

/-- What a write-back does to the other mappings. -/
def writtenBack (m : Mapping) (len : Nat) : MapRun :=
  { s with stale := fun a => s.stale a || s.stored m.addr &&
      s.sys.mappings.any fun m' => m'.addr = a ∧ s.Over m len m' }

/-- The ghost part of a call. -/
def note (c : MapCall) (r : Except Errno Result) : MapRun :=
  match c, r with
  | .mmap2 _ _ _ fd _ ptr, .ok _ =>
    { s with
      origin := Function.update s.origin ptr ((s.sys.fs.getStream fd).elim 0 (·.node))
      stored := Function.update s.stored ptr false
      stale := Function.update s.stale ptr false }
  | .store a _, _ =>
    { s with stored := fun addr => s.stored addr ||
        s.sys.mappings.any fun m => m.addr = addr ∧ addr ≤ a ∧ a < addr + m.length }
  | c, _ =>
    match s.target c with
    | some (m, len) => s.writtenBack m len
    | none => s

def step [Build] (s : MapRun) (c : MapCall) : Option MapRun :=
  (c.run s.sys).map fun (sys, r) => { s.note c r with sys }

/-- The calls on files are `open`, `close` and `dup`, what is mapped is shared and writable, and
where a mapping is written back, its descriptor is open on the file that was mapped, the part
lies in the mapping and in the file, and either the program has stored to the mapping, or no
other mapping that it had stored to was written back over it. -/
def InPlace (c : MapCall) : Prop :=
  match c with
  | .file (.open _ _ _) | .file (.close _) | .file (.dup _) => True
  | .file _ => False
  | .mmap2 _ prot flags _ _ _ => Has prot PROT_WRITE ∧ ¬ Has flags MAP_PRIVATE
  | .store _ _ => True
  | c => ∀ m len, s.target c = some (m, len) → 0 < len →
      (∃ st, s.sys.fs.getStream m.fd = some st ∧ st.node = s.origin m.addr) ∧
      len ≤ m.length ∧ m.offset + len ≤ (s.file m).bytes.length ∧
      (s.stored m.addr = true ∨ s.stale m.addr = false)

/-- Only the file that was mapped has changed: it has the bytes of the mapping where the mapping
lies inside it, and its own bytes everywhere else. -/
def WritesBack (m : Mapping) (len : Nat) (t : MapRun) : Prop :=
  ∃ f : FileData,
    t.sys.fs = s.sys.fs.setNode (s.origin m.addr) { s.file m with data := .file f } ∧
    f.bytes.length = (s.file m).bytes.length ∧
    (∀ i < f.bytes.length, f.bytes[i]? =
      if m.offset ≤ i ∧ i < m.offset + min len m.length then
        some (s.sys.memory (m.addr + (i - m.offset)))
      else (s.file m).bytes[i]?) ∧
    (s.stored m.addr = false → f.bytes = (s.file m).bytes)

end MapRun

/-! ## One write-back -/

variable {s s' : Process} {m : Mapping} {n : NodeId} {len : Nat}

theorem onFs_query_bind {α β : Type} (f : FS → Except Errno α) (k : α → ProcessSys β) (s : Process) :
    (onFs (query f) >>= k) s = match f s.fs with
      | .ok a => k a s
      | .error e => some (s, .error e) := by
  change seq (onFs (query f)) k s = _
  unfold seq onFs
  simp only [query_apply, Option.map_some]
  cases f s.fs <;> rfl

theorem getElem?_slice (addr len i : Nat) :
    (s.slice addr len)[i]? = if i < len then some (s.memory (addr + i)) else none := by
  unfold Process.slice
  rw [List.getElem?_map]
  split
  · next h => simp [h]
  · next h => simp [Nat.le_of_not_lt h]

@[simp] theorem length_slice (addr len : Nat) : (s.slice addr len).length = len := by
  simp [Process.slice]

/-- The bytes of a mapping go to a file, where there are any. -/
def FS.putBack (s : Process) (n : NodeId) (f : FileData) (m : Mapping) (len : Nat) : FS :=
  if len ≠ 0 then
    s.fs.setNode n { s.fs.node n with data := .file (f.write (s.slice m.addr len) m.offset) }
  else s.fs

variable {sys : Process} {r : Except Errno Unit} {fs : FS} {f : FileData} {addr : Nat}

theorem doMsync_apply {st : Stream} (hf : (s.fs.node st.node).data = .file f)
    (hshared : ¬ Has m.flags MAP_PRIVATE) :
    doMsync m.addr st len m.flags m.offset s =
      some ({ s with fs := FS.putBack s st.node f m len }, .ok ()) := by
  unfold doMsync FS.putBack
  simp only [gets_bind_apply, id_eq, hf, hshared, if_false]
  unfold doIf
  split <;> rfl

/-- What is put back lies inside the file, so the size stays. -/
theorem bytes_write_inside (hle : m.offset + len ≤ f.bytes.length) :
    (f.write (s.slice m.addr len) m.offset).bytes.length = f.bytes.length ∧
      ∀ i, (f.write (s.slice m.addr len) m.offset).bytes[i]? =
        if m.offset ≤ i ∧ i < m.offset + len then some (s.memory (m.addr + (i - m.offset)))
        else f.bytes[i]? := by
  rw [FileData.bytes_write]
  refine ⟨?_, fun i => ?_⟩
  · rw [ByteSeq.length_writeAt, length_slice]
    exact Nat.max_eq_left hle
  · rw [ByteSeq.getElem?_writeAt, length_slice, getElem?_slice]
    split_ifs <;> first | rfl | omega

/-- The file gets the bytes of the mapping where the mapping lies inside it. -/
def PutsBack (s : Process) (n : NodeId) (m : Mapping) (len : Nat) (fs : FS) : Prop :=
  ∃ f : FileData, fs = s.fs.setNode n { s.fs.node n with data := .file f } ∧
    f.bytes.length = (s.fs.node n).bytes.length ∧
    ∀ i < f.bytes.length, f.bytes[i]? =
      if m.offset ≤ i ∧ i < m.offset + min len m.length then
        some (s.memory (m.addr + (i - m.offset)))
      else (s.fs.node n).bytes[i]?

/-- Nothing is put back of no bytes. -/
theorem putsBack_zero (hfile : (s.fs.node n).isFile = true) : PutsBack s n m 0 s.fs := by
  obtain ⟨f, hdata, hbytes⟩ := FS.data_of_isFile hfile
  refine ⟨f, ?_, by rw [hbytes], fun i _ => ?_⟩
  · unfold FS.setNode
    rw [← hdata, Function.update_eq_self]
  · have hno : ¬ (m.offset ≤ i ∧ i < m.offset + min 0 m.length) := by omega
    rw [if_neg hno, hbytes]

/-- The part that `msync` and `munmap` share. -/
theorem putsBack (hfile : (s.fs.node n).isFile = true) (hshared : ¬ Has m.flags MAP_PRIVATE)
    (hplace : 0 < len → (∃ st, s.fs.getStream m.fd = some st ∧ st.node = n) ∧
      len ≤ m.length ∧ m.offset + len ≤ (s.fs.node n).bytes.length)
    (h : (onFs (query fun s => s.getStreamChecked m.fd) >>= fun st =>
      doMsync m.addr st len m.flags m.offset) s = some (s', r)) :
    s'.memory = s.memory ∧ s'.mappings = s.mappings ∧ PutsBack s n m len s'.fs := by
  rw [onFs_query_bind] at h
  rcases Nat.eq_zero_or_pos len with rfl | hpos
  · -- Whatever the descriptor is now, nothing is written.
    have hsame : s' = s := by
      split at h
      · next st _ =>
          unfold doMsync at h
          rw [gets_bind_apply] at h
          cases hdata : (s.fs.node st.node).data with
          | file f =>
            simp only [id_eq, hdata, hshared, if_false] at h
            cases h
            rfl
          | _ =>
            simp only [id_eq, hdata] at h
            cases h
            rfl
      · cases h
        rfl
    subst hsame
    exact ⟨rfl, rfl, putsBack_zero hfile⟩
  · obtain ⟨⟨st, hst, rfl⟩, hlen, hle⟩ := hplace hpos
    obtain ⟨f, hdata, hbytes⟩ := FS.data_of_isFile hfile
    have hq : s.fs.getStreamChecked m.fd = .ok st := by simp [FS.getStreamChecked, hst]
    rw [hq] at h
    simp only [doMsync_apply hdata hshared] at h
    cases h
    rw [hbytes] at hle
    obtain ⟨hsize, hinside⟩ := bytes_write_inside (s := s) hle
    refine ⟨rfl, rfl, f.write (s.slice m.addr len) m.offset, ?_, by rw [hbytes, hsize], fun i _ => ?_⟩
    · unfold FS.putBack
      rw [if_pos (Nat.ne_of_gt hpos)]
    · rw [hinside, hbytes, Nat.min_eq_left hlen]

/-- What is put back of a mapping that has the bytes of the file changes nothing. -/
theorem putsBack_fresh (h : PutsBack s n m len fs)
    (hfresh : 0 < len → ∀ i < m.length, ∀ b, (s.fs.node n).bytes[m.offset + i]? = some b →
      s.memory (m.addr + i) = b) : (fs.node n).bytes = (s.fs.node n).bytes := by
  obtain ⟨f, rfl, hsize, hinside⟩ := h
  have hf : ((s.fs.setNode n { s.fs.node n with data := .file f }).node n).bytes = f.bytes := by
    simp [FS.setNode, Node.bytes]
  rw [hf]
  refine List.ext_getElem? fun i => ?_
  by_cases hi : i < f.bytes.length
  · rw [hinside i hi]
    split
    · next hin =>
        obtain ⟨b, hb⟩ : ∃ b, (s.fs.node n).bytes[i]? = some b :=
          ⟨_, List.getElem?_eq_getElem (hsize ▸ hi)⟩
        have hplace : m.offset + (i - m.offset) = i := by omega
        rw [hb, hfresh (by omega) (i - m.offset) (by omega) b (by rwa [hplace])]
    · rfl
  · rw [List.getElem?_eq_none (Nat.le_of_not_lt hi),
      List.getElem?_eq_none (hsize ▸ Nat.le_of_not_lt hi)]

/-! ## What holds of the mappings -/

theorem le_alignMemory (size : Nat) : size ≤ alignMemory size := by
  unfold alignMemory WASM_PAGE_SIZE
  omega

/-- The blocks of two mappings do not overlap. -/
def Mapping.Apart (m m' : Mapping) : Prop :=
  m.addr + alignMemory m.length ≤ m'.addr ∨ m'.addr + alignMemory m'.length ≤ m.addr

namespace MapRun

/-- What holds where all steps were in place. -/
structure Tracked (s : MapRun) : Prop where
  allocated : s.sys.fs.Allocated
  positive : ∀ m ∈ s.sys.mappings, 0 < m.length
  shared : ∀ m ∈ s.sys.mappings, Has m.prot PROT_WRITE ∧ ¬ Has m.flags MAP_PRIVATE
  apart : s.sys.mappings.Pairwise Mapping.Apart
  file : ∀ m ∈ s.sys.mappings, s.origin m.addr < s.sys.fs.nextInode ∧ (s.file m).isFile = true
  fresh : ∀ m ∈ s.sys.mappings, s.stored m.addr = false → s.stale m.addr = false →
    ∀ i < m.length, ∀ b, (s.file m).bytes[m.offset + i]? = some b → s.sys.memory (m.addr + i) = b

variable {s t : MapRun} {c : MapCall}

theorem find_mapping_some {s : Process} {m : Mapping} (h : s.find_mapping addr = some m) :
    m ∈ s.mappings ∧ m.addr = addr :=
  ⟨List.mem_of_find?_eq_some h, by simpa using List.find?_some h⟩

/-- A call that keeps the files, or empties some. -/
theorem Tracked.cut (h : s.Tracked) (hfs : fs.Allocated) (hcut : s.sys.fs.Cut fs) :
    Tracked { s with sys := { s.sys with fs } } where
  allocated := hfs
  positive := h.positive
  shared := h.shared
  apart := h.apart
  file m hm := by
    obtain ⟨hlt, hf⟩ := h.file m hm
    exact ⟨Nat.lt_of_lt_of_le hlt hcut.nextInode, (hcut.file _ hlt hf).1⟩
  fresh m hm hstored hstale i hi b hb := by
    obtain ⟨hlt, hf⟩ := h.file m hm
    change (fs.node (s.origin m.addr)).bytes[m.offset + i]? = some b at hb
    rcases (hcut.file _ hlt hf).2 with he | he
    · rw [he] at hb
      exact h.fresh m hm hstored hstale i hi b hb
    · rw [he] at hb
      cases hb

/-- A byte is stored: no mapping that was not stored to has it. -/
theorem Tracked.store (h : s.Tracked) (a : Nat) (value : UInt8) (r : Except Errno Result) :
    Tracked { s.note (.store a value) r with
      sys := { s.sys with memory := Function.update s.sys.memory a value } } where
  allocated := h.allocated
  positive := h.positive
  shared := h.shared
  apart := h.apart
  file := h.file
  fresh m hm hstored hstale i hi b hb := by
    have hstored' : (s.stored m.addr || s.sys.mappings.any fun m' =>
      m'.addr = m.addr ∧ m.addr ≤ a ∧ a < m.addr + m'.length) = false := hstored
    rw [Bool.or_eq_false_iff, List.any_eq_false] at hstored'
    have hne : m.addr + i ≠ a := by
      have := hstored'.2 m hm
      simp only [decide_eq_true_eq, not_and, Nat.not_lt] at this
      intro he
      have := this trivial (by omega)
      omega
    change Function.update s.sys.memory a value (m.addr + i) = b
    rw [Function.update_of_ne hne]
    exact h.fresh m hm hstored'.1 hstale i hi b hb

/-! ## Making a mapping -/

/-- The bytes of a new mapping are those of a file the descriptor is on. -/
theorem reads_mmap_js (fs : FS) (fd length position : Nat) (prot flags : BitVec 32) :
    Reads fs (mmap_js fd length position prot flags) fun bytes => ∃ st f,
      fs.getStream fd = some st ∧ (fs.node st.node).data = .file f ∧ 0 < length ∧
        bytes = mappedBytes f length position := by
  refine .bind (reads_stream fs fd) fun st hst => .bind (.gets (Q := fun a => a = fs) rfl) ?_
  rintro _ rfl
  refine .bind .failIf fun _ _ => .bind .failIf fun _ _ => ?_
  split
  · next f hf =>
      exact .bind .failIf fun _ hlen => .pure ⟨st, f, hst, hf, Nat.pos_of_ne_zero hlen, rfl⟩
  · exact .fail

theorem mmap2_cases {sys' : Process} {r : Except Errno Nat} {len fd off ptr : Nat} {prot flags : BitVec 32}
    (h : JsFs.mmap2 len prot flags fd off ptr sys = some (sys', r)) :
    (∃ e, r = .error e ∧ sys' = sys) ∨ ∃ st f, sys.fs.getStream fd = some st ∧
      (sys.fs.node st.node).data = .file f ∧ 0 < len ∧ sys.Free ptr (alignMemory len) ∧
      r = .ok ptr ∧ sys' = { sys.place ptr (alignMemory len)
        (mappedBytes f len (off * SYSCALL_MMAP2_UNIT)) with
          mappings := ⟨ptr, len, fd, flags, off * SYSCALL_MMAP2_UNIT, prot⟩ :: sys.mappings } := by
  have hread : Reads sys (onFs (mmap_js fd len (off * SYSCALL_MMAP2_UNIT) prot flags))
      fun bytes => ∃ st f, sys.fs.getStream fd = some st ∧ (sys.fs.node st.node).data = .file f ∧
        0 < len ∧ bytes = mappedBytes f len (off * SYSCALL_MMAP2_UNIT) := by
    intro s₁ r₁ h₁
    obtain ⟨⟨fs', r'⟩, hrun, he⟩ := Option.map_eq_some_iff.mp h₁
    cases he
    obtain ⟨rfl, hq⟩ := reads_mmap_js sys.fs fd len _ prot flags fs' r₁ hrun
    exact ⟨rfl, hq⟩
  rcases hread.bind_cases h with ⟨e, rfl, rfl⟩ | ⟨bytes, ⟨st, f, hst, hf, hlen, rfl⟩, _, hrest⟩
  · exact .inl ⟨e, rfl, rfl⟩
  · rw [gets_bind_apply] at hrest
    split at hrest
    · next hfree =>
        cases hrest
        exact .inr ⟨st, f, hst, hf, hlen, hfree, rfl, rfl⟩
    · cases hrest

theorem getElem?_mappedBytes {len pos i : Nat} (hi : i < len) {b : UInt8} (hb : f.bytes[pos + i]? = some b) :
    (mappedBytes f len pos)[i]? = some b := by
  have hcontents : f.contents[pos + i]? = some b := by
    have hb' : f.toStorage.bytes[pos + i]? = some b := hb
    rw [Storage.getElem?_bytes] at hb'
    split at hb'
    · exact hb'
    · cases hb'
  have hlt := (List.getElem?_eq_some_iff.mp hcontents).1
  have hread : i < (ByteSeq.readAt pos len f.contents).length := by
    rw [ByteSeq.length_readAt]
    omega
  unfold mappedBytes
  rw [ByteSeq.getElem?_resize, if_pos hi, if_pos hread]
  unfold ByteSeq.readAt
  rw [List.getElem?_take, if_pos hi, List.getElem?_drop, hcontents]

theorem Tracked.mmap2 (h : s.Tracked) {r : Except Errno Nat} {len fd off ptr : Nat} {prot flags : BitVec 32}
    (hshared : Has prot PROT_WRITE ∧ ¬ Has flags MAP_PRIVATE)
    (hrun : JsFs.mmap2 len prot flags fd off ptr s.sys = some (sys, r)) :
    Tracked { s.note (.mmap2 len prot flags fd off ptr) (r.map .count) with sys } := by
  rcases mmap2_cases hrun with ⟨e, rfl, rfl⟩ | ⟨st, f, hst, hf, hlen, hfree, rfl, rfl⟩
  · exact h
  have hsize := le_alignMemory len
  -- The block of a mapping that was there lies apart from the new one.
  have hold : ∀ m ∈ s.sys.mappings, m.addr ≠ ptr ∧
      ∀ i < m.length, ¬ (ptr ≤ m.addr + i ∧ m.addr + i < ptr + alignMemory len) := by
    intro m hm
    have hfree := hfree m hm
    have hle := le_alignMemory m.length
    have hpos := h.positive m hm
    exact ⟨by omega, fun i hi => by omega⟩
  have horigin : ∀ m ∈ s.sys.mappings,
      Function.update s.origin ptr ((s.sys.fs.getStream fd).elim 0 (·.node)) m.addr =
        s.origin m.addr := fun m hm => Function.update_of_ne (hold m hm).1 _ _
  have hnew : Function.update s.origin ptr ((s.sys.fs.getStream fd).elim 0 (·.node)) ptr = st.node := by
    rw [Function.update_self, hst]
    rfl
  refine ⟨h.allocated, ?_, ?_, ?_, ?_, ?_⟩
  · exact List.forall_mem_cons.mpr ⟨hlen, h.positive⟩
  · exact List.forall_mem_cons.mpr ⟨hshared, h.shared⟩
  · exact List.pairwise_cons.mpr ⟨fun m hm => Or.symm (hfree m hm), h.apart⟩
  · refine List.forall_mem_cons.mpr ⟨⟨?_, ?_⟩, fun m hm => ?_⟩
    · change Function.update s.origin ptr _ ptr < s.sys.fs.nextInode
      rw [hnew]
      exact h.allocated.stream fd st hst
    · change (s.sys.fs.node (Function.update s.origin ptr _ ptr)).isFile = true
      rw [hnew]
      simp [Node.isFile, hf]
    · change Function.update s.origin ptr _ m.addr < _ ∧
        (s.sys.fs.node (Function.update s.origin ptr _ m.addr)).isFile = true
      rw [horigin m hm]
      exact h.file m hm
  · refine List.forall_mem_cons.mpr ⟨fun _ _ i hi b hb => ?_, fun m hm hstored hstale i hi b hb => ?_⟩
    · change (s.sys.fs.node (Function.update s.origin ptr _ ptr)).bytes[_]? = some b at hb
      have hbytes : (s.sys.fs.node st.node).bytes = f.bytes := by simp [Node.bytes, hf]
      rw [hnew, hbytes] at hb
      change (if ptr ≤ ptr + i ∧ ptr + i < ptr + alignMemory len then
        (mappedBytes f len (off * SYSCALL_MMAP2_UNIT))[ptr + i - ptr]?.getD 0
        else s.sys.memory (ptr + i)) = b
      have hin : ptr ≤ ptr + i ∧ ptr + i < ptr + alignMemory len := by
        have hi' : i < len := hi
        omega
      rw [if_pos hin, Nat.add_sub_cancel_left, getElem?_mappedBytes hi hb]
      rfl
    · change Function.update s.stored ptr false m.addr = false at hstored
      change Function.update s.stale ptr false m.addr = false at hstale
      change (s.sys.fs.node (Function.update s.origin ptr _ m.addr)).bytes[_]? = some b at hb
      rw [Function.update_of_ne (hold m hm).1] at hstored hstale
      rw [horigin m hm] at hb
      change (if ptr ≤ m.addr + i ∧ m.addr + i < ptr + alignMemory len then _
        else s.sys.memory (m.addr + i)) = b
      rw [if_neg ((hold m hm).2 i hi)]
      exact h.fresh m hm hstored hstale i hi b hb

/-! ## Writing back -/

/-- What `InPlace` asks where a mapping is written back. -/
def Backed (s : MapRun) (m : Mapping) (len : Nat) : Prop :=
  0 < len → (∃ st, s.sys.fs.getStream m.fd = some st ∧ st.node = s.origin m.addr) ∧
    len ≤ m.length ∧ m.offset + len ≤ (s.file m).bytes.length ∧
    (s.stored m.addr = true ∨ s.stale m.addr = false)

/-- What was never stored to has the bytes of the file, and these are put back. -/
theorem Tracked.unstored (h : s.Tracked) {m : Mapping} (hm : m ∈ s.sys.mappings) {len : Nat}
    (hb : s.Backed m len) (hput : PutsBack s.sys (s.origin m.addr) m len fs) (hstored : s.stored m.addr = false) :
    (fs.node (s.origin m.addr)).bytes = (s.file m).bytes := by
  refine putsBack_fresh hput fun hpos i hi b hbyte => ?_
  rcases (hb hpos).2.2.2 with h' | hstale
  · rw [hstored] at h'
    cases h'
  · exact h.fresh m hm hstored hstale i hi b hbyte

theorem Tracked.writesBack (h : s.Tracked) {m : Mapping} (hm : m ∈ s.sys.mappings) {len : Nat}
    (hb : s.Backed m len) (hput : PutsBack s.sys (s.origin m.addr) m len t.sys.fs) :
    s.WritesBack m len t := by
  have hunstored := h.unstored hm hb hput
  obtain ⟨f, hfs, hsize, hinside⟩ := hput
  have hbytes : (t.sys.fs.node (s.origin m.addr)).bytes = f.bytes := by
    rw [hfs]
    simp [FS.setNode, Node.bytes]
  exact ⟨f, hfs, hsize, hinside, fun hs => hbytes.symm.trans (hunstored hs)⟩

theorem Tracked.putBack (h : s.Tracked) {m : Mapping} (hm : m ∈ s.sys.mappings) {len : Nat}
    (hb : s.Backed m len) (hput : PutsBack s.sys (s.origin m.addr) m len fs) :
    Tracked { s.writtenBack m len with sys := { s.sys with fs } } := by
  have hunstored := h.unstored hm hb hput
  obtain ⟨f, hfs, hsize, hinside⟩ := hput
  have hself : (fs.node (s.origin m.addr)).isFile = true ∧
      (fs.node (s.origin m.addr)).bytes = f.bytes := by
    rw [hfs]
    simp [FS.setNode, Node.isFile, Node.bytes]
  have hother : ∀ n ≠ s.origin m.addr, fs.node n = s.sys.fs.node n := by
    intro n hn
    rw [hfs]
    exact Function.update_of_ne hn _ _
  have hnext : fs.nextInode = s.sys.fs.nextInode := by rw [hfs]; rfl
  refine ⟨?_, h.positive, h.shared, h.apart, fun m' hm' => ?_,
    fun m' hm' hstored hstale i hi b hbyte => ?_⟩
  · change fs.Allocated
    rw [hfs]
    exact h.allocated.setNode _ rfl rfl (.inr rfl)
  · obtain ⟨hlt, hf⟩ := h.file m' hm'
    change s.origin m'.addr < fs.nextInode ∧ (fs.node (s.origin m'.addr)).isFile = true
    refine ⟨hnext ▸ hlt, ?_⟩
    by_cases he : s.origin m'.addr = s.origin m.addr
    · rw [he]
      exact hself.1
    · rw [hother _ he]
      exact hf
  · change s.stored m'.addr = false at hstored
    change (fs.node (s.origin m'.addr)).bytes[_]? = some b at hbyte
    obtain ⟨hfresh, hover⟩ := Bool.or_eq_false_iff.mp hstale
    refine h.fresh m' hm' hstored hfresh i hi b ?_
    by_cases he : s.origin m'.addr = s.origin m.addr
    · have hfile : s.file m' = s.file m := congrArg s.sys.fs.node he
      rw [he, hself.2] at hbyte
      rw [hfile]
      cases hm₀ : s.stored m.addr with
      | false => rw [← hunstored hm₀, hself.2, hbyte]
      | true =>
        -- The mapping that is written back was stored to, so this one is another, beside it.
        have hne : m'.addr ≠ m.addr := fun ha => by
          rw [ha, hm₀] at hstored
          cases hstored
        have hbeside : ¬ (m.offset < m'.offset + m'.length ∧ m'.offset < m.offset + len) := by
          intro hboth
          rw [hm₀, Bool.true_and, List.any_eq_false] at hover
          exact hover m' hm' (decide_eq_true ⟨rfl, hne, he, hboth⟩)
        have hout : ¬ (m.offset ≤ m'.offset + i ∧ m'.offset + i < m.offset + min len m.length) := by
          omega
        rw [hinside _ (List.getElem?_eq_some_iff.mp hbyte).1, if_neg hout] at hbyte
        exact hbyte
    · rw [hother _ he] at hbyte
      exact hbyte

theorem Tracked.erase (h : s.Tracked) (m : Mapping) :
    Tracked { s with sys := { s.sys with mappings := s.sys.mappings.erase m } } where
  allocated := h.allocated
  positive m' hm' := h.positive m' (List.mem_of_mem_erase hm')
  shared m' hm' := h.shared m' (List.mem_of_mem_erase hm')
  apart := h.apart.sublist List.erase_sublist
  file m' hm' := h.file m' (List.mem_of_mem_erase hm')
  fresh m' hm' := h.fresh m' (List.mem_of_mem_erase hm')

/-! ## The two calls -/

/-- How `msync` ends: there is no such mapping, or its bytes are put back. -/
theorem Tracked.msync_cases (h : s.Tracked) {len : Nat}
    (hb : ∀ m, s.sys.find_mapping addr = some m → s.Backed m len)
    (hrun : JsFs.msync addr len s.sys = some (sys, r)) :
    (s.sys.find_mapping addr = none ∧ sys = s.sys) ∨
      ∃ m fs, s.sys.find_mapping addr = some m ∧ sys = { s.sys with fs } ∧
        PutsBack s.sys (s.origin m.addr) m len fs := by
  unfold JsFs.msync at hrun
  rw [gets_bind_apply] at hrun
  cases hfind : s.sys.find_mapping addr with
  | none =>
    simp only [id_eq, hfind] at hrun
    cases hrun
    exact .inl ⟨rfl, rfl⟩
  | some m =>
    simp only [id_eq, hfind] at hrun
    obtain ⟨hm, rfl⟩ := find_mapping_some hfind
    have hback : ∀ hpos : 0 < len, _ := fun hpos => hb m hfind hpos
    obtain ⟨hmem, hmaps, hput⟩ := putsBack (h.file m hm).2 (h.shared m hm).2
      (fun hpos => ⟨(hback hpos).1, (hback hpos).2.1, (hback hpos).2.2.1⟩) hrun
    refine .inr ⟨m, sys.fs, rfl, ?_, hput⟩
    cases sys
    cases hmem
    cases hmaps
    rfl

/-- How `munmap` ends: there is no such mapping, or it is gone, and its bytes are put back. -/
theorem Tracked.munmap_cases (h : s.Tracked) {len : Nat}
    (hb : ∀ m, s.sys.find_mapping addr = some m → len ≠ 0 → m.length = len → s.Backed m len)
    (hrun : JsFs.munmap addr len s.sys = some (sys, r)) :
    (sys = s.sys ∧ ∀ m, s.sys.find_mapping addr = some m → ¬ (len ≠ 0 ∧ m.length = len)) ∨
      ∃ m fs, s.sys.find_mapping addr = some m ∧ (len ≠ 0 ∧ m.length = len) ∧
        sys = { s.sys with fs, mappings := s.sys.mappings.erase m } ∧
        PutsBack s.sys (s.origin m.addr) m len fs := by
  unfold JsFs.munmap at hrun
  rw [gets_bind_apply] at hrun
  cases hfind : s.sys.find_mapping addr with
  | none =>
    simp only [id_eq, hfind] at hrun
    cases hrun
    exact .inl ⟨rfl, fun m hm => nomatch hm⟩
  | some m =>
    simp only [id_eq, hfind, failIf_bind_apply] at hrun
    split at hrun
    · next hbad =>
        cases hrun
        refine .inl ⟨rfl, fun m' hm' hgood => ?_⟩
        cases hm'
        exact hbad.elim hgood.1 fun hne => hne hgood.2
    · next hgood =>
        obtain ⟨hlen, hlength⟩ := not_or.mp hgood
        have hlength := Classical.not_not.mp hlength
        obtain ⟨hm, rfl⟩ := find_mapping_some hfind
        have hback : ∀ hpos : 0 < len, _ := fun hpos => hb m hfind hlen hlength hpos
        rw [modify_bind_apply] at hrun
        unfold Prog.attempt munmap_js at hrun
        simp only [(h.shared m hm).1, if_true] at hrun
        split at hrun
        · cases hrun
        · next s₂ r₂ hrun₂ =>
            cases hrun
            obtain ⟨hmem, hmaps, hput⟩ := putsBack
              (s := { s.sys with mappings := s.sys.mappings.erase m })
              (h.file m hm).2 (h.shared m hm).2
              (fun hpos => ⟨(hback hpos).1, (hback hpos).2.1, (hback hpos).2.2.1⟩) hrun₂
            refine .inr ⟨m, sys.fs, rfl, ⟨hlen, hlength⟩, ?_, hput⟩
            cases sys
            cases hmem
            cases hmaps
            rfl

/-! ## Runs -/

theorem target_msync {len : Nat} {m : Mapping} (h : s.sys.find_mapping addr = some m) :
    s.target (.msync addr len) = some (m, len) := by
  simp [target, h]

theorem target_munmap {len : Nat} {m : Mapping} (h : s.sys.find_mapping addr = some m)
    (hl : len ≠ 0 ∧ m.length = len) : s.target (.munmap addr len) = some (m, len) := by
  simp [target, h, Option.filter, hl]

theorem run_unit {m : ProcessSys Unit} {r : Except Errno Result} {res : Result}
    (h : (m >>= fun _ => pure res) s.sys = some (sys, r)) : ∃ r', m s.sys = some (sys, r') := by
  cases r with
  | ok b =>
    obtain ⟨a, sys₁, h₁, h₂⟩ := bind_ok_iff.mp h
    cases h₂
    exact ⟨.ok a, h₁⟩
  | error e =>
    rcases bind_error_iff.mp h with h₁ | ⟨a, sys₁, _, h₂⟩
    · exact ⟨.error e, h₁⟩
    · cases h₂

/-- The mapping a call writes back is one there is. -/
theorem target_some {m : Mapping} {len : Nat} (h : s.target c = some (m, len)) :
    m ∈ s.sys.mappings := by
  cases c with
  | msync addr l =>
    obtain ⟨m', hm', he⟩ := Option.map_eq_some_iff.mp h
    cases he
    exact (find_mapping_some hm').1
  | munmap addr l =>
    obtain ⟨m', hm', he⟩ := Option.map_eq_some_iff.mp h
    cases he
    exact (find_mapping_some (Option.filter_eq_some_iff.mp hm').1).1
  | file c => cases h
  | mmap2 len prot flags fd off ptr => cases h
  | store a value => cases h

variable [Build]

/-- A step of `msync` or `munmap`: it finds no mapping, or it puts the bytes of one back. -/
inductive Syncs (s : MapRun) (c : MapCall) : MapRun → Prop
  | none (h : s.target c = none) : s.Syncs c s
  | back (m : Mapping) (len : Nat) (fs : FS) (h : s.target c = some (m, len))
      (hput : PutsBack s.sys (s.origin m.addr) m len fs) (mappings : List Mapping)
      (hmappings : mappings = s.sys.mappings ∨ mappings = s.sys.mappings.erase m) :
      s.Syncs c { s.writtenBack m len with sys := { s.sys with fs, mappings } }

theorem Tracked.syncs_msync (h : s.Tracked) {len : Nat} (hc : s.InPlace (.msync addr len))
    (hs : s.step (.msync addr len) = some t) : s.Syncs (.msync addr len) t := by
  obtain ⟨⟨sys, r⟩, hrun, rfl⟩ := Option.map_eq_some_iff.mp hs
  obtain ⟨r', hmsync⟩ := run_unit hrun
  have hnote : s.note (.msync addr len) r = match s.target (.msync addr len) with
      | some (m, len) => s.writtenBack m len
      | none => s := by cases r <;> rfl
  rcases h.msync_cases (fun m hm => hc m len (target_msync hm)) hmsync with
    ⟨hnone, rfl⟩ | ⟨m, fs, hfind, rfl, hput⟩
  · have ht : s.target (.msync addr len) = none := by simp [target, hnone]
    dsimp only
    rw [hnote, ht]
    exact .none ht
  · have ht : s.target (.msync addr len) = some (m, len) := target_msync hfind
    dsimp only
    rw [hnote, ht]
    exact .back m len fs ht hput _ (.inl rfl)

theorem Tracked.syncs_munmap (h : s.Tracked) {len : Nat} (hc : s.InPlace (.munmap addr len))
    (hs : s.step (.munmap addr len) = some t) : s.Syncs (.munmap addr len) t := by
  obtain ⟨⟨sys, r⟩, hrun, rfl⟩ := Option.map_eq_some_iff.mp hs
  obtain ⟨r', hmunmap⟩ := run_unit hrun
  have hnote : s.note (.munmap addr len) r = match s.target (.munmap addr len) with
      | some (m, len) => s.writtenBack m len
      | none => s := by cases r <;> rfl
  rcases h.munmap_cases (fun m hm hl he => hc m len (target_munmap hm ⟨hl, he⟩)) hmunmap with
    ⟨rfl, hnone⟩ | ⟨m, fs, hfind, hl, rfl, hput⟩
  · have ht : s.target (.munmap addr len) = none := by
      change ((s.sys.find_mapping addr).filter _).map _ = none
      rw [Option.map_eq_none_iff, Option.filter_eq_none_iff]
      exact fun m hm => by simpa using hnone m hm
    dsimp only
    rw [hnote, ht]
    exact .none ht
  · have ht := target_munmap hfind hl
    dsimp only
    rw [hnote, ht]
    exact .back m len fs ht hput _ (.inr rfl)

omit [Build] in
theorem Tracked.of_syncs (h : s.Tracked) (hb : ∀ m len, s.target c = some (m, len) → s.Backed m len)
    (hs : s.Syncs c t) : t.Tracked := by
  cases hs with
  | none => exact h
  | back m len fs ht hput mappings hmappings =>
    have hback := h.putBack (target_some ht) (hb m len ht) hput
    rcases hmappings with rfl | rfl
    · exact hback
    · exact hback.erase m

theorem cuts_file {c : Call} (hc : s.InPlace (.file c)) : Within FS.Cuts c.run := by
  cases c with
  | «open» path flags mode => exact .bind (cuts_open path flags mode) fun _ => .pure
  | close fd => exact .bind (cuts_close fd) fun _ => .pure
  | dup fd => exact .bind (cuts_dup fd) fun _ => .pure
  | data _ | dup3 _ _ | fcntl _ _ _ | mmap _ _ _ _ _ => exact absurd hc id

/-- Every step in place keeps the mappings tracked. -/
theorem Tracked.step (h : s.Tracked) (hc : s.InPlace c) (hs : s.step c = some t) : t.Tracked := by
  cases c with
  | file c =>
    obtain ⟨⟨sys, r⟩, hrun, rfl⟩ := Option.map_eq_some_iff.mp hs
    obtain ⟨⟨fs, r'⟩, hfs, he⟩ := Option.map_eq_some_iff.mp hrun
    cases he
    obtain ⟨hfs', hcut⟩ := cuts_file hc _ _ _ hfs h.allocated
    exact h.cut hfs' hcut
  | mmap2 len prot flags fd off ptr =>
    obtain ⟨⟨sys, r⟩, hrun, rfl⟩ := Option.map_eq_some_iff.mp hs
    cases r with
    | ok b =>
      obtain ⟨a, sys₁, h₁, h₂⟩ := bind_ok_iff.mp hrun
      cases h₂
      exact h.mmap2 hc h₁
    | error e =>
      rcases bind_error_iff.mp hrun with h₁ | ⟨a, sys₁, _, h₂⟩
      · exact h.mmap2 hc h₁
      · cases h₂
  | store a value =>
    obtain ⟨⟨sys, r⟩, hrun, rfl⟩ := Option.map_eq_some_iff.mp hs
    cases hrun
    exact h.store a value _
  | msync addr len => exact h.of_syncs hc (h.syncs_msync hc hs)
  | munmap addr len => exact h.of_syncs hc (h.syncs_munmap hc hs)

omit [Build] in
theorem tracked_start (h : fs.Allocated) (memory : Nat → UInt8) : (start fs memory).Tracked :=
  ⟨h, fun _ hm => (nomatch hm), fun _ hm => (nomatch hm), .nil, fun _ hm => (nomatch hm),
    fun _ hm => (nomatch hm)⟩

/-- In a run whose steps are in place, from a file system without mappings, each `msync` and
`munmap` that is in place writes back to the file that was mapped, and to no other, exactly the part
of the mapping inside the file, and where no mapping is meant it changes no file. -/
theorem mapping_written_back (fs : FS) (h : fs.Allocated) (memory : Nat → UInt8) :
    ∀ s, Reaches step InPlace (start fs memory) s → ∀ c addr len,
      c = .msync addr len ∨ c = .munmap addr len → s.InPlace c → ∀ t, s.step c = some t →
        (s.target c = none → t.sys.fs = s.sys.fs) ∧
          ∀ m l, s.target c = some (m, l) → s.WritesBack m l t := by
  intro s hr c addr len hcall hc t ht
  have hs : s.Tracked := hr.invariant (tracked_start h memory) fun _ _ _ h hc hs => h.step hc hs
  have hsync : s.Syncs c t := by
    rcases hcall with rfl | rfl
    · exact hs.syncs_msync hc ht
    · exact hs.syncs_munmap hc ht
  cases hsync with
  | none hnone =>
    refine ⟨fun _ => rfl, fun m l hm => ?_⟩
    rw [hnone] at hm
    cases hm
  | back m len fs htarget hput mappings hmappings =>
    rw [htarget]
    refine ⟨fun hnone => (nomatch hnone), fun m' l hm => ?_⟩
    cases hm
    have hb : s.Backed m len := by rcases hcall with rfl | rfl <;> exact hc m len htarget
    exact hs.writesBack (target_some htarget) hb hput

end MapRun

/-! ## Examples -/

section Examples

open MapRun

attribute [local instance] Build.caseSensitive

/-- Two files of two bytes each. -/
def twoFiles : FS :=
  (FS.initial.grow 0 ['f'] (.file (FileData.empty.write [1, 2] 0)) S_IRWXUGO).grow 0 ['g']
    (.file (FileData.empty.write [3, 4] 0)) S_IRWXUGO

theorem allocated_twoFiles : twoFiles.Allocated := by
  refine FS.Allocated.grow ?_ _ _ _ (allocated_initial.grow ?_ _ _ _ fun _ h => ?_) fun _ h => ?_
  · exact Nat.zero_lt_succ _
  · exact Nat.zero_lt_succ _
  · cases h
  · cases h

def PROT_READ : BitVec 32 := 1

def MAP_SHARED : BitVec 32 := 1

/-- The first file is mapped through descriptor 0. -/
def mapped (len : Nat) : List MapCall :=
  [.file (.open ['f'] O_RDWR 0), .mmap2 len (PROT_READ ||| PROT_WRITE) MAP_SHARED 0 0 65536]

theorem mapping_written_back_stored : ∃ s t m,
    Reaches step InPlace (start twoFiles fun _ => 0) s ∧ s.step (.msync 65536 2) = some t ∧
      s.WritesBack m 2 t ∧ (s.sys.fs.node 2).bytes = [1, 2] ∧ (t.sys.fs.node 2).bytes = [9, 2] := by
  have hrun : (exec step (start twoFiles fun _ => 0) (mapped 2 ++ [.store 65536 9])).map (fun s =>
      (s.target (.msync 65536 2), s.origin 65536, (s.sys.fs.getStream 0).map (·.node),
        s.stored 65536, (s.sys.fs.node 2).bytes)) =
      some (some (⟨65536, 2, 0, 1, 0, 3⟩, 2), 2, some 2, true, [1, 2]) := by decide
  have hback : ((exec step (start twoFiles fun _ => 0) (mapped 2 ++ [.store 65536 9])).bind fun s =>
      (s.step (.msync 65536 2)).map fun t => (t.sys.fs.node 2).bytes) = some [9, 2] := by
    decide
  obtain ⟨s, hs, hobs⟩ := Option.map_eq_some_iff.mp hrun
  rw [hs] at hback
  obtain ⟨t, ht, hafter⟩ := Option.map_eq_some_iff.mp hback
  simp only [Prod.mk.injEq] at hobs
  obtain ⟨htarget, horigin, hstream, hstored, hbefore⟩ := hobs
  have hreach : Reaches step InPlace (start twoFiles fun _ => 0) s := by
    have hflags : Has (PROT_READ ||| PROT_WRITE) PROT_WRITE ∧ ¬ Has MAP_SHARED MAP_PRIVATE := by decide
    exact reaches_of_exec _ hs ⟨trivial, fun _ _ => ⟨hflags, fun _ _ => ⟨trivial, fun _ _ => trivial⟩⟩⟩
  have hplace : s.InPlace (.msync 65536 2) := by
    intro m len hm _
    rw [htarget] at hm
    cases hm
    refine ⟨?_, by decide, ?_, .inl hstored⟩
    · obtain ⟨st, hst, hn⟩ := Option.map_eq_some_iff.mp hstream
      exact ⟨st, hst, hn.trans horigin.symm⟩
    · change 0 + 2 ≤ (s.sys.fs.node (s.origin 65536)).bytes.length
      rw [horigin, hbefore]
      decide
  refine ⟨s, t, ⟨65536, 2, 0, 1, 0, 3⟩, hreach, ht, ?_, hbefore, hafter⟩
  exact (mapping_written_back twoFiles allocated_twoFiles (fun _ => 0) s hreach (.msync 65536 2) 65536 2
    (.inl rfl) hplace t ht).2 _ 2 htarget

/-- The descriptor is closed, and means the other file by the time the mapping is removed. -/
theorem munmap_other_file : ∃ s t, Reaches step Any (start twoFiles fun _ => 0) s ∧
    s.step (.munmap 65536 2) = some t ∧ s.target (.munmap 65536 2) = some (⟨65536, 2, 0, 1, 0, 3⟩, 2) ∧
    s.origin 65536 = 2 ∧ s.stored 65536 = false ∧ (s.sys.fs.node 3).bytes = [3, 4] ∧
    (t.sys.fs.node 3).bytes = [1, 2] := by
  have hrun : (exec step (start twoFiles fun _ => 0)
      (mapped 2 ++ [.file (.close 0), .file (.open ['g'] O_RDWR 0)])).bind (fun s =>
      (s.step (.munmap 65536 2)).map fun t => (s.target (.munmap 65536 2), s.origin 65536,
        s.stored 65536, (s.sys.fs.node 3).bytes, (t.sys.fs.node 3).bytes)) =
      some (some (⟨65536, 2, 0, 1, 0, 3⟩, 2), 2, false, [3, 4], [1, 2]) := by
    decide
  obtain ⟨s, hs, hrest⟩ := Option.bind_eq_some_iff.mp hrun
  obtain ⟨t, ht, hobs⟩ := Option.map_eq_some_iff.mp hrest
  simp only [Prod.mk.injEq] at hobs
  obtain ⟨htarget, horigin, hstored, hbefore, hafter⟩ := hobs
  exact ⟨s, t, reaches_of_exec _ hs (meets_any _), ht, htarget, horigin, hstored, hbefore, hafter⟩

/-- A mapping that is longer than its file makes the file longer. -/
example : ((exec step (start twoFiles fun _ => 0) (mapped 4 ++ [.munmap 65536 4])).map fun s =>
    (s.sys.fs.node 2).bytes) = some [1, 2, 0, 0] := by decide

/-- The bytes that were stored are lost where the descriptor was closed. -/
example : ((exec step (start twoFiles fun _ => 0)
    (mapped 2 ++ [.store 65536 9, .file (.close 0), .munmap 65536 2])).map fun s =>
      (s.sys.fs.node 2).bytes) = some [1, 2] := by decide

end Examples

end JsFs
