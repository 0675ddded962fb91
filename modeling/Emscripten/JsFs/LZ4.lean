-- SUMMARY: Packages of LZ4 chunks: reads decompress into a small cache of reused buffers, and give the bytes that were packed.
import Mathlib.Data.List.Nodup
import Emscripten.Lib.ByteSeq
import Emscripten.Lib.Heap

/-!
# Packages of compressed chunks

The data of all files is one sequence of bytes, packed in chunks. A read decompresses the chunks it touches
into the buffers of a cache, which are parts of the package's own array: a buffer that is taken out at the end
of the list comes back at its front, and a second list says which chunk each holds.
-/

namespace JsFs.LZ4

open ByteSeq Heap

abbrev Bytes := List UInt8

def CHUNK_SIZE : Nat := 2048

/-- The codec, which may fail to make a chunk smaller. What it makes of a chunk it turns back into the chunk, and
it leaves the output behind it as it was. -/
structure Codec where
  compress : Bytes → Option Bytes
  uncompress : Bytes → Bytes → Int × Bytes
  inverts : ∀ chunk compressed output, compress chunk = some compressed → chunk.length ≤ output.length →
    uncompress compressed output = ((chunk.length : Int), chunk ++ output.drop chunk.length)

/-! ## Packages -/

structure CompressedData where
  data : Bytes
  cachedOffset : Nat
  cachedIndexes : List Int
  /-- The buffers, each by its first byte in `data`. -/
  cachedChunks : List Nat
  offsets : List Nat
  sizes : List Nat
  successes : List Bool

/-- The chunks from an offset on. -/
def chunks (data : Bytes) (offset : Nat) : List Bytes :=
  if offset < data.length then readAt offset CHUNK_SIZE data :: chunks data (offset + CHUNK_SIZE) else []
termination_by data.length - offset
decreasing_by
  unfold CHUNK_SIZE
  omega

/-- The offsets of the compressed chunks, and the array with them. -/
def place : List Bytes → Nat → Bytes → List Nat × Bytes
  | [], _, data => ([], data)
  | c :: compressedChunks, offset, data =>
    let (offsets, data) := place compressedChunks (offset + c.length) (put offset c data)
    (offset :: offsets, data)

/-- `compressPackage`. The buffers are set when the package is loaded. -/
def compressPackage (codec : Codec) (data : Bytes) : CompressedData :=
  let compressedChunks := (chunks data 0).map fun chunk => (codec.compress chunk).getD chunk
  let total := (compressedChunks.map List.length).sum
  let (offsets, packed) := place compressedChunks 0 (List.replicate (total + CHUNK_SIZE * 2) 0)
  { data := packed, cachedOffset := total, cachedIndexes := [-1, -1], cachedChunks := [0, 0], offsets
    sizes := compressedChunks.map List.length
    successes := (chunks data 0).map fun chunk => (codec.compress chunk).isSome }

/-- `LZ4.loadPackage`, without the nodes of the files. There is no result where an assertion fails. -/
def loadPackage (compressedData : CompressedData) : Option CompressedData :=
  let n := compressedData.cachedIndexes.length
  if n = compressedData.cachedChunks.length ∧
      ∀ i < n, compressedData.cachedOffset + (i + 1) * CHUNK_SIZE ≤ compressedData.data.length then
    some { compressedData with
      cachedIndexes := List.replicate n (-1)
      cachedChunks := (List.range n).map fun i => compressedData.cachedOffset + i * CHUNK_SIZE }
  else none

/-! ## Reads -/

/-- The chunk that a turn of the loop reads from. -/
def currChunk (codec : Codec) (compressedData : CompressedData) (chunkIndex : Nat) :
    Option (CompressedData × Bytes) :=
  let compressedStart := compressedData.offsets[chunkIndex]?.getD 0
  let compressedSize := compressedData.sizes[chunkIndex]?.getD 0
  if compressedData.successes[chunkIndex]?.getD false then
    match compressedData.cachedIndexes.findIdx? (· = (chunkIndex : Int)) with
    | some found =>
      (compressedData.cachedChunks[found]?).map fun currChunk =>
        (compressedData, readAt currChunk CHUNK_SIZE compressedData.data)
    | none =>
      match compressedData.cachedChunks.getLast? with
      | none => none
      | some currChunk =>
        let compressed := readAt compressedStart compressedSize compressedData.data
        let (originalSize, output) := codec.uncompress compressed (readAt currChunk CHUNK_SIZE compressedData.data)
        let data := put currChunk output compressedData.data
        if chunkIndex < compressedData.successes.length - 1 ∧ originalSize ≠ CHUNK_SIZE then none
        else some ({ compressedData with
            data
            cachedIndexes := chunkIndex :: compressedData.cachedIndexes.dropLast
            cachedChunks := currChunk :: compressedData.cachedChunks.dropLast },
          readAt currChunk CHUNK_SIZE data)
  else some (compressedData, readAt compressedStart CHUNK_SIZE compressedData.data)

/-- The loop of `read`, with the place of the read's first byte in the uncompressed data: the package, `written`
and the caller's buffer. -/
def readLoop (codec : Codec) (first length offset : Nat) (compressedData : CompressedData) (written : Nat)
    (buffer : Bytes) : Option (CompressedData × Nat × Bytes) :=
  if written < length then
    let start := first + written
    let desired := length - written
    match currChunk codec compressedData (start / CHUNK_SIZE) with
    | none => none
    | some (compressedData, currChunk) =>
      let startInChunk := start % CHUNK_SIZE
      let endInChunk := min (startInChunk + desired) CHUNK_SIZE
      let buffer := put (offset + written) (readAt startInChunk (endInChunk - startInChunk) currChunk) buffer
      readLoop codec first length offset compressedData (written + (endInChunk - startInChunk)) buffer
  else some (compressedData, written, buffer)
termination_by length - written
decreasing_by
  unfold CHUNK_SIZE
  omega

/-- A file of the package, in the data that was packed. -/
structure File (data : Bytes) where
  start : Nat
  stop : Nat
  ordered : start ≤ stop
  inside : stop ≤ data.length

namespace File

variable {data : Bytes} (file : File data)

/-- `node.size`. -/
def size : Nat := file.stop - file.start

/-- The slice of the data that is the file. -/
def bytes : Bytes := readAt file.start file.size data

end File

/-- A read of some file into a buffer, at an offset where it has room. -/
structure Read (data : Bytes) where
  file : File data
  buffer : Bytes
  offset : Nat
  length : Nat
  position : Nat

variable {data : Bytes}

/-- `LZ4.stream_ops.read`. -/
def read (codec : Codec) (compressedData : CompressedData) (r : Read data) :
    Option (CompressedData × Nat × Bytes) :=
  let length := min (r.length : Int) (r.file.size - r.position)
  if length ≤ 0 then some (compressedData, 0, r.buffer)
  else readLoop codec (r.file.start + r.position) length.toNat r.offset compressedData 0 r.buffer

/-- Reads one after another, of any files. -/
def reads (codec : Codec) : CompressedData → List (Read data) → Option (CompressedData × List (Nat × Bytes))
  | compressedData, [] => some (compressedData, [])
  | compressedData, r :: rs =>
    match read codec compressedData r with
    | none => none
    | some (compressedData, result) => (reads codec compressedData rs).map fun (cd, results) => (cd, result :: results)

/-- What a read should return, and leave in the buffer. -/
def Read.expected (r : Read data) : Nat × Bytes :=
  let bytes := readAt r.position r.length r.file.bytes
  (bytes.length, put r.offset bytes r.buffer)

/-! ## The invariant -/

/-- A chunk of the data. -/
def chunk (data : Bytes) (k : Nat) : Bytes := readAt (k * CHUNK_SIZE) CHUNK_SIZE data

/-- The chunk is in the package, in front of the cache: compressed or as it is. -/
def Stored (codec : Codec) (data : Bytes) (cd : CompressedData) (k : Nat) : Prop :=
  ∃ success offset bytes, cd.successes[k]? = some success ∧ cd.offsets[k]? = some offset ∧
    cd.sizes[k]? = some bytes.length ∧ offset + bytes.length ≤ cd.cachedOffset ∧
    readAt offset bytes.length cd.data = bytes ∧
    if success then codec.compress (chunk data k) = some bytes else bytes = chunk data k

/-- A package of the data. -/
structure Packs (codec : Codec) (data : Bytes) (cd : CompressedData) : Prop where
  stored : ∀ k, k * CHUNK_SIZE < data.length → Stored codec data cd k
  count : ∀ k, k < cd.successes.length → k * CHUNK_SIZE < data.length
  caches : 0 < cd.cachedIndexes.length

/-- A loaded package, whose buffers hold the chunks that are recorded for them. -/
structure CacheHolds (codec : Codec) (data : Bytes) (cd : CompressedData) : Prop extends Packs codec data cd where
  lengths : cd.cachedIndexes.length = cd.cachedChunks.length
  apart : cd.cachedChunks.Nodup
  views : ∀ v ∈ cd.cachedChunks, ∃ i, v = cd.cachedOffset + i * CHUNK_SIZE ∧ v + CHUNK_SIZE ≤ cd.data.length
  holds : ∀ (i k v : Nat), cd.cachedIndexes[i]? = some (k : Int) → cd.cachedChunks[i]? = some v →
    readAt v (chunk data k).length cd.data = chunk data k

variable {codec : Codec} {cd : CompressedData}

/-! ## Parts of the array -/

theorem getElem?_readAt {α : Type} (off n : Nat) (l : List α) (i : Nat) :
    (readAt off n l)[i]? = if i < n then l[off + i]? else none := by
  unfold readAt
  rw [List.getElem?_take, List.getElem?_drop]

/-- A part that a store does not touch. -/
theorem readAt_put_of_apart {off n start : Nat} {bs l : Bytes} (h : off + n ≤ start ∨ start + bs.length ≤ off) :
    readAt off n (put start bs l) = readAt off n l := by
  apply List.ext_getElem?
  intro i
  rw [getElem?_readAt, getElem?_readAt]
  split
  · rw [getElem?_put, if_neg (by omega)]
  · rfl

/-- The part that was stored. -/
theorem readAt_put_self {start n : Nat} {bs l : Bytes} (hfits : start + bs.length ≤ l.length) (hn : n ≤ bs.length) :
    readAt start n (put start bs l) = bs.take n := by
  apply List.ext_getElem?
  intro i
  rw [getElem?_readAt, List.getElem?_take]
  split
  · rw [getElem?_put, if_pos (by omega), Nat.add_sub_cancel_left]
  · rfl

theorem readAt_readAt {off n start m : Nat} {l : Bytes} (h : start + m ≤ n) :
    readAt start m (readAt off n l) = readAt (off + start) m l := by
  apply List.ext_getElem?
  intro i
  rw [getElem?_readAt, getElem?_readAt, getElem?_readAt]
  split
  · rw [if_pos (by omega), Nat.add_assoc]
  · rfl

theorem length_chunk (data : Bytes) (k : Nat) :
    (chunk data k).length = min CHUNK_SIZE (data.length - k * CHUNK_SIZE) := length_readAt ..

theorem length_chunk_le (data : Bytes) (k : Nat) : (chunk data k).length ≤ CHUNK_SIZE := by
  rw [length_chunk]
  exact Nat.min_le_left ..

/-! ## One chunk -/

/-- Changes behind the packed chunks leave the package what it is. -/
theorem Packs.of_same (h : Packs codec data cd) {cd' : CompressedData} (hoffset : cd'.cachedOffset = cd.cachedOffset)
    (hoffsets : cd'.offsets = cd.offsets) (hsizes : cd'.sizes = cd.sizes) (hsuccesses : cd'.successes = cd.successes)
    (hcaches : 0 < cd'.cachedIndexes.length)
    (hdata : ∀ off n, off + n ≤ cd.cachedOffset → readAt off n cd'.data = readAt off n cd.data) :
    Packs codec data cd' := by
  constructor
  · intro k hk
    obtain ⟨success, offset, bytes, hsuccess, hoff, hsize, hin, hread, hbytes⟩ := h.stored k hk
    exact ⟨success, offset, bytes, hsuccesses ▸ hsuccess, hoffsets ▸ hoff, hsizes ▸ hsize, hoffset ▸ hin,
      (hdata _ _ hin).trans hread, hbytes⟩
  · rw [hsuccesses]
    exact h.count
  · exact hcaches

/-- Different buffers do not meet. -/
theorem CacheHolds.views_apart (h : CacheHolds codec data cd) {v w : Nat} (hv : v ∈ cd.cachedChunks)
    (hw : w ∈ cd.cachedChunks) (hne : v ≠ w) : v + CHUNK_SIZE ≤ w ∨ w + CHUNK_SIZE ≤ v := by
  obtain ⟨i, hi, -⟩ := h.views v hv
  obtain ⟨j, hj, -⟩ := h.views w hw
  unfold CHUNK_SIZE at *
  omega

/-- The last buffer is used again for a chunk, and comes to the front. -/
theorem CacheHolds.replaced (h : CacheHolds codec data cd) {k v : Nat} {ys : List Nat}
    (hlast : cd.cachedChunks = ys ++ [v]) {output : Bytes} (hlength : output.length = CHUNK_SIZE)
    (houtput : output.take (chunk data k).length = chunk data k) :
    CacheHolds codec data { cd with
      data := put v output cd.data
      cachedIndexes := (k : Int) :: cd.cachedIndexes.dropLast
      cachedChunks := v :: cd.cachedChunks.dropLast } := by
  have hv : v ∈ cd.cachedChunks := hlast ▸ List.mem_append_right _ (List.mem_singleton_self v)
  obtain ⟨i, hi, hroom⟩ := h.views v hv
  have hys : cd.cachedChunks.dropLast = ys := by rw [hlast, List.dropLast_concat]
  have happart := h.apart
  rw [hlast, List.nodup_append] at happart
  have hin : ∀ {w}, w ∈ ys → w ∈ cd.cachedChunks := fun hw => hlast ▸ List.mem_append_left _ hw
  have hne : ∀ {w}, w ∈ ys → v ≠ w := fun hw => (happart.2.2 _ hw v (List.mem_singleton_self v)).symm
  constructor
  · refine Packs.of_same h.toPacks rfl rfl rfl rfl ?_ fun off n hoff => ?_
    · exact Nat.succ_pos _
    · apply readAt_put_of_apart
      omega
  · have hlengths := h.lengths
    have hcaches := h.caches
    simp only [List.length_cons, List.length_dropLast]
    omega
  · rw [hys, List.nodup_cons]
    exact ⟨fun hw => hne hw rfl, happart.1⟩
  · intro w hw
    rw [hys] at hw
    dsimp only
    rw [length_put]
    cases List.mem_cons.mp hw with
    | inl heq => exact heq ▸ ⟨i, hi, hroom⟩
    | inr hold => exact h.views w (hin hold)
  · intro j k' w hk' hw
    dsimp only at hk' hw ⊢
    rw [hys] at hw
    cases j with
    | zero =>
      obtain rfl : k = k' := Int.ofNat.inj (Option.some.inj hk')
      obtain rfl : v = w := Option.some.inj hw
      have hle := length_chunk_le data k
      rw [readAt_put_self (by omega) (by omega), houtput]
    | succ j =>
      -- the other buffers keep their chunks
      rw [List.getElem?_cons_succ] at hk' hw
      have hmem := List.mem_of_getElem? hw
      have hw' : cd.cachedChunks[j]? = some w := by
        rw [hlast, List.getElem?_append_left (List.getElem?_eq_some_iff.mp hw).1, hw]
      rw [List.getElem?_dropLast] at hk'
      split at hk'
      · have hle := length_chunk_le data k'
        rw [readAt_put_of_apart, h.holds j k' w hk' hw']
        cases h.views_apart hv (hin hmem) (hne hmem) with
        | inl hafter => exact .inr (hlength.symm ▸ hafter)
        | inr hbefore => exact .inl (by omega)
      · cases hk'

/-- The chunk of the data, whether it is found in the cache, decompressed into it, or stored as it is. -/
theorem currChunk_spec (h : CacheHolds codec data cd) {k : Nat} (hk : k * CHUNK_SIZE < data.length) :
    ∃ cd' bytes, currChunk codec cd k = some (cd', bytes) ∧ CacheHolds codec data cd' ∧
      readAt 0 (chunk data k).length bytes = chunk data k := by
  obtain ⟨success, offset, bytes, hsuccess, hoffset, hsize, hin, hread, hbytes⟩ := h.stored k hk
  have hle := length_chunk_le data k
  unfold currChunk
  rw [hsuccess, hoffset, hsize]
  dsimp only [Option.getD_some]
  cases success with
  | false =>
    rw [if_neg Bool.false_ne_true] at hbytes ⊢
    refine ⟨_, _, rfl, h, ?_⟩
    rw [readAt_readAt (by omega), Nat.add_zero, ← hbytes, hread]
  | true =>
    rw [if_pos rfl] at hbytes ⊢
    cases hfound : cd.cachedIndexes.findIdx? (· = (k : Int)) with
    | some i =>
      obtain ⟨hlt, hat, -⟩ := List.findIdx?_eq_some_iff_getElem.mp hfound
      have hindex : cd.cachedIndexes[i]? = some (k : Int) := by
        rw [List.getElem?_eq_getElem hlt, of_decide_eq_true hat]
      have hview := List.getElem?_eq_getElem (h.lengths ▸ hlt)
      refine ⟨cd, _, by dsimp only; rw [hview]; rfl, h, ?_⟩
      rw [readAt_readAt (by omega), Nat.add_zero]
      exact h.holds i k _ hindex hview
    | none =>
      have hpos : cd.cachedChunks ≠ [] := List.ne_nil_of_length_pos (h.lengths ▸ h.caches)
      obtain ⟨v, hv⟩ := Option.isSome_iff_exists.mp (List.getLast?_isSome.mpr hpos)
      obtain ⟨ys, hys⟩ := List.getLast?_eq_some_iff.mp hv
      obtain ⟨-, -, hroom⟩ := h.views v (hys ▸ List.mem_append_right _ (List.mem_singleton_self v))
      have hview : (readAt v CHUNK_SIZE cd.data).length = CHUNK_SIZE := by
        rw [length_readAt]
        omega
      have hcodec := codec.inverts (chunk data k) bytes (readAt v CHUNK_SIZE cd.data) hbytes (hview.symm ▸ hle)
      have hlength : (chunk data k ++ (readAt v CHUNK_SIZE cd.data).drop (chunk data k).length).length =
          CHUNK_SIZE := by
        rw [List.length_append, List.length_drop, hview]
        omega
      have hfull : ¬ (k < cd.successes.length - 1 ∧ ((chunk data k).length : Int) ≠ CHUNK_SIZE) := by
        rintro ⟨hmore, hshort⟩
        have hnext := h.count (k + 1) (by omega)
        rw [length_chunk] at hshort
        unfold CHUNK_SIZE at *
        omega
      simp only [hv, hread, hcodec, if_neg hfull]
      refine ⟨_, _, rfl, h.replaced hys hlength List.take_left, ?_⟩
      rw [readAt_readAt (by omega), Nat.add_zero, readAt_put_self (by omega) (by omega), List.take_left]

/-! ## Whole reads -/

/-- The bytes of a chunk are bytes of the data. -/
theorem readAt_chunk {bytes : Bytes} {k start n : Nat} (hbytes : readAt 0 (chunk data k).length bytes = chunk data k)
    (hn : start + n ≤ (chunk data k).length) : readAt start n bytes = readAt (k * CHUNK_SIZE + start) n data := by
  have hle := length_chunk_le data k
  have hpart : readAt start n (readAt 0 (chunk data k).length bytes) = readAt start n bytes := by
    rw [readAt_readAt hn, Nat.zero_add]
  rw [← hpart, hbytes]
  exact readAt_readAt (Nat.le_trans hn hle)

/-- The loop puts the bytes that are left into the buffer. -/
theorem readLoop_spec {cd : CompressedData} {first length offset : Nat} (hin : first + length ≤ data.length)
    (written : Nat) (hwritten : written ≤ length) (h : CacheHolds codec data cd) (buffer : Bytes) :
    ∃ cd', readLoop codec first length offset cd written buffer = some (cd', length,
      put (offset + written) (readAt (first + written) (length - written) data) buffer) ∧
        CacheHolds codec data cd' := by
  unfold readLoop
  split
  · next hlt =>
      have hsplit : (first + written) / CHUNK_SIZE * CHUNK_SIZE + (first + written) % CHUNK_SIZE = first + written :=
        Nat.div_add_mod' _ _
      have hmod : (first + written) % CHUNK_SIZE < CHUNK_SIZE := Nat.mod_lt _ (by decide)
      obtain ⟨cd', bytes, hcurr, h', hbytes⟩ :=
        currChunk_spec (k := (first + written) / CHUNK_SIZE) h (by omega)
      have hlength := length_chunk data ((first + written) / CHUNK_SIZE)
      -- the part of the chunk that the read wants
      generalize hn : min ((first + written) % CHUNK_SIZE + (length - written)) CHUNK_SIZE -
        (first + written) % CHUNK_SIZE = n
      have hpart : readAt ((first + written) % CHUNK_SIZE) n bytes = readAt ((first + written) / CHUNK_SIZE * CHUNK_SIZE +
          (first + written) % CHUNK_SIZE) n data := readAt_chunk hbytes (by omega)
      have hpos : written < written + n := by omega
      have hle : written + n ≤ length := by omega
      obtain ⟨cd'', hrest, h''⟩ := readLoop_spec hin (written + n) hle h'
        (put (offset + written) (readAt ((first + written) % CHUNK_SIZE) n bytes) buffer)
      refine ⟨cd'', ?_, h''⟩
      have hcount : (readAt (first + written) n data).length = n := by
        rw [length_readAt]
        omega
      have hleft : length - written = n + (length - (written + n)) := by omega
      simp only [hcurr, hn]
      rw [hrest, hpart, hsplit, hleft, readAt_add, put_append, hcount, Nat.add_assoc, Nat.add_assoc]
  · next hdone =>
      have hnone : length - written = 0 := Nat.sub_eq_zero_of_le (Nat.le_of_not_lt hdone)
      have hall : written = length := Nat.le_antisymm hwritten (Nat.le_of_not_lt hdone)
      refine ⟨cd, ?_, h⟩
      rw [hnone, hall]
      rfl
termination_by length - written

/-- The bytes that a read should return. -/
theorem expected_bytes (r : Read data) : readAt r.position r.length r.file.bytes =
    readAt (r.file.start + r.position) (min r.length (r.file.size - r.position)) data := by
  unfold File.bytes
  apply List.ext_getElem?
  intro i
  rw [getElem?_readAt, getElem?_readAt, getElem?_readAt, Nat.add_assoc]
  by_cases hi : i < min r.length (r.file.size - r.position)
  · rw [if_pos (by omega), if_pos (by omega), if_pos hi]
  · rw [if_neg hi]
    split
    · rw [if_neg (by omega)]
    · rfl

theorem read_spec (h : CacheHolds codec data cd) (r : Read data) :
    ∃ cd', read codec cd r = some (cd', r.expected) ∧ CacheHolds codec data cd' := by
  have hsize : r.file.start + r.file.size ≤ data.length := by
    have hordered := r.file.ordered
    have hinside := r.file.inside
    unfold File.size
    omega
  have hexpected : r.expected = ((readAt (r.file.start + r.position) (min r.length (r.file.size - r.position)) data).length,
      put r.offset (readAt (r.file.start + r.position) (min r.length (r.file.size - r.position)) data) r.buffer) := by
    unfold Read.expected
    rw [expected_bytes]
  unfold read
  dsimp only
  split
  · next hnothing =>
      have hzero : min r.length (r.file.size - r.position) = 0 := by omega
      refine ⟨cd, ?_, h⟩
      rw [hexpected, hzero]
      rfl
  · next hsome =>
      have hlength : (min (r.length : Int) (r.file.size - r.position)).toNat =
          min r.length (r.file.size - r.position) := by omega
      have hin : r.file.start + r.position + min r.length (r.file.size - r.position) ≤ data.length := by omega
      obtain ⟨cd', hloop, h'⟩ := @readLoop_spec data codec cd _ _ r.offset hin 0 (Nat.zero_le _) h r.buffer
      refine ⟨cd', ?_, h'⟩
      have hcount : (readAt (r.file.start + r.position) (min r.length (r.file.size - r.position)) data).length =
          min r.length (r.file.size - r.position) := by
        rw [length_readAt]
        omega
      rw [hlength, hloop, hexpected, hcount]
      rfl

theorem reads_spec (h : CacheHolds codec data cd) (rs : List (Read data)) :
    ∃ cd', reads codec cd rs = some (cd', rs.map Read.expected) ∧ CacheHolds codec data cd' := by
  induction rs generalizing cd with
  | nil => exact ⟨cd, rfl, h⟩
  | cons r rs ih =>
    obtain ⟨cd', hread, h'⟩ := read_spec h r
    obtain ⟨cd'', hreads, h''⟩ := ih h'
    refine ⟨cd'', ?_, h''⟩
    unfold reads
    simp only [hread, hreads]
    rfl

/-! ## Loading -/

/-- The buffers of a package that has just been loaded hold nothing. -/
theorem cacheHolds_of_load (h : Packs codec data cd) {loaded : CompressedData} (hload : loadPackage cd = some loaded) :
    CacheHolds codec data loaded := by
  unfold loadPackage at hload
  dsimp only at hload
  split at hload
  · next haccepted =>
      cases hload
      have hpacks : Packs codec data { cd with
          cachedIndexes := List.replicate cd.cachedIndexes.length (-1)
          cachedChunks := (List.range cd.cachedIndexes.length).map fun i => cd.cachedOffset + i * CHUNK_SIZE } := by
        refine Packs.of_same h rfl rfl rfl rfl ?_ fun off n hoff => rfl
        simpa using h.caches
      refine ⟨hpacks, by simp, ?_, fun v hv => ?_, fun i k v hk hv => ?_⟩
      · apply List.Nodup.map _ List.nodup_range
        intro i j hij
        simp only [CHUNK_SIZE] at hij
        omega
      · obtain ⟨i, hi, rfl⟩ := List.mem_map.mp hv
        have hroom := haccepted.2 i (List.mem_range.mp hi)
        rw [Nat.add_mul, Nat.one_mul] at hroom
        exact ⟨i, rfl, by dsimp only; omega⟩
      · obtain ⟨-, hnone⟩ := List.mem_replicate.mp (List.mem_of_getElem? hk)
        omega
  · cases hload

/-! ## Packing -/

theorem getElem?_chunks (data : Bytes) (offset k : Nat) : (chunks data offset)[k]? =
    if offset + k * CHUNK_SIZE < data.length then some (readAt (offset + k * CHUNK_SIZE) CHUNK_SIZE data) else none := by
  unfold chunks
  split
  · next hlt =>
      cases k with
      | zero => rw [Nat.zero_mul, Nat.add_zero, if_pos hlt, List.getElem?_cons_zero]
      | succ k =>
        have hnext : offset + (k + 1) * CHUNK_SIZE = offset + CHUNK_SIZE + k * CHUNK_SIZE := by
          rw [Nat.add_mul, Nat.one_mul, Nat.add_assoc, Nat.add_comm CHUNK_SIZE]
        rw [List.getElem?_cons_succ, getElem?_chunks, hnext]
  · next hge =>
      rw [if_neg (by omega)]
      rfl
termination_by data.length - offset
decreasing_by
  unfold CHUNK_SIZE
  omega

theorem length_place (cs : List Bytes) (offset : Nat) (packed : Bytes) :
    (place cs offset packed).2.length = packed.length := by
  induction cs generalizing offset packed with
  | nil => rfl
  | cons c cs ih => exact (ih _ _).trans length_put

/-- What is in front of the chunks stays. -/
theorem readAt_place (cs : List Bytes) {offset off n : Nat} (packed : Bytes) (h : off + n ≤ offset) :
    readAt off n (place cs offset packed).2 = readAt off n packed := by
  induction cs generalizing offset packed with
  | nil => rfl
  | cons c cs ih =>
    have hnext : readAt off n (place cs (offset + c.length) (put offset c packed)).2 =
        readAt off n (put offset c packed) := ih _ (by omega)
    exact hnext.trans (readAt_put_of_apart (.inl h))

/-- Every chunk is at its offset. -/
theorem place_spec (cs : List Bytes) (offset : Nat) (packed : Bytes)
    (hfits : offset + (cs.map List.length).sum ≤ packed.length) {k : Nat} {c : Bytes} (hk : cs[k]? = some c) :
    ∃ off, (place cs offset packed).1[k]? = some off ∧ off + c.length ≤ offset + (cs.map List.length).sum ∧
      readAt off c.length (place cs offset packed).2 = c := by
  induction cs generalizing offset packed k with
  | nil => cases hk
  | cons d cs ih =>
    rw [List.map_cons, List.sum_cons] at hfits ⊢
    cases k with
    | zero =>
      cases hk
      refine ⟨offset, rfl, by omega, ?_⟩
      have hplaced : readAt offset c.length (place cs (offset + c.length) (put offset c packed)).2 =
          readAt offset c.length (put offset c packed) := readAt_place cs _ (Nat.le_refl _)
      exact hplaced.trans ((readAt_put_self (by omega) (Nat.le_refl _)).trans (List.take_length ..))
    | succ k =>
      obtain ⟨off, hoff, hin, hread⟩ := ih (offset + d.length) (put offset d packed)
        (by rw [length_put]; omega) hk
      exact ⟨off, hoff, by omega, hread⟩

/-- What `compressPackage` makes is a package of the data, and is accepted. -/
theorem packs_compressPackage (codec : Codec) (data : Bytes) :
    Packs codec data (compressPackage codec data) ∧ (loadPackage (compressPackage codec data)).isSome := by
  generalize hcs : (chunks data 0).map (fun chunk => (codec.compress chunk).getD chunk) = cs
  have hpackage : compressPackage codec data =
      { data := (place cs 0 (List.replicate ((cs.map List.length).sum + CHUNK_SIZE * 2) 0)).2
        cachedOffset := (cs.map List.length).sum, cachedIndexes := [-1, -1], cachedChunks := [0, 0]
        offsets := (place cs 0 (List.replicate ((cs.map List.length).sum + CHUNK_SIZE * 2) 0)).1
        sizes := cs.map List.length
        successes := (chunks data 0).map fun chunk => (codec.compress chunk).isSome } := by
    unfold compressPackage
    rw [hcs]
  have hchunks : ∀ k, (chunks data 0)[k]? = if k * CHUNK_SIZE < data.length then some (chunk data k) else none := by
    intro k
    rw [getElem?_chunks, Nat.zero_add]
    rfl
  rw [hpackage]
  refine ⟨⟨fun k hk => ?_, fun k hk => ?_, Nat.succ_pos 1⟩, ?_⟩
  · have hchunk : (chunks data 0)[k]? = some (chunk data k) := (hchunks k).trans (if_pos hk)
    have hc : cs[k]? = some ((codec.compress (chunk data k)).getD (chunk data k)) := by
      rw [← hcs, List.getElem?_map, hchunk]
      rfl
    obtain ⟨off, hoff, hin, hread⟩ := place_spec cs 0
      (List.replicate ((cs.map List.length).sum + CHUNK_SIZE * 2) 0) (by rw [List.length_replicate]; omega) hc
    rw [Nat.zero_add] at hin
    refine ⟨(codec.compress (chunk data k)).isSome, off, _, ?_, hoff, ?_, hin, hread, ?_⟩
    · rw [List.getElem?_map, hchunk]
      rfl
    · rw [List.getElem?_map, hc]
      rfl
    · cases codec.compress (chunk data k) with
      | none => rfl
      | some compressed => rfl
  · dsimp only at hk
    rw [List.length_map] at hk
    have hsome := List.getElem?_eq_getElem hk
    rw [hchunks] at hsome
    split at hsome
    · next hlt => exact hlt
    · cases hsome
  · unfold loadPackage
    dsimp only
    rw [if_pos]
    · rfl
    · refine ⟨rfl, fun i hi => ?_⟩
      rw [length_place, List.length_replicate]
      have hi : i < 2 := hi
      unfold CHUNK_SIZE
      omega

/-- A codec that makes no chunk smaller, as it is for chunks of a few bytes. -/
def storing : Codec := ⟨fun _ => none, fun _ output => (0, output), fun _ _ _ h => nomatch h⟩

end JsFs.LZ4
