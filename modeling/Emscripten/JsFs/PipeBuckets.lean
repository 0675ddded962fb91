-- SUMMARY: Pipes of the JS file system: a list of buckets that is split on a write and consumed on a read, and the queue that it implements.
import Emscripten.Lib.ByteSeq
import Mathlib.Data.List.TakeDrop

/-!
# Pipes

The data of a pipe lies in buckets of one size. A write fills the last bucket and puts the rest into new
ones; a read takes from the first buckets and drops those it has emptied, except the last of all, which
is used again.
-/

namespace Pipefs

open ByteSeq

/-! ## Buckets -/

def BUCKET_BUFFER_SIZE : Nat := 1024 * 8

structure Bucket where
  buffer : List UInt8
  offset : Nat
  roffset : Nat
deriving DecidableEq, Repr

/-- `new Uint8Array(PIPEFS.BUCKET_BUFFER_SIZE)`, with nothing in it. -/
def Bucket.new : Bucket := ⟨List.replicate BUCKET_BUFFER_SIZE 0, 0, 0⟩

/-- `bucket.buffer.subarray(bucket.roffset, bucket.offset)`. -/
def Bucket.data (b : Bucket) : List UInt8 := (b.buffer.take b.offset).drop b.roffset

/-- `bucket.buffer.set(bytes, bucket.offset)`, and the offset behind it. -/
def Bucket.append (b : Bucket) (bytes : List UInt8) : Bucket :=
  { b with buffer := splice b.offset bytes b.buffer, offset := b.offset + bytes.length }

structure Pipe where
  buckets : List Bucket
deriving DecidableEq, Repr

def createPipe : Pipe := ⟨[.new]⟩

/-- What an operation answers. -/
inductive Result
  | wrote (bytesWritten : Nat)
  | read (bytes : List UInt8) (bytesRead : Nat)
  | EAGAIN
deriving DecidableEq, Repr

/-! ## Reading -/

/-- The sum over the buckets at the start of a read. -/
def currentLength (buckets : List Bucket) : Nat := (buckets.map fun b => b.offset - b.roffset).sum

/-- The loop over the buckets: the bytes that are copied, how many buckets are to be removed, and the buckets. -/
def readBuckets : Nat → List Bucket → List UInt8 × Nat × List Bucket
  | _, [] => ([], 0, [])
  | toRead, b :: bs =>
    let bucketSize := b.offset - b.roffset
    if toRead ≤ bucketSize then
      if toRead < bucketSize then (b.data.take toRead, 0, { b with roffset := b.roffset + toRead } :: bs)
      else (b.data, 1, b :: bs)
    else
      let (bytes, toRemove, bs) := readBuckets (toRead - b.data.length) bs
      (b.data ++ bytes, toRemove + 1, b :: bs)

/-- `pipe.buckets.splice(0, toRemove)`. Where nothing would be left, the last bucket is emptied and kept. -/
def removeBuckets (toRemove : Nat) (buckets : List Bucket) : List Bucket :=
  if toRemove ≠ 0 ∧ toRemove = buckets.length then
    (buckets.modify (toRemove - 1) fun b => { b with offset := 0, roffset := 0 }).drop (toRemove - 1)
  else buckets.drop toRemove

def read (length : Int) (p : Pipe) : Pipe × Result :=
  if length ≤ 0 then (p, .read [] 0)
  else if currentLength p.buckets = 0 then (p, .EAGAIN)
  else
    let toRead := min (currentLength p.buckets) length.toNat
    let (bytes, toRemove, buckets) := readBuckets toRead p.buckets
    (⟨removeBuckets toRemove buckets⟩, .read bytes toRead)

/-! ## Writing -/

/-- The loop that makes full buckets, and the data that is left. -/
def fullBuckets : Nat → List UInt8 → List Bucket × List UInt8
  | 0, data => ([], data)
  | n + 1, data =>
    let (bs, rest) := fullBuckets n (data.drop BUCKET_BUFFER_SIZE)
    ({ Bucket.new with
        buffer := splice 0 (data.take BUCKET_BUFFER_SIZE) Bucket.new.buffer
        offset := BUCKET_BUFFER_SIZE } :: bs, rest)

/-- The new buckets for what does not fit into the last one. No array is so long that `| 0` cuts the number
of its buckets. -/
def newBuckets (data : List UInt8) : List Bucket :=
  let numBuckets := data.length / BUCKET_BUFFER_SIZE
  let remElements := data.length % BUCKET_BUFFER_SIZE
  let (bs, data) := fullBuckets numBuckets data
  if remElements > 0 then
    bs ++ [{ Bucket.new with buffer := splice 0 data Bucket.new.buffer, offset := data.length }]
  else bs

def write (data : List UInt8) (p : Pipe) : Pipe × Result :=
  if data.length = 0 then (p, .wrote 0)
  else
    let (others, currBucket) := match p.buckets.getLast? with
      | none => ([], Bucket.new)
      | some b => (p.buckets.dropLast, b)
    let freeBytesInCurrBuffer := BUCKET_BUFFER_SIZE - currBucket.offset
    if data.length ≤ freeBytesInCurrBuffer then (⟨others ++ [currBucket.append data]⟩, .wrote data.length)
    else if freeBytesInCurrBuffer > 0 then
      (⟨others ++ currBucket.append (data.take freeBytesInCurrBuffer) ::
        newBuckets (data.drop freeBytesInCurrBuffer)⟩, .wrote data.length)
    else (⟨others ++ currBucket :: newBuckets data⟩, .wrote data.length)

inductive Op
  | read (length : Int)
  | write (data : List UInt8)
deriving DecidableEq, Repr

def Op.apply : Op → Pipe → Pipe × Result
  | .read length => Pipefs.read length
  | .write data => Pipefs.write data

def run : Pipe → List Op → Pipe × List Result
  | p, [] => (p, [])
  | p, op :: ops =>
    let (p, r) := op.apply p
    let (p, rs) := run p ops
    (p, r :: rs)

/-! ## The queue -/

namespace Queue

/-- The queue that a pipe is to be: a list of bytes. -/
def apply (l : List UInt8) : Op → List UInt8 × Result
  | .read length =>
    if length ≤ 0 then (l, .read [] 0)
    else if l = [] then (l, .EAGAIN)
    else (l.drop length.toNat, .read (l.take length.toNat) (min l.length length.toNat))
  | .write data => (l ++ data, .wrote data.length)

def run : List UInt8 → List Op → List UInt8 × List Result
  | l, [] => (l, [])
  | l, op :: ops =>
    let (l, r) := apply l op
    let (l, rs) := run l ops
    (l, r :: rs)

end Queue

/-- The bytes that some operations write. -/
def written : List Op → List UInt8
  | [] => []
  | .read _ :: ops => written ops
  | .write data :: ops => data ++ written ops

/-- The bytes that some answers deliver. -/
def delivered : List Result → List UInt8
  | [] => []
  | .read bytes _ :: rs => bytes ++ delivered rs
  | _ :: rs => delivered rs

/-! ## What the buckets hold -/

/-- The bytes that are still to be read. -/
def contents (buckets : List Bucket) : List UInt8 := buckets.flatMap Bucket.data

structure Bucket.Ok (b : Bucket) : Prop where
  length : b.buffer.length = BUCKET_BUFFER_SIZE
  start : b.roffset ≤ b.offset
  stop : b.offset ≤ BUCKET_BUFFER_SIZE

/-- There is a bucket, and only the last one may not be filled to its end. -/
structure Valid (buckets : List Bucket) : Prop where
  nonempty : buckets ≠ []
  ok : ∀ b ∈ buckets, b.Ok
  filled : ∀ b ∈ buckets.dropLast, b.offset = BUCKET_BUFFER_SIZE

variable {b : Bucket} {bs : List Bucket}

theorem Bucket.Ok.length_data (h : b.Ok) : b.data.length = b.offset - b.roffset := by
  simp [Bucket.data, h.length, Nat.min_eq_left h.stop]

theorem Bucket.Ok.new : Bucket.new.Ok := ⟨by simp [Bucket.new], Nat.le_refl _, Nat.zero_le _⟩

@[simp] theorem Bucket.data_new : Bucket.new.data = [] := by
  simp [Bucket.data, Bucket.new]

@[simp] theorem contents_nil : contents [] = [] := rfl

@[simp] theorem contents_cons : contents (b :: bs) = b.data ++ contents bs := rfl

@[simp] theorem contents_append (as : List Bucket) : contents (as ++ bs) = contents as ++ contents bs := by
  simp [contents]

theorem length_contents (h : ∀ b ∈ bs, b.Ok) : (contents bs).length = currentLength bs := by
  induction bs with
  | nil => rfl
  | cons b bs ih =>
    have hb : b.data.length = b.offset - b.roffset := (h b List.mem_cons_self).length_data
    have hrest : (contents bs).length = currentLength bs := ih fun c hc => h c (List.mem_cons_of_mem _ hc)
    simp only [contents_cons, List.length_append, hb, hrest]
    rfl

/-- What is put behind the data of a bucket that has room for it. -/
theorem Bucket.Ok.append (h : b.Ok) {bytes : List UInt8}
    (hroom : b.offset + bytes.length ≤ BUCKET_BUFFER_SIZE) :
    (b.append bytes).Ok ∧ (b.append bytes).data = b.data ++ bytes := by
  have hlength : (b.buffer.take b.offset).length = b.offset := by
    simp [h.length, Nat.min_eq_left h.stop]
  refine ⟨⟨?_, ?_, hroom⟩, ?_⟩
  · have hsize := h.length
    simp only [Bucket.append, splice, List.length_append, hlength, List.length_drop]
    omega
  · exact Nat.le_trans h.start (Nat.le_add_right _ _)
  · have htake : ((b.append bytes).buffer.take (b.append bytes).offset) = b.buffer.take b.offset ++ bytes := by
      apply List.take_left'
      simp [Bucket.append, hlength]
    unfold Bucket.data
    simp only [htake]
    exact List.drop_append_of_le_length (hlength.symm ▸ h.start : b.roffset ≤ _)

/-- A bucket that is emptied to be used again. -/
theorem Bucket.Ok.emptied (h : b.Ok) : { b with offset := 0, roffset := 0 : Bucket }.Ok :=
  ⟨h.length, Nat.le_refl _, Nat.zero_le _⟩

/-! ## A read -/

theorem readBuckets_bytes (h : ∀ b ∈ bs, b.Ok) : ∀ n, n ≤ currentLength bs →
    (readBuckets n bs).1 = (contents bs).take n ∧
      contents ((readBuckets n bs).2.2.drop (readBuckets n bs).2.1) = (contents bs).drop n := by
  induction bs with
  | nil => exact fun n _ => ⟨List.take_nil.symm, by simp [readBuckets]⟩
  | cons b bs ih =>
    intro n hn
    have hb : b.data.length = b.offset - b.roffset := (h b List.mem_cons_self).length_data
    unfold readBuckets
    simp only [← hb, contents_cons]
    split
    · next hle =>
        have hdrop : (b.data ++ contents bs).drop n = b.data.drop n ++ contents bs :=
          List.drop_append_of_le_length hle
        have htake : (b.data ++ contents bs).take n = b.data.take n := List.take_append_of_le_length hle
        split
        · -- the read ends within the bucket
          next hlt =>
            refine ⟨htake.symm, ?_⟩
            simp only [hdrop, List.drop_zero, contents_cons]
            simp [Bucket.data, List.drop_drop]
        · -- it ends with the bucket
          next hge =>
            have heq : n = b.data.length := Nat.le_antisymm hle (Nat.le_of_not_lt hge)
            exact ⟨by simp [heq], by simp [heq]⟩
    · next hgt =>
        have hsum : currentLength (b :: bs) = b.data.length + currentLength bs := by rw [hb]; rfl
        obtain ⟨hbytes, hleft⟩ := ih (fun c hc => h c (List.mem_cons_of_mem _ hc)) (n - b.data.length) (by omega)
        have hlong : b.data.length ≤ n := Nat.le_of_lt (Nat.lt_of_not_le hgt)
        refine ⟨?_, ?_⟩
        · simp [hbytes, List.take_append, List.take_of_length_le hlong]
        · simp [hleft, List.drop_append, List.drop_of_length_le hlong]

/-- The loop moves read offsets only, and none behind the data. -/
theorem readBuckets_kept (h : ∀ b ∈ bs, b.Ok) : ∀ n, (∀ b ∈ (readBuckets n bs).2.2, b.Ok) ∧
    (readBuckets n bs).2.2.map Bucket.offset = bs.map Bucket.offset ∧ (readBuckets n bs).2.1 ≤ bs.length := by
  induction bs with
  | nil => exact fun n => ⟨h, rfl, Nat.le_refl _⟩
  | cons b bs ih =>
    intro n
    have hb := h b List.mem_cons_self
    unfold readBuckets
    dsimp only
    split
    · split
      · next hlt =>
          refine ⟨?_, rfl, Nat.zero_le _⟩
          intro c hc
          cases hc with
          | head => exact ⟨hb.length, Nat.le_of_lt (Nat.add_lt_of_lt_sub' hlt), hb.stop⟩
          | tail _ hc => exact h c (List.mem_cons_of_mem _ hc)
      · exact ⟨h, rfl, Nat.succ_le_succ (Nat.zero_le _)⟩
    · obtain ⟨hok, hoffsets, hcount⟩ := ih (fun c hc => h c (List.mem_cons_of_mem _ hc)) (n - b.data.length)
      refine ⟨?_, congrArg (b.offset :: ·) hoffsets, Nat.succ_le_succ hcount⟩
      intro c hc
      cases hc with
      | head => exact hb
      | tail _ hc => exact hok c hc

theorem modify_last (f : Bucket → Bucket) (as : List Bucket) :
    ((as ++ [b]).modify as.length f).drop as.length = [f b] := by
  induction as with
  | nil => rfl
  | cons a as ih => exact ih

/-- Either some buckets go and some stay, or all are empty and the last one is used again. -/
theorem removeBuckets_cases (hne : bs ≠ []) {n : Nat} (hn : n ≤ bs.length) :
    (n < bs.length ∧ removeBuckets n bs = bs.drop n) ∨
      ∃ b ∈ bs, n = bs.length ∧ removeBuckets n bs = [{ b with offset := 0, roffset := 0 }] := by
  have hpos : 0 < bs.length := List.length_pos_iff.mpr hne
  unfold removeBuckets
  split
  · next hall =>
      obtain ⟨as, b, rfl⟩ := (List.eq_nil_or_concat bs).resolve_left hne
      refine .inr ⟨b, by simp, hall.2, ?_⟩
      have hlast : n - 1 = as.length := by simp [hall.2]
      simp only [hlast, List.concat_eq_append]
      exact modify_last _ as
  · next hsome => exact .inl ⟨by omega, rfl⟩

theorem Valid.drop (h : Valid bs) {n : Nat} (hn : n < bs.length) : Valid (bs.drop n) where
  nonempty := by simpa using hn
  ok b hb := h.ok b (List.mem_of_mem_drop hb)
  filled b hb := by
    apply h.filled b
    exact List.mem_of_mem_drop (List.dropLast_drop_eq_drop_dropLast bs n ▸ hb)

theorem Valid.of_offsets (h : Valid bs) {as : List Bucket} (hok : ∀ b ∈ as, b.Ok)
    (hoffsets : as.map Bucket.offset = bs.map Bucket.offset) : Valid as where
  nonempty hnil := h.nonempty (by simpa [hnil] using hoffsets.symm)
  ok := hok
  filled b hb := by
    have hmem : b.offset ∈ (bs.map Bucket.offset).dropLast := by
      simp only [← hoffsets, ← List.map_dropLast]
      exact List.mem_map_of_mem hb
    simp only [← List.map_dropLast, List.mem_map] at hmem
    obtain ⟨c, hc, heq⟩ := hmem
    exact heq ▸ h.filled c hc

variable {p : Pipe}

/-- A read takes the first bytes. -/
theorem read_spec (h : Valid p.buckets) (length : Int) :
    Valid (read length p).1.buckets ∧
      Queue.apply (contents p.buckets) (.read length) = (contents (read length p).1.buckets, (read length p).2) := by
  have hlength := length_contents h.ok
  unfold read Queue.apply
  dsimp only
  split
  · exact ⟨h, rfl⟩
  · next hpos =>
      simp only [← hlength, List.length_eq_zero_iff]
      split
      · exact ⟨h, rfl⟩
      · generalize hn : min (contents p.buckets).length length.toNat = n
        have hle : n ≤ currentLength p.buckets := hn ▸ hlength ▸ Nat.min_le_left _ _
        obtain ⟨hbytes, hleft⟩ := readBuckets_bytes h.ok n hle
        obtain ⟨hok, hoffsets, hcount⟩ := readBuckets_kept h.ok n
        have hvalid := h.of_offsets hok hoffsets
        have htake : (contents p.buckets).take length.toNat = (contents p.buckets).take n := by
          simp [← hn, List.take_eq_take_min, Nat.min_comm]
        have hdrop : (contents p.buckets).drop length.toNat = (contents p.buckets).drop n := by
          simp [← hn, List.drop_eq_drop_min, Nat.min_comm]
        simp only [htake, hdrop, ← hbytes, ← hleft]
        have hsame : (readBuckets n p.buckets).2.2.length = p.buckets.length := by
          simpa using congrArg List.length hoffsets
        generalize readBuckets n p.buckets = r at *
        obtain ⟨bytes, toRemove, left⟩ := r
        dsimp only at *
        cases removeBuckets_cases hvalid.nonempty (hsame ▸ hcount) with
        | inl hsome => exact ⟨hsome.2 ▸ hvalid.drop hsome.1, by simp [hsome.2]⟩
        | inr hall =>
          -- nothing is left, and nothing is in the bucket that stays
          obtain ⟨b, hb, hcount, heq⟩ := hall
          refine ⟨?_, ?_⟩
          · simp only [heq]
            exact ⟨by simp, by simpa using (hok b hb).emptied, by simp⟩
          · simp only [heq]
            simp [hcount, Bucket.data]

/-! ## A write -/

/-- A new bucket with some bytes in it. -/
theorem append_new (bytes : List UInt8) :
    ⟨splice 0 bytes Bucket.new.buffer, bytes.length, Bucket.new.roffset⟩ = Bucket.new.append bytes := by
  simp [Bucket.append, Bucket.new]

theorem fullBuckets_spec (n : Nat) : ∀ data : List UInt8, n * BUCKET_BUFFER_SIZE ≤ data.length →
    contents (fullBuckets n data).1 ++ (fullBuckets n data).2 = data ∧
      (fullBuckets n data).2.length = data.length - n * BUCKET_BUFFER_SIZE ∧
      ∀ b ∈ (fullBuckets n data).1, b.Ok ∧ b.offset = BUCKET_BUFFER_SIZE := by
  induction n with
  | zero => exact fun data _ => ⟨rfl, by simp [fullBuckets], by simp [fullBuckets]⟩
  | succ n ih =>
    intro data h
    have hmul : (n + 1) * BUCKET_BUFFER_SIZE = n * BUCKET_BUFFER_SIZE + BUCKET_BUFFER_SIZE :=
      Nat.succ_mul _ _
    have hfirst : (data.take BUCKET_BUFFER_SIZE).length = BUCKET_BUFFER_SIZE := by
      apply List.length_take_of_le
      omega
    obtain ⟨hdata, hlength, hfull⟩ := ih (data.drop BUCKET_BUFFER_SIZE) (by
      simp only [List.length_drop]
      omega)
    have hnew : ⟨splice 0 (data.take BUCKET_BUFFER_SIZE) Bucket.new.buffer, BUCKET_BUFFER_SIZE,
        Bucket.new.roffset⟩ = Bucket.new.append (data.take BUCKET_BUFFER_SIZE) := by
      simp only [← append_new, hfirst]
    have hroom : Bucket.new.offset + (data.take BUCKET_BUFFER_SIZE).length ≤ BUCKET_BUFFER_SIZE := by
      simp [Bucket.new, Nat.min_le_left]
    obtain ⟨hok, hbytes⟩ := Bucket.Ok.new.append hroom
    unfold fullBuckets
    simp only [hnew]
    refine ⟨?_, ?_, ?_⟩
    · simp [hbytes, hdata]
    · simp only [hlength, List.length_drop]
      omega
    · intro b hb
      cases hb with
      | head => exact ⟨hok, by simp [Bucket.append, Bucket.new, hfirst]⟩
      | tail _ hb => exact hfull b hb

theorem newBuckets_spec (data : List UInt8) : contents (newBuckets data) = data ∧
    (∀ b ∈ newBuckets data, b.Ok) ∧
    ∀ b ∈ (newBuckets data).dropLast, b.offset = BUCKET_BUFFER_SIZE := by
  have hsize : 0 < BUCKET_BUFFER_SIZE := by decide
  obtain ⟨hdata, hlength, hfull⟩ := fullBuckets_spec (data.length / BUCKET_BUFFER_SIZE) data
    (Nat.div_mul_le_self _ _)
  have hrest : (fullBuckets (data.length / BUCKET_BUFFER_SIZE) data).2.length =
      data.length % BUCKET_BUFFER_SIZE := by
    simp only [hlength, Nat.mod_eq_sub_div_mul]
  unfold newBuckets
  dsimp only
  split
  · have hroom : Bucket.new.offset + (fullBuckets (data.length / BUCKET_BUFFER_SIZE) data).2.length ≤
        BUCKET_BUFFER_SIZE := by
      simpa [hrest, Bucket.new] using Nat.le_of_lt (Nat.mod_lt data.length hsize)
    obtain ⟨hok, hbytes⟩ := Bucket.Ok.new.append hroom
    simp only [append_new]
    refine ⟨?_, ?_, ?_⟩
    · simpa [hbytes] using hdata
    · intro b hb
      cases List.mem_append.mp hb with
      | inl hb => exact (hfull b hb).1
      | inr hb => exact List.mem_singleton.mp hb ▸ hok
    · intro b hb
      simp only [List.dropLast_concat] at hb
      exact (hfull b hb).2
  · next hnone =>
      have hnil : (fullBuckets (data.length / BUCKET_BUFFER_SIZE) data).2 = [] := by
        apply List.eq_nil_of_length_eq_zero
        omega
      refine ⟨by simpa [hnil] using hdata, fun b hb => (hfull b hb).1, ?_⟩
      exact fun b hb => (hfull b (List.dropLast_subset _ hb)).2

/-- New buckets come behind one that is filled. -/
theorem Valid.extend {others news : List Bucket} {c : Bucket}
    (hothers : ∀ b ∈ others, b.Ok ∧ b.offset = BUCKET_BUFFER_SIZE) (hc : c.Ok)
    (hfilled : c.offset = BUCKET_BUFFER_SIZE ∨ news = []) (hnews : ∀ b ∈ news, b.Ok)
    (hlast : ∀ b ∈ news.dropLast, b.offset = BUCKET_BUFFER_SIZE) : Valid (others ++ c :: news) where
  nonempty := by simp
  ok b hb := by
    cases List.mem_append.mp hb with
    | inl hb => exact (hothers b hb).1
    | inr hb =>
      cases hb with
      | head => exact hc
      | tail _ hb => exact hnews b hb
  filled b hb := by
    simp only [List.dropLast_append_cons] at hb
    cases List.mem_append.mp hb with
    | inl hb => exact (hothers b hb).2
    | inr hb =>
      cases news with
      | nil => cases hb
      | cons d news =>
        cases hb with
        | head => exact hfilled.resolve_right (List.cons_ne_nil _ _)
        | tail _ hb => exact hlast b hb

/-- A write puts all its bytes behind the others. -/
theorem write_spec (h : Valid p.buckets) (data : List UInt8) :
    Valid (write data p).1.buckets ∧ contents (write data p).1.buckets = contents p.buckets ++ data ∧
      (write data p).2 = .wrote data.length := by
  obtain ⟨others, c, heq⟩ := (List.eq_nil_or_concat p.buckets).resolve_left h.nonempty
  simp only [List.concat_eq_append] at heq
  have hothers : ∀ b ∈ others, b.Ok ∧ b.offset = BUCKET_BUFFER_SIZE := fun b hb =>
    ⟨h.ok b (by simp [heq, hb]), h.filled b (by simpa [heq] using hb)⟩
  have hc : c.Ok := h.ok c (by simp [heq])
  unfold write
  split
  · next hnil => exact ⟨h, by simp [List.eq_nil_of_length_eq_zero hnil], by simp [hnil]⟩
  · simp only [heq, List.getLast?_concat, List.dropLast_concat]
    split
    · next hfits =>
        have hroom : c.offset + data.length ≤ BUCKET_BUFFER_SIZE := by
          have hstop := hc.stop
          omega
        obtain ⟨hok, hbytes⟩ := hc.append hroom
        exact ⟨.extend hothers hok (.inr rfl) (by simp) (by simp), by simp [hbytes], rfl⟩
    · next hmore =>
        split
        · -- the last bucket is filled first
          have hstop := hc.stop
          have hlength : (data.take (BUCKET_BUFFER_SIZE - c.offset)).length = BUCKET_BUFFER_SIZE - c.offset := by
            apply List.length_take_of_le
            omega
          have hroom : c.offset + (data.take (BUCKET_BUFFER_SIZE - c.offset)).length ≤ BUCKET_BUFFER_SIZE := by
            omega
          obtain ⟨hok, hbytes⟩ := hc.append hroom
          obtain ⟨hdata, hnews, hlast⟩ := newBuckets_spec (data.drop (BUCKET_BUFFER_SIZE - c.offset))
          refine ⟨.extend hothers hok (.inl ?_) hnews hlast, by simp [hbytes, hdata], rfl⟩
          simp only [Bucket.append, hlength]
          omega
        · obtain ⟨hdata, hnews, hlast⟩ := newBuckets_spec data
          refine ⟨.extend hothers hc (.inl ?_) hnews hlast, by simp [hdata], rfl⟩
          have := hc.stop
          omega

/-! ## Any operations -/

/-- One operation does what the queue does, and keeps the buckets in order. -/
theorem apply_spec (h : Valid p.buckets) (op : Op) : Valid (op.apply p).1.buckets ∧
    Queue.apply (contents p.buckets) op = (contents (op.apply p).1.buckets, (op.apply p).2) := by
  cases op with
  | read length => exact read_spec h length
  | write data =>
    obtain ⟨hvalid, hdata, hresult⟩ := write_spec h data
    exact ⟨hvalid, Prod.ext hdata.symm hresult.symm⟩

theorem run_spec (ops : List Op) : ∀ {p : Pipe}, Valid p.buckets → Valid (run p ops).1.buckets ∧
    Queue.run (contents p.buckets) ops = (contents (run p ops).1.buckets, (run p ops).2) := by
  induction ops with
  | nil => exact fun h => ⟨h, rfl⟩
  | cons op ops ih =>
    intro p h
    obtain ⟨hvalid, hstep⟩ := apply_spec h op
    obtain ⟨hvalid', hrun⟩ := ih hvalid
    refine ⟨hvalid', ?_⟩
    simp only [Queue.run, hstep, hrun, run]

/-- What goes into a queue comes out of it or is still in it. -/
theorem Queue.conserves (ops : List Op) : ∀ l : List UInt8,
    l ++ written ops = delivered (Queue.run l ops).2 ++ (Queue.run l ops).1 := by
  induction ops with
  | nil => exact fun l => List.append_nil l
  | cons op ops ih =>
    intro l
    have hrest := ih (Queue.apply l op).1
    cases op with
    | write data => simpa [Queue.run, Queue.apply, written, delivered] using hrest
    | read length =>
      unfold Queue.apply at hrest
      dsimp only at hrest
      unfold Queue.run Queue.apply
      dsimp only
      split
      · next h => simpa [h, written, delivered] using hrest
      · next h =>
          simp only [if_neg h] at hrest
          split
          · next hnil => simpa [hnil, written, delivered] using hrest
          · next hsome =>
              simp only [if_neg hsome] at hrest
              simp only [written, delivered, List.append_assoc, ← hrest]
              simp [← List.append_assoc]

theorem valid_createPipe : Valid createPipe.buckets :=
  ⟨by simp [createPipe], by simpa [createPipe] using Bucket.Ok.new, by simp [createPipe]⟩

/-- A pipe answers as a queue of bytes does, and its buckets are in order after all operations. -/
theorem pipe_is_queue (ops : List Op) : Valid (run createPipe ops).1.buckets ∧
    Queue.run [] ops = (contents (run createPipe ops).1.buckets, (run createPipe ops).2) ∧
    written ops = delivered (run createPipe ops).2 ++ contents (run createPipe ops).1.buckets := by
  have hempty : contents createPipe.buckets = [] := by simp [createPipe]
  obtain ⟨hvalid, hrun⟩ := run_spec ops valid_createPipe
  simp only [hempty] at hrun
  refine ⟨hvalid, hrun, ?_⟩
  simpa [hrun] using Queue.conserves ops []

end Pipefs
