-- SUMMARY: Messages gathered from and scattered to several buffers: when sendmsg and recvmsg use the buffers as their caller means.
import Emscripten.Lib.ByteSeq
import Emscripten.Lib.Heap
import Emscripten.Sockfs.Socket

/-!
# Arrays of buffers

`sendmsg` copies the buffers one behind the other and sends the copy. `recvmsg` stores the bytes of a message
into the buffers, but adds the count of the bytes stored so far to the address of each of them, which is
right for the first buffer only.
-/

namespace Sockfs

open Heap ByteSeq

/-! ## Calls -/

/-- An element of the caller's array, which is read before the buffers are. -/
structure Iovec where
  iov_base : BitVec 32
  iov_len : BitVec 32
deriving DecidableEq

namespace Iovec

/-- The address of the buffer. -/
def base (v : Iovec) : Nat := v.iov_base.toNat

/-- The size of the buffer. -/
def size (v : Iovec) : Nat := v.iov_len.toNat

/-- The size that the code reads, as a signed number. -/
def iovlen (v : Iovec) : Int := v.iov_len.toInt

end Iovec

/-- The sum of the lengths that the code reads. -/
def total (iov : List Iovec) : Int := iov.foldl (fun total v => total + v.iovlen) 0

/-- The inner loop of `sendmsg`: the view and `offset` behind a buffer. -/
def copyBuffer (heap : Bytes) (v : Iovec) (view : Bytes × Nat) : Bytes × Nat :=
  (List.range v.iovlen.toNat).foldl
    (fun view j => (view.1.set view.2 (heap[v.base + j]?.getD 0), view.2 + 1)) view

/-- `__syscall_sendmsg`, with the address that `msg_name` gives. -/
def __syscall_sendmsg (iov : List Iovec) (heap : Bytes) (target : Option Address) (reachable : Bool) : Sys Nat := do
  Prog.failIf (total iov < 0) .RangeError
  let view := List.replicate (total iov).toNat 0
  let view := (iov.foldl (fun view v => copyBuffer heap v view) (view, 0)).1
  sendmsg view target reachable

/-- `subarray` of an array: negative indices count from its end. -/
def subarray (buffer : Bytes) (first last : Int) : Bytes :=
  let index (k : Int) : Nat := if k < 0 then (buffer.length + k).toNat else min k.toNat buffer.length
  (buffer.take (index last)).drop (index first)

/-- `HEAPU8.set`, which throws where the bytes do not fit. -/
def setBytes (heap : Bytes) (buf : Bytes) (offset : Int) : Sys Bytes := do
  Prog.failIf (offset < 0 ∨ heap.length < offset + buf.length) .RangeError
  pure (put offset.toNat buf heap)

/-- The loop of `recvmsg` over the buffers: `bytesRead` and the memory after it. -/
def storeBuffers (buffer : Bytes) : List Iovec → Int → Int → Bytes → Sys (Int × Bytes)
  | [], bytesRead, _, heap => pure (bytesRead, heap)
  | v :: iov, bytesRead, bytesRemaining, heap =>
    if ¬ bytesRemaining > 0 then pure (bytesRead, heap)
    else if v.iovlen = 0 then storeBuffers buffer iov bytesRead bytesRemaining heap
    else do
      let length := min v.iovlen bytesRemaining
      let buf := subarray buffer bytesRead (bytesRead + length)
      let heap ← setBytes heap buf (v.base + bytesRead)
      storeBuffers buffer iov (bytesRead + length) (bytesRemaining - length) heap

/-- `__syscall_recvmsg`: the result and the memory. `writeName` writes the source address out, where it is
asked for. -/
def __syscall_recvmsg (writeName : Bytes → Bytes) (iov : List Iovec) (heap : Bytes) : Sys (Int × Bytes) := do
  let msg ← recvmsg (total iov)
  match msg with
  | none => pure (0, heap)
  | some msg => storeBuffers msg.bytes iov 0 msg.byteLength (writeName heap)

/-! ## What the caller means -/

/-- The bytes of the buffers one behind the other. -/
def gather (iov : List Iovec) (heap : Bytes) : Bytes := iov.flatMap fun v => readAt v.base v.size heap

/-- The bytes put into the buffers, each filled before the next. -/
def scatter : List Iovec → Bytes → Bytes → Bytes
  | [], _, heap => heap
  | v :: iov, bytes, heap => scatter iov (bytes.drop v.size) (put v.base (bytes.take v.size) heap)

/-- How much the buffers take. -/
def capacity (iov : List Iovec) : Nat := (iov.map Iovec.size).sum

/-- Receives what the buffers take and puts it into them. -/
def recvInto (writeName : Bytes → Bytes) (iov : List Iovec) (heap : Bytes) : Sys (Int × Bytes) := do
  let msg ← recvmsg (capacity iov)
  match msg with
  | none => pure (0, heap)
  | some msg => pure (msg.byteLength, scatter iov msg.bytes (writeName heap))

/-- The size of the first buffer that takes bytes. -/
def firstSize : List Iovec → Nat
  | [] => 0
  | v :: iov => if v.size = 0 then firstSize iov else v.size

/-- The buffers are in the memory. -/
def InMemory (iov : List Iovec) (n : Nat) : Prop := ∀ v ∈ iov, v.size ≠ 0 → v.base + v.size ≤ n

/-- The sizes are not negative where they are read as signed numbers. -/
def Short (iov : List Iovec) : Prop := ∀ v ∈ iov, v.size < 2 ^ 31

variable {iov : List Iovec} {heap : Bytes}

/-! ## Sizes -/

theorem iovlen_eq (v : Iovec) : v.iovlen = if v.size < 2 ^ 31 then (v.size : Int) else v.size - 2 ^ 32 := by
  unfold Iovec.iovlen Iovec.size
  rw [BitVec.toInt_eq_toNat_cond]
  have h := v.iov_len.isLt
  split
  · rw [if_pos (by omega)]
  · rw [if_neg (by omega)]
    rfl

theorem total_foldl (iov : List Iovec) (n : Int) :
    iov.foldl (fun total v => total + v.iovlen) n = n + total iov := by
  unfold total
  induction iov generalizing n with
  | nil => exact (Int.add_zero n).symm
  | cons v iov ih =>
    rw [List.foldl_cons, ih, List.foldl_cons, ih (0 + v.iovlen)]
    omega

theorem total_cons (v : Iovec) (iov : List Iovec) : total (v :: iov) = v.iovlen + total iov := by
  have h := total_foldl iov (0 + v.iovlen)
  rw [Int.zero_add] at h
  unfold total at h ⊢
  rw [List.foldl_cons, Int.zero_add]
  exact h

theorem capacity_cons (v : Iovec) (iov : List Iovec) : capacity (v :: iov) = v.size + capacity iov := rfl

/-- The sum is the capacity exactly where no size is read as a negative number. -/
theorem total_le_capacity (iov : List Iovec) :
    total iov ≤ capacity iov ∧ (total iov = capacity iov ↔ Short iov) := by
  induction iov with
  | nil => exact ⟨Int.le_refl _, iff_of_true rfl fun v hv => nomatch hv⟩
  | cons v iov ih =>
    have hv := iovlen_eq v
    have hcons : Short (v :: iov) ↔ v.size < 2 ^ 31 ∧ Short iov := List.forall_mem_cons
    rw [total_cons, capacity_cons, Int.natCast_add, hcons, ← ih.2]
    have hle := ih.1
    split at hv
    · next hshort =>
        rw [and_iff_right hshort]
        omega
    · next hlong =>
        refine ⟨by omega, iff_of_false (by omega) fun h => hlong h.1⟩

theorem total_eq (h : Short iov) : total iov = capacity iov := (total_le_capacity iov).2.mpr h

theorem iovlen_of_short {v : Iovec} (h : v.size < 2 ^ 31) : v.iovlen = v.size := by
  rw [iovlen_eq, if_pos h]

/-! ## Gathering -/

/-- The inner loop puts the buffer's bytes into the view. -/
theorem foldl_copy (heap : Bytes) (base : Nat) (view : Bytes) (offset n : Nat)
    (hin : n ≠ 0 → base + n ≤ heap.length) :
    (List.range n).foldl (fun view j => (view.1.set view.2 (heap[base + j]?.getD 0), view.2 + 1)) (view, offset) =
      (put offset (readAt base n heap) view, offset + n) := by
  induction n with
  | zero => rfl
  | succ n ih =>
    have hlt : base + n < heap.length := hin (Nat.succ_ne_zero n)
    have hlen : (readAt base n heap).length = n := by
      rw [length_readAt]
      omega
    have hlast : readAt (base + n) 1 heap = [heap[base + n]] := by
      unfold readAt
      rw [List.drop_eq_getElem_cons hlt]
      rfl
    rw [List.range_succ, List.foldl_append, ih (fun _ => by omega), readAt_add, put_append, hlen, hlast]
    simp only [List.foldl_cons, List.foldl_nil, List.getElem?_eq_getElem hlt, Option.getD_some]
    rfl

theorem copyBuffer_eq {v : Iovec} (hv : v.size < 2 ^ 31) (hin : v.size ≠ 0 → v.base + v.size ≤ heap.length)
    (view : Bytes) (offset : Nat) :
    copyBuffer heap v (view, offset) = (put offset (readAt v.base v.size heap) view, offset + v.size) := by
  unfold copyBuffer
  rw [iovlen_of_short hv, Int.toNat_natCast]
  exact foldl_copy heap v.base view offset v.size hin

theorem foldl_copyBuffer (hshort : Short iov) (hin : InMemory iov heap.length) (view : Bytes) (offset : Nat) :
    iov.foldl (fun view v => copyBuffer heap v view) (view, offset) =
      (put offset (gather iov heap) view, offset + capacity iov) := by
  induction iov generalizing view offset with
  | nil => rfl
  | cons v iov ih =>
    have hlen : (readAt v.base v.size heap).length = v.size := by
      rw [length_readAt]
      have hv := hin v (List.mem_cons_self ..)
      omega
    have hgather : gather (v :: iov) heap = readAt v.base v.size heap ++ gather iov heap := rfl
    rw [List.foldl_cons, copyBuffer_eq (hshort v (List.mem_cons_self ..)) (hin v (List.mem_cons_self ..)),
      ih (fun w hw => hshort w (List.mem_cons_of_mem _ hw)) (fun w hw => hin w (List.mem_cons_of_mem _ hw)),
      hgather, put_append, hlen, capacity_cons, Nat.add_assoc]

theorem length_gather (hin : InMemory iov heap.length) : (gather iov heap).length = capacity iov := by
  induction iov with
  | nil => rfl
  | cons v iov ih =>
    have hv := hin v (List.mem_cons_self ..)
    have hgather : gather (v :: iov) heap = readAt v.base v.size heap ++ gather iov heap := rfl
    rw [hgather, List.length_append, length_readAt, ih fun w hw => hin w (List.mem_cons_of_mem _ hw), capacity_cons]
    omega

/-- A block as large as the memory replaces it. -/
theorem put_replicate (bytes : Bytes) : put 0 bytes (List.replicate bytes.length 0) = bytes := by
  apply List.ext_getElem?
  intro i
  rw [getElem?_put, List.length_replicate, Nat.zero_add, Nat.sub_zero]
  split
  · rfl
  · next hout =>
      have hge : bytes.length ≤ i := Nat.le_of_not_lt fun hlt => hout ⟨Nat.zero_le i, hlt, hlt⟩
      rw [List.getElem?_eq_none hge, List.getElem?_eq_none (by simpa using hge)]

/-- What is sent is the concatenation, where every size is a positive signed number. -/
theorem sendmsg_of_short (hshort : Short iov) (hin : InMemory iov heap.length) (target : Option Address)
    (reachable : Bool) : __syscall_sendmsg iov heap target reachable = sendmsg (gather iov heap) target reachable := by
  have hnot : ¬ total iov < 0 := by
    rw [total_eq hshort]
    omega
  have hview : (iov.foldl (fun view v => copyBuffer heap v view) (List.replicate (total iov).toNat 0, 0)).1 =
      gather iov heap := by
    rw [foldl_copyBuffer hshort hin, total_eq hshort, Int.toNat_natCast, ← length_gather hin, put_replicate]
  unfold __syscall_sendmsg Prog.failIf
  rw [if_neg hnot]
  exact congrArg (fun view => sendmsg view target reachable) hview

theorem length_copyBuffer (heap : Bytes) (v : Iovec) (view : Bytes × Nat) :
    (copyBuffer heap v view).1.length = view.1.length := by
  unfold copyBuffer
  generalize List.range v.iovlen.toNat = js
  induction js generalizing view with
  | nil => rfl
  | cons j js ih => exact (ih _).trans (List.length_set ..)

theorem length_foldl_copyBuffer (heap : Bytes) (iov : List Iovec) (view : Bytes × Nat) :
    (iov.foldl (fun view v => copyBuffer heap v view) view).1.length = view.1.length := by
  induction iov generalizing view with
  | nil => rfl
  | cons v iov ih => exact (ih _).trans (length_copyBuffer heap v view)

/-- A connected socket. -/
def openSock : Sock :=
  { type := .SOCK_STREAM, bound := none, dest := some ⟨"", 0⟩, server := false, connecting := false
    peers := fun _ => some 0, peer := fun _ => ⟨⟨"", 0⟩, false, [], .OPEN, []⟩, nextPeer := 1, recv_queue := [] }

theorem sendmsg_openSock (data : Bytes) :
    (sendmsg data none true openSock).map Prod.snd = some (.ok data.length) := rfl

/-- Where a size is read as a negative number, fewer bytes are sent or none. -/
theorem short_of_sends (hin : InMemory iov heap.length)
    (h : __syscall_sendmsg iov heap none true openSock = sendmsg (gather iov heap) none true openSock) :
    Short iov := by
  obtain ⟨hle, hiff⟩ := total_le_capacity iov
  have hlength := congrArg (Option.map Prod.snd) h
  rw [sendmsg_openSock, length_gather hin] at hlength
  unfold __syscall_sendmsg at hlength
  rw [Prog.failIf_bind_apply] at hlength
  split at hlength
  · cases hlength
  · next hnot =>
      rw [sendmsg_openSock, length_foldl_copyBuffer, List.length_replicate] at hlength
      have hcount : (total iov).toNat = capacity iov := Except.ok.inj (Option.some.inj hlength)
      apply hiff.mp
      omega

/-! ## Scattering -/

@[simp] theorem scatter_nil (iov : List Iovec) (heap : Bytes) : scatter iov [] heap = heap := by
  induction iov with
  | nil => rfl
  | cons v iov ih =>
    unfold scatter
    rw [List.drop_nil, List.take_nil]
    exact ih

/-- Where the code puts the bytes that are left: at the buffers' addresses moved by the count of those before;
there is no memory where they do not fit. -/
def shifted : List Iovec → Nat → Bytes → Bytes → Option Bytes
  | [], _, _, heap => some heap
  | v :: iov, off, bytes, heap =>
    if bytes = [] ∨ v.size = 0 then shifted iov off bytes heap
    else if v.base + off + (bytes.take v.size).length ≤ heap.length then
      shifted iov (off + v.size) (bytes.drop v.size) (put (v.base + off) (bytes.take v.size) heap)
    else none

@[simp] theorem shifted_nil (iov : List Iovec) (off : Nat) (heap : Bytes) : shifted iov off [] heap = some heap := by
  induction iov with
  | nil => rfl
  | cons v iov ih =>
    unfold shifted
    rw [if_pos (.inl rfl), ih]

theorem subarray_eq (buffer : Bytes) {off last : Nat} (hle : off ≤ last) (hlast : last ≤ buffer.length) :
    subarray buffer off last = (buffer.drop off).take (last - off) := by
  unfold subarray
  dsimp only
  rw [if_neg (by omega), if_neg (by omega), Int.toNat_natCast, Int.toNat_natCast, Nat.min_eq_left hlast,
    Nat.min_eq_left (Nat.le_trans hle hlast), List.drop_take]

theorem setBytes_eq (heap buf : Bytes) (offset : Nat) : setBytes heap buf offset =
    if offset + buf.length ≤ heap.length then pure (put offset buf heap) else Prog.fail .RangeError := by
  unfold setBytes Prog.failIf
  split
  · next hthrows =>
      rw [if_neg (by omega)]
      rfl
  · next hfits =>
      rw [if_pos (by omega), Int.toNat_natCast]
      rfl

/-- The loop does what `shifted` says. -/
theorem storeBuffers_eq (buffer : Bytes) (hshort : Short iov) (off : Nat) (hoff : off ≤ buffer.length) (heap : Bytes) :
    storeBuffers buffer iov off (buffer.length - off : Nat) heap =
      match shifted iov off (buffer.drop off) heap with
      | none => Prog.fail .RangeError
      | some heap => pure ((off + min (capacity iov) (buffer.length - off) : Nat), heap) := by
  induction iov generalizing off heap with
  | nil =>
    have hzero : min (capacity []) (buffer.length - off) = 0 := Nat.zero_min _
    rw [hzero]
    rfl
  | cons v iov ih =>
    have hv := iovlen_of_short (hshort v (List.mem_cons_self ..))
    have ih := ih fun w hw => hshort w (List.mem_cons_of_mem _ hw)
    have hrest : (buffer.drop off).length = buffer.length - off := List.length_drop
    unfold storeBuffers shifted
    rw [hv, capacity_cons]
    cases Nat.eq_zero_or_pos (buffer.length - off) with
    | inl hnone =>
      have hnil : buffer.drop off = [] := List.eq_nil_of_length_eq_zero (hrest.trans hnone)
      rw [if_pos (by omega), hnil, if_pos (.inl rfl), shifted_nil, hnone, Nat.min_zero]
      rfl
    | inr hsome =>
      have hne : buffer.drop off ≠ [] := List.ne_nil_of_length_pos (hrest ▸ hsome)
      rw [if_neg (by omega)]
      cases Nat.eq_zero_or_pos v.size with
      | inl hzero =>
        rw [if_pos (by omega), if_pos (.inr hzero), hzero, Nat.zero_add]
        exact ih off hoff heap
      | inr hpos =>
        have hlength : min (v.size : Int) (buffer.length - off : Nat) =
            (min v.size (buffer.length - off) : Nat) := by omega
        have hbuf : subarray buffer off (off + (min v.size (buffer.length - off) : Nat)) =
            (buffer.drop off).take v.size := by
          rw [← Int.natCast_add, subarray_eq buffer (Nat.le_add_right _ _) (by omega),
            Nat.add_sub_cancel_left]
          apply List.take_eq_take_iff.mpr
          omega
        rw [if_neg (by omega), if_neg (by simp [hne]; omega)]
        dsimp only
        rw [hlength, hbuf, ← Int.natCast_add, setBytes_eq]
        split
        · rw [pure_bind]
          cases Nat.le_total v.size (buffer.length - off) with
          | inl hfull =>
            have hleft : ((buffer.length - off : Nat) : Int) - (v.size : Nat) =
                (buffer.length - (off + v.size) : Nat) := by omega
            have hcount : off + min (v.size + capacity iov) (buffer.length - off) =
                off + v.size + min (capacity iov) (buffer.length - (off + v.size)) := by omega
            rw [Nat.min_eq_left hfull, hleft, ← Int.natCast_add, ih (off + v.size) (by omega), List.drop_drop,
              hcount]
          | inr hlast =>
            -- the bytes end in this buffer
            have hdrop : (buffer.drop off).drop v.size = [] := List.drop_of_length_le (hrest ▸ hlast)
            have hleft : ((buffer.length - off : Nat) : Int) - (buffer.length - off : Nat) =
                (buffer.length - buffer.length : Nat) := by omega
            have hends : off + (buffer.length - off) = buffer.length := by omega
            rw [Nat.min_eq_right hlast, hleft, ← Int.natCast_add, hends, ih buffer.length (Nat.le_refl _),
              List.drop_length, shifted_nil, hdrop, shifted_nil, Nat.sub_self, Nat.min_zero]
            have hcount : off + min (v.size + capacity iov) (buffer.length - off) = buffer.length + 0 := by
              omega
            rw [hcount]
        · rfl

/-- Bytes that fit into the first buffer are put where they belong. -/
theorem shifted_eq_scatter (hin : InMemory iov heap.length) (bytes : Bytes) (hfits : bytes.length ≤ firstSize iov) :
    shifted iov 0 bytes heap = some (scatter iov bytes heap) := by
  induction iov with
  | nil => rfl
  | cons v iov ih =>
    unfold shifted scatter
    unfold firstSize at hfits
    split
    · next hskip =>
        cases hskip with
        | inl hnil =>
          rw [hnil, shifted_nil, List.drop_nil, List.take_nil, put_nil, scatter_nil]
        | inr hzero =>
          rw [if_pos hzero] at hfits
          rw [hzero, List.drop_zero, List.take_zero, put_nil]
          exact ih (fun w hw => hin w (List.mem_cons_of_mem _ hw)) hfits
    · next htakes =>
        rw [not_or] at htakes
        rw [if_neg htakes.2] at hfits
        have hv := hin v (List.mem_cons_self ..) htakes.2
        have htake : bytes.take v.size = bytes := List.take_of_length_le hfits
        rw [htake, if_pos (by omega), List.drop_of_length_le hfits, shifted_nil, scatter_nil, Nat.add_zero]

/-! ## Bytes at wrong places -/

/-- The byte `c` of a message belongs to the address `i`, and what the code leaves there does not come from it. -/
structure Misplaced (iov : List Iovec) (off n size c i : Nat) : Prop where
  lt : c < n
  belongs : ∀ bytes heap : Bytes, bytes.length = n → heap.length = size → (scatter iov bytes heap)[i]? = bytes[c]?
  elsewhere : ∀ bytes bytes' heap heap' r r' : Bytes, bytes.length = n → bytes'.length = n →
    (∀ j, j ≠ c → bytes[j]? = bytes'[j]?) → heap.length = size → heap'.length = size → heap[i]? = heap'[i]? →
    shifted iov off bytes heap = some r → shifted iov off bytes' heap' = some r' → r[i]? = r'[i]?

namespace Misplaced

variable {off n size c i : Nat} {v : Iovec}

/-- Buffers of no size are passed over. -/
theorem skip (h : Misplaced iov off n size c i) (hv : v.size = 0) : Misplaced (v :: iov) off n size c i := by
  have hshifted : ∀ bytes heap : Bytes, shifted (v :: iov) off bytes heap = shifted iov off bytes heap :=
    fun bytes heap => if_pos (.inr hv)
  constructor
  · exact h.lt
  · intro bytes heap hbytes hheap
    unfold scatter
    rw [hv, List.drop_zero, List.take_zero, put_nil]
    exact h.belongs bytes heap hbytes hheap
  · intro bytes bytes' heap heap' r r' hbytes hbytes' hagree hheap hheap' hat hr hr'
    rw [hshifted] at hr hr'
    exact h.elsewhere bytes bytes' heap heap' r r' hbytes hbytes' hagree hheap hheap' hat hr hr'

theorem shifted_cons {bytes heap r : Bytes} (hv : 0 < v.size) (hn : v.size < bytes.length)
    (h : shifted (v :: iov) off bytes heap = some r) :
    shifted iov (off + v.size) (bytes.drop v.size) (put (v.base + off) (bytes.take v.size) heap) = some r := by
  have hne : bytes ≠ [] := List.ne_nil_of_length_pos (Nat.zero_lt_of_lt hn)
  unfold shifted at h
  rw [if_neg (by simp [hne]; omega)] at h
  split at h
  · exact h
  · cases h

/-- A buffer that is filled with bytes before that one. -/
theorem fill (h : Misplaced iov (off + v.size) (n - v.size) size c i) (hv : 0 < v.size) (hn : v.size < n) :
    Misplaced (v :: iov) off n size (v.size + c) i := by
  constructor
  · have hlt := h.lt
    omega
  · intro bytes heap hbytes hheap
    unfold scatter
    rw [h.belongs _ _ (by rw [List.length_drop, hbytes]) (by rw [length_put, hheap]), List.getElem?_drop]
  · intro bytes bytes' heap heap' r r' hbytes hbytes' hagree hheap hheap' hat hr hr'
    have htake : bytes.take v.size = bytes'.take v.size := by
      apply List.ext_getElem?
      intro j
      rw [List.getElem?_take, List.getElem?_take]
      split
      · exact hagree j (by omega)
      · rfl
    apply h.elsewhere _ _ _ _ r r' _ _ _ _ _ _ (shifted_cons hv (hbytes ▸ hn) hr) (shifted_cons hv (hbytes' ▸ hn) hr')
    · rw [List.length_drop, hbytes]
    · rw [List.length_drop, hbytes']
    · intro j hj
      rw [List.getElem?_drop, List.getElem?_drop]
      exact hagree _ (by omega)
    · rw [length_put, hheap]
    · rw [length_put, hheap']
    · rw [htake, getElem?_put, getElem?_put, hheap, hheap', hat]

/-- The last buffer that gets bytes: its first byte is put behind its address. -/
theorem last (hoff : 0 < off) (hpos : 0 < n) (hn : n ≤ v.size) (hv : v.base + v.size ≤ size) :
    Misplaced (v :: iov) off n size 0 v.base := by
  have hleft : ∀ bytes heap r : Bytes, bytes.length = n → shifted (v :: iov) off bytes heap = some r →
      r[v.base]? = heap[v.base]? := by
    intro bytes heap r hbytes hr
    have hne : bytes ≠ [] := List.ne_nil_of_length_pos (hbytes ▸ hpos)
    unfold shifted at hr
    rw [if_neg (by simp [hne]; omega), List.drop_of_length_le (hbytes ▸ hn), shifted_nil] at hr
    split at hr
    · cases hr
      rw [getElem?_put, if_neg (by omega)]
    · cases hr
  constructor
  · exact hpos
  · intro bytes heap hbytes hheap
    unfold scatter
    rw [List.drop_of_length_le (hbytes ▸ hn), scatter_nil, List.take_of_length_le (hbytes ▸ hn), getElem?_put,
      if_pos (by omega), Nat.sub_self]
  · intro bytes bytes' heap heap' r r' hbytes hbytes' _ _ _ hat hr hr'
    rw [hleft _ _ _ hbytes hr, hleft _ _ _ hbytes' hr', hat]

end Misplaced

variable {off n size : Nat}

/-- Behind other bytes some byte is misplaced. -/
theorem exists_misplaced (hin : InMemory iov size) (hoff : 0 < off) (hpos : 0 < n) (hn : n ≤ capacity iov) :
    ∃ c i, Misplaced iov off n size c i := by
  induction iov generalizing off n with
  | nil => exact absurd hpos (Nat.not_lt.mpr hn)
  | cons v iov ih =>
    have hrest : InMemory iov size := fun w hw => hin w (List.mem_cons_of_mem _ hw)
    rw [capacity_cons] at hn
    cases Nat.eq_zero_or_pos v.size with
    | inl hzero =>
      obtain ⟨c, i, h⟩ := ih hrest hoff hpos (by omega)
      exact ⟨c, i, h.skip hzero⟩
    | inr hv =>
      cases Nat.lt_or_ge v.size n with
      | inl hlt =>
        obtain ⟨c, i, h⟩ := ih hrest (Nat.add_pos_left hoff v.size) (Nat.sub_pos_of_lt hlt) (by omega)
        exact ⟨v.size + c, i, h.fill hv hlt⟩
      | inr hle =>
        exact ⟨0, v.base, .last hoff hpos hle (hin v (List.mem_cons_self ..) (Nat.ne_of_gt hv))⟩

/-- Where the bytes do not fit into the first buffer some byte is misplaced. -/
theorem exists_misplaced_first (hin : InMemory iov size) (hfirst : firstSize iov < n) (hn : n ≤ capacity iov) :
    ∃ c i, Misplaced iov 0 n size c i := by
  induction iov with
  | nil => exact absurd hfirst (Nat.not_lt.mpr hn)
  | cons v iov ih =>
    have hrest : InMemory iov size := fun w hw => hin w (List.mem_cons_of_mem _ hw)
    unfold firstSize at hfirst
    rw [capacity_cons] at hn
    split at hfirst
    · next hzero =>
        obtain ⟨c, i, h⟩ := ih hrest hfirst (by omega)
        exact ⟨c, i, h.skip hzero⟩
    · next hv =>
        have hv := Nat.pos_of_ne_zero hv
        have hoff : 0 < 0 + v.size := by omega
        obtain ⟨c, i, h⟩ := exists_misplaced hrest hoff (Nat.sub_pos_of_lt hfirst) (by omega)
        exact ⟨v.size + c, i, h.fill hv hfirst⟩

/-- No memory is right for every message that does not fit into the first buffer. -/
theorem exists_not_scattered (hin : InMemory iov heap.length) (hfirst : firstSize iov < n) (hn : n ≤ capacity iov) :
    ∃ bytes, bytes.length = n ∧ shifted iov 0 bytes heap ≠ some (scatter iov bytes heap) := by
  obtain ⟨c, i, h⟩ := exists_misplaced_first hin hfirst hn
  have hlength : (List.replicate n (0 : UInt8)).length = n := List.length_replicate
  have hlength' : ((List.replicate n (0 : UInt8)).set c 1).length = n := by rw [List.length_set, hlength]
  cases Classical.em (shifted iov 0 (List.replicate n 0) heap = some (scatter iov (List.replicate n 0) heap)) with
  | inr hwrong => exact ⟨_, hlength, hwrong⟩
  | inl hright =>
    refine ⟨_, hlength', fun hright' => ?_⟩
    -- the two messages differ in the byte that is not seen
    have hsame := h.elsewhere _ _ heap heap _ _ hlength hlength' (fun j hj => (List.getElem?_set_ne hj.symm).symm)
      rfl rfl rfl hright hright'
    have hlt : c < (List.replicate n (0 : UInt8)).length := hlength.symm ▸ h.lt
    rw [h.belongs _ _ hlength rfl, h.belongs _ _ hlength' rfl, List.getElem?_set_self hlt,
      List.getElem?_replicate, if_pos h.lt] at hsame
    exact absurd (Option.some.inj hsame) (by decide)

/-! ## The calls -/

/-- How the source address is written: to some bytes of the memory. -/
abbrev NameWriter := { write : Bytes → Bytes // ∀ heap, (write heap).length = heap.length }

/-- Every message that is sent is the concatenation of the buffers. -/
def Sent (iov : List Iovec) (heap : Bytes) : Prop :=
  ∀ target reachable s, __syscall_sendmsg iov heap target reachable s = sendmsg (gather iov heap) target reachable s

/-- Every message is received as it should, where so many bytes wait at the front of the queue. -/
def Receives (writeName : NameWriter) (iov : List Iovec) (heap : Bytes) (waiting : Nat) : Prop :=
  ∀ s : Sock, (∀ queued ∈ s.recv_queue.head?, queued.data.byteLength = waiting) →
    __syscall_recvmsg writeName.1 iov heap s = recvInto writeName.1 iov heap s

/-- A message that is received is no longer than asked for, and than the one that waits. -/
theorem recvmsg_some {length : Nat} {s s' : Sock} {msg : View} (h : recvmsg length s = some (s', .ok (some msg))) :
    ∃ queued ∈ s.recv_queue.head?, msg.byteLength ≤ min length queued.data.byteLength := by
  unfold recvmsg at h
  rw [Prog.gets_bind_apply, id, Prog.failIf_bind_apply] at h
  split at h
  · cases h
  · cases hq : s.recv_queue with
    | nil =>
      rw [hq] at h
      dsimp only at h
      unfold recvNothing at h
      rw [Prog.gets_bind_apply, id] at h
      -- without a message in the queue there is none, or an error
      cases htype : s.type with
      | SOCK_DGRAM =>
        simp only [htype] at h
        cases h
      | SOCK_STREAM =>
        cases hdest : s.getPeer s.dest with
        | none =>
          simp only [htype, hdest] at h
          cases h
        | some p =>
          simp only [htype, hdest] at h
          split at h
          · cases h
          · cases h
    | cons queued rest =>
      simp only [hq] at h
      rw [Prog.modify_bind_apply, Prog.failIf_bind_apply, if_neg (by omega), Int.toNat_natCast] at h
      refine ⟨queued, rfl, ?_⟩
      split at h
      · cases h
        exact Nat.min_le_left ..
      · cases h
        exact Nat.min_le_left ..

/-- The call, where the loop does as `shifted` says. -/
theorem recvmsg_stored (writeName : NameWriter) (hshort : Short iov) (msg : View) :
    storeBuffers msg.bytes iov 0 msg.byteLength (writeName.1 heap) =
      match shifted iov 0 msg.bytes (writeName.1 heap) with
      | none => Prog.fail .RangeError
      | some heap => pure ((min (capacity iov) msg.byteLength : Nat), heap) := by
  have hstored := storeBuffers_eq msg.bytes hshort 0 (Nat.zero_le _) (writeName.1 heap)
  rw [Nat.sub_zero, View.length_bytes, List.drop_zero, Nat.zero_add] at hstored
  exact hstored

theorem receives_of_fits (writeName : NameWriter) {waiting : Nat} (hin : InMemory iov heap.length) (hshort : Short iov)
    (hfits : min (capacity iov) waiting ≤ firstSize iov) : Receives writeName iov heap waiting := by
  intro s hwaiting
  unfold __syscall_recvmsg recvInto
  rw [total_eq hshort]
  cases hrecv : recvmsg (capacity iov) s with
  | none =>
    change Prog.seq _ _ _ = Prog.seq _ _ _
    unfold Prog.seq
    rw [hrecv]
  | some result =>
    obtain ⟨s', outcome⟩ := result
    cases outcome with
    | error e => rw [Prog.bind_of_error hrecv, Prog.bind_of_error hrecv]
    | ok msg =>
      rw [Prog.bind_of_ok hrecv, Prog.bind_of_ok hrecv]
      cases msg with
      | none => rfl
      | some msg =>
        obtain ⟨queued, hqueued, hle⟩ := recvmsg_some hrecv
        rw [hwaiting queued hqueued] at hle
        have hbytes : msg.bytes.length ≤ firstSize iov := by
          rw [View.length_bytes]
          exact Nat.le_trans hle hfits
        have hmin : min (capacity iov) msg.byteLength = msg.byteLength :=
          Nat.min_eq_right (Nat.le_trans hle (Nat.min_le_left ..))
        dsimp only
        rw [recvmsg_stored writeName hshort, shifted_eq_scatter ((writeName.2 heap).symm ▸ hin) _ hbytes, hmin]

/-- A datagram socket for which a message waits. -/
def waitingSock (buffer : Bytes) : Sock :=
  { openSock with type := .SOCK_DGRAM, recv_queue := [⟨⟨"", 0⟩, View.ofBuffer buffer⟩] }

theorem recvmsg_waitingSock (length : Nat) (buffer : Bytes) : recvmsg length (waitingSock buffer) =
    some ({ waitingSock buffer with recv_queue := [] },
      .ok (some ((View.ofBuffer buffer).take (min length buffer.length)))) := by
  unfold recvmsg
  rw [Prog.gets_bind_apply, id, Prog.failIf_bind_apply, if_neg (fun h => nomatch h.1)]
  have hqueue : (waitingSock buffer).recv_queue = [⟨⟨"", 0⟩, View.ofBuffer buffer⟩] := rfl
  simp only [hqueue]
  rw [Prog.modify_bind_apply, Prog.failIf_bind_apply, if_neg (by omega), if_neg (fun h => nomatch h.1)]
  rfl

theorem fits_of_receives (writeName : NameWriter) {waiting : Nat} (hin : InMemory iov heap.length)
    (hshort : Short iov) (h : Receives writeName iov heap waiting) : min (capacity iov) waiting ≤ firstSize iov := by
  apply Nat.le_of_not_lt
  intro hfirst
  obtain ⟨bytes, hbytes, hwrong⟩ :=
    exists_not_scattered ((writeName.2 heap).symm ▸ hin) hfirst (Nat.min_le_left ..)
  have hbuffer : (bytes ++ List.replicate (waiting - bytes.length) 0).length = waiting := by
    rw [List.length_append, List.length_replicate, hbytes]
    omega
  have hrecv := recvmsg_waitingSock (capacity iov) (bytes ++ List.replicate (waiting - bytes.length) 0)
  have hmsg : ((View.ofBuffer (bytes ++ List.replicate (waiting - bytes.length) 0)).take
      (min (capacity iov) waiting)).bytes = bytes := by
    rw [View.bytes_take, View.bytes_ofBuffer, ← hbytes, List.take_left]
  rw [hbuffer] at hrecv
  have hcall := h (waitingSock (bytes ++ List.replicate (waiting - bytes.length) 0)) (by
    intro queued hqueued
    cases hqueued
    exact hbuffer)
  unfold __syscall_recvmsg recvInto at hcall
  rw [total_eq hshort, Prog.bind_of_ok hrecv, Prog.bind_of_ok hrecv] at hcall
  dsimp only at hcall
  rw [recvmsg_stored writeName hshort, hmsg] at hcall
  split at hcall
  · cases hcall
  · next r hr =>
      apply hwrong
      rw [hr, (Prod.mk.inj (Except.ok.inj (Prod.mk.inj (Option.some.inj hcall)).2)).2]

/-- Messages are sent and received as they should exactly where no size is read as a negative number, and what
is received fits into the first buffer that takes bytes. -/
theorem iovecs_iff (writeName : NameWriter) (iov : List Iovec) (heap : Bytes) (hin : InMemory iov heap.length)
    (waiting : Nat) : Sent iov heap ∧ Receives writeName iov heap waiting ↔
      Short iov ∧ min (capacity iov) waiting ≤ firstSize iov := by
  constructor
  · rintro ⟨hsends, hreceives⟩
    have hshort := short_of_sends hin (hsends none true openSock)
    exact ⟨hshort, fits_of_receives writeName hin hshort hreceives⟩
  · rintro ⟨hshort, hfits⟩
    exact ⟨fun target reachable s => congrFun (sendmsg_of_short hshort hin target reachable) s,
      receives_of_fits writeName hin hshort hfits⟩

/-- Three bytes for an empty buffer, one of three bytes and one of two. -/
theorem iovecs_three : Sent [⟨0, 0⟩, ⟨1, 3⟩, ⟨5, 2⟩] (List.replicate 8 0) ∧
    Receives ⟨id, fun _ => rfl⟩ [⟨0, 0⟩, ⟨1, 3⟩, ⟨5, 2⟩] (List.replicate 8 0) 3 :=
  (iovecs_iff ⟨id, fun _ => rfl⟩ [⟨0, 0⟩, ⟨1, 3⟩, ⟨5, 2⟩] (List.replicate 8 0) (by unfold InMemory; decide) 3).mpr
    ⟨by unfold Short; decide, by decide⟩

/-- Four bytes for two buffers of two bytes at 0 and 4: the last two are put at 6. -/
theorem recvmsg_two_buffers :
    (__syscall_recvmsg id [⟨0, 2⟩, ⟨4, 2⟩] (List.replicate 8 0) (waitingSock [1, 2, 3, 4])).map Prod.snd =
        some (.ok (4, [1, 2, 0, 0, 0, 0, 3, 4])) ∧
      ¬ (Sent [⟨0, 2⟩, ⟨4, 2⟩] (List.replicate 8 0) ∧
        Receives ⟨id, fun _ => rfl⟩ [⟨0, 2⟩, ⟨4, 2⟩] (List.replicate 8 0) 4) := by
  have hrun : (__syscall_recvmsg id [⟨0, 2⟩, ⟨4, 2⟩] (List.replicate 8 0) (waitingSock [1, 2, 3, 4])).map Prod.snd =
      some (.ok (4, [1, 2, 0, 0, 0, 0, 3, 4])) := by decide
  have hmeant : (recvInto id [⟨0, 2⟩, ⟨4, 2⟩] (List.replicate 8 0) (waitingSock [1, 2, 3, 4])).map Prod.snd =
      some (.ok (4, [1, 2, 0, 0, 3, 4, 0, 0])) := by decide
  refine ⟨hrun, fun ⟨_, hreceives⟩ => ?_⟩
  have hsame := congrArg (Option.map Prod.snd) (hreceives (waitingSock [1, 2, 3, 4]) (by
    intro queued hqueued
    cases hqueued
    rfl))
  rw [hrun, hmeant] at hsame
  exact absurd hsame (by decide)

end Sockfs
