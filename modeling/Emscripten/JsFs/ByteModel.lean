-- SUMMARY: Files as byte lists and positions as numbers, and the calls on data that agree with that model.
import Emscripten.Lib.Machine
import Emscripten.JsFs.Calls

/-!
# The byte-list model of open files

What a program sees of its open files is a list of bytes for each file and a position for
each open description. `Table` is what the calls on data leave alone, `Ref.call` what each
of them does by this view, and the calls of the file system are shown to do the same.
-/

namespace JsFs

open Prog

/-! ## The model -/

/-- Bytes of the files and positions of the descriptions. -/
structure Ref where
  content : NodeId → List UInt8
  position : SharedId → Nat

/-- The descriptors, the flags of their descriptions, and the files that may not be truncated. -/
structure Table where
  stream : Nat → Option Stream
  flags : SharedId → Flags
  isFile : NodeId → Bool
  readOnly : NodeId → Option Errno

namespace Ref

variable (tb : Table) (r : Ref)

def moveTo (st : Stream) (p : Nat) : Ref := { r with position := Function.update r.position st.shared p }

def setContent (st : Stream) (bs : List UInt8) : Ref :=
  { r with content := Function.update r.content st.node bs }

/-- The bytes at the position, which moves behind them. -/
def read (st : Stream) (lens : List Nat) : Ref × Except Errno Result :=
  if lens = [] then (r, .ok (.bytes []))
  else if access (tb.flags st.shared) = O_WRONLY then (r, .error .EBADF)
  else
    let data := ByteSeq.readAt (r.position st.shared) lens.sum (r.content st.node)
    (r.moveTo st (r.position st.shared + data.length), .ok (.bytes data))

/-- The bytes at an offset. The position stays. -/
def pread (st : Stream) (lens : List Nat) (offset : Int) : Ref × Except Errno Result :=
  if lens = [] then (r, .ok (.bytes []))
  else if offset < 0 then (r, .error .EINVAL)
  else if access (tb.flags st.shared) = O_WRONLY then (r, .error .EBADF)
  else (r, .ok (.bytes (ByteSeq.readAt offset.toNat lens.sum (r.content st.node))))

/-- Where a write without an offset goes. -/
def start (st : Stream) : Nat :=
  if Has (tb.flags st.shared) O_APPEND then (r.content st.node).length else r.position st.shared

def write (st : Stream) (buffers : List (List UInt8)) : Ref × Except Errno Result :=
  if buffers = [] then (r, .ok (.count 0))
  else if access (tb.flags st.shared) = O_RDONLY then (r, .error .EBADF)
  else
    let data := buffers.flatten
    ((r.setContent st (ByteSeq.store 0 (r.start tb st) data (r.content st.node))).moveTo st
      (r.start tb st + data.length), .ok (.count data.length))

/-- The bytes go to an offset. The position stays. -/
def pwrite (st : Stream) (buffers : List (List UInt8)) (offset : Int) : Ref × Except Errno Result :=
  if buffers = [] then (r, .ok (.count 0))
  else if offset < 0 then (r, .error .EINVAL)
  else if access (tb.flags st.shared) = O_RDONLY then (r, .error .EBADF)
  else
    let data := buffers.flatten
    (r.setContent st (ByteSeq.store 0 offset.toNat data (r.content st.node)), .ok (.count data.length))

/-- The place an offset is counted from. -/
def base (st : Stream) (whence : Int) : Nat :=
  if whence = SEEK_CUR then r.position st.shared
  else if whence = SEEK_END then (r.content st.node).length
  else 0

def lseek (st : Stream) (offset whence : Int) : Ref × Except Errno Result :=
  if whence ≠ SEEK_SET ∧ whence ≠ SEEK_CUR ∧ whence ≠ SEEK_END then (r, .error .EINVAL)
  else if offset + r.base st whence < 0 then (r, .error .EINVAL)
  else
    let p := (offset + r.base st whence).toNat
    (r.moveTo st p, .ok (.count p))

def ftruncate (st : Stream) (length : Int) : Ref × Except Errno Result :=
  if length < 0 ∨ access (tb.flags st.shared) = O_RDONLY then (r, .error .EINVAL)
  else match tb.readOnly st.node with
    | some e => (r, .error e)
    | none => (r.setContent st (ByteSeq.resize 0 length.toNat (r.content st.node)), .ok .done)

def fallocate (st : Stream) (offset len : Int) : Ref × Except Errno Result :=
  if offset + len > (r.content st.node).length then r.ftruncate tb st (offset + len)
  else (r, .ok .done)

/-- A call on a descriptor that is open. -/
def onStream (fd : Nat) (k : Stream → Ref × Except Errno Result) : Ref × Except Errno Result :=
  match tb.stream fd with
  | some st => k st
  | none => (r, .error .EBADF)

def call : DataCall → Ref × Except Errno Result
  | .read fd lens => r.onStream tb fd fun st => r.read tb st lens
  | .pread fd lens offset =>
    if Exact offset then r.onStream tb fd fun st => r.pread tb st lens offset
    else (r, .error .EOVERFLOW)
  | .write fd buffers => r.onStream tb fd fun st => r.write tb st buffers
  | .pwrite fd buffers offset =>
    if Exact offset then r.onStream tb fd fun st => r.pwrite tb st buffers offset
    else (r, .error .EOVERFLOW)
  | .lseek fd offset whence =>
    if Exact offset then r.onStream tb fd fun st => r.lseek st offset whence
    else (r, .error .EOVERFLOW)
  | .ftruncate fd length =>
    if Exact length then r.onStream tb fd fun st => r.ftruncate tb st length
    else (r, .error .EOVERFLOW)
  | .fallocate fd mode offset len =>
    if Exact offset ∧ Exact len then
      if mode = 0 then
        if offset < 0 ∨ len < 0 then (r, .error .EINVAL)
        else r.onStream tb fd fun st => r.fallocate tb st offset len
      else (r, .error .ENOTSUP)
    else (r, .error .EOVERFLOW)

/-- The calls one after another, with what they return. -/
def calls : Ref → List DataCall → Ref × List (Except Errno Result)
  | r, [] => (r, [])
  | r, c :: cs =>
    let (r', res) := r.call tb c
    let (r'', rest) := calls r' cs
    (r'', res :: rest)

end Ref

/-! ## What the file system shows of itself -/

namespace FS

variable (s : FS)

def ref : Ref := ⟨fun n => (s.node n).bytes, fun k => (s.shared k).position⟩

def table : Table where
  stream := s.getStream
  flags k := (s.shared k).flags
  isFile n := (s.node n).isFile
  readOnly n := s.nodePermissions n (some ['w'])

/-- The stream that is open at a descriptor, if one is, is on a file of MEMFS. -/
def OnFile (fd : Nat) : Prop := ∀ st, s.getStream fd = some st →
  (s.node st.node).isFile = true ∧ st.seekable = true ∧ st.stream_ops = .memfs

/-- From `s` to `s'` the file of the stream has got other bytes, its description another
position, and nothing else that the calls see has changed. -/
structure Shows (s s' : FS) (st : Stream) (bs : List UInt8) (p : Nat) : Prop where
  table : s'.table = s.table
  ref : s'.ref = (s.ref.setContent st bs).moveTo st p

variable {s} {s' s'' : FS} {st : Stream} {bs bs' : List UInt8} {p p' : Nat}

theorem Shows.refl : s.Shows s st (s.node st.node).bytes (s.position st) where
  table := rfl
  ref := by
    change s.ref = ⟨Function.update s.ref.content st.node (s.ref.content st.node),
      Function.update s.ref.position st.shared (s.ref.position st.shared)⟩
    simp

theorem Shows.trans (h : s.Shows s' st bs p) (h' : s'.Shows s'' st bs' p') :
    s.Shows s'' st bs' p' where
  table := h'.table.trans h.table
  ref := by
    rw [h'.ref, h.ref]
    simp [Ref.setContent, Ref.moveTo]

theorem Shows.bytes (h : s.Shows s' st bs p) : (s'.node st.node).bytes = bs := by
  have := congrFun (congrArg Ref.content h.ref) st.node
  simpa [Ref.setContent, Ref.moveTo, FS.ref] using this

theorem Shows.position (h : s.Shows s' st bs p) : s'.position st = p := by
  have := congrFun (congrArg Ref.position h.ref) st.shared
  simpa [Ref.setContent, Ref.moveTo, FS.ref, FS.position] using this

theorem Shows.flags (h : s.Shows s' st bs p) : s'.flags st = s.flags st :=
  congrFun (congrArg Table.flags h.table) st.shared

theorem Shows.isFile (h : s.Shows s' st bs p) : (s'.node st.node).isFile = (s.node st.node).isFile :=
  congrFun (congrArg Table.isFile h.table) st.node

theorem OnFile.of_table {fd : Nat} (h : s.OnFile fd) (ht : s'.table = s.table) : s'.OnFile fd := by
  intro st hst
  have hstream : s'.getStream fd = s.getStream fd := congrFun (congrArg Table.stream ht) fd
  have hfile : (s'.node st.node).isFile = (s.node st.node).isFile :=
    congrFun (congrArg Table.isFile ht) st.node
  rw [hfile]
  exact h st (hstream ▸ hst)

/-! ## The two ways a call changes what is seen -/

theorem shows_setPosition (p : Nat) : s.Shows
    (s.setShared st.shared { s.shared st.shared with position := p }) st (s.node st.node).bytes p where
  table := by
    have hflags : ∀ k, (Function.update s.shared st.shared
        { s.shared st.shared with position := p } k).flags = (s.shared k).flags := by
      intro k
      rcases eq_or_ne k st.shared with rfl | hne
      · simp
      · simp [hne]
    simp only [FS.table, FS.setShared, hflags]
    rfl
  ref := by
    have hpos : (fun k => (Function.update s.shared st.shared
        { s.shared st.shared with position := p } k).position) =
        Function.update (fun k => (s.shared k).position) st.shared p := by
      funext k
      rcases eq_or_ne k st.shared with rfl | hne
      · simp
      · simp [hne]
    simp [FS.ref, FS.setShared, Ref.moveTo, Ref.setContent, hpos]

theorem shows_setFile {f : FileData} (hf : (s.node st.node).isFile = true) : s.Shows
    (s.setNode st.node { s.node st.node with data := .file f }) st f.bytes (s.position st) where
  table := by
    have hnode : ∀ n, (Function.update s.node st.node
        { s.node st.node with data := .file f } n).isFile = (s.node n).isFile ∧
        (Function.update s.node st.node { s.node st.node with data := .file f } n).perm =
          (s.node n).perm := by
      intro n
      rcases eq_or_ne n st.node with rfl | hne
      · simpa [Node.isFile] using hf
      · simp [hne]
    simp only [FS.table, FS.setNode, FS.nodePermissions, hnode]
    rfl
  ref := by
    have hbytes : (fun n => (Function.update s.node st.node
        { s.node st.node with data := .file f } n).bytes) =
        Function.update (fun n => (s.node n).bytes) st.node f.bytes := by
      funext n
      rcases eq_or_ne n st.node with rfl | hne
      · simp [Node.bytes]
      · simp [hne]
    simp [FS.ref, FS.setNode, FS.position, Ref.moveTo, Ref.setContent, hbytes]

end FS

/-! ## Reads -/

open FS

variable {s : FS} {st : Stream}

/-- No place from `p` to `n` bytes behind it is rounded when it is made a number. -/
def Unrounded (p n : Nat) : Prop := ∀ m ≤ n, number (p + m : Nat) = (p + m : Nat)

namespace Unrounded

variable {p n m : Nat}

theorem of_exact (h : p + n ≤ 2 ^ 53) : Unrounded p n := fun m hm => by
  apply number_of_exact
  unfold Exact
  omega

theorem zero (h : Unrounded p n) : Unrounded p 0 := fun k hk => h k (Nat.le_trans hk (Nat.zero_le n))

theorem left (h : Unrounded p (n + m)) : Unrounded p n :=
  fun k hk => h k (Nat.le_trans hk (Nat.le_add_right n m))

theorem right (h : Unrounded p (n + m)) : Unrounded (p + n) m := fun k hk => by
  rw [Nat.add_assoc]
  exact h (n + k) (Nat.add_le_add_left hk n)

theorem number_add (h : Unrounded p n) : number ((p : Int) + n) = ((p + n : Nat) : Int) := by
  rw [← Int.natCast_add]
  exact h n (Nat.le_refl n)

end Unrounded

theorem read_apply (hf : (s.node st.node).isFile = true) (n : Nat) (position : Option Int) :
    JsFs.read st n position s =
      if position.any (· < 0) then some (s, .error .EINVAL)
      else if access (s.flags st) = O_WRONLY then some (s, .error .EBADF)
      else (do
        let position' ← seekPosition st position
        let data := ByteSeq.readAt position' n (s.node st.node).bytes
        doIf position.isNone (setPosition st (number (position' + data.length)).toNat)
        pure data : Sys (List UInt8)) s := by
  obtain ⟨f, hdata, hbytes⟩ := data_of_isFile hf
  have hn : ¬ ((n : Int) < 0) := by omega
  unfold JsFs.read
  simp only [failIf_bind_apply, gets_bind_apply, id_eq, hdata, hbytes, hn, false_or, Int.toNat_natCast]

theorem read_shows (hf : (s.node st.node).isFile = true) (hacc : access (s.flags st) ≠ O_WRONLY)
    (n : Nat) (hp : Unrounded (s.position st)
      (ByteSeq.readAt (s.position st) n (s.node st.node).bytes).length) :
    ∃ s', JsFs.read st n none s =
        some (s', .ok (ByteSeq.readAt (s.position st) n (s.node st.node).bytes)) ∧
      s.Shows s' st (s.node st.node).bytes
        (s.position st + (ByteSeq.readAt (s.position st) n (s.node st.node).bytes).length) := by
  refine ⟨_, ?_, shows_setPosition _⟩
  rw [read_apply hf, if_neg (by simp), if_neg hacc]
  simp only [seekPosition, gets_bind_apply, Option.isNone_none, hp.number_add, Int.toNat_natCast]
  rfl

variable {r : Ref × Except Errno Result} {offset : Int} {buffers : List (List UInt8)}

theorem pread_apply (hf : (s.node st.node).isFile = true) (hs : st.seekable = true)
    (hacc : access (s.flags st) ≠ O_WRONLY) (n : Nat) (ho : 0 ≤ offset) :
    JsFs.read st n (some offset) s =
      some (s, .ok (ByteSeq.readAt offset.toNat n (s.node st.node).bytes)) := by
  rw [read_apply hf, if_neg (by simpa using ho), if_neg hacc]
  simp only [seekPosition, bind_assoc, failIf_bind_apply, hs, not_true, if_false, pure_bind]
  rfl

/-- The loop over the buffers of a read delivers what one read of their total length would. -/
theorem doReadv_shows (lens : List Nat) (hf : (s.node st.node).isFile = true)
    (hacc : access (s.flags st) ≠ O_WRONLY) (hp : Unrounded (s.position st)
      (ByteSeq.readAt (s.position st) lens.sum (s.node st.node).bytes).length) :
    ∃ s', doReadv st lens none s =
        some (s', .ok (ByteSeq.readAt (s.position st) lens.sum (s.node st.node).bytes)) ∧
      s.Shows s' st (s.node st.node).bytes
        (s.position st + (ByteSeq.readAt (s.position st) lens.sum (s.node st.node).bytes).length) := by
  induction lens generalizing s with
  | nil => exact ⟨s, rfl, .refl⟩
  | cons len lens ih =>
    simp only [List.sum_cons, ByteSeq.readAt_add, List.length_append] at hp ⊢
    obtain ⟨s₁, hread, hshows⟩ := read_shows hf hacc len hp.left
    simp only [doReadv, bind_of_ok hread]
    split
    · next hshort =>
        rw [ByteSeq.readAt_of_short _ _ _ hshort, List.append_nil]
        exact ⟨s₁, rfl, hshows⟩
    · next hfull =>
        have hlen : (ByteSeq.readAt (s.position st) len (s.node st.node).bytes).length = len := by
          rw [ByteSeq.length_readAt] at hfull ⊢
          omega
        have hp₁ := hp.right
        rw [hlen] at hp₁ hshows
        obtain ⟨s₂, hrest, hshows'⟩ := ih (hshows.isFile.trans hf) (by rwa [hshows.flags])
          (by rwa [hshows.position, hshows.bytes])
        rw [hshows.position, hshows.bytes] at hrest hshows'
        refine ⟨s₂, ?_, ?_⟩
        · rw [Option.map_none, bind_of_ok hrest]
          rfl
        · rw [hlen, ← Nat.add_assoc]
          exact hshows.trans hshows'

/-- The same for a read at an offset, which leaves the state alone. -/
theorem doReadv_at (lens : List Nat) (hf : (s.node st.node).isFile = true)
    (hs : st.seekable = true) (hacc : access (s.flags st) ≠ O_WRONLY) {offset : Nat}
    (ho : Unrounded offset (ByteSeq.readAt offset lens.sum (s.node st.node).bytes).length) :
    doReadv st lens (some offset) s =
      some (s, .ok (ByteSeq.readAt offset lens.sum (s.node st.node).bytes)) := by
  induction lens generalizing offset with
  | nil => rfl
  | cons len lens ih =>
    have hread := pread_apply hf hs hacc len (Int.natCast_nonneg offset)
    rw [Int.toNat_natCast] at hread
    simp only [List.sum_cons, ByteSeq.readAt_add, List.length_append] at ho
    simp only [doReadv, bind_of_ok hread, List.sum_cons, ByteSeq.readAt_add]
    split
    · next hshort =>
        rw [ByteSeq.readAt_of_short _ _ _ hshort, List.append_nil]
        rfl
    · next hfull =>
        have hlen : (ByteSeq.readAt offset len (s.node st.node).bytes).length = len := by
          rw [ByteSeq.length_readAt] at hfull ⊢
          omega
        have ho₁ := ho.right
        have hleft := ho.left
        rw [hlen] at hleft ho₁ ⊢
        rw [Option.map_some, hleft.number_add, bind_of_ok (ih ho₁)]
        rfl

/-! ## Writes -/

/-- In append mode the description is moved to the end of the file first. -/
theorem llseek_end (hf : (s.node st.node).isFile = true) (hs : st.seekable = true)
    (hops : st.stream_ops = .memfs) (hb : Unrounded (s.node st.node).bytes.length 0) :
    ∃ s', JsFs.llseek st 0 SEEK_END s = some (s', .ok (s.node st.node).bytes.length) ∧
      s.Shows s' st (s.node st.node).bytes (s.node st.node).bytes.length := by
  refine ⟨_, ?_, shows_setPosition _⟩
  have hseek : JsFs.memfsLlseek s st 0 SEEK_END = .ok (s.node st.node).bytes.length := by
    have hnum : number (s.node st.node).bytes.length = (s.node st.node).bytes.length :=
      hb 0 (Nat.le_refl 0)
    have hcur : SEEK_END ≠ SEEK_CUR := by decide
    have hpos : ¬ ((s.node st.node).bytes.length : Int) < 0 := by omega
    unfold JsFs.memfsLlseek
    simp only [hcur, if_false, hf, and_self, if_true]
    rw [Int.zero_add, hnum]
    simp [hpos]
  have hcan : JsFs.canSeek s st = true := by simp [JsFs.canSeek, hops, hf]
  unfold JsFs.llseek
  simp only [gets_bind_apply, failIf_bind_apply, id_eq, hcan, hs, not_true, or_self, if_false]
  rw [if_neg (by decide), bind_of_ok (query_apply _ s |>.trans (by rw [hseek]))]
  rfl

theorem write_apply (hf : (s.node st.node).isFile = true) (buffer : List UInt8)
    (position : Option Int) : ∃ f : FileData, (s.node st.node).bytes = f.bytes ∧
    JsFs.write st buffer position s =
      if position.any (· < 0) then some (s, .error .EINVAL)
      else if access (s.flags st) = O_RDONLY then some (s, .error .EBADF)
      else (do
        doIf (st.seekable ∧ Has (s.flags st) O_APPEND) do
          let _ ← JsFs.llseek st 0 SEEK_END
          pure ()
        let position' ← seekPosition st position
        doIf (buffer ≠ []) (setFile st.node (f.write buffer position'))
        doIf position.isNone (setPosition st (number (position' + buffer.length)).toNat)
        pure buffer.length : Sys Nat) s := by
  obtain ⟨f, hdata, hbytes⟩ := data_of_isFile hf
  refine ⟨f, hbytes, ?_⟩
  unfold JsFs.write
  simp only [failIf_bind_apply, gets_bind_apply, id_eq, hdata]

/-- The bytes are put into the file, where there are any. -/
theorem setFile_shows (hf : (s.node st.node).isFile = true) {f : FileData}
    (hbytes : (s.node st.node).bytes = f.bytes) (buffer : List UInt8) (p : Nat) :
    ∃ s', doIf (buffer ≠ []) (setFile st.node (f.write buffer p)) s = some (s', .ok ()) ∧
      s.Shows s' st (ByteSeq.store 0 p buffer (s.node st.node).bytes) (s.position st) := by
  unfold doIf
  split
  · next hne =>
      refine ⟨_, rfl, ?_⟩
      rw [ByteSeq.store_of_ne_nil _ _ _ _ hne, hbytes, ← FileData.bytes_write]
      exact shows_setFile hf
  · next hempty =>
      obtain rfl : buffer = [] := Classical.not_not.mp hempty
      exact ⟨s, rfl, .refl⟩

/-- Where a write without an offset starts: at the end in append mode. -/
def startOf (s : FS) (st : Stream) : Nat :=
  if Has (s.flags st) O_APPEND then (s.node st.node).bytes.length else s.position st

theorem append_seek (hf : (s.node st.node).isFile = true) (hs : st.seekable = true)
    (hops : st.stream_ops = .memfs) (hb : Unrounded (startOf s st) 0) :
    ∃ s₁, doIf (st.seekable ∧ Has (s.flags st) O_APPEND) (do
        let _ ← JsFs.llseek st 0 SEEK_END
        pure ()) s = some (s₁, .ok ()) ∧
      s.Shows s₁ st (s.node st.node).bytes (startOf s st) := by
  unfold startOf at hb ⊢
  unfold doIf
  by_cases happend : Has (s.flags st) O_APPEND
  · rw [if_pos happend] at hb
    obtain ⟨s₁, hseek, hshows⟩ := llseek_end hf hs hops hb
    rw [if_pos ⟨hs, happend⟩, if_pos happend]
    exact ⟨s₁, bind_of_ok hseek, hshows⟩
  · rw [if_neg (fun h => happend h.2), if_neg happend]
    exact ⟨s, rfl, .refl⟩

/-- A write without an offset moves the position behind what it wrote. -/
theorem write_shows (hf : (s.node st.node).isFile = true) (hs : st.seekable = true)
    (hops : st.stream_ops = .memfs) (hacc : access (s.flags st) ≠ O_RDONLY)
    (buffer : List UInt8) (hfit : Unrounded (startOf s st) buffer.length) :
    ∃ s', JsFs.write st buffer none s = some (s', .ok buffer.length) ∧
      s.Shows s' st (ByteSeq.store 0 (startOf s st) buffer (s.node st.node).bytes)
        (startOf s st + buffer.length) := by
  obtain ⟨f, hbytes, happly⟩ := write_apply hf buffer none
  obtain ⟨s₁, hseek, hshows₁⟩ := append_seek hf hs hops hfit.zero
  obtain ⟨s₂, hset, hshows₂⟩ := setFile_shows (s := s₁) (hshows₁.isFile.trans hf)
    (hshows₁.bytes.trans hbytes) buffer (s₁.position st)
  rw [hshows₁.position, hshows₁.bytes] at hshows₂
  have hshows := (hshows₁.trans hshows₂).trans
    (shows_setPosition (s := s₂) (startOf s st + buffer.length))
  rw [hshows₂.bytes] at hshows
  refine ⟨_, ?_, hshows⟩
  rw [happly, if_neg (by simp), if_neg hacc, bind_of_ok hseek]
  simp only [seekPosition, gets_bind_apply]
  rw [bind_of_ok hset, hshows₁.position, hfit.number_add]
  rfl

/-- A write at an offset, through a description that does not append. -/
theorem pwrite_shows (hf : (s.node st.node).isFile = true) (hs : st.seekable = true)
    (hacc : access (s.flags st) ≠ O_RDONLY) (happend : ¬ Has (s.flags st) O_APPEND) (buffer : List UInt8)
    (ho : 0 ≤ offset) :
    ∃ s', JsFs.write st buffer (some offset) s = some (s', .ok buffer.length) ∧
      s.Shows s' st (ByteSeq.store 0 offset.toNat buffer (s.node st.node).bytes) (s.position st) := by
  obtain ⟨f, hbytes, happly⟩ := write_apply hf buffer (some offset)
  obtain ⟨s₁, hset, hshows⟩ := setFile_shows hf hbytes buffer offset.toNat
  refine ⟨s₁, ?_, hshows⟩
  have hskip : ∀ m, doIf (st.seekable ∧ Has (s.flags st) O_APPEND) m s = some (s, .ok ()) :=
    fun m => by simp [doIf, happend]
  rw [happly, if_neg (by simpa using ho), if_neg hacc, bind_of_ok (hskip _)]
  simp only [seekPosition, bind_assoc, failIf_bind_apply, hs, not_true, if_false, pure_bind]
  rw [bind_of_ok hset]
  rfl

theorem length_store_end (buffer bs : List UInt8) :
    (ByteSeq.store 0 bs.length buffer bs).length = bs.length + buffer.length := by
  by_cases he : buffer = []
  · simp [he]
  · rw [ByteSeq.length_store_of_ne_nil _ _ _ _ he]
    omega

/-- The next write starts where the last one ended. -/
theorem startOf_next {s₁ : FS} {buffer : List UInt8}
    (h : s.Shows s₁ st (ByteSeq.store 0 (startOf s st) buffer (s.node st.node).bytes)
      (startOf s st + buffer.length)) : startOf s₁ st = startOf s st + buffer.length := by
  have hpos := h.position
  have hbytes := h.bytes
  unfold startOf at *
  rw [h.flags, hpos, hbytes]
  split
  · exact length_store_end buffer _
  · rfl

/-- The loop over the buffers of a write is one write of all their bytes. -/
theorem doWritev_shows (hne : buffers ≠ []) (hf : (s.node st.node).isFile = true) (hs : st.seekable = true)
    (hops : st.stream_ops = .memfs) (hacc : access (s.flags st) ≠ O_RDONLY)
    (hfit : Unrounded (startOf s st) buffers.flatten.length) :
    ∃ s', doWritev st buffers none s = some (s', .ok buffers.flatten.length) ∧
      s.Shows s' st (ByteSeq.store 0 (startOf s st) buffers.flatten (s.node st.node).bytes)
        (startOf s st + buffers.flatten.length) := by
  induction buffers generalizing s with
  | nil => exact absurd rfl hne
  | cons buffer buffers ih =>
    rw [List.flatten_cons, List.length_append] at hfit
    obtain ⟨s₁, hwrite, hshows⟩ := write_shows hf hs hops hacc buffer hfit.left
    simp only [doWritev, bind_of_ok hwrite, Nat.lt_irrefl, if_false, Option.map_none]
    cases buffers with
    | nil =>
      refine ⟨s₁, ?_, ?_⟩
      · simp only [doWritev, pure_bind, List.flatten_cons, List.flatten_nil, List.append_nil]
        rfl
      · simpa using hshows
    | cons next buffers =>
      have hstart := startOf_next hshows
      obtain ⟨s₂, hrest, hshows'⟩ := ih (by simp) (hshows.isFile.trans hf)
        (by rwa [hshows.flags]) (by rw [hstart]; exact hfit.right)
      rw [hstart, hshows.bytes, ByteSeq.store_append] at hshows'
      refine ⟨s₂, ?_, ?_⟩
      · rw [bind_of_ok hrest, List.flatten_cons (l := buffer), List.length_append]
        rfl
      · rw [List.flatten_cons (l := buffer), List.length_append, ← Nat.add_assoc]
        exact hshows.trans hshows'

/-- The same for a write at an offset. The position stays. -/
theorem doWritev_at (buffers : List (List UInt8)) (hf : (s.node st.node).isFile = true)
    (hs : st.seekable = true) (hacc : access (s.flags st) ≠ O_RDONLY)
    (happend : ¬ Has (s.flags st) O_APPEND) {offset : Nat}
    (hfit : Unrounded offset buffers.flatten.length) :
    ∃ s', doWritev st buffers (some offset) s = some (s', .ok buffers.flatten.length) ∧
      s.Shows s' st (ByteSeq.store 0 offset buffers.flatten (s.node st.node).bytes)
        (s.position st) := by
  induction buffers generalizing s offset with
  | nil => exact ⟨s, rfl, .refl⟩
  | cons buffer buffers ih =>
    rw [List.flatten_cons, List.length_append] at hfit
    obtain ⟨s₁, hwrite, hshows⟩ := pwrite_shows hf hs hacc happend buffer
      (Int.natCast_nonneg offset)
    rw [Int.toNat_natCast] at hshows
    obtain ⟨s₂, hrest, hshows'⟩ := ih (hshows.isFile.trans hf) (by rwa [hshows.flags])
      (by rwa [hshows.flags]) hfit.right
    rw [hshows.position, hshows.bytes, ByteSeq.store_append] at hshows'
    refine ⟨s₂, ?_, hshows.trans hshows'⟩
    simp only [doWritev, bind_of_ok hwrite, Nat.lt_irrefl, if_false, Option.map_some,
      hfit.left.number_add]
    rw [bind_of_ok hrest, List.flatten_cons, List.length_append]
    rfl

/-! ## Seek and truncation -/

theorem lseek_shows (hf : (s.node st.node).isFile = true) (hs : st.seekable = true)
    (hops : st.stream_ops = .memfs) {whence : Int}
    (hfit : number (offset + s.ref.base st whence) = offset + s.ref.base st whence) :
    ∃ s' r, JsFs.llseek st offset whence s = some (s', r) ∧
      s.ref.lseek st offset whence = (s'.ref, r.map .count) ∧ s'.table = s.table := by
  have hcan : JsFs.canSeek s st = true := by simp [JsFs.canSeek, hops, hf]
  unfold JsFs.llseek Ref.lseek
  simp only [gets_bind_apply, failIf_bind_apply, id_eq, hcan, hs, not_true, or_self, if_false]
  split
  · exact ⟨s, _, rfl, rfl, rfl⟩
  · -- The place that is sought, in the words of the code.
    have hseek : JsFs.memfsLlseek s st offset whence =
        if offset + s.ref.base st whence < 0 then .error .EINVAL
        else .ok (offset + s.ref.base st whence).toNat := by
      unfold JsFs.memfsLlseek
      unfold Ref.base at hfit ⊢
      split
      · next hcur =>
          rw [if_pos hcur] at hfit
          have hnum : number (offset + s.position st) = offset + s.position st :=
            hfit
          rw [hnum]
          rfl
      · next hcur =>
          rw [if_neg hcur] at hfit
          split
          · next hend =>
              rw [if_pos hend.1] at hfit
              have hnum : number (offset + (s.node st.node).bytes.length) =
                  offset + (s.node st.node).bytes.length := hfit
              rw [hnum, if_pos hend.1]
              rfl
          · next hend =>
              have hset : whence ≠ SEEK_END := fun he => hend ⟨he, hf⟩
              simp [hset]
    split
    · next hneg =>
        rw [if_pos hneg] at hseek
        have hq : query (fun s => JsFs.memfsLlseek s st offset whence) s = some (s, .error .EINVAL) := by
          rw [query_apply, hseek]
        exact ⟨s, _, bind_of_error hq, rfl, rfl⟩
    · next hpos =>
        rw [if_neg hpos] at hseek
        have hq : query (fun s => JsFs.memfsLlseek s st offset whence) s =
            some (s, .ok (offset + s.ref.base st whence).toNat) := by
          rw [query_apply, hseek]
        have hshows := @shows_setPosition s st (offset + s.ref.base st whence).toNat
        refine ⟨_, .ok _, (bind_of_ok hq).trans rfl, ?_, hshows.table⟩
        rw [hshows.ref]
        simp [Ref.moveTo, Ref.setContent, FS.ref, Except.map]

theorem ftruncate_agrees {fd : Nat} (hst : s.getStream fd = some st)
    (hf : (s.node st.node).isFile = true) (len : Int) :
    ∃ s' r, JsFs.ftruncate fd len s = some (s', r) ∧
      s.ref.ftruncate s.table st len = (s'.ref, r.map fun _ => .done) ∧ s'.table = s.table := by
  have hq : query (fun s => s.getStreamChecked fd) s = some (s, .ok st) := by
    simp [FS.getStreamChecked, hst]
  obtain ⟨f, hdata, hbytes⟩ := data_of_isFile hf
  unfold JsFs.ftruncate Ref.ftruncate
  rw [bind_of_ok hq]
  simp only [gets_bind_apply, failIf_bind_apply, id_eq]
  split
  · next hbad =>
      refine ⟨s, _, rfl, ?_, rfl⟩
      exact if_pos hbad
  · next hgood =>
      rw [if_neg (show ¬ (len < 0 ∨ access (s.table.flags st.shared) = O_RDONLY) from hgood)]
      unfold doTruncate
      simp only [gets_bind_apply, id_eq, hdata]
      cases hperm : s.nodePermissions st.node (some ['w']) with
      | some e =>
        have htable : s.table.readOnly st.node = some e := hperm
        rw [htable]
        exact ⟨s, .error e, rfl, rfl, rfl⟩
      | none =>
        have htable : s.table.readOnly st.node = none := hperm
        rw [htable]
        have hshows := @shows_setFile s st (f.resizeFileStorage len.toNat) hf
        refine ⟨_, .ok (), rfl, ?_, hshows.table⟩
        rw [hshows.ref, FileData.bytes_resizeFileStorage, ← hbytes]
        simp [Ref.moveTo, Ref.setContent, FS.ref, FS.position, Except.map]

/-! ## The calls -/

/-- What the model asks of a call: no write at an offset goes through a description that appends,
and no place the call counts is rounded. -/
def Sound (s : FS) (c : DataCall) : Prop :=
  ∀ st, s.getStream c.fd = some st →
    match c with
    | .read _ lens => Unrounded (s.position st)
        (ByteSeq.readAt (s.position st) lens.sum (s.node st.node).bytes).length
    | .pread _ lens offset => Unrounded offset.toNat
        (ByteSeq.readAt offset.toNat lens.sum (s.node st.node).bytes).length
    | .write _ buffers => Unrounded (startOf s st) buffers.flatten.length
    | .pwrite _ buffers offset => ¬ Has (s.flags st) O_APPEND ∧
        Unrounded offset.toNat buffers.flatten.length
    | .lseek _ offset whence =>
      number (offset + s.ref.base st whence) = offset + s.ref.base st whence
    | .ftruncate _ _ => True
    | .fallocate _ _ offset len => number (offset + len) = offset + len

/-- A program does and returns what the model says. -/
def Same (s : FS) (m : Sys Result) (r : Ref × Except Errno Result) : Prop :=
  ∃ s' res, m s = some (s', res) ∧ r = (s'.ref, res) ∧ s'.table = s.table

def Agrees (s : FS) (c : DataCall) : Prop := Same s c.run (s.ref.call s.table c)

namespace Same

variable {α : Type} (wrap : α → Result)

variable {m : Sys α}

theorem of_error {e : Errno} (hm : m s = some (s, .error e)) (hr : r = (s.ref, .error e)) :
    Same s (m >>= fun a => pure (wrap a)) r := ⟨s, .error e, bind_of_error hm, hr, rfl⟩

theorem of_ok {s' : FS} {a : α} (hm : m s = some (s', .ok a)) (hr : r = (s'.ref, .ok (wrap a)))
    (ht : s'.table = s.table) :
    Same s (m >>= fun a => pure (wrap a)) r := ⟨s', .ok (wrap a), bind_of_ok hm, hr, ht⟩

theorem of_map {s' : FS} {res : Except Errno α} (hm : m s = some (s', res)) (hr : r = (s'.ref, res.map wrap))
    (ht : s'.table = s.table) : Same s (m >>= fun a => pure (wrap a)) r := by
  cases res with
  | error e => exact ⟨s', .error e, bind_of_error hm, hr, ht⟩
  | ok a => exact of_ok wrap hm hr ht

/-- A call on a descriptor: either none is open there, or the stream is used. -/
theorem onStream {fd : Nat} {k : Stream → Sys α} {kr : Stream → Ref × Except Errno Result}
    (h : ∀ st, s.getStream fd = some st → Same s (k st >>= fun a => pure (wrap a)) (kr st)) :
    Same s ((query (fun s => s.getStreamChecked fd) >>= k) >>= fun a => pure (wrap a))
      (s.ref.onStream s.table fd kr) := by
  have hstream : s.ref.onStream s.table fd kr = match s.getStream fd with
      | some st => kr st
      | none => (s.ref, .error .EBADF) := rfl
  rw [hstream]
  cases hst : s.getStream fd with
  | none =>
    refine of_error wrap (bind_of_error ?_) rfl
    simp [FS.getStreamChecked, hst]
  | some st =>
    obtain ⟨s', res, hm, hr⟩ := h st hst
    have hq : query (fun s => s.getStreamChecked fd) s = some (s, .ok st) := by
      simp [FS.getStreamChecked, hst]
    refine ⟨s', res, ?_, hr⟩
    rw [bind_assoc, bind_of_ok hq]
    exact hm

/-- A check of the arguments. -/
theorem failIf {c : Prop} [Decidable c] {e : Errno} (h : ¬ c → Same s (m >>= fun a => pure (wrap a)) r) :
    Same s ((Prog.failIf c e >>= fun _ => m) >>= fun a => pure (wrap a))
      (if c then (s.ref, .error e) else r) := by
  by_cases hc : c
  · rw [if_pos hc]
    exact of_error wrap (by rw [failIf_bind_apply, if_pos hc]) rfl
  · obtain ⟨s', res, hm, hr⟩ := h hc
    rw [if_neg hc]
    refine ⟨s', res, ?_, hr⟩
    rw [bind_assoc, failIf_bind_apply, if_neg hc]
    exact hm

end Same

variable {fd : Nat}

theorem read_agrees {lens : List Nat} (hon : s.OnFile fd) (hc : Sound s (.read fd lens)) :
    Agrees s (.read fd lens) := by
  refine Same.onStream .bytes fun st hst => ?_
  obtain ⟨hf, hs, hops⟩ := hon st hst
  have hp := hc st hst
  unfold Ref.read
  cases lens with
  | nil => exact .of_ok .bytes rfl rfl rfl
  | cons len lens =>
    rw [if_neg (by simp)]
    by_cases hacc : access (s.flags st) = O_WRONLY
    · refine .of_error .bytes (bind_of_error ?_) (if_pos hacc)
      rw [read_apply hf, if_neg (by simp), if_pos hacc]
    · obtain ⟨s', hread, hshows⟩ := doReadv_shows (len :: lens) hf hacc hp
      refine .of_ok .bytes hread ((if_neg hacc).trans ?_) hshows.table
      rw [hshows.ref]
      simp [Ref.moveTo, Ref.setContent, FS.ref, FS.position]

theorem pread_agrees {lens : List Nat} (hon : s.OnFile fd) (hc : Sound s (.pread fd lens offset)) :
    Agrees s (.pread fd lens offset) := by
  have hcall : s.ref.call s.table (.pread fd lens offset) = if ¬ Exact offset then
      (s.ref, .error .EOVERFLOW) else s.ref.onStream s.table fd fun st => s.ref.pread s.table st lens offset := by
    simp [Ref.call]
  unfold Agrees
  rw [hcall]
  refine Same.failIf .bytes fun _ => Same.onStream .bytes fun st hst => ?_
  obtain ⟨hf, hs, hops⟩ := hon st hst
  have hb := hc st hst
  unfold Ref.pread
  cases lens with
  | nil => exact .of_ok .bytes rfl rfl rfl
  | cons len lens =>
    rw [if_neg (by simp)]
    by_cases hneg : offset < 0
    · refine .of_error .bytes (bind_of_error ?_) (if_pos hneg)
      rw [read_apply hf, if_pos (by simpa using hneg)]
    · rw [if_neg hneg]
      obtain ⟨off, rfl⟩ := Int.eq_ofNat_of_zero_le (Int.not_lt.mp hneg)
      by_cases hacc : access (s.flags st) = O_WRONLY
      · refine .of_error .bytes (bind_of_error ?_) (if_pos hacc)
        rw [read_apply hf, if_neg (by simp), if_pos hacc]
      · exact .of_ok .bytes (doReadv_at (len :: lens) hf hs hacc hb) (if_neg hacc) rfl

theorem write_agrees (hon : s.OnFile fd) (hc : Sound s (.write fd buffers)) : Agrees s (.write fd buffers) := by
  refine Same.onStream .count fun st hst => ?_
  obtain ⟨hf, hs, hops⟩ := hon st hst
  have hfit := hc st hst
  unfold Ref.write
  by_cases hne : buffers = []
  · subst hne
    exact .of_ok .count rfl rfl rfl
  · rw [if_neg hne]
    by_cases hacc : access (s.flags st) = O_RDONLY
    · obtain ⟨buffer, rest, rfl⟩ := List.exists_cons_of_ne_nil hne
      obtain ⟨f, _, hwrite⟩ := write_apply hf buffer none
      refine .of_error .count (bind_of_error ?_) (if_pos hacc)
      rw [hwrite, if_neg (by simp), if_pos hacc]
    · obtain ⟨s', hwrite, hshows⟩ := doWritev_shows hne hf hs hops hacc hfit
      refine .of_ok .count hwrite ((if_neg hacc).trans ?_) hshows.table
      rw [hshows.ref]
      rfl

theorem pwrite_agrees (hon : s.OnFile fd) (hc : Sound s (.pwrite fd buffers offset)) :
    Agrees s (.pwrite fd buffers offset) := by
  have hcall : s.ref.call s.table (.pwrite fd buffers offset) = if ¬ Exact offset then
      (s.ref, .error .EOVERFLOW)
      else s.ref.onStream s.table fd fun st => s.ref.pwrite s.table st buffers offset := by
    simp [Ref.call]
  unfold Agrees
  rw [hcall]
  refine Same.failIf .count fun _ => Same.onStream .count fun st hst => ?_
  obtain ⟨hf, hs, hops⟩ := hon st hst
  obtain ⟨happend, hfit⟩ := hc st hst
  unfold Ref.pwrite
  by_cases hne : buffers = []
  · subst hne
    exact .of_ok .count rfl rfl rfl
  · rw [if_neg hne]
    obtain ⟨buffer, rest, rfl⟩ := List.exists_cons_of_ne_nil hne
    obtain ⟨f, _, hwrite⟩ := write_apply hf buffer (some offset)
    by_cases hneg : offset < 0
    · refine .of_error .count (bind_of_error ?_) (if_pos hneg)
      rw [hwrite, if_pos (by simpa using hneg)]
    · rw [if_neg hneg]
      by_cases hacc : access (s.flags st) = O_RDONLY
      · refine .of_error .count (bind_of_error ?_) (if_pos hacc)
        rw [hwrite, if_neg (by simpa using hneg), if_pos hacc]
      · obtain ⟨off, rfl⟩ := Int.eq_ofNat_of_zero_le (Int.not_lt.mp hneg)
        obtain ⟨s', hat, hshows⟩ := doWritev_at (buffer :: rest) hf hs hacc happend hfit
        refine .of_ok .count hat ((if_neg hacc).trans ?_) hshows.table
        rw [hshows.ref]
        simp [Ref.moveTo, Ref.setContent, FS.ref, FS.position]

theorem lseek_agrees {whence : Int} (hon : s.OnFile fd) (hc : Sound s (.lseek fd offset whence)) :
    Agrees s (.lseek fd offset whence) := by
  have hcall : s.ref.call s.table (.lseek fd offset whence) = if ¬ Exact offset then
      (s.ref, .error .EOVERFLOW) else s.ref.onStream s.table fd fun st => s.ref.lseek st offset whence := by
    simp [Ref.call]
  unfold Agrees
  rw [hcall]
  refine Same.failIf .count fun _ => Same.onStream .count fun st hst => ?_
  obtain ⟨hf, hs, hops⟩ := hon st hst
  obtain ⟨s', res, hseek, href, htable⟩ := lseek_shows hf hs hops (hc st hst)
  exact .of_map .count hseek href htable

/-- Truncation goes through the descriptor, which is looked up once more. -/
theorem same_ftruncate (hon : s.OnFile fd) (len : Int) :
    Same s (JsFs.ftruncate fd len >>= fun _ => pure .done)
      (s.ref.onStream s.table fd fun st => s.ref.ftruncate s.table st len) := by
  refine Same.onStream (fun _ => .done) fun st hst => ?_
  obtain ⟨s', res, htrunc, href, htable⟩ := ftruncate_agrees hst (hon st hst).1 len
  unfold JsFs.ftruncate at htrunc
  rw [bind_of_ok (show query (fun s => s.getStreamChecked fd) s = some (s, .ok st) by
    simp [FS.getStreamChecked, hst])] at htrunc
  exact .of_map (fun _ => .done) htrunc href htable

theorem ftruncate64_agrees {length : Int} (hon : s.OnFile fd) : Agrees s (.ftruncate fd length) := by
  have hcall : s.ref.call s.table (.ftruncate fd length) = if ¬ Exact length then
      (s.ref, .error .EOVERFLOW)
      else s.ref.onStream s.table fd fun st => s.ref.ftruncate s.table st length := by
    simp [Ref.call]
  unfold Agrees
  rw [hcall]
  exact Same.failIf (fun _ => .done) fun _ => same_ftruncate hon length

theorem fallocate_agrees {mode len : Int} (hon : s.OnFile fd) (hc : Sound s (.fallocate fd mode offset len)) :
    Agrees s (.fallocate fd mode offset len) := by
  have hcall : s.ref.call s.table (.fallocate fd mode offset len) =
      if ¬ Exact offset ∨ ¬ Exact len then (s.ref, .error .EOVERFLOW)
      else if mode ≠ 0 then (s.ref, .error .ENOTSUP)
      else if offset < 0 ∨ len < 0 then (s.ref, .error .EINVAL)
      else s.ref.onStream s.table fd fun st => s.ref.fallocate s.table st offset len := by
    by_cases hexact : Exact offset ∧ Exact len
    · by_cases hmode : mode = 0 <;> simp [Ref.call, hexact, hmode]
    · rcases not_and_or.mp hexact with h | h <;> simp [Ref.call, h]
  unfold Agrees
  rw [hcall]
  refine Same.failIf (fun _ => .done) fun _ => Same.failIf _ fun _ => Same.failIf _ fun _ => ?_
  refine Same.onStream (fun _ => .done) fun st hst => ?_
  have hf := (hon st hst).1
  obtain ⟨f, hdata, hbytes⟩ := data_of_isFile hf
  have hsize : statSize (s.node st.node) = (s.node st.node).bytes.length := by
    rw [hbytes, FileData.length_bytes]
    simp [statSize, hdata]
  have hsum : number (offset + len) = offset + len := hc st hst
  unfold Ref.fallocate
  by_cases hgrow : offset + len > (s.node st.node).bytes.length
  · obtain ⟨s', res, htrunc, href, htable⟩ := ftruncate_agrees hst hf (offset + len)
    refine .of_map (fun _ => .done) ?_ ((if_pos hgrow).trans href) htable
    rw [gets_bind_apply, hsize, hsum, doIf, if_pos hgrow]
    exact htrunc
  · have hskip : (do
        let oldSize ← Prog.gets fun s => statSize (s.node st.node)
        doIf (number (offset + len) > oldSize) (JsFs.ftruncate fd (number (offset + len))) :
          Sys Unit) s =
        some (s, .ok ()) := by
      rw [gets_bind_apply, hsize, hsum, doIf, if_neg hgrow]
      rfl
    exact ⟨s, .ok .done, bind_of_ok hskip, if_neg hgrow, rfl⟩

theorem data_agrees (c : DataCall) (hon : s.OnFile c.fd) (hc : Sound s c) : Agrees s c := by
  cases c with
  | read fd lens => exact read_agrees hon hc
  | pread fd lens offset => exact pread_agrees hon hc
  | write fd buffers => exact write_agrees hon hc
  | pwrite fd buffers offset => exact pwrite_agrees hon hc
  | lseek fd offset whence => exact lseek_agrees hon hc
  | ftruncate fd length => exact ftruncate64_agrees hon
  | fallocate fd mode offset len => exact fallocate_agrees hon hc

/-! ## Runs -/

/-- The calls one after another, with what they return. -/
def runCalls : FS → List DataCall → Option (FS × List (Except Errno Result))
  | s, [] => some (s, [])
  | s, c :: cs => do
      let (s', res) ← c.run s
      let (s'', rest) ← runCalls s' cs
      pure (s'', res :: rest)

/-- Each call is sound in the state it is made in. -/
def SoundRun : FS → List DataCall → Prop
  | _, [] => True
  | s, c :: cs => Sound s c ∧ ∀ s' res, c.run s = some (s', res) → SoundRun s' cs

/-- In a run of calls on descriptors of MEMFS files, each sound where it is made, the calls return
what the model says, and leave the bytes of the files and the positions the model says. -/
theorem calls_agree (s : FS) (cs : List DataCall) (hon : ∀ c ∈ cs, s.OnFile c.fd)
    (hsound : SoundRun s cs) :
    ∃ s' results, runCalls s cs = some (s', results) ∧
      s.ref.calls s.table cs = (s'.ref, results) ∧ s'.table = s.table := by
  induction cs generalizing s with
  | nil => exact ⟨s, [], rfl, rfl, rfl⟩
  | cons c cs ih =>
    obtain ⟨s₁, res, hrun, hcall, htable⟩ := data_agrees c (hon c (by simp)) hsound.1
    have hon₁ : ∀ c' ∈ cs, s₁.OnFile c'.fd := fun c' hc' =>
      (hon c' (List.mem_cons_of_mem c hc')).of_table htable
    obtain ⟨s₂, results, hruns, hcalls, htable₂⟩ := ih s₁ hon₁ (hsound.2 s₁ res hrun)
    refine ⟨s₂, res :: results, ?_, ?_, htable₂.trans htable⟩
    · simp [runCalls, hrun, hruns]
    · rw [htable] at hcalls
      simp [Ref.calls, hcall, hcalls]

section Examples

attribute [local instance] Build.caseSensitive

/-- A new file, open at descriptor 0. -/
def withFile (flags : Flags) : FS :=
  ((JsFs.open ['f'] (flags ||| O_CREAT) 0o666 FS.initial).map Prod.fst).getD FS.initial

/-- Bytes of the file and position of the description after some calls. -/
def observe (flags : Flags) (cs : List DataCall) :
    Option (List UInt8 × Nat × List (Except Errno Result)) :=
  (runCalls (withFile flags) cs).map fun (s, results) =>
    ((s.node 2).bytes, (s.shared 0).position, results)

/-- The same by the model. -/
def observeRef (flags : Flags) (cs : List DataCall) : List UInt8 × Nat × List (Except Errno Result) :=
  let s := withFile flags
  let (r, results) := s.ref.calls s.table cs
  (r.content 2, r.position 0, results)

example : observe (O_RDWR ||| O_APPEND) [.write 0 [[1, 2]], .lseek 0 0 SEEK_SET, .write 0 [[3]],
    .read 0 [4], .lseek 0 (-2) SEEK_END, .read 0 [4]] = some ([1, 2, 3], 3, [.ok (.count 2),
      .ok (.count 0), .ok (.count 1), .ok (.bytes []), .ok (.count 1), .ok (.bytes [2, 3])]) := by
  decide +kernel

theorem calls_agree_written : ∃ s' results, runCalls (withFile O_RDWR) [.pwrite 0 [[7, 8]] 1] =
    some (s', results) ∧ (withFile O_RDWR).ref.calls (withFile O_RDWR).table [.pwrite 0 [[7, 8]] 1] =
      (s'.ref, results) ∧ s'.table = (withFile O_RDWR).table := by
  have hopen : (withFile O_RDWR).getStream 0 = some ⟨2, ['/', 'f'], true, 0, .memfs⟩ := by
    decide
  have hfile : ((withFile O_RDWR).node 2).isFile = true := by decide
  have hflags : ¬ Has ((withFile O_RDWR).shared 0).flags O_APPEND := by decide
  refine calls_agree (withFile O_RDWR) [.pwrite 0 [[7, 8]] 1] ?_ ⟨?_, fun _ _ _ => trivial⟩
  · intro c hc st hst
    obtain rfl := List.mem_singleton.mp hc
    cases hopen.symm.trans hst
    exact ⟨hfile, rfl, rfl⟩
  · intro st hst
    cases hopen.symm.trans hst
    exact ⟨hflags, .of_exact (by decide)⟩

/-- A write at an offset through a description that appends goes to the offset, and leaves the
position at the end the file had. -/
theorem pwrite_append_moves : observe (O_RDWR ||| O_APPEND) [.write 0 [[1, 2, 3]],
      .lseek 0 0 SEEK_SET, .pwrite 0 [[9]] 1] = some ([1, 9, 3], 3,
        [.ok (.count 3), .ok (.count 0), .ok (.count 1)]) ∧
    observeRef (O_RDWR ||| O_APPEND) [.write 0 [[1, 2, 3]], .lseek 0 0 SEEK_SET,
      .pwrite 0 [[9]] 1] = ([1, 9, 3], 0, [.ok (.count 3), .ok (.count 0), .ok (.count 1)]) := by
  decide

end Examples

end JsFs
