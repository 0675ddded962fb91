-- SUMMARY: Writes that may take their buffer over as the contents of the file, and when they leave the file that other writes leave.
import Emscripten.JsFs.OpenFailures

/-!
# Owned buffers

With `canOwn` a write to a MEMFS file is to save a copy of its bytes. It makes the buffer the storage of the
whole file, so that the file is what the buffer holds, whatever was in it before and wherever the write
starts.
-/

namespace JsFs

open Prog ByteSeq

/-- The settings of a build that `MEMFS.stream_ops.write` depends on. -/
structure Settings where
  ALLOW_MEMORY_GROWTH : Bool
  ASSERTIONS : Bool

/-- A buffer: the range that is written, and whether it lies in the memory of the program. -/
structure TypedArray where
  bytes : List UInt8
  inHeap : Bool

/-- `buffer.subarray(offset, offset + length)` as the contents of a file. -/
def FileData.own (bytes : List UInt8) : FileData :=
  ⟨⟨bytes, bytes.length⟩, ⟨Nat.le_refl _, fun _ hi hlt => absurd hlt (Nat.not_lt.mpr hi)⟩⟩

@[simp] theorem FileData.bytes_own (bytes : List UInt8) : (FileData.own bytes).bytes = bytes := by
  simp [FileData.own, FileData.bytes, Storage.bytes]

variable (build : Settings)

/-- Whether a write that may own its buffer does. -/
def Owns (buffer : TypedArray) (canOwn : Bool) : Prop :=
  canOwn = true ∧ ¬ (build.ALLOW_MEMORY_GROWTH = true ∧ buffer.inHeap = true)

instance (buffer : TypedArray) (canOwn : Bool) : Decidable (Owns build buffer canOwn) :=
  inferInstanceAs (Decidable (_ ∧ _))

/-- `MEMFS.stream_ops.write`. The assertion that fails is a crash. -/
def memfsWrite (f : FileData) (buffer : TypedArray) (position : Nat) (canOwn : Bool) : Option FileData :=
  if buffer.bytes.length = 0 then some f
  else if Owns build buffer canOwn then
    if build.ASSERTIONS = true ∧ position ≠ 0 then none else some (.own buffer.bytes)
  else some (f.write buffer.bytes position)

/-- `FS.write` on a MEMFS file, with `canOwn`. -/
def writeOwn (st : Stream) (buffer : TypedArray) (position : Option Int) (canOwn : Bool) : Sys Nat := do
  Prog.failIf (position.any (· < 0)) .EINVAL
  let s ← Prog.gets id
  Prog.failIf (access (s.flags st) = O_RDONLY) .EBADF
  match (s.node st.node).data with
  | .dir _ => Prog.fail .EISDIR
  | .file f => do
      doIf (st.seekable ∧ Has (s.flags st) O_APPEND) do
        let _ ← llseek st 0 SEEK_END
        pure ()
      let position' ← seekPosition st position
      match memfsWrite build f buffer position' canOwn with
      | none => Prog.crash
      | some f' => do
          setFile st.node f'
          doIf position.isNone (setPosition st (number (position' + buffer.bytes.length)).toNat)
          pure buffer.bytes.length
  | _ => Prog.fail .EINVAL

/-! ## One file and two writes -/

/-- Two calls answer alike and leave files with the same bytes. -/
def SameFiles {α : Type} : Option (FS × Except Errno α) → Option (FS × Except Errno α) → Prop
  | some (s, r), some (t, q) => r = q ∧ ∀ n, (s.node n).bytes = (t.node n).bytes
  | none, none => True
  | _, _ => False

theorem SameFiles.refl {α : Type} (r : Option (FS × Except Errno α)) : SameFiles r r := by
  cases r with
  | none => trivial
  | some r => exact ⟨rfl, fun _ => rfl⟩

theorem SameFiles.bytes {α : Type} {r q : Option (FS × Except Errno α)} (h : SameFiles r q) (n : NodeId) :
    r.map (fun t => (t.1.node n).bytes) = q.map fun t => (t.1.node n).bytes := by
  cases r with
  | none => cases q with
    | none => rfl
    | some q => exact h.elim
  | some r => cases q with
    | none => exact h.elim
    | some q => exact congrArg some (h.2 n)

/-- Some bytes written into a file are the file exactly if they start at its start and cover it. -/
theorem writeAt_eq_iff (position : Nat) (bs l : List UInt8) :
    writeAt 0 position bs l = bs ↔ position = 0 ∧ l.length ≤ bs.length := by
  refine ⟨fun h => ?_, fun ⟨hzero, hle⟩ => ?_⟩
  · have hlength := congrArg List.length h
    rw [length_writeAt] at hlength
    omega
  · refine List.ext_getElem? fun i => ?_
    rw [getElem?_writeAt, hzero, if_neg (Nat.not_lt_zero i), Nat.zero_add, Nat.sub_zero]
    split
    · rfl
    · next hge =>
        rw [List.getElem?_eq_none (Nat.le_of_not_lt hge),
          List.getElem?_eq_none (Nat.le_trans hle (Nat.le_of_not_lt hge))]

/-- The file after a write that may own its buffer is the file after one that may not. -/
def Alike (f : FileData) (buffer : TypedArray) (position : Nat) : Prop :=
  (memfsWrite build f buffer position true).map FileData.bytes =
    (memfsWrite build f buffer position false).map FileData.bytes

theorem alike_iff (f : FileData) (buffer : TypedArray) (position : Nat) : Alike build f buffer position ↔
    (buffer.bytes ≠ [] → Owns build buffer true → position = 0 ∧ f.usedBytes ≤ buffer.bytes.length) := by
  have hno : ¬ Owns build buffer false := fun h => nomatch h.1
  unfold Alike memfsWrite
  rw [if_neg hno]
  split
  · next hnil => exact ⟨fun _ hne => absurd (List.eq_nil_of_length_eq_zero hnil) hne, fun _ => rfl⟩
  · next hsome =>
      have hne : buffer.bytes ≠ [] := fun hnil => hsome (congrArg List.length hnil)
      have hiff := writeAt_eq_iff position buffer.bytes f.bytes
      rw [FileData.length_bytes] at hiff
      split
      · next howns =>
          split
          · next hassert => simp [hne, howns, hassert.2]
          · simp only [Option.map_some, Option.some.injEq, FileData.bytes_own, FileData.bytes_write]
            rw [eq_comm, hiff]
            exact ⟨fun h _ _ => h, fun h => h hne howns⟩
      · next howns => simp [howns]

/-! ## The write of a stream -/

theorem number_pos {n : Nat} (h : 0 < n) : 0 < number n := by
  unfold number
  split
  · exact Int.natCast_pos.mpr h
  · simp only [Int.natAbs_natCast]
    have hunit : 2 ^ (n.log2 - 52) ≤ n :=
      Nat.le_trans (Nat.pow_le_pow_right (by decide) (Nat.sub_le _ _)) (Nat.log2_self_le (Nat.ne_of_gt h))
    have hquot : 0 < n / 2 ^ (n.log2 - 52) := Nat.div_pos hunit (Nat.two_pow_pos _)
    rw [Int.sign_natCast_of_ne_zero (Nat.ne_of_gt h), Int.one_mul]
    apply Int.natCast_pos.mpr
    refine Nat.mul_pos ?_ (Nat.two_pow_pos _)
    split
    · exact Nat.succ_pos _
    · exact hquot

/-- Where a write starts: at the end of the file, if it is opened for appending and the call has no
position. -/
def writeStart (f : FileData) (append : Bool) (position : Option Int) : Nat :=
  match position with
  | none => if append then (number f.usedBytes).toNat else 0
  | some p => p.toNat

theorem writeStart_eq_zero (f : FileData) (append : Bool) :
    writeStart f append none = 0 ↔ (append = true → f.usedBytes = 0) := by
  unfold writeStart
  cases append with
  | false => simp
  | true =>
    cases Nat.eq_zero_or_pos f.usedBytes with
    | inl hzero => simp [hzero, number, Exact]
    | inr hpos =>
      have hnumber := number_pos hpos
      simp only [if_true, true_implies]
      omega

variable {s : FS} {st : Stream} {f : FileData}

theorem llseek_append (hdata : (s.node st.node).data = .file f) (hseek : st.seekable = true)
    (hops : st.stream_ops = .memfs) : llseek st 0 SEEK_END s =
      some (s.setShared st.shared { s.shared st.shared with position := (number f.usedBytes).toNat },
        .ok (number f.usedBytes).toNat) := by
  have hfile : (s.node st.node).isFile = true := by simp [Node.isFile, hdata]
  have hbytes : (s.node st.node).bytes = f.bytes := by simp [Node.bytes, hdata]
  have hnonneg : ¬ number f.usedBytes < 0 := by
    cases Nat.eq_zero_or_pos f.usedBytes with
    | inl hzero => simp [hzero, number, Exact]
    | inr hpos => exact Int.not_lt.mpr (Int.le_of_lt (number_pos hpos))
  have hposition : memfsLlseek s st 0 SEEK_END = .ok (number f.usedBytes).toNat := by
    have hend : SEEK_END ≠ SEEK_CUR := by decide
    unfold memfsLlseek
    simp only [hend, if_false, hfile, and_self, if_true, hbytes, FileData.length_bytes, Int.zero_add]
    exact if_neg hnonneg
  unfold llseek
  rw [gets_bind_apply, failIf_bind_apply, if_neg (by simp [hseek, canSeek, hops, hfile]), failIf_bind_apply,
    if_neg (by decide), bind_of_ok (query_of_eq hposition)]
  rfl

/-- A write on a new stream of a file: which file it makes is the only thing that depends on `canOwn`. -/
theorem writeOwn_runs (hdata : (s.node st.node).data = .file f) (hseek : st.seekable = true)
    (hops : st.stream_ops = .memfs) (hzero : s.position st = 0) (hmode : access (s.flags st) ≠ O_RDONLY)
    (buffer : TypedArray) {position : Option Int} (hposition : position = none ∨ position = some 0) :
    ∃ after : FileData → FS,
      (∀ f' n, ((after f').node n).bytes = if n = st.node then f'.bytes else (s.node n).bytes) ∧
      ∀ canOwn, writeOwn build st buffer position canOwn s =
        (memfsWrite build f buffer (writeStart f (decide (Has (s.flags st) O_APPEND)) position) canOwn).map
          fun f' => (after f', .ok buffer.bytes.length) := by
  -- the state after the seek of a stream that appends
  obtain ⟨s₁, hrun, hnode, hstart⟩ : ∃ s₁,
      doIf (st.seekable ∧ Has (s.flags st) O_APPEND) (do
        let _ ← llseek st 0 SEEK_END
        pure ()) s = some (s₁, .ok ()) ∧ s₁.node = s.node ∧
      s₁.position st = writeStart f (decide (Has (s.flags st) O_APPEND)) none := by
    unfold doIf
    split
    · next h =>
        refine ⟨_, bind_of_ok (llseek_append hdata hseek hops), rfl, ?_⟩
        simp [FS.position, FS.setShared, writeStart, h.2]
    · next h =>
        have happend : ¬ Has (s.flags st) O_APPEND := fun happend => h ⟨hseek, happend⟩
        exact ⟨s, rfl, rfl, by simp [writeStart, happend, hzero]⟩
  have hany : ¬ position.any (· < 0) = true := by
    cases hposition with
    | inl hnone => simp [hnone]
    | inr hsome => simp [hsome]
  have hseekPosition : seekPosition st position s₁ =
      some (s₁, .ok (writeStart f (decide (Has (s.flags st) O_APPEND)) position)) := by
    cases hposition with
    | inl hnone =>
      subst hnone
      exact congrArg (fun p => some (s₁, Except.ok p)) hstart
    | inr hsome =>
      subst hsome
      unfold seekPosition
      simp only [failIf_bind_apply, hseek, not_true, if_false]
      rfl
  generalize writeStart f (decide (Has (s.flags st) O_APPEND)) position = start at *
  refine ⟨fun f' =>
    let s₂ := s₁.setNode st.node { s₁.node st.node with data := .file f' }
    if position.isNone then
      s₂.setShared st.shared { s₂.shared st.shared with
        position := (number (start + buffer.bytes.length)).toNat }
    else s₂, ?_, ?_⟩
  · intro f' n
    have hnodes : ∀ sh, ((s₁.setNode st.node { s₁.node st.node with data := .file f' }).setShared st.shared
        sh).node n = (s₁.setNode st.node { s₁.node st.node with data := .file f' }).node n := fun _ => rfl
    have hbytes : ((s₁.setNode st.node { s₁.node st.node with data := .file f' }).node n).bytes =
        if n = st.node then f'.bytes else (s.node n).bytes := by
      simp only [FS.setNode, Function.update_apply, hnode]
      split <;> rfl
    dsimp only
    split
    · rw [hnodes, hbytes]
    · exact hbytes
  · intro canOwn
    unfold writeOwn
    simp only [failIf_bind_apply, gets_bind_apply, id_eq, if_neg hany, if_neg hmode, hdata]
    rw [bind_of_ok hrun, bind_of_ok hseekPosition]
    cases memfsWrite build f buffer start canOwn with
    | none => rfl
    | some f' =>
      cases hposition with
      | inl hnone => subst hnone; rfl
      | inr hsome => subst hsome; rfl

theorem writeOwn_same_iff (hdata : (s.node st.node).data = .file f) (hseek : st.seekable = true)
    (hops : st.stream_ops = .memfs) (hzero : s.position st = 0) (hmode : access (s.flags st) ≠ O_RDONLY)
    (buffer : TypedArray) {position : Option Int} (hposition : position = none ∨ position = some 0) :
    SameFiles (writeOwn build st buffer position true s) (writeOwn build st buffer position false s) ↔
      Alike build f buffer (writeStart f (decide (Has (s.flags st) O_APPEND)) position) := by
  obtain ⟨after, hbytes, hrun⟩ := writeOwn_runs build hdata hseek hops hzero hmode buffer hposition
  rw [hrun, hrun]
  unfold Alike
  generalize memfsWrite build f buffer _ true = owned
  generalize memfsWrite build f buffer _ false = copied
  cases owned with
  | none => cases copied <;> simp [SameFiles]
  | some f₁ =>
    cases copied with
    | none => simp [SameFiles]
    | some f₂ =>
      simp only [Option.map_some, SameFiles, true_and, Option.some.injEq]
      refine ⟨fun h => ?_, fun h n => ?_⟩
      · have hnode := h st.node
        rwa [hbytes, hbytes, if_pos rfl, if_pos rfl] at hnode
      · rw [hbytes, hbytes, h]

/-- What is no file, or not open for writing, is not written to, whatever may be owned. -/
theorem writeOwn_refused (h : (s.node st.node).isFile = false ∨ access (s.flags st) = O_RDONLY)
    (buffer : TypedArray) (position : Option Int) :
    ∃ e, ∀ canOwn, writeOwn build st buffer position canOwn s = some (s, .error e) := by
  unfold writeOwn
  simp only [failIf_bind_apply, gets_bind_apply, id_eq]
  split
  · exact ⟨_, fun _ => rfl⟩
  split
  · exact ⟨_, fun _ => rfl⟩
  next hmode =>
  have hfile := h.resolve_right hmode
  unfold Node.isFile at hfile
  cases hdata : (s.node st.node).data with
  | file f => simp [hdata] at hfile
  | _ => exact ⟨_, fun _ => rfl⟩

/-! ## The stream that `open` gives -/

theorem registerStream_ok {s s' : FS} {n : NodeId} {flags : Flags} {fd : Nat}
    (h : registerStream n flags s = some (s', .ok fd)) : s'.node = s.node ∧
      ∃ st, s'.getStream fd = some st ∧ st.node = n ∧ st.seekable = true ∧
        s'.shared st.shared = ⟨streamFlags flags, 0⟩ ∧
        ((s.node n).isChrdev = false → st.stream_ops = .memfs) := by
  cases hp : s.pathOf n with
  | none =>
    obtain ⟨_, _, hpath, _⟩ := bind_ok_iff.mp h
    simp [getPath, hp] at hpath
  | some p =>
    cases hfd : s.nextfd with
    | error e =>
      rw [registerStream_full hp hfd] at h
      cases h
    | ok fd' =>
      rw [registerStream_free hp hfd] at h
      obtain ⟨_, s₁, hopen, hpure⟩ := bind_ok_iff.mp h
      cases hpure
      have hstream : (s.registered n p flags fd).getStream fd =
          some ⟨n, p, true, s.nextShared, .memfs⟩ := by
        simp [FS.registered, FS.getStream_setStream]
      have hshared : (s.registered n p flags fd).shared s.nextShared = ⟨streamFlags flags, 0⟩ := by
        simp [FS.registered, FS.setStream, FS.newShared, FS.setShared]
      cases hchr : (s.node n).isChrdev with
      | false =>
        have hplain := openStream_plain (s := s.registered n p flags fd) hchr fd
        cases hplain.symm.trans hopen
        exact ⟨rfl, _, hstream, rfl, rfl, hshared, fun _ => rfl⟩
      | true =>
        -- a device has its own operations
        unfold openStream at hopen
        rw [gets_bind_apply] at hopen
        unfold Node.isChrdev at hchr
        split at hchr
        · next rdev hdata =>
            have hdata' : ((s.registered n p flags fd).node n).data = .chrdev rdev := hdata
            simp only [id_eq, hdata'] at hopen
            cases hdev : (s.registered n p flags fd).devices rdev with
            | none =>
              rw [hdev] at hopen
              cases hopen
            | some device =>
              rw [hdev] at hopen
              simp only [modify_bind_apply] at hopen
              cases herror : device.openError with
              | some e =>
                rw [herror] at hopen
                cases hopen
              | none =>
                rw [herror] at hopen
                cases hopen
                exact ⟨rfl, ⟨n, p, true, s.nextShared, .device rdev⟩,
                  by simp [FS.getStream_setStream, hstream], rfl, rfl, hshared, by simp⟩
        · cases hchr

theorem checkNode_ok {s s' : FS} {n : NodeId} {created : Bool} {flags : Flags}
    (h : checkNode n created flags s = some (s', .ok ())) :
    (created = true ∨ ¬ Has flags O_TRUNC) ∧ s' = s ∨
      created = false ∧ Has flags O_TRUNC ∧ ∃ f, (s.node n).data = .file f ∧ s' = s.emptied n f := by
  cases created with
  | true =>
    rw [checkNode_created] at h
    split at h
    · cases h
    · cases h
      exact .inl ⟨.inl rfl, rfl⟩
  | false =>
    cases Classical.em (s.Passes n flags) with
    | inr hno =>
      obtain ⟨e, he⟩ := checkNode_of_not_passes hno
      cases he.symm.trans h
    | inl hpass =>
      rw [checkNode_of_passes hpass] at h
      unfold doIf at h
      split at h
      · next htrunc =>
          cases doTruncate_cases n s with
          | inl herror =>
            obtain ⟨e, he⟩ := herror
            cases he.symm.trans h
          | inr hfile =>
            obtain ⟨f, hf, _, hrun⟩ := hfile
            cases hrun.symm.trans h
            exact .inr ⟨rfl, htrunc, f, hf, rfl⟩
      · next htrunc =>
          cases h
          exact .inl ⟨.inr htrunc, rfl⟩

theorem has_streamFlags (flags : Flags) : Has (streamFlags flags) O_APPEND ↔ Has flags O_APPEND := by
  have hmask : ~~~(O_EXCL ||| O_TRUNC ||| O_NOFOLLOW) &&& O_APPEND = O_APPEND := by decide
  unfold Has streamFlags
  rw [BitVec.and_assoc, hmask]

theorem bytes_of_not_isFile {nd : Node} (h : nd.isFile = false) : nd.bytes = [] := by
  unfold Node.isFile at h
  unfold Node.bytes
  split at h
  · cases h
  · rfl

theorem bytes_emptied (s : FS) (n : NodeId) (f : FileData) :
    ((s.emptied n f).node n).isFile = true ∧ ((s.emptied n f).node n).bytes = [] := by
  simp [FS.emptied, FS.setNode, Node.isFile, Node.bytes, resize]

section Calls

variable [Build]

/-- `FS.writeFile`. The flags are those of `opts`, where they are given. -/
def writeFile (path : Path) (data : TypedArray) (flags : Option Flags) (mode : Mode) (canOwn : Bool) :
    Sys Unit := do
  let fd ← «open» path (flags.getD (O_TRUNC ||| O_CREAT ||| O_WRONLY)) mode
  let st ← query fun s => s.getStreamChecked fd
  let _ ← writeOwn build st data none canOwn
  closeStream fd

/-- `FS.open`, and `FS.write` at the position 0. -/
def openAndWrite (path : Path) (data : TypedArray) (flags : Flags) (mode : Mode) (canOwn : Bool) :
    Sys Nat := do
  let fd ← «open» path flags mode
  let st ← query fun s => s.getStreamChecked fd
  writeOwn build st data (some 0) canOwn


/-- The bytes of the file that `open` finds and does not truncate. -/
def FS.keptBytes (s : FS) (path : Path) (flags : Flags) : List UInt8 :=
  if Has flags O_TRUNC then []
  else match s.target path flags with
    | .ok ⟨_, some n⟩ => (s.node n).bytes
    | _ => []

/-- A stream of a file starts at its start, and the file holds what `open` has left in it. -/
theorem open_ok {s s' : FS} {path : Path} {flags : Flags} {mode : Mode} {fd : Nat} (hs : s.Allocated)
    (h : «open» path flags mode s = some (s', .ok fd)) : ∃ st, s'.getStream fd = some st ∧
      ((s'.node st.node).isFile = true → st.seekable = true ∧ st.stream_ops = .memfs ∧
        s'.shared st.shared = ⟨streamFlags flags, 0⟩ ∧
        (s'.node st.node).bytes = s.keptBytes path flags) ∧
      ((s'.node st.node).isFile = false → s.keptBytes path flags = []) := by
  obtain ⟨e, he⟩ | ⟨n, created, s₁, hopens, he⟩ := open_cases path flags mode s
  · cases he.symm.trans h
  rw [he] at h
  obtain ⟨_, s₂, hcheck, h⟩ := bind_ok_iff.mp h
  obtain ⟨_, s₃, hregister, h⟩ := bind_ok_iff.mp h
  obtain ⟨_, s₄, hchmod, hpure⟩ := bind_ok_iff.mp h
  cases hpure
  obtain ⟨hnode, st, hst, hn, hseek, hshared, hops⟩ := registerStream_ok hregister
  -- the change of the mode leaves the table and the data
  obtain ⟨hstream', hshared', hdata'⟩ : s'.getStream fd = s₃.getStream fd ∧ s'.shared = s₃.shared ∧
      (s'.node n).data = (s₂.node n).data := by
    unfold doIf at hchmod
    split at hchmod
    · cases hchmod
      refine ⟨rfl, rfl, ?_⟩
      simp [FS.setNode, hnode]
    · cases hchmod
      exact ⟨rfl, rfl, by rw [hnode]⟩
  have hfile : (s'.node n).isFile = (s₂.node n).isFile := by
    unfold Node.isFile
    rw [hdata']
  have hbytes : (s'.node n).bytes = (s₂.node n).bytes := by
    unfold Node.bytes
    rw [hdata']
  have hplain : ∀ {nd : Node}, nd.isFile = true → nd.isChrdev = false := by
    intro nd hnd
    unfold Node.isFile at hnd
    unfold Node.isChrdev
    split at hnd
    · next f hf => rw [hf]
    · cases hnd
  have hkept : ((s₂.node n).isFile = true → s₁.openFlags n flags = flags ∧
      (s₂.node n).bytes = s.keptBytes path flags) ∧
      ((s₂.node n).isFile = false → s.keptBytes path flags = []) := by
    cases hopens with
    | made p parent hl hcreat hdir hmakes =>
      have hnone : s.keptBytes path flags = [] := by simp [FS.keptBytes, hl]
      obtain ⟨hmade, _⟩ := (FS.Opens.made p parent hl hcreat hdir hmakes).made_node hs
      cases checkNode_ok hcheck with
      | inr hemptied => cases hemptied.1
      | inl hsame =>
        obtain ⟨-, rfl⟩ := hsame
        refine ⟨fun hf => ⟨openFlags_plain (hplain hf) flags, ?_⟩, fun _ => hnone⟩
        rw [hnone]
        simp [Node.bytes, hmade]
    | found p _ hl hexcl =>
      have hfound : s.keptBytes path flags = if Has flags O_TRUNC then [] else (s.node n).bytes := by
        simp [FS.keptBytes, hl]
      cases checkNode_ok hcheck with
      | inl hsame =>
        obtain ⟨hno, rfl⟩ := hsame
        refine ⟨fun hf => ?_, fun hf => ?_⟩
        · have hflags := openFlags_plain (hplain hf) flags
          rw [hflags] at hno
          exact ⟨hflags, by rw [hfound, if_neg (hno.resolve_left (by simp))]⟩
        · rw [hfound, bytes_of_not_isFile hf]
          split <;> rfl
      | inr hemptied =>
        obtain ⟨-, htrunc, f, hf, rfl⟩ := hemptied
        have hflags := openFlags_plain (n := n) (s := s) (by simp [Node.isChrdev, hf]) flags
        rw [hflags] at htrunc
        obtain ⟨hisFile, hempty⟩ := bytes_emptied s n f
        refine ⟨fun _ => ⟨hflags, by rw [hempty, hfound, if_pos htrunc]⟩, fun hno => ?_⟩
        rw [hisFile] at hno
        cases hno
  refine ⟨st, hstream'.trans hst, ?_⟩
  rw [hn]
  refine ⟨fun hf => ?_, fun hf => hkept.2 (hfile ▸ hf)⟩
  have hf₂ := hfile ▸ hf
  obtain ⟨hflags, hbytes₂⟩ := hkept.1 hf₂
  exact ⟨hseek, hops (hplain hf₂), by rw [hshared', hshared, hflags], hbytes.trans hbytes₂⟩

/-! ## When the calls agree -/

/-- What `open` has left in the file is not longer than what is written, and nothing is appended to it;
unless nothing is written, or nothing is owned. -/
def FS.Covers (s : FS) (path : Path) (flags : Flags) (data : TypedArray) (position : Option Int) : Prop :=
  data.bytes ≠ [] → Owns build data true → access flags ≠ O_RDONLY →
    (s.keptBytes path flags).length ≤ data.bytes.length ∧
      (position = none → Has flags O_APPEND → s.keptBytes path flags = [])

theorem writeOwn_alike {s s' : FS} {path : Path} {flags : Flags} {mode : Mode} {fd : Nat} (hs : s.Allocated)
    (h : «open» path flags mode s = some (s', .ok fd)) (data : TypedArray) {position : Option Int}
    (hposition : position = none ∨ position = some 0) : ∃ st, s'.getStreamChecked fd = .ok st ∧
      (SameFiles (writeOwn build st data position true s') (writeOwn build st data position false s') ↔
        s.Covers build path flags data position) ∧
      ∀ canOwn t r, writeOwn build st data position canOwn s' = some (t, .ok r) → r = data.bytes.length := by
  obtain ⟨st, hst, hfile, hother⟩ := open_ok hs h
  have hchecked : s'.getStreamChecked fd = .ok st := by simp [FS.getStreamChecked, hst]
  refine ⟨st, hchecked, ?_⟩
  -- where nothing is written both calls fail alike
  have hrefused : (s'.node st.node).isFile = false ∨ access (s'.flags st) = O_RDONLY →
      SameFiles (writeOwn build st data position true s') (writeOwn build st data position false s') ∧
      ∀ canOwn t r, writeOwn build st data position canOwn s' = some (t, .ok r) → r = data.bytes.length := by
    intro h
    obtain ⟨e, he⟩ := writeOwn_refused build h data position
    refine ⟨by rw [he, he]; exact .refl _, fun canOwn t r hr => ?_⟩
    cases (he canOwn).symm.trans hr
  cases hisFile : (s'.node st.node).isFile with
  | false =>
    obtain ⟨hsame, hvalue⟩ := hrefused (.inl hisFile)
    have hnil := hother hisFile
    refine ⟨iff_of_true hsame fun _ _ _ => ?_, hvalue⟩
    rw [hnil]
    exact ⟨Nat.zero_le _, fun _ _ => rfl⟩
  | true =>
    obtain ⟨hseek, hops, hshared, hbytes⟩ := hfile hisFile
    have hflags : s'.flags st = streamFlags flags := by simp [FS.flags, hshared]
    have hzero : s'.position st = 0 := by simp [FS.position, hshared]
    have haccess : access (s'.flags st) = access flags := by rw [hflags, access_streamFlags]
    cases Classical.em (access flags = O_RDONLY) with
    | inl hread =>
      obtain ⟨hsame, hvalue⟩ := hrefused (.inr (haccess.trans hread))
      exact ⟨iff_of_true hsame fun _ _ hwrite => absurd hread hwrite, hvalue⟩
    | inr hwrite =>
      have hmode : access (s'.flags st) ≠ O_RDONLY := haccess ▸ hwrite
      obtain ⟨f, hdata, hf⟩ := FS.data_of_isFile hisFile
      obtain ⟨after, -, hrun⟩ := writeOwn_runs build hdata hseek hops hzero hmode data hposition
      refine ⟨?_, fun canOwn t r hr => ?_⟩
      · rw [writeOwn_same_iff build hdata hseek hops hzero hmode data hposition, alike_iff]
        have hused : f.usedBytes = (s.keptBytes path flags).length := by
          rw [← hbytes, hf, FileData.length_bytes]
        have happend : Has (s'.flags st) O_APPEND ↔ Has flags O_APPEND := hflags ▸ has_streamFlags flags
        have hstart : writeStart f (decide (Has (s'.flags st) O_APPEND)) position = 0 ↔
            (position = none → Has flags O_APPEND → s.keptBytes path flags = []) := by
          cases hposition with
          | inl hnone => simp [hnone, writeStart_eq_zero, happend, hused]
          | inr hsome => simp [hsome, writeStart]
        unfold FS.Covers
        simp only [hstart, hused, hwrite, ne_eq, not_false_eq_true, true_implies]
        exact ⟨fun h hne howns => (h hne howns).symm, fun h hne howns => (h hne howns).symm⟩
      · rw [hrun] at hr
        obtain ⟨f', _, heq⟩ := Option.map_eq_some_iff.mp hr
        cases heq
        rfl

omit [Build] in
/-- A stream that is closed leaves the files. -/
theorem sameFiles_close {m m' : Sys Nat} {s : FS} {n : Nat} (fd : Nat)
    (hm : ∀ t r, m s = some (t, .ok r) → r = n) (hm' : ∀ t r, m' s = some (t, .ok r) → r = n) :
    SameFiles ((m >>= fun _ => closeStream fd) s) ((m' >>= fun _ => closeStream fd) s) ↔
      SameFiles (m s) (m' s) := by
  change SameFiles (seq m _ s) (seq m' _ s) ↔ _
  unfold seq
  cases h : m s with
  | none => cases h' : m' s with
    | none => exact Iff.rfl
    | some r' => obtain ⟨t', _ | _⟩ := r' <;> exact Iff.rfl
  | some r =>
    obtain ⟨t, r⟩ := r
    cases h' : m' s with
    | none => cases r <;> exact Iff.rfl
    | some r' =>
      obtain ⟨t', r'⟩ := r'
      cases r with
      | error e => cases r' with
        | error e' => simp [SameFiles]
        | ok a' => simp [SameFiles, closeStream]
      | ok a => cases r' with
        | error e' => simp [SameFiles, closeStream]
        | ok a' =>
          obtain rfl := hm t a h
          obtain rfl := hm' t' a' h'
          simp [SameFiles, closeStream, FS.setStream]

/-- Owning the buffer makes the file that copying makes exactly if what is written covers what `open` has left
of it. The flags that `writeFile` takes without any always leave nothing. -/
theorem canOwn_same_file {s s' : FS} (hs : s.Allocated) {path : Path} {flags : Flags} {mode : Mode} {fd : Nat}
    (h : «open» path flags mode s = some (s', .ok fd)) (data : TypedArray) :
    (SameFiles (writeFile build path data (some flags) mode true s)
      (writeFile build path data (some flags) mode false s) ↔ s.Covers build path flags data none) ∧
    (SameFiles (openAndWrite build path data flags mode true s)
      (openAndWrite build path data flags mode false s) ↔ s.Covers build path flags data (some 0)) ∧
    (flags = O_TRUNC ||| O_CREAT ||| O_WRONLY → SameFiles (writeFile build path data none mode true s)
      (writeFile build path data none mode false s)) := by
  have hwriteFile : SameFiles (writeFile build path data (some flags) mode true s)
      (writeFile build path data (some flags) mode false s) ↔ s.Covers build path flags data none := by
    obtain ⟨st, hst, hiff, hvalue⟩ := writeOwn_alike build hs h data (.inl rfl)
    unfold writeFile
    simp only [Option.getD_some]
    rw [bind_of_ok h, bind_of_ok h, bind_of_ok (query_of_eq hst), bind_of_ok (query_of_eq hst),
      sameFiles_close fd (hvalue true) (hvalue false)]
    exact hiff
  refine ⟨hwriteFile, ?_, ?_⟩
  · obtain ⟨st, hst, hiff, -⟩ := writeOwn_alike build hs h data (.inr rfl)
    unfold openAndWrite
    rw [bind_of_ok h, bind_of_ok h, bind_of_ok (query_of_eq hst), bind_of_ok (query_of_eq hst)]
    exact hiff
  · rintro rfl
    apply hwriteFile.mpr
    have htrunc : Has (O_TRUNC ||| O_CREAT ||| O_WRONLY) O_TRUNC := by decide
    have hnil : s.keptBytes path (O_TRUNC ||| O_CREAT ||| O_WRONLY) = [] := if_pos htrunc
    intro _ _ _
    rw [hnil]
    exact ⟨Nat.zero_le _, fun _ _ => rfl⟩

end Calls

section Examples

attribute [local instance] Build.caseSensitive

/-- A file that is made by the call. -/
theorem canOwn_same_file_new : ∃ s' fd, «open» ['f'] (O_CREAT ||| O_WRONLY) 0o666 FS.initial = some (s', .ok fd) ∧
    SameFiles (writeFile ⟨true, true⟩ ['f'] ⟨[1, 2], false⟩ (some (O_CREAT ||| O_WRONLY)) 0o666 true FS.initial)
      (writeFile ⟨true, true⟩ ['f'] ⟨[1, 2], false⟩ (some (O_CREAT ||| O_WRONLY)) 0o666 false FS.initial) := by
  have hopen : ((«open» ['f'] (O_CREAT ||| O_WRONLY) 0o666 FS.initial).map fun r => r.2.toOption) =
      some (some 0) := by decide
  obtain ⟨⟨s', r⟩, hrun, hr⟩ := Option.map_eq_some_iff.mp hopen
  cases r with
  | error e => cases hr
  | ok fd =>
    refine ⟨s', fd, hrun, ?_⟩
    apply (canOwn_same_file ⟨true, true⟩ allocated_initial hrun ⟨[1, 2], false⟩).1.mpr
    have hnil : FS.initial.keptBytes ['f'] (O_CREAT ||| O_WRONLY) = [] := by decide
    intro _ _ _
    rw [hnil]
    exact ⟨Nat.zero_le _, fun _ _ => rfl⟩

/-- A file of three bytes: the first one is written again; a fourth is appended. -/
theorem canOwn_drops_bytes : ∃ s, (∃ r, writeFile ⟨false, false⟩ ['f'] ⟨[1, 2, 3], false⟩ none 0o666 false
    FS.initial = some (s, r)) ∧
    ¬ SameFiles (openAndWrite ⟨false, false⟩ ['f'] ⟨[9], false⟩ O_RDWR 0 true s)
      (openAndWrite ⟨false, false⟩ ['f'] ⟨[9], false⟩ O_RDWR 0 false s) ∧
    ¬ SameFiles (writeFile ⟨false, false⟩ ['f'] ⟨[9], false⟩ (some (O_WRONLY ||| O_APPEND)) 0 true s)
      (writeFile ⟨false, false⟩ ['f'] ⟨[9], false⟩ (some (O_WRONLY ||| O_APPEND)) 0 false s) := by
  have hbytes : ((writeFile ⟨false, false⟩ ['f'] ⟨[1, 2, 3], false⟩ none 0o666 false FS.initial).map fun r =>
      ([true, false].map fun canOwn =>
        (openAndWrite ⟨false, false⟩ ['f'] ⟨[9], false⟩ O_RDWR 0 canOwn r.1).map fun t => (t.1.node 2).bytes,
      [true, false].map fun canOwn =>
        (writeFile ⟨false, false⟩ ['f'] ⟨[9], false⟩ (some (O_WRONLY ||| O_APPEND)) 0 canOwn r.1).map
          fun t => (t.1.node 2).bytes)) =
      some ([some [9], some [9, 2, 3]], [some [9], some [1, 2, 3, 9]]) := by decide
  obtain ⟨⟨s, r⟩, hrun, hobs⟩ := Option.map_eq_some_iff.mp hbytes
  simp only [List.map_cons, List.map_nil, Prod.mk.injEq, List.cons.injEq, and_true] at hobs
  obtain ⟨⟨howned, hcopied⟩, hownedEnd, hcopiedEnd⟩ := hobs
  refine ⟨s, ⟨r, hrun⟩, fun h => ?_, fun h => ?_⟩
  · have heq := h.bytes 2
    rw [howned, hcopied] at heq
    cases heq
  · have heq := h.bytes 2
    rw [hownedEnd, hcopiedEnd] at heq
    cases heq

end Examples

end JsFs
