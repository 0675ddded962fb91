-- SUMMARY: The ranges that reach data files, and the positions of open descriptions, over whole runs with I/O.
import Emscripten.WasmFS.Regular

/-!
# Offsets

Every I/O call keeps a state regular, so that whatever reaches a data file lies within
an `off_t`, with one exception: `__syscall_mmap2` scales its offset and `_mmap_js` hands
it to the file, and neither looks at it.
-/

namespace WasmFS

open Prog

variable {W : Requests}

/-! ## Transfers -/

variable (setOffset : OffsetHandling) {offset : Nat} {iovs : List IOVec} {f : FileId} (o : OpenId)

section Transfers

/-- The number of bytes that a vector has room for. -/
def total (iovs : List IOVec) : Nat := (iovs.map IOVec.buf_len).sum

theorem total_cons (iov : IOVec) (iovs : List IOVec) :
    total (iov :: iovs) = iov.buf_len + total iovs := by
  unfold total
  rw [List.map_cons, List.sum_cons]

theorem total_append (iovs iovs' : List IOVec) : total (iovs ++ iovs') = total iovs + total iovs' := by
  unfold total
  rw [List.map_append, List.sum_append]

theorem lengthsFit_iff {limit : Nat} (iovs : List IOVec) : ∀ {done : Nat}, done ≤ limit →
    (lengthsFit limit iovs done = true ↔ done + total iovs ≤ limit) := by
  induction iovs with
  | nil =>
    intro done hdone
    exact ⟨fun _ => hdone, fun _ => rfl⟩
  | cons iov rest ih =>
    intro done hdone
    unfold lengthsFit
    rw [total_cons]
    split
    · refine ⟨fun h => (by cases h), fun h => ?_⟩
      omega
    · rw [ih (by omega), Nat.add_assoc]

theorem fitsIOVRange_iff (h : isValidOffset offset) :
    fitsIOVRange iovs offset = true ↔ offset + total iovs ≤ OFF_MAX.toNat := lengthsFit_iff iovs h

theorem offMax_toNat : (OFF_MAX.toNat : Int) = OFF_MAX := rfl

/-- A write within the range of `off_t`. -/
theorem ensures_write {bytes : List UInt8} (h : offset + bytes.length ≤ OFF_MAX.toNat) :
    Ensures (FS.Regular W) (DataFile.write f bytes offset) (fun n => n ≤ bytes.length) := by
  have hrange : (DataRequest.write f bytes offset).InRange := by
    refine ⟨Int.natCast_nonneg offset, ?_⟩
    rw [← offMax_toNat]
    exact_mod_cast h
  intro s hs s' r hr
  have hreq : (s.requested (.write f bytes offset)).Regular W := hs.requested (W.of_inRange _ hrange)
  unfold DataFile.write at hr
  dsimp only at hr
  split at hr
  · next buffer hdata =>
      split at hr
      · cases hr
        exact hreq
      · next hfits =>
          split at hr
          · cases hr
          · cases hr
            refine ⟨hreq.modifyFile f fun b hb => ?_, Nat.le_refl _⟩
            obtain ⟨hkind, hseek, hbackend, hlen⟩ := hs.file f buffer hdata
            refine ⟨hkind, hseek, hbackend, ?_⟩
            cases hb
            rw [ByteSeq.length_writeAt]
            omega
  · cases hr
    exact ⟨⟨hreq.env, hreq.requests, hreq.position, hreq.file⟩, Nat.le_refl _⟩
  · cases hanswer : s.env.write f bytes offset with
    | ok n =>
      have hanswer' : (s.requested (.write f bytes offset)).env.write f bytes offset = .ok n := hanswer
      rw [hanswer'] at hr
      cases hr
      exact ⟨hreq, hs.env.write _ _ _ _ hanswer⟩
    | error e =>
      have hanswer' : (s.requested (.write f bytes offset)).env.write f bytes offset = .error e := hanswer
      rw [hanswer'] at hr
      cases hr
      exact hreq

theorem ensures_read {len : Nat} (h : offset + len ≤ OFF_MAX.toNat) :
    Ensures (FS.Regular W) (DataFile.read f len offset) (fun bytes => bytes.length ≤ len) := by
  have hrange : (DataRequest.read f len offset).InRange := by
    refine ⟨Int.natCast_nonneg offset, ?_⟩
    rw [← offMax_toNat]
    exact_mod_cast h
  intro s hs s' r hr
  have hreq : (s.requested (.read f len offset)).Regular W := hs.requested (W.of_inRange _ hrange)
  unfold DataFile.read at hr
  dsimp only at hr
  split at hr
  · split at hr
    · cases hr
    · cases hr
      refine ⟨hreq, ?_⟩
      change (ByteSeq.readAt _ _ _).length ≤ len
      rw [ByteSeq.length_readAt]
      exact Nat.min_le_left _ _
  · cases hr
    exact ⟨⟨hreq.env, hreq.requests, hreq.position, hreq.file⟩, List.length_take_le _ _⟩
  · cases hanswer : s.env.read f len offset with
    | ok bytes =>
      have hanswer' : (s.requested (.read f len offset)).env.read f len offset = .ok bytes := hanswer
      rw [hanswer'] at hr
      cases hr
      exact ⟨hreq, hs.env.read _ _ _ _ hanswer⟩
    | error e =>
      have hanswer' : (s.requested (.read f len offset)).env.read f len offset = .error e := hanswer
      rw [hanswer'] at hr
      cases hr
      exact hreq

/-- The loop transfers no more than what the vector has room for, within the range that
was checked. -/
theorem ensures_transferLoop {check : Nat → Sys Unit}
    {io : List UInt8 → Nat → Sys (Nat × List UInt8)} (offset : Nat)
    (hcheck : ∀ done, Preserves (FS.Regular W) (check done))
    (hio : ∀ (bytes : List UInt8) (done : Nat), offset + done + bytes.length ≤ OFF_MAX.toNat →
      Ensures (FS.Regular W) (io bytes done) (fun r => r.1 ≤ bytes.length)) (iovs : List IOVec) :
    ∀ (done : Nat) (data : List UInt8), offset + done + total iovs ≤ OFF_MAX.toNat →
      Ensures (FS.Regular W) (transferLoop check io iovs done data) (fun r => r.1 ≤ done + total iovs) := by
  induction iovs with
  | nil => exact fun done data _ => .pure (Nat.le_refl done)
  | cons iov rest ih =>
    intro done data hroom
    rw [total_cons] at hroom ⊢
    unfold transferLoop
    refine .ite (fun _ => (ih done data (by omega)).conseq fun r hr => by omega) fun _ => ?_
    cases hbuf : iov.buf with
    | none => exact .fail
    | some bytes =>
      have hlen := iov.len_eq bytes hbuf
      refine .bind (.of_preserves (hcheck done)) fun _ _ => ?_
      refine (hio bytes done (by omega)).attempt (fun r hr => ?_) fun e => ?_
      · refine .ite (fun _ => .pure (show done + r.1 ≤ _ by omega)) fun _ => ?_
        exact (ih (done + r.1) _ (by omega)).conseq fun q hq => by omega
      · exact .ite (fun _ => .pure (by omega)) fun _ => .fail

theorem ensures_writeLoop (h : offset + total iovs ≤ OFF_MAX.toNat) :
    Ensures (FS.Regular W) (writeLoop f offset iovs) (fun r => r.1 ≤ total iovs) := by
  refine (ensures_transferLoop offset (fun _ => .failIf) (fun bytes done hroom => ?_) iovs 0 []
    (by omega)).conseq fun r hr => by omega
  exact .bind (ensures_write hroom) fun n hn => .pure hn

theorem ensures_readLoop (h : offset + total iovs ≤ OFF_MAX.toNat) :
    Ensures (FS.Regular W) (readLoop f offset iovs) (fun r => r.1 ≤ total iovs) := by
  refine (ensures_transferLoop offset (fun _ => .pure) (fun bytes done hroom => ?_) iovs 0 []
    (by omega)).conseq fun r hr => by omega
  exact .bind (ensures_read hroom) fun read hread => .pure hread

theorem regular_setPosition {o : OpenId} {position : Int} (h : 0 ≤ position ∧ position ≤ OFF_MAX) :
    Preserves (FS.Regular W) (setPosition o position) :=
  .modify fun _ hs => hs.modifyOpen o h

theorem natCast_inRange {n : Nat} (h : n ≤ OFF_MAX.toNat) : (0 : Int) ≤ n ∧ (n : Int) ≤ OFF_MAX := by
  rw [← offMax_toNat]
  exact ⟨Int.natCast_nonneg n, by exact_mod_cast h⟩

theorem regular_getSize (f : FileId) : Preserves (FS.Regular W) (getSize f) := by
  refine preserves_of_step fun s s' r hs hr => ?_
  unfold getSize at hr
  split at hr
  · cases hr; exact hs
  · cases hr; exact hs
  · split at hr
    · cases hr; exact hs
    · cases hr; exact hs
    · cases hr; exact hs

theorem regular_wasiFetch (fd : Int) : Preserves (FS.Regular W) (wasiFetch fd) := by
  refine .bind .gets fun found => ?_
  cases found with
  | none => exact .fail
  | some o => exact .bind (regular_wasiAdmitOpenFile o) fun _ => .pure

/-- An offset at which the vector fits below the largest `off_t`. -/
def Fits (iovs : List IOVec) (offset : Nat) : Prop := offset + total iovs ≤ OFF_MAX.toNat

theorem fits_of_checks (h : ¬ (¬ isValidOffset offset ∨ fitsIOVRange iovs offset = false)) :
    Fits iovs offset := by
  obtain ⟨hvalid, hfits⟩ := not_or.mp h
  exact (fitsIOVRange_iff (not_not.mp hvalid)).mp (Bool.not_eq_false _ ▸ hfits)

theorem ensures_writeOffset (f : FileId) (iovs : List IOVec) (hvalid : isValidOffset offset) :
    Ensures (FS.Regular W) (writeOffset setOffset o f iovs offset) (Fits iovs) := by
  cases setOffset with
  | argument =>
    exact .bind .failIf fun _ hfits => .pure
      ((fitsIOVRange_iff hvalid).mp (by simpa using hfits))
  | openFileState =>
    refine .bind (.of_preserves .gets) fun x _ => .ite (fun _ => ?_) fun _ => ?_
    · refine .bind (.of_preserves (regular_getSize f)) fun n _ => .bind .failIf fun _ hchecks => ?_
      have hfits := fits_of_checks hchecks
      have hle : n ≤ OFF_MAX.toNat := Nat.le_trans (Nat.le_add_right _ _) hfits
      exact .bind (.of_preserves (regular_setPosition (natCast_inRange hle))) fun _ _ => .pure hfits
    · exact .bind .failIf fun _ hchecks => .pure (fits_of_checks hchecks)

theorem regular_advance (f : FileId) {position : Nat} (h : position ≤ OFF_MAX.toNat) :
    Preserves (FS.Regular W) (advance setOffset o f position) :=
  .bind .gets fun _ => .ite (regular_setPosition (natCast_inRange h)) .pure

theorem regular_touch (f : FileId) (done : Nat) : Preserves (FS.Regular W) (touch f done) :=
  .ite (.modify fun _ hs => hs.updateMTime f) .pure

theorem regular_validateIOVs (iovs : IOVs) : Preserves (FS.Regular W) (validateIOVs iovs) := by
  refine .bind .failIf fun _ => ?_
  cases iovs with
  | null n => exact .failIf
  | vec iovs => exact .failIf

theorem regular_writeAtOffset (fd : Int) (iovs : IOVs) (offset : Nat) :
    Preserves (FS.Regular W) (writeAtOffset setOffset fd iovs offset) := by
  have hchecks : ∀ o, Ensures (FS.Regular W) (writeChecks setOffset o iovs offset)
      (fun _ => isValidOffset offset) := fun o =>
    .bind .failIf fun _ hvalid => Ensures.conseq (Ensures.of_preserves
      (.bind .gets fun _ => .bind .gets fun _ => .bind .failIf fun _ => .bind .failIf fun _ =>
        regular_validateIOVs iovs)) fun _ _ => not_not.mp hvalid
  refine .bind (regular_wasiFetch fd) fun o => Ensures.preserves (Q := fun _ => True) ?_
  refine .bind (hchecks o) fun _ hvalid => .ite (fun _ => .pure trivial) fun _ => ?_
  refine .bind (.of_preserves .gets) fun x _ => .bind (.of_preserves .gets) fun _ _ => ?_
  refine .bind .failIf fun _ _ => .bind (ensures_writeOffset _ _ _ _ hvalid) fun start hfits => ?_
  refine .bind (ensures_writeLoop hfits) fun r hr => ?_
  have hend : start + r.1 ≤ OFF_MAX.toNat := Nat.le_trans (Nat.add_le_add_left hr start) hfits
  exact .bind (.of_preserves (regular_advance _ _ _ hend)) fun _ _ =>
    .bind (.of_preserves (regular_touch _ _)) fun _ _ => .pure trivial

theorem ensures_readOffset (offset : Nat) :
    Ensures (FS.Regular W) (readOffset setOffset o offset) isValidOffset := by
  cases setOffset with
  | argument => exact .bind .failIf fun _ h => .pure (not_not.mp h)
  | openFileState =>
    exact .bind (.of_preserves .gets) fun _ _ => .bind .failIf fun _ h => .pure (not_not.mp h)

theorem regular_readAtOffset (fd : Int) (iovs : IOVs) (offset : Nat) :
    Preserves (FS.Regular W) (readAtOffset setOffset fd iovs offset) := by
  have hchecks : ∀ o, Preserves (FS.Regular W) (readChecks setOffset o iovs) := fun o =>
    .bind .gets fun _ => .bind .gets fun _ => .bind .failIf fun _ => .bind .failIf fun _ =>
      regular_validateIOVs iovs
  refine .bind (regular_wasiFetch fd) fun o => Ensures.preserves (Q := fun _ => True) ?_
  refine .bind (ensures_readOffset setOffset o offset) fun start hvalid => ?_
  refine .bind (.of_preserves (hchecks o)) fun _ _ => .ite (fun _ => .pure trivial) fun _ => ?_
  refine .bind (.of_preserves .gets) fun x _ => .bind (.of_preserves .gets) fun _ _ => ?_
  refine .bind .failIf fun _ _ => .bind .failIf fun _ hfits => ?_
  have hroom := (fitsIOVRange_iff hvalid).mp (by simpa using hfits)
  refine .bind (ensures_readLoop hroom) fun r hr => ?_
  have hend : start + r.1 ≤ OFF_MAX.toNat := Nat.le_trans (Nat.add_le_add_left hr start) hroom
  exact .bind (.of_preserves (regular_advance _ _ _ hend)) fun _ _ => .pure trivial

end Transfers

/-! ## The other calls -/

section Others

/-- A read at any offset changes no file; before the start of one in memory it crashes. -/
theorem regular_read {len : Nat} {offset : Int} (h : W.allowed (.read f len offset)) :
    Preserves (FS.Regular W) (DataFile.read f len offset) := by
  refine preserves_of_step fun s s' r hs hr => ?_
  have hreq : (s.requested (.read f len offset)).Regular W := hs.requested h
  unfold DataFile.read at hr
  dsimp only at hr
  split at hr
  · split at hr
    · cases hr
    · cases hr
      exact hreq
  · cases hr
    exact ⟨hreq.env, hreq.requests, hreq.position, hreq.file⟩
  · cases hr
    exact hreq

theorem regular_seekTarget (x : OpenFileState) (offset : OffT) (whence : Int) :
    Preserves (FS.Regular W) (seekTarget x offset whence) :=
  .ite .pure (.ite (.bind .failIf fun _ => .pure) (.ite (.bind (regular_getSize _) fun _ =>
    .bind .failIf fun _ => .pure) .fail))

theorem regular_doFdSeek (fd : Int) (offset : OffT) (whence : Int) {maxPosition : Int}
    (hmax : maxPosition ≤ OFF_MAX) : Preserves (FS.Regular W) (doFdSeek fd offset whence maxPosition) := by
  refine .bind (regular_wasiFetch fd) fun o => .bind .gets fun x => .bind .gets fun _ => ?_
  refine .bind .failIf fun _ => .bind (regular_seekTarget x offset whence) fun position => ?_
  refine Ensures.preserves (Q := fun _ => True) ?_
  refine .bind .failIf fun _ hneg => .bind .failIf fun _ hle => ?_
  exact .bind (.of_preserves (regular_setPosition ⟨Int.not_lt.mp hneg,
    Int.le_trans (Int.not_lt.mp hle) hmax⟩)) fun _ _ => .pure trivial

theorem regular_doTruncate (f : FileId) (size : OffT) (check : Bool) :
    Preserves (FS.Regular W) (doTruncate f size check) := by
  refine .bind .gets fun _ => .bind .failIf fun _ => .bind .gets fun _ => .bind .failIf fun _ => ?_
  refine Ensures.preserves (Q := fun _ => True) (.bind .failIf fun _ hneg => .of_preserves ?_)
  exact regular_setSize ⟨Int.not_lt.mp hneg, size.le_max⟩

theorem regular_ftruncate (fd : Int) (size : OffT) : Preserves (FS.Regular W) (ftruncate fd size) :=
  .bind (regular_fetch fd) fun _ => .bind .gets fun x => .bind .failIf fun _ =>
    regular_doTruncate x.file size false

theorem regular_fallocate (fd mode : Int) (offset len : OffT) :
    Preserves (FS.Regular W) (fallocate fd mode offset len) := by
  refine .bind (regular_fetch fd) fun o => .bind .gets fun x => ?_
  refine Ensures.preserves (Q := fun _ => True) (.bind .failIf fun _ hrange => ?_)
  refine .bind .failIf fun _ _ => .bind .failIf fun _ _ => .bind (.of_preserves .gets) fun _ _ => ?_
  refine .bind .failIf fun _ _ => .bind (.of_preserves .gets) fun _ _ => .bind .failIf fun _ _ => ?_
  refine .bind .failIf fun _ hmax => .of_preserves (.bind (regular_getSize _) fun _ => .ite ?_ .pure)
  exact regular_setSize (by omega)

/-- A directory listing that is held in memory. -/
def FS.Listed (s : FS) : Prop := ∀ o, (s.openFile o).dirents.length ≤ SSIZE_MAX

theorem preserves_getdents (fd : Int) (count : Nat) :
    Preserves (fun s : FS => s.Regular W ∧ s.Listed) (getdents fd count) := by
  refine .bind .failIf fun _ => .bind (Reads.preserves fun s => reads_fetch fd s) fun o => ?_
  refine Ensures.preserves (Q := fun _ => True) ?_
  refine .bind (Q := fun x => x.dirents.length ≤ SSIZE_MAX) (.gets fun s hs => hs.2 o) fun x hx => ?_
  refine .bind (.of_preserves .gets) fun _ _ => .bind .failIf fun _ _ => .bind (.of_preserves .gets) fun _ _ => ?_
  refine .ite (fun _ => .pure trivial) fun _ => .bind .failIf fun _ _ => ?_
  refine .ite (fun _ => .pure trivial) fun _ => .bind .failIf fun _ _ => ?_
  refine .bind (.of_preserves (.modify fun s hs => ⟨hs.1.modifyOpen o (natCast_inRange ?_), fun y => ?_⟩))
    fun _ _ => .pure trivial
  · rw [List.length_take, List.length_drop]
    have hmax : SSIZE_MAX ≤ OFF_MAX.toNat := by decide
    omega
  · change (Function.update s.openFile o _ y).dirents.length ≤ SSIZE_MAX
    rw [Function.update_apply]
    split
    · exact hs.2 o
    · exact hs.2 y

theorem reads_getOpenFile (s : FS) : Reads s (getOpenFile o) (fun x => x = s.openFile o) := .gets rfl

theorem reads_mmapChecks (allocated : Bool) (len prot flags : Nat) (fd : Int) (s : FS) :
    Reads s (mmapChecks allocated len prot flags fd) (fun _ => True) := by
  refine .bind .failIf fun _ _ => .bind .failIf fun _ _ => .bind .failIf fun _ _ => ?_
  refine .ite (fun _ => .crash) fun _ => .bind (reads_fetch fd s) fun o _ => ?_
  refine .bind (reads_getOpenFile o s) fun x _ => .bind .failIf fun _ _ => .bind .failIf fun _ _ => ?_
  refine .bind (reads_getKind x.file) fun _ _ => .bind .failIf fun _ _ => .bind .failIf fun _ _ => ?_
  exact .bind .failIf fun _ _ => .pure trivial

/-- If the call gets as far as reading a file to map it, then within the range of
`off_t`. -/
def IOCall.Mapped (s : FS) : IOCall → Prop
  | .mmap2 allocated addr len prot flags fd offset => ∀ file, addr = 0 → ¬ has flags MAP_ANONYMOUS →
      mmapChecks allocated len prot flags fd s = some (s, .ok file) →
      0 ≤ mmapOffset offset ∧ mmapOffset offset + len ≤ OFF_MAX
  | _ => True

/-- The same for the requests in `W`. -/
def IOCall.Allowed (W : Requests) (s : FS) : IOCall → Prop
  | .mmap2 allocated addr len prot flags fd offset => ∀ file, addr = 0 → ¬ has flags MAP_ANONYMOUS →
      mmapChecks allocated len prot flags fd s = some (s, .ok file) →
      W.allowed (.read file len (mmapOffset offset))
  | _ => True

theorem FS.Regular.mmap2 {s s' : FS} (h : s.Regular W) {allocated : Bool} {addr : Int}
    {len prot flags : Nat} {fd : Int} {offset : OffT} {r : Except Errno (List UInt8)}
    (hmapped : IOCall.Allowed W s (.mmap2 allocated addr len prot flags fd offset))
    (hr : WasmFS.mmap2 allocated addr len prot flags fd offset s = some (s', r)) : s'.Regular W := by
  rcases Reads.bind_cases Reads.failIf hr with ⟨_, rfl, _⟩ | ⟨_, haddr, _, hr⟩
  · exact h
  split at hr
  · rcases Reads.bind_cases Reads.failIf hr with ⟨_, rfl, _⟩ | ⟨_, _, _, hr⟩
    · exact h
    · cases hr
      exact h
  · next hanon =>
      rcases Reads.bind_cases (reads_mmapChecks allocated len prot flags fd s) hr with
        ⟨_, rfl, _⟩ | ⟨file, _, hchecks, hr⟩
      · exact h
      · have hkept := regular_read (hmapped file (not_not.mp haddr) hanon hchecks) s h s' r hr
        cases r with
        | ok _ => exact hkept
        | error _ => exact hkept

theorem regular_msyncJs (mapped : IOVec) (prot flags : Nat) (fd offset : Int) :
    Preserves (FS.Regular W) (msyncJs mapped prot flags fd offset) :=
  .ite (.bind (regular_writeAtOffset _ _ _ _) fun _ => .pure) .pure

theorem of_discard {α : Type} {prog : Sys α} {s s' : FS} {r : Except Errno Unit}
    (hr : discard prog s = some (s', r)) : ∃ r', prog s = some (s', r') := by
  unfold discard at hr
  cases r with
  | ok _ =>
    obtain ⟨a, s₁, hrun, hk⟩ := bind_ok_iff.mp hr
    cases hk
    exact ⟨_, hrun⟩
  | error e =>
    rcases bind_error_iff.mp hr with hrun | ⟨a, s₁, _, hk⟩
    · exact ⟨_, hrun⟩
    · cases hk

/-- Every I/O call keeps a regular state regular, if its request is allowed. -/
theorem FS.Regular.ioCall {s s' : FS} (h : s.Regular W) (hlisted : s.Listed) {c : IOCall}
    (hallowed : c.Allowed W s) {r : Except Errno Unit} (hr : c.exec s = some (s', r)) : s'.Regular W := by
  have hkeep : ∀ {prog : Sys Unit}, Preserves (FS.Regular W) prog → prog s = some (s', r) → s'.Regular W := by
    intro prog hprog hrun
    have hkept := hprog s h s' r hrun
    cases r with
    | ok _ => exact hkept
    | error _ => exact hkept
  cases c with
  | fdWrite fd iovs => exact hkeep (regular_discard (regular_writeAtOffset _ _ _ _)) hr
  | fdPwrite fd iovs offset => exact hkeep (regular_discard (regular_writeAtOffset _ _ _ _)) hr
  | fdRead fd iovs => exact hkeep (regular_discard (regular_readAtOffset _ _ _ _)) hr
  | fdPread fd iovs offset => exact hkeep (regular_discard (regular_readAtOffset _ _ _ _)) hr
  | fdSeek fd offset whence =>
    exact hkeep (regular_discard (regular_doFdSeek fd offset whence (Int.le_refl _))) hr
  | fdSeekForJs fd offset whence =>
    exact hkeep (regular_discard (regular_doFdSeek fd offset whence (by decide))) hr
  | truncate path size =>
    exact hkeep (.bind (Path.regular_parseFile path AT_FDCWD) fun f => regular_doTruncate f size true) hr
  | ftruncate fd size => exact hkeep (regular_ftruncate fd size) hr
  | fallocate fd mode offset len => exact hkeep (regular_fallocate fd mode offset len) hr
  | getdents fd count =>
    have hkept := Preserves.bind (preserves_getdents fd count) (fun _ => .pure) s ⟨h, hlisted⟩ s' r hr
    cases r with
    | ok _ => exact hkept.1
    | error _ => exact hkept.1
  | fcntlSetFl fd flags =>
    exact hkeep (.bind (regular_fetch fd) fun o => .bind .failIf fun _ => .modify fun s hs =>
      hs.modifyOpen o (hs.position o)) hr
  | mmap2 allocated addr len prot flags fd offset =>
    obtain ⟨_, hr'⟩ := of_discard hr
    exact h.mmap2 hallowed hr'
  | msyncJs mapped prot flags fd offset => exact hkeep (regular_msyncJs mapped prot flags fd offset) hr

end Others

/-! ## Runs -/

/-- Nothing has happened but to metadata and record locks, and to the outside world. -/
structure FS.SameData (s s' : FS) : Prop where
  names : s.SameNames s'
  data : ∀ f, (s'.file f).data = (s.file f).data
  seekable : ∀ f, (s'.file f).seekable = (s.file f).seekable
  openFile : s'.openFile = s.openFile
  pipe : s'.pipe = s.pipe
  requests : s'.requests = s.requests

/-- One step of an instance that does I/O, with calls that are in `C`. The outside world
keeps to its contract, and the listing of a directory fits into memory. -/
inductive FileStep (C : FS → IOCall → Prop) (s : FS) : FS → Prop
  | call (c : Call) (s' : FS) (r : Except Errno Unit) (hsettled : s.Settled)
      (h : c.exec s = some (s', r)) (hlisted : s'.Listed) : FileStep C s s'
  | io (c : IOCall) (s' : FS) (r : Except Errno Unit) (hc : C s c)
      (h : c.exec s = some (s', r)) (hlisted : s'.Listed) : FileStep C s s'
  | expire (d : FileId) (h : ¬ s.Held d) : FileStep C s (s.expire d)
  | other (s' : FS) (h : s.SameData s') (hdoc : s'.env.Documented) : FileStep C s s'

/-- The states that an instance reaches by such steps. -/
def FileReachable (C : FS → IOCall → Prop) (s : FS) : Prop :=
  ∃ root env, env.Documented ∧ Relation.ReflTransGen (FileStep C) (FS.init root env) s

section Runs

variable {s s' : FS} {C : FS → IOCall → Prop}

theorem regular_init (root : Nat) {env : Env} (hdoc : env.Documented) : (FS.init root env).Regular W where
  env := hdoc
  requests q hq := absurd hq List.not_mem_nil
  position o :=
    match o with
    | 0 | 1 | 2 | _ + 3 => ⟨Int.le_refl 0, (by decide : (0 : Int) ≤ OFF_MAX)⟩
  file f :=
    match f with
    | 0 | 1 | 2 | 3 | 4 | 5 | 6 | 7 | 8 | _ + 9 => File.regular_of_data fun _ hb => by cases hb

theorem listed_init (root : Nat) (env : Env) : (FS.init root env).Listed := fun o =>
  match o with
  | 0 | 1 | 2 | _ + 3 => Nat.zero_le _

theorem FS.Regular.expire (h : s.Regular W) (d : FileId) : (s.expire d).Regular W :=
  ⟨h.env, h.requests, h.position, h.file⟩

theorem FS.Regular.other (h : s.Regular W) (hsame : s.SameData s') (hdoc : s'.env.Documented) :
    s'.Regular W where
  env := hdoc
  requests := hsame.requests ▸ h.requests
  position := hsame.openFile ▸ h.position
  file f buffer hbuffer := by
    rw [hsame.data] at hbuffer
    rw [hsame.names.kind, hsame.seekable, hsame.names.backend]
    exact h.file f buffer hbuffer

/-- Every step keeps a state regular, if the requests it makes are allowed. -/
theorem FS.Regular.step (h : s.Regular W) (hlisted : s.Listed)
    (hC : ∀ (u : FS) c, C u c → c.Allowed W u) (hstep : FileStep C s s') : s'.Regular W ∧ s'.Listed := by
  cases hstep with
  | call c _ r _ hr hlisted' =>
    refine ⟨?_, hlisted'⟩
    have hkept := regular_exec c s h s' r hr
    cases r with
    | ok _ => exact hkept
    | error _ => exact hkept
  | io c _ r hc hr hlisted' => exact ⟨h.ioCall hlisted (hC s c hc) hr, hlisted'⟩
  | expire d _ => exact ⟨h.expire d, hlisted⟩
  | other _ hsame hdoc => exact ⟨h.other hsame hdoc, fun o => by rw [hsame.openFile]; exact hlisted o⟩

theorem FileReachable.regular (h : FileReachable C s) (hC : ∀ (u : FS) c, C u c → c.Allowed W u) :
    s.Regular W := by
  obtain ⟨root, env, hdoc, hrun⟩ := h
  suffices hboth : s.Regular W ∧ s.Listed from hboth.1
  induction hrun with
  | refl => exact ⟨regular_init root hdoc, listed_init root env⟩
  | tail _ hstep ih => exact ih.1.step ih.2 hC hstep

def Requests.any : Requests := ⟨fun _ => True, fun _ _ => trivial⟩

def Requests.inRange : Requests := ⟨DataRequest.InRange, fun _ h => h⟩

/-- Every state is regular, but for what was requested. -/
theorem FileReachable.regular_any (h : FileReachable C s) : s.Regular .any :=
  h.regular fun _ c _ =>
    match c with
    | .mmap2 .. => fun _ _ _ _ => trivial
    | .fdWrite .. | .fdPwrite .. | .fdRead .. | .fdPread .. | .fdSeek .. | .fdSeekForJs ..
    | .truncate .. | .ftruncate .. | .fallocate .. | .getdents .. | .fcntlSetFl .. | .msyncJs .. => trivial

theorem IOCall.Mapped.allowed {c : IOCall} (h : c.Mapped s) : c.Allowed .inRange s := by
  cases c with
  | mmap2 allocated addr len prot flags fd offset => exact h
  | _ => trivial

/-- Every request that has reached a data file lies within an `off_t`, and so does every
position. -/
def FS.InRange (s : FS) : Prop :=
  (∀ q ∈ s.requests, q.InRange) ∧
    ∀ o, 0 ≤ (s.openFile o).position ∧ (s.openFile o).position ≤ OFF_MAX

/-- In every run whose mappings are in range, everything is. -/
theorem inRange_of_mapped (h : FileReachable (fun u c => c.Mapped u) s) : s.InRange := by
  have hregular : s.Regular .inRange := h.regular fun _ _ hc => hc.allowed
  exact ⟨hregular.requests, hregular.position⟩

end Runs

/-! ### Given runs -/

theorem documented_quiet : Env.quiet.Documented where
  getSize f n h := by
    cases h
    decide
  write f bytes offset n h := by
    cases h
    exact Nat.le_refl _
  read f len offset bytes h := by
    cases h
    exact Nat.zero_le _

/-- One past the start: an `off_t` that is in range, and one that is not. -/
def offTOne : OffT := ⟨1, by decide, by decide⟩
def offTMinusOne : OffT := ⟨-1, by decide, by decide⟩

/-- Standard input, mapped from its second page on. -/
theorem inRange_of_mapped_second_page :
    ∃ s : FS, s.InRange ∧ s.requests = [.read 0 10 4096] := by
  refine ⟨(FS.init 0 Env.quiet).requested (.read 0 10 4096), ?_, rfl⟩
  refine inRange_of_mapped ⟨0, Env.quiet, documented_quiet, .tail .refl (.io
    (.mmap2 true 0 10 0 MAP_PRIVATE 0 offTOne) _ (.ok ()) ?_ rfl (listed_init 0 Env.quiet))⟩
  intro file _ _ _
  exact ⟨by decide, by decide⟩

/-- Standard input, mapped from before its start. -/
theorem mmap2_reaches_file_unchecked : ¬ ∀ s, FileReachable (fun _ _ => True) s → s.InRange := by
  intro hall
  have hrange := (hall ((FS.init 0 Env.quiet).requested (.read 0 10 (-4096))) ⟨0, Env.quiet,
    documented_quiet, .tail .refl (.io (.mmap2 true 0 10 0 MAP_PRIVATE 0 offTMinusOne) _ (.ok ())
      trivial rfl (listed_init 0 Env.quiet))⟩).1 _ List.mem_cons_self
  exact absurd hrange.1 (by decide)

end WasmFS
