-- SUMMARY: What a failing read or write leaves behind: exactly when it has transferred bytes or moved the position first.
import Emscripten.WasmFS.Vectored

/-!
# Failing transfers

A backend's error behind some bytes makes a transfer a short one, but a null pointer
behind some bytes is an error, and the bytes have been transferred by then. A write in
append mode also has its position moved to the end of the file before its first buffer is
looked at. `FS.WriteSpoils` and `FS.ReadSpoils` are the conditions under which a failing
call has changed something.
-/

namespace WasmFS

open Prog

/-! ## States that look the same -/

/-- A request that has left the file it was made to as it was. The content of an external
file is what its backend says: a write that it accepts changes it. -/
def FS.Idle (s : FS) : DataRequest → Prop
  | .read _ _ _ => True
  | .write f bytes offset => (s.file f).data = .external →
      ∀ n, s.env.write f bytes offset = .ok n → n = 0
  | .setSize f _ => (s.file f).data ≠ .external

/-- Files with their bytes, sizes and timestamps, pipes and open descriptions are what they
were in `s`, and so are the files that lie outside. -/
def FS.Undisturbed (s s' : FS) : Prop := ∃ made, s' = s.asked made ∧ ∀ q ∈ made, s.Idle q

/-- Storing `bytes` would change what is in the file. -/
def FS.Stores (s : FS) (f : FileId) (offset : Nat) (bytes : List UInt8) : Prop :=
  match (s.file f).data with
  | .memory buffer => ByteSeq.store 0 offset bytes buffer ≠ buffer
  | .pipe _ => bytes ≠ []
  | .external => bytes ≠ []

section Undisturbed

variable {s s' : FS} {f : FileId} {offset : Nat} {bytes : List UInt8} {made : List DataRequest}

theorem FS.Undisturbed.refl (s : FS) : s.Undisturbed s :=
  ⟨[], rfl, fun _ h => absurd h List.not_mem_nil⟩

/-- Storing something is what disturbs a state, or a request outside that is accepted. -/
theorem FS.undisturbed_store_iff
    (hmade : (∃ q ∈ made, ¬ s.Idle q) ↔ (s.file f).data = .external ∧ bytes ≠ []) :
    s.Undisturbed ((s.store f offset bytes).asked made) ↔ ¬ s.Stores f offset bytes := by
  have hidle : (s.file f).data ≠ .external → ∀ q ∈ made, s.Idle q := by
    intro hext q hq
    by_contra hnot
    exact hext (hmade.mp ⟨q, hq, hnot⟩).1
  unfold Stores
  unfold store at *
  cases hdata : (s.file f).data with
  | memory buffer =>
    simp only [hdata, ne_eq, not_not] at hidle ⊢
    constructor
    · intro ⟨made', heq, _⟩
      have hfile : ({ s.file f with data := .memory (ByteSeq.store 0 offset bytes buffer) } : File) =
          s.file f := by
        have := congrFun (congrArg FS.file heq) f
        rwa [show ((s.modifyFile f _).asked made).file f = _ from s.modifyFile_file_self f _] at this
      have hsame := congrArg File.data hfile
      rw [hdata] at hsame
      exact DataImpl.memory.inj hsame
    · intro hsame
      refine ⟨made, ?_, hidle fun h => by cases h⟩
      rw [FS.modifyFile_eq_self]
      rw [hsame, ← hdata]
  | pipe q =>
    simp only [hdata, ne_eq, not_not] at hidle ⊢
    constructor
    · intro ⟨made', heq, _⟩
      have hpipe := congrFun (congrArg FS.pipe heq) q
      change Function.update s.pipe q (s.pipe q ++ bytes) q = s.pipe q at hpipe
      rw [Function.update_self] at hpipe
      exact List.append_right_eq_self.mp hpipe
    · intro hnil
      refine ⟨made, ?_, hidle fun h => by cases h⟩
      rw [hnil, List.append_nil, Function.update_eq_self]
  | external =>
    simp only [hdata, ne_eq, not_not, true_and] at hmade ⊢
    constructor
    · intro ⟨made', heq, hidle'⟩
      by_contra hne
      obtain ⟨q, hq, hnot⟩ := hmade.mpr hne
      have hrequests := congrArg FS.requests heq
      have hlists : made = made' := List.append_cancel_right hrequests
      exact hnot (hidle' q (hlists ▸ hq))
    · intro hnil
      refine ⟨made, rfl, fun q hq => ?_⟩
      by_contra hnot
      exact hmade.mp ⟨q, hq, hnot⟩ hnil

end Undisturbed

/-! ## Writing -/

/-- The file refuses to take anything of `bytes` at `offset`. -/
def FS.Refuses (s : FS) (f : FileId) (bytes : List UInt8) (offset : Nat) : Prop :=
  match (s.file f).data with
  | .memory buffer => max buffer.length SSIZE_MAX < offset + bytes.length
  | .pipe _ => False
  | .external => ∃ e, s.env.write f bytes offset = .error e

/-- A write from `offset` on ends with an error at the buffer `iov`, behind `before`: at a
null pointer, or at the first bytes if they are refused. -/
structure FS.WriteFails (s : FS) (f : FileId) (offset : Nat) (before : List IOVec) (iov : IOVec) :
    Prop where
  taken : s.TakesAll f offset before
  len : 0 < iov.buf_len
  stops : iov.buf = none ∨
    total before = 0 ∧ ∃ bytes, iov.buf = some bytes ∧ s.Refuses f bytes offset

variable {vec : List IOVec} {iov : IOVec} {e : Errno} {f : FileId}

section Writing

variable {s : FS} {f : FileId} {bytes : List UInt8} {offset start : Nat} {before after iovs : List IOVec}
  {iov : IOVec}

/-- Files outside are asked for something as soon as there is something to write. -/
theorem idle_writeRequests (before : List IOVec) : ∀ offset, s.TakesAll f offset before →
    ((∃ q ∈ writeRequests f offset before, ¬ s.Idle q) ↔
      (s.file f).data = .external ∧ payload before ≠ []) := by
  induction before with
  | nil =>
    intro _ _
    constructor
    · rintro ⟨_, hq, _⟩
      exact absurd hq List.not_mem_nil
    · exact fun h => absurd rfl h.2
  | cons iov rest ih =>
    intro offset htakes
    have hrest := ih _ htakes.2
    rw [payload_cons, writeRequests]
    cases hlen : iov.buf_len with
    | zero =>
      rw [IOVec.getD_of_zero hlen, List.nil_append, if_neg (Nat.lt_irrefl 0), List.append_nil]
      rwa [hlen] at hrest
    | succ n =>
      obtain ⟨bytes, hbuf, htake⟩ := htakes.1 (by omega)
      have hbytes := IOVec.ne_nil (by omega) hbuf
      rw [if_pos (Nat.succ_pos n), hbuf, Option.getD_some]
      constructor
      · rintro ⟨q, hq, hnot⟩
        rcases List.mem_append.mp hq with hq | hq
        · have hext := (hrest.mp ⟨q, by rwa [hlen], hnot⟩).1
          exact ⟨hext, fun h => hbytes (List.append_eq_nil_iff.mp h).1⟩
        · cases List.mem_singleton.mp hq
          have hext : (s.file f).data = .external := by
            by_contra hne
            exact hnot fun h => absurd h hne
          exact ⟨hext, fun h => hbytes (List.append_eq_nil_iff.mp h).1⟩
      · rintro ⟨hext, -⟩
        refine ⟨_, List.mem_append_right _ (List.mem_singleton_self _), fun hidle => ?_⟩
        unfold FS.Takes at htake
        rw [hext] at htake
        exact hbytes (List.eq_nil_of_length_eq_zero (hidle hext _ htake))

theorem write_external (hdata : (s.file f).data = .external) (offset : Int) :
    DataFile.write f bytes offset s =
      some (s.asked [.write f bytes offset], s.env.write f bytes offset) := by
  unfold DataFile.write
  change (match (s.file f).data with | .memory _ => _ | .pipe _ => _ | .external => _) = _
  rw [hdata]
  rfl

theorem write_of_refuses (h : s.Refuses f bytes offset) :
    ∃ e, DataFile.write f bytes (offset : Nat) s =
        some (s.asked [.write f bytes offset], .error e) ∧ s.Idle (.write f bytes offset) := by
  unfold FS.Refuses at h
  cases hdata : (s.file f).data with
  | memory buffer =>
    simp only [hdata] at h
    refine ⟨ Errno.EIO, ?_, fun hext => absurd (hext.symm.trans hdata) (fun h => by cases h)⟩
    unfold DataFile.write
    change (match (s.file f).data with | .memory _ => _ | .pipe _ => _ | .external => _) = _
    rw [hdata]
    dsimp only
    rw [if_pos (by omega)]
    rfl
  | pipe q =>
    simp only [hdata] at h
  | external =>
    simp only [hdata] at h
    obtain ⟨e, he⟩ := h
    refine ⟨e, (write_external hdata _).trans (by rw [he]), fun _ n hn => ?_⟩
    rw [he] at hn
    cases hn

/-- What is not taken is refused, or taken in part by a file outside. -/
theorem refuses_of_not_takes (hdoc : s.env.Documented) (h : ¬ s.Takes f bytes offset) :
    s.Refuses f bytes offset ∨ ∃ n, n < bytes.length ∧
      DataFile.write f bytes (offset : Nat) s = some (s.asked [.write f bytes offset], .ok n) := by
  unfold FS.Takes at h
  unfold FS.Refuses
  cases hdata : (s.file f).data with
  | memory buffer =>
    simp only [hdata] at h
    exact .inl (Nat.lt_of_not_le h)
  | pipe q =>
    simp only [hdata, not_true] at h
  | external =>
    simp only [hdata] at h
    cases hanswer : s.env.write f bytes offset with
    | error e => exact .inl ⟨e, rfl⟩
    | ok n =>
      have hne : n ≠ bytes.length := fun heq => h (heq ▸ hanswer)
      exact .inr ⟨n, Nat.lt_of_le_of_ne (hdoc.write _ _ _ _ hanswer) hne,
        (write_external hdata _).trans (by rw [hanswer])⟩

theorem FS.refuses_storeAll {bs : List UInt8} {offset' : Nat} (htaken : s.TakesAll f offset before) :
    (s.store f offset (payload before)).Refuses f bs offset' ↔ s.Refuses f bs offset' := by
  have hsame := FS.takes_storeAll before s offset htaken bs offset'
  unfold FS.Takes at hsame
  unfold FS.Refuses
  unfold FS.store at *
  cases hdata : (s.file f).data with
  | memory buffer =>
    simp only [hdata, FS.modifyFile_file_self] at hsame ⊢
    exact not_iff_not.mp (by simpa only [Nat.not_lt] using hsame)
  | pipe q => simp only [hdata]
  | external => simp only [hdata]

/-- The write that fails, and what it leaves. -/
theorem writeLoop_fails (hfits : Fits (before ++ iov :: after) start)
    (h : s.WriteFails f start before iov) :
    ∃ e made, writeLoop f start (before ++ iov :: after) s =
        some ((s.store f start (payload before)).asked made, .error e) ∧
      ((∃ q ∈ made, ¬ s.Idle q) ↔ (s.file f).data = .external ∧ payload before ≠ []) := by
  unfold Fits at hfits
  rw [total_append, total_cons] at hfits
  have hpass := passes_of_takesAll start before s 0 [] (by omega) h.taken
  rw [Nat.add_zero] at hpass
  rcases h.stops with hnull | ⟨hzero, bytes, hbuf, hrefuses⟩
  · exact ⟨_, _, hpass.stops_at_null after h.len hnull, idle_writeRequests before start h.taken⟩
  · have hnil : payload before = [] :=
      List.eq_nil_of_length_eq_zero ((length_payload h.taken.present).trans hzero)
    have hidle := idle_writeRequests before start h.taken
    rw [hnil, FS.store_nil] at hpass
    obtain ⟨e, hrun, hharmless⟩ := write_of_refuses
      (s := s.asked (writeRequests f start before)) hrefuses
    have hstop := hpass.stops_at_failure after h.len hbuf
      (checkOverflow_of_le (by omega)) (bind_of_error (by rw [Nat.zero_add, hzero]; exact hrun))
    rw [Nat.zero_add, hzero, if_neg (Nat.lt_irrefl 0), FS.asked_asked] at hstop
    refine ⟨e, _, by rw [hnil, FS.store_nil]; exact hstop, ?_⟩
    rw [← hidle]
    constructor
    · intro ⟨q, hq, hnot⟩
      rcases List.mem_append.mp hq with hq | hq
      · cases List.mem_singleton.mp hq
        exact absurd hharmless hnot
      · exact ⟨q, hq, hnot⟩
    · intro ⟨q, hq, hnot⟩
      exact ⟨q, List.mem_append_right _ hq, hnot⟩

/-- A write fails in no other way. -/
theorem writeLoop_error (hdoc : s.env.Documented) (hfits : Fits iovs start) {s' : FS}
    (hr : writeLoop f start iovs s = some (s', .error e)) :
    ∃ before iov after, iovs = before ++ iov :: after ∧ s.WriteFails f start before iov := by
  unfold Fits at hfits
  rcases s.takesAll_or (f := f) iovs start with hall | ⟨before, iov, after, rfl, htaken, hlen, hstop⟩
  · have hend := (passes_of_takesAll start iovs s 0 [] (by omega) hall).ends
    unfold writeLoop at hr
    rw [hend] at hr
    cases hr
  refine ⟨before, iov, after, rfl, htaken, hlen, ?_⟩
  rcases hstop with hnull | ⟨bytes, hbuf, hnot⟩
  · exact .inl hnull
  refine .inr ?_
  rw [total_append, total_cons] at hfits
  have hpass := passes_of_takesAll start before s 0 [] (by omega) htaken
  rw [Nat.add_zero] at hpass
  have hcheck : checkOverflow start (0 + total before) ((s.store f start (payload before)).asked
      (writeRequests f start before)) = _ := checkOverflow_of_le (by omega)
  have hmid := FS.takes_storeAll before s start htaken bytes (start + (0 + total before))
  rw [Nat.zero_add] at hmid hcheck
  have hdoc' : ((s.store f start (payload before)).asked (writeRequests f start before)).env.Documented := by
    unfold FS.store
    split
    · exact hdoc
    · exact hdoc
    · exact hdoc
  unfold writeLoop at hr
  rcases refuses_of_not_takes hdoc' (mt (FS.takes_asked.trans hmid).mp hnot) with hrefuses | ⟨n, hn, hrun⟩
  · obtain ⟨e', hrun, _⟩ := write_of_refuses hrefuses
    rw [hpass.stops_at_failure after hlen hbuf (by rwa [Nat.zero_add])
      (bind_of_error (by rw [Nat.zero_add]; exact hrun)), Nat.zero_add] at hr
    cases hzero : total before with
    | zero =>
      rw [hzero] at hrefuses
      exact ⟨rfl, bytes, hbuf, (FS.refuses_storeAll htaken).mp hrefuses⟩
    | succ m =>
      rw [hzero, if_pos (Nat.succ_pos m)] at hr
      cases hr
  · rw [hpass.stops_short after hlen hbuf (by rwa [Nat.zero_add])
      (bind_of_ok (by rw [Nat.zero_add]; exact hrun)) (iov.len_eq bytes hbuf ▸ hn)] at hr
    cases hr

end Writing

/-! ### The whole call -/

/-- The write, whose checks have passed, starts at `start`, and fits below the largest
`off_t`. -/
def FS.StartsAt (s : FS) (setOffset : OffsetHandling) (o : OpenId) (iovs : List IOVec)
    (offset start : Nat) : Prop :=
  Fits iovs start ∧ match setOffset with
  | .argument => start = offset
  | .openFileState =>
    if has (s.openFile o).flags O_APPEND then WasmFS.getSize (s.openFile o).file s = some (s, .ok start)
    else start = toFilesize (s.openFile o).position

/-- The position moves before anything is written. -/
def FS.MovesFirst (s : FS) (setOffset : OffsetHandling) (o : OpenId) : Prop :=
  setOffset = .openFileState ∧ has (s.openFile o).flags O_APPEND

instance (s : FS) (setOffset : OffsetHandling) (o : OpenId) : Decidable (s.MovesFirst setOffset o) :=
  inferInstanceAs (Decidable (_ ∧ _))

/-- Where the loop of a write begins. -/
def FS.started (s : FS) (setOffset : OffsetHandling) (o : OpenId) (start : Nat) : FS :=
  if s.MovesFirst setOffset o then s.modifyOpen o fun x => { x with position := start } else s

/-- All checks pass, and then the write ends with an error, while the position has moved
or bytes before the failing buffer have been stored. -/
structure FS.WriteSpoils (s : FS) (setOffset : OffsetHandling) (fd : Int) (iovs : IOVs) (offset : Nat)
    (o : OpenId) (start : Nat) (before : List IOVec) (iov : IOVec) (after : List IOVec) : Prop where
  fetch : wasiFetch fd s = some (s, .ok o)
  checks : writeChecks setOffset o iovs offset s = some (s, .ok ())
  kind : (s.file (s.openFile o).file).kind = .dataFile
  buffers : iovs = .vec (before ++ iov :: after)
  starts : s.StartsAt setOffset o (before ++ iov :: after) offset start
  fails : s.WriteFails (s.openFile o).file start before iov
  spoils : s.Stores (s.openFile o).file start (payload before) ∨
    s.MovesFirst setOffset o ∧ (s.openFile o).position ≠ start

theorem IOVs.eq_vec {iovs : IOVs} {before after : List IOVec} (h : iovs.toList = before ++ iov :: after) :
    iovs = .vec (before ++ iov :: after) := by
  cases iovs with
  | null n => exact absurd h.symm (List.append_ne_nil_of_right_ne_nil _ (List.cons_ne_nil _ _))
  | vec vec => exact congrArg IOVs.vec h

section WriteCall

variable {s s' : FS} {setOffset : OffsetHandling} {fd : Int} {iovs : IOVs} {offset start : Nat} {o : OpenId}

theorem FS.started_of_moves (h : s.MovesFirst setOffset o) :
    s.started setOffset o start = s.modifyOpen o fun x => { x with position := start } := if_pos h

theorem FS.started_of_stays (h : ¬ s.MovesFirst setOffset o) : s.started setOffset o start = s := if_neg h

theorem reads_getSize (f : FileId) (s : FS) : Reads s (getSize f) (fun _ => True) := by
  intro s' r hr
  unfold getSize at hr
  split at hr
  · cases hr
    exact ⟨rfl, fun _ _ => trivial⟩
  · cases hr
    exact ⟨rfl, fun _ _ => trivial⟩
  · split at hr
    · cases hr
      exact ⟨rfl, fun _ _ => trivial⟩
    · cases hr
      exact ⟨rfl, fun _ _ => trivial⟩
    · cases hr
      exact ⟨rfl, fun _ _ => trivial⟩

theorem reads_wasiFetch (fd : Int) (s : FS) : Reads s (wasiFetch fd) (fun _ => True) := by
  refine .bind (reads_getEntry fd) fun found _ => ?_
  cases found with
  | none => exact .fail
  | some o => exact .bind (reads_wasiAdmitOpenFile o) fun _ _ => .pure trivial

theorem reads_validateIOVs (iovs : IOVs) (s : FS) : Reads s (validateIOVs iovs) (fun _ => True) := by
  refine .bind .failIf fun _ _ => ?_
  cases iovs with
  | null n => exact Reads.failIf.conseq fun _ _ => trivial
  | vec iovs => exact Reads.failIf.conseq fun _ _ => trivial

theorem reads_writeChecks (setOffset : OffsetHandling) (o : OpenId) (iovs : IOVs) (offset : Nat) (s : FS) :
    Reads s (writeChecks setOffset o iovs offset) (fun _ => isValidOffset offset) :=
  .bind .failIf fun _ hvalid => Reads.conseq (.bind (reads_getOpenFile o s) fun _ _ =>
    .bind (.gets rfl : Reads s (isSeekable _) (fun b => b = _)) fun _ _ => .bind .failIf fun _ _ => .bind .failIf fun _ _ =>
      reads_validateIOVs iovs s) fun _ _ => not_not.mp hvalid

theorem FS.StartsAt.fits (h : s.StartsAt setOffset o vec offset start) : Fits vec start := h.1

theorem checks_of_fits (h : Fits vec start) : ¬ (¬ isValidOffset start ∨ fitsIOVRange vec start = false) := by
  have hvalid : isValidOffset start := Nat.le_trans (Nat.le_add_right _ _) h
  have hfits := (fitsIOVRange_iff hvalid).mpr h
  rw [hfits]
  exact fun hnot => hnot.elim (fun h => h hvalid) fun h => by cases h

theorem writeOffset_of_starts (hvalid : isValidOffset offset) (h : s.StartsAt setOffset o vec offset start) :
    writeOffset setOffset o (s.openFile o).file vec offset s =
      some (s.started setOffset o start, .ok start) := by
  obtain ⟨hfits, hstart⟩ := h
  unfold writeOffset
  cases setOffset with
  | argument =>
    cases hstart
    dsimp only
    rw [failIf_bind_apply, if_neg (by simpa using (fitsIOVRange_iff hvalid).mpr hfits),
      FS.started_of_stays fun h => by cases h.1]
    rfl
  | openFileState =>
    dsimp only at hstart ⊢
    unfold appendOffset getOpenFile
    rw [gets_bind_apply]
    split at hstart
    · next happend =>
        rw [if_pos happend, FS.started_of_moves ⟨rfl, happend⟩, bind_of_ok hstart, failIf_bind_apply,
          if_neg (checks_of_fits hfits)]
        rfl
    · next happend =>
        rw [if_neg happend, FS.started_of_stays fun h => happend h.2]
        subst hstart
        rw [failIf_bind_apply, if_neg (checks_of_fits hfits)]
        rfl

/-- A write that does not get to its loop has changed nothing. -/
theorem writeOffset_cases (hvalid : isValidOffset offset) {r : Except Errno Nat}
    (hr : writeOffset setOffset o (s.openFile o).file vec offset s = some (s', r)) :
    (∃ e, s' = s ∧ r = .error e) ∨ ∃ start, s.StartsAt setOffset o vec offset start := by
  unfold writeOffset at hr
  cases setOffset with
  | argument =>
    rcases Reads.bind_cases Reads.failIf hr with hfail | ⟨_, hfits, _, _⟩
    · exact .inl hfail
    · exact .inr ⟨offset, (fitsIOVRange_iff hvalid).mp (by simpa using hfits), rfl⟩
  | openFileState =>
    dsimp only at hr
    unfold appendOffset getOpenFile at hr
    rw [gets_bind_apply] at hr
    by_cases happend : has (s.openFile o).flags O_APPEND
    · rw [if_pos happend] at hr
      rcases Reads.bind_cases (reads_getSize _ s) hr with hfail | ⟨size, _, hsize, hr⟩
      · exact .inl hfail
      rcases Reads.bind_cases Reads.failIf hr with hfail | ⟨_, hfits, _, _⟩
      · exact .inl hfail
      · refine .inr ⟨size, fits_of_checks hfits, ?_⟩
        dsimp only
        rwa [if_pos happend]
    · rw [if_neg happend] at hr
      rcases Reads.bind_cases Reads.failIf hr with hfail | ⟨_, hfits, _, _⟩
      · exact .inl hfail
      · refine .inr ⟨_, fits_of_checks hfits, ?_⟩
        dsimp only
        rw [if_neg happend]

theorem FS.started_file : (s.started setOffset o start).file = s.file := by
  unfold started
  split
  · rfl
  · rfl

theorem FS.started_env : (s.started setOffset o start).env = s.env := by
  unfold started
  split
  · rfl
  · rfl

theorem FS.WriteFails.congr {before : List IOVec} (hfile : s'.file = s.file) (henv : s'.env = s.env) :
    s'.WriteFails f start before iov ↔ s.WriteFails f start before iov := by
  have htakes : ∀ bytes offset, s'.Takes f bytes offset ↔ s.Takes f bytes offset := by
    unfold FS.Takes
    rw [hfile, henv]
    exact fun _ _ => Iff.rfl
  have hrefuses : ∀ bytes offset, s'.Refuses f bytes offset ↔ s.Refuses f bytes offset := by
    unfold FS.Refuses
    rw [hfile, henv]
    exact fun _ _ => Iff.rfl
  have hall := FS.takesAll_congr htakes before start
  constructor
  · intro h
    exact ⟨hall.mp h.taken, h.len, by simpa only [hrefuses] using h.stops⟩
  · intro h
    exact ⟨hall.mpr h.taken, h.len, by simpa only [hrefuses] using h.stops⟩

theorem FS.started_eq_self (h : ¬ (s.MovesFirst setOffset o ∧ (s.openFile o).position ≠ start)) :
    s.started setOffset o start = s := by
  by_cases hmoves : s.MovesFirst setOffset o
  · rw [FS.started_of_moves hmoves]
    have hposition : (s.openFile o).position = start := not_not.mp fun hne => h ⟨hmoves, hne⟩
    unfold modifyOpen
    rw [← hposition, Function.update_eq_self]
  · exact FS.started_of_stays hmoves

theorem FS.store_openFile {bytes : List UInt8} : (s.store f offset bytes).openFile = s.openFile := by
  unfold store
  split
  · rfl
  · rfl
  · rfl

/-- What disturbs a state: bytes that are stored, or a position that moves. -/
theorem FS.undisturbed_started_iff {bytes : List UInt8} {made : List DataRequest}
    (hmade : (∃ q ∈ made, ¬ (s.started setOffset o start).Idle q) ↔
      ((s.started setOffset o start).file f).data = .external ∧ bytes ≠ []) :
    s.Undisturbed (((s.started setOffset o start).store f start bytes).asked made) ↔
      ¬ (s.Stores f start bytes ∨ s.MovesFirst setOffset o ∧ (s.openFile o).position ≠ start) := by
  by_cases hmoved : s.MovesFirst setOffset o ∧ (s.openFile o).position ≠ start
  · refine ⟨fun h => absurd h fun ⟨_, heq, _⟩ => ?_, fun h => absurd (.inr hmoved) h⟩
    have hopen := congrFun (congrArg FS.openFile heq) o
    change ((s.started setOffset o start).store f start bytes).openFile o = s.openFile o at hopen
    rw [FS.store_openFile, FS.started_of_moves hmoved.1] at hopen
    have hposition := congrArg OpenFileState.position hopen
    change (Function.update s.openFile o _ o).position = _ at hposition
    rw [Function.update_self] at hposition
    exact hmoved.2 hposition.symm
  · rw [FS.started_eq_self hmoved] at hmade ⊢
    rw [FS.undisturbed_store_iff hmade]
    simp only [hmoved, or_false]

theorem advance_ok (setOffset : OffsetHandling) (o : OpenId) (f : FileId) (position : Nat) (s : FS) :
    ∃ s', advance setOffset o f position s = some (s', .ok ()) := by
  unfold advance isSeekable
  rw [gets_bind_apply]
  split
  · exact ⟨_, rfl⟩
  · exact ⟨_, rfl⟩

/-- The end of a write that has got through its loop. -/
theorem writeEnd_ok (setOffset : OffsetHandling) (o : OpenId) (f : FileId) (start done : Nat) (s : FS) :
    ∃ s', (do advance setOffset o f (start + done); touch f done; pure done : Sys Nat) s =
      some (s', .ok done) := by
  have htouch : ∀ s₁, ∃ s₂, touch f done s₁ = some (s₂, .ok ()) := by
    intro s₁
    unfold touch
    split
    · exact ⟨_, rfl⟩
    · exact ⟨_, rfl⟩
  obtain ⟨s₁, h₁⟩ := advance_ok setOffset o f (start + done) s
  obtain ⟨s₂, h₂⟩ := htouch s₁
  exact ⟨s₂, (bind_of_ok h₁).trans (bind_of_ok h₂)⟩

/-- The loop of a write whose checks pass. -/
theorem writeAtOffset_eq (hfetch : wasiFetch fd s = some (s, .ok o))
    (hchecks : writeChecks setOffset o iovs offset s = some (s, .ok ())) (hlen : ¬ iovs.iovs_len = 0)
    (hkind : (s.file (s.openFile o).file).kind = .dataFile)
    (hstarts : s.StartsAt setOffset o iovs.toList offset start) :
    writeAtOffset setOffset fd iovs offset s =
      (do
        let (done, _) ← writeLoop (s.openFile o).file start iovs.toList
        advance setOffset o (s.openFile o).file (start + done)
        touch (s.openFile o).file done
        pure done : Sys Nat) (s.started setOffset o start) := by
  have hvalid := (reads_writeChecks setOffset o iovs offset s _ _ hchecks).2 () rfl
  unfold writeAtOffset
  rw [bind_of_ok hfetch, bind_of_ok hchecks, if_neg hlen]
  unfold getOpenFile getKind
  rw [gets_bind_apply, gets_bind_apply, failIf_bind_apply, if_neg (not_not.mpr hkind)]
  exact bind_of_ok (writeOffset_of_starts hvalid hstarts)

theorem FS.WriteSpoils.disturbs {before after : List IOVec}
    (h : s.WriteSpoils setOffset fd iovs offset o start before iov after) :
    ∃ s' e, writeAtOffset setOffset fd iovs offset s = some (s', .error e) ∧ ¬ s.Undisturbed s' := by
  obtain ⟨hfetch, hchecks, hkind, rfl, hstarts, hfails, hspoils⟩ := h
  obtain ⟨e, made, hloop, hmade⟩ := writeLoop_fails hstarts.fits
    ((FS.WriteFails.congr FS.started_file FS.started_env).mpr hfails)
  refine ⟨_, e, ?_, fun hsame => (FS.undisturbed_started_iff hmade).mp hsame hspoils⟩
  have hlen : ¬ (IOVs.vec (before ++ iov :: after)).iovs_len = 0 := fun h =>
    List.append_ne_nil_of_right_ne_nil before (List.cons_ne_nil iov after)
      (List.eq_nil_of_length_eq_zero h)
  rw [writeAtOffset_eq hfetch hchecks hlen hkind hstarts]
  exact bind_of_error hloop

theorem writeAtOffset_error (hdoc : s.env.Documented)
    (hr : writeAtOffset setOffset fd iovs offset s = some (s', .error e)) :
    s.Undisturbed s' ∨
      ∃ o start before iov after, s.WriteSpoils setOffset fd iovs offset o start before iov after := by
  have hr' := hr
  unfold writeAtOffset at hr
  rcases Reads.bind_error_cases (reads_wasiFetch fd s) hr with ⟨rfl, _⟩ | ⟨o, _, hfetch, hr⟩
  · exact .inl (.refl _)
  rcases Reads.bind_error_cases (reads_writeChecks setOffset o iovs offset s) hr with
    ⟨rfl, _⟩ | ⟨_, hvalid, hchecks, hr⟩
  · exact .inl (.refl _)
  split at hr
  · cases hr
  next hlen =>
  unfold getOpenFile getKind at hr
  rw [gets_bind_apply, gets_bind_apply] at hr
  rcases Reads.bind_error_cases Reads.failIf hr with ⟨rfl, _⟩ | ⟨_, hkind, _, hr⟩
  · exact .inl (.refl _)
  have hstart : s' = s ∨ ∃ start, s.StartsAt setOffset o iovs.toList offset start := by
    rcases bind_error_iff.mp hr with hoffset | ⟨start, s₁, hoffset, _⟩
    · rcases writeOffset_cases hvalid hoffset with ⟨_, hsame, _⟩ | hstarts
      · exact .inl hsame
      · exact .inr hstarts
    · rcases writeOffset_cases hvalid hoffset with ⟨_, _, herr⟩ | hstarts
      · cases herr
      · exact .inr hstarts
  rcases hstart with rfl | ⟨start, hstarts⟩
  · exact .inl (.refl _)
  rw [writeAtOffset_eq hfetch hchecks hlen (not_not.mp hkind) hstarts] at hr'
  rcases bind_error_iff.mp hr' with hloop | ⟨⟨done, _⟩, s₁, _, hend⟩
  · obtain ⟨before, iov, after, hvec, hfails⟩ :=
      writeLoop_error (by rw [FS.started_env]; exact hdoc) hstarts.fits hloop
    rw [hvec] at hstarts hloop
    obtain ⟨e', made, hrun, hmade⟩ := writeLoop_fails hstarts.fits hfails
    rw [hrun] at hloop
    cases hloop
    rw [FS.undisturbed_started_iff hmade]
    by_cases hspoils : s.Stores (s.openFile o).file start (payload before) ∨
        s.MovesFirst setOffset o ∧ (s.openFile o).position ≠ start
    · exact .inr ⟨o, start, before, iov, after, hfetch, hchecks, not_not.mp hkind,
        IOVs.eq_vec hvec, hstarts, (FS.WriteFails.congr FS.started_file FS.started_env).mp hfails,
        hspoils⟩
    · exact .inl hspoils
  · obtain ⟨_, hok⟩ := writeEnd_ok setOffset o (s.openFile o).file start done s₁
    cases hend.symm.trans hok

end WriteCall

/-! ## Reading -/

/-- All checks pass, and then the read from a pipe ends with an error, at a null pointer
behind buffers that have been filled. -/
structure FS.ReadSpoils (s : FS) (setOffset : OffsetHandling) (fd : Int) (iovs : IOVs) (offset : Nat)
    (o : OpenId) (start : Nat) (q : PipeId) (before : List IOVec) (iov : IOVec) (after : List IOVec) :
    Prop where
  fetch : wasiFetch fd s = some (s, .ok o)
  starts : readOffset setOffset o offset s = some (s, .ok start)
  checks : readChecks setOffset o iovs s = some (s, .ok ())
  kind : (s.file (s.openFile o).file).kind = .dataFile
  data : (s.file (s.openFile o).file).data = .pipe q
  buffers : iovs = .vec (before ++ iov :: after)
  fits : Fits (before ++ iov :: after) start
  filled : Present before
  read : 0 < total before
  queued : total before ≤ (s.pipe q).length
  len : 0 < iov.buf_len
  null : iov.buf = none

/-- The state after reading `n` bytes of a pipe. -/
def FS.drained (s : FS) (q : PipeId) (n : Nat) : FS :=
  { s with pipe := Function.update s.pipe q ((s.pipe q).drop n) }

section Reading

variable {s s' : FS} {f : FileId} {q : PipeId} {start : Nat} {before after iovs : List IOVec} {iov : IOVec}

theorem read_pipe (hdata : (s.file f).data = .pipe q) (len : Nat) (offset : Int) :
    DataFile.read f len offset s =
      some ((s.drained q len).asked [.read f len offset], .ok ((s.pipe q).take len)) := by
  unfold DataFile.read
  change (match (s.file f).data with | .memory _ => _ | .pipe _ => _ | .external => _) = _
  rw [hdata]
  rfl

theorem FS.drained_drained (n m : Nat) : (s.drained q n).drained q m = s.drained q (n + m) := by
  unfold drained
  simp only [Function.update_self, Function.update_idem, List.drop_drop]

theorem FS.drained_zero : s.drained q 0 = s := by
  unfold drained
  rw [List.drop_zero, Function.update_eq_self]

/-- Requests to read leave files as they are. -/
def Reading (made : List DataRequest) : Prop := ∀ r ∈ made, ∃ f len offset, r = .read f len offset

/-- The loop gets through buffers for which the pipe has enough. -/
theorem passes_pipe (start : Nat) (iovs : List IOVec) : ∀ (s : FS) (done : Nat) (data : List UInt8),
    (s.file f).data = .pipe q → Present iovs → total iovs ≤ (s.pipe q).length →
    ∃ data' made, Reading made ∧ Passes (fun _ => pure ()) (readBuffer f start) iovs done data data' s
      ((s.drained q (total iovs)).asked made) := by
  induction iovs with
  | nil =>
    intro s done data _ _ _
    refine ⟨data, [], fun _ h => absurd h List.not_mem_nil, ?_⟩
    rw [show total [] = 0 from rfl, FS.drained_zero]
    exact .nil
  | cons iov rest ih =>
    intro s done data hdata hpresent hqueued
    rw [total_cons] at hqueued ⊢
    have hrest : Present rest := fun x hx => hpresent x (List.mem_cons_of_mem _ hx)
    cases hlen : iov.buf_len with
    | zero =>
      obtain ⟨data', made, hmade, hpass⟩ := ih s done data hdata hrest (by omega)
      rw [Nat.zero_add]
      exact ⟨data', made, hmade, .zero hlen hpass⟩
    | succ n =>
      obtain ⟨bytes, hbuf⟩ := Option.ne_none_iff_exists'.mp (hpresent iov List.mem_cons_self (by omega))
      have hlength := iov.len_eq bytes hbuf
      have hread := read_pipe hdata bytes.length (start + done : Nat)
      have hcount : ((s.pipe q).take bytes.length).length = iov.buf_len := by
        rw [List.length_take]
        omega
      have hio : readBuffer f start bytes done s =
          some ((s.drained q bytes.length).asked [.read f bytes.length (start + done : Nat)],
            .ok (iov.buf_len, (s.pipe q).take bytes.length)) := by
        rw [← hcount]
        exact bind_of_ok hread
      obtain ⟨data', made, hmade, hpass⟩ := ih
        ((s.drained q bytes.length).asked [.read f bytes.length (start + done : Nat)])
        (done + iov.buf_len) (data ++ (s.pipe q).take bytes.length) hdata hrest (by
          change total rest ≤ (Function.update s.pipe q ((s.pipe q).drop bytes.length) q).length
          rw [Function.update_self, List.length_drop]
          omega)
      refine ⟨data', made ++ [.read f bytes.length (start + done : Nat)], fun r hr => ?_,
        .cons (by omega) hbuf rfl hio ?_⟩
      · rcases List.mem_append.mp hr with hr | hr
        · exact hmade r hr
        · exact ⟨_, _, _, List.mem_singleton.mp hr⟩
      · rw [← FS.asked_asked, ← hlen, ← FS.drained_drained]
        rw [hlength] at hpass ⊢
        exact hpass

/-- Reading a pipe fails at a null pointer only, behind buffers that have been filled. -/
theorem readLoop_pipe_error (start : Nat) (iovs : List IOVec) :
    ∀ (s : FS) (done : Nat) (data : List UInt8), (s.file f).data = .pipe q →
    transferLoop (fun _ => pure ()) (readBuffer f start) iovs done data s = some (s', .error e) →
    ∃ before iov after, iovs = before ++ iov :: after ∧ 0 < iov.buf_len ∧ iov.buf = none ∧
      Present before ∧ total before ≤ (s.pipe q).length := by
  induction iovs with
  | nil =>
    intro s done data _ hr
    cases hr
  | cons iov rest ih =>
    intro s done data hdata hr
    unfold transferLoop at hr
    split at hr
    · next hzero =>
        obtain ⟨before, x, after, rfl, hlen, hnull, hpresent, hqueued⟩ := ih s done data hdata hr
        refine ⟨iov :: before, x, after, rfl, hlen, hnull, fun y hy => ?_, by rwa [total_cons, hzero, Nat.zero_add]⟩
        rcases List.mem_cons.mp hy with rfl | hy
        · exact fun hpos => absurd hzero (Nat.ne_of_gt hpos)
        · exact hpresent y hy
    · next hpos =>
        cases hbuf : iov.buf with
        | none =>
          exact ⟨[], iov, rest, rfl, Nat.pos_of_ne_zero hpos, hbuf,
            fun _ h => absurd h List.not_mem_nil, Nat.zero_le _⟩
        | some bytes =>
          have hlength := iov.len_eq bytes hbuf
          have hread := read_pipe hdata bytes.length (start + done : Nat)
          have hio : readBuffer f start bytes done s = _ := bind_of_ok hread
          rw [hbuf] at hr
          replace hr := (attempt_of hio).symm.trans hr
          dsimp only at hr
          split at hr
          · cases hr
          · next hfull =>
              rw [List.length_take] at hfull
              obtain ⟨before, x, after, rfl, hlen, hnull, hpresent, hqueued⟩ := ih _ _ _ (by exact hdata) hr
              change total before ≤ (Function.update s.pipe q _ q).length at hqueued
              rw [Function.update_self, List.length_drop] at hqueued
              refine ⟨iov :: before, x, after, rfl, hlen, hnull, fun y hy => ?_, by rw [total_cons]; omega⟩
              rcases List.mem_cons.mp hy with rfl | hy
              · rw [hbuf]
                exact fun _ hnone => by cases hnone
              · exact hpresent y hy

theorem preserves_transferLoop {I : FS → Prop} {check : Nat → Sys Unit}
    {io : List UInt8 → Nat → Sys (Nat × List UInt8)} (hcheck : ∀ done, Preserves I (check done))
    (hio : ∀ bytes done, Preserves I (io bytes done)) (iovs : List IOVec) :
    ∀ done data, Preserves I (transferLoop check io iovs done data) := by
  induction iovs with
  | nil => exact fun _ _ => .pure
  | cons iov rest ih =>
    intro done data
    unfold transferLoop
    refine .ite (ih done data) ?_
    cases iov.buf with
    | none => exact .fail
    | some bytes =>
      refine .bind (hcheck done) fun _ => .attempt (hio bytes done) fun r => ?_
      cases r with
      | error e => exact .ite .pure .fail
      | ok p => exact .ite .pure (ih _ _)

/-- Reading another file than a pipe leaves everything as it was. -/
theorem undisturbed_readLoop (hdata : ∀ q, (s.file f).data ≠ .pipe q) (start : Nat) :
    Preserves s.Undisturbed (readLoop f start iovs) := by
  refine preserves_transferLoop (fun _ => .pure) (fun bytes done => .bind ?_ fun _ => .pure) iovs 0 []
  refine preserves_of_step fun u u' r hu hr => ?_
  obtain ⟨made, rfl, hidle⟩ := hu
  have hreq : s.Undisturbed ((s.asked made).requested (.read f bytes.length (start + done : Nat))) := by
    refine ⟨.read f bytes.length (start + done : Nat) :: made, rfl, fun q hq => ?_⟩
    rcases List.mem_cons.mp hq with rfl | hq
    · trivial
    · exact hidle q hq
  unfold DataFile.read at hr
  dsimp only at hr
  split at hr
  · split at hr
    · cases hr
    · cases hr
      exact hreq
  · next q hpipe => exact absurd hpipe (hdata q)
  · cases hr
    exact hreq

end Reading

section ReadCall

variable {s s' : FS} {setOffset : OffsetHandling} {fd : Int} {iovs : IOVs} {offset start : Nat} {o : OpenId}

theorem reads_readOffset (setOffset : OffsetHandling) (o : OpenId) (offset : Nat) (s : FS) :
    Reads s (readOffset setOffset o offset) isValidOffset := by
  unfold readOffset
  cases setOffset with
  | argument => exact .bind .failIf fun _ hvalid => .pure (not_not.mp hvalid)
  | openFileState =>
    exact .bind (reads_getOpenFile o s) fun _ _ => .bind .failIf fun _ hvalid =>
      .pure (not_not.mp hvalid)

theorem reads_readChecks (setOffset : OffsetHandling) (o : OpenId) (iovs : IOVs) (s : FS) :
    Reads s (readChecks setOffset o iovs) (fun _ => True) :=
  .bind (reads_getOpenFile o s) fun _ _ => .bind (.gets rfl : Reads s (isSeekable _) (fun b => b = _))
    fun _ _ => .bind .failIf fun _ _ => .bind .failIf fun _ _ => reads_validateIOVs iovs s

/-- The loop of a read whose checks pass. -/
theorem readAtOffset_eq (hfetch : wasiFetch fd s = some (s, .ok o))
    (hstarts : readOffset setOffset o offset s = some (s, .ok start))
    (hchecks : readChecks setOffset o iovs s = some (s, .ok ())) (hlen : ¬ iovs.iovs_len = 0)
    (hkind : (s.file (s.openFile o).file).kind = .dataFile) (hfits : Fits iovs.toList start) :
    readAtOffset setOffset fd iovs offset s =
      (do
        let (done, data) ← readLoop (s.openFile o).file start iovs.toList
        advance setOffset o (s.openFile o).file (start + done)
        pure (done, data) : Sys (Nat × List UInt8)) s := by
  have hvalid := (reads_readOffset setOffset o offset s _ _ hstarts).2 _ rfl
  unfold readAtOffset
  rw [bind_of_ok hfetch, bind_of_ok hstarts, bind_of_ok hchecks, if_neg hlen]
  unfold getOpenFile getKind
  rw [gets_bind_apply, gets_bind_apply, failIf_bind_apply, if_neg (not_not.mpr hkind),
    failIf_bind_apply, if_neg (by simpa using (fitsIOVRange_iff hvalid).mpr hfits)]

theorem FS.ReadSpoils.disturbs {q : PipeId} {before after : List IOVec}
    (h : s.ReadSpoils setOffset fd iovs offset o start q before iov after) :
    ∃ s' e, readAtOffset setOffset fd iovs offset s = some (s', .error e) ∧ ¬ s.Undisturbed s' := by
  obtain ⟨hfetch, hstarts, hchecks, hkind, hdata, rfl, hfits, hfilled, hsome, hqueued, hlen, hnull⟩ := h
  have hvec : ¬ (IOVs.vec (before ++ iov :: after)).iovs_len = 0 := fun h =>
    List.append_ne_nil_of_right_ne_nil before (List.cons_ne_nil iov after)
      (List.eq_nil_of_length_eq_zero h)
  obtain ⟨data', made, hmade, hpass⟩ := passes_pipe start before s 0 [] hdata hfilled hqueued
  have hloop := hpass.stops_at_null after hlen hnull
  refine ⟨(s.drained q (total before)).asked made, .EINVAL, ?_, fun ⟨made', heq, _⟩ => ?_⟩
  · rw [readAtOffset_eq hfetch hstarts hchecks hvec hkind hfits]
    exact bind_of_error hloop
  · have hpipe := congrFun (congrArg FS.pipe heq) q
    change Function.update s.pipe q ((s.pipe q).drop (total before)) q = s.pipe q at hpipe
    rw [Function.update_self] at hpipe
    have hlength := congrArg List.length hpipe
    rw [List.length_drop] at hlength
    omega

theorem readAtOffset_error (hr : readAtOffset setOffset fd iovs offset s = some (s', .error e)) :
    s.Undisturbed s' ∨
      ∃ o start q before iov after, s.ReadSpoils setOffset fd iovs offset o start q before iov after := by
  have hr' := hr
  unfold readAtOffset at hr
  rcases Reads.bind_error_cases (reads_wasiFetch fd s) hr with ⟨rfl, _⟩ | ⟨o, _, hfetch, hr⟩
  · exact .inl (.refl _)
  rcases Reads.bind_error_cases (reads_readOffset setOffset o offset s) hr with
    ⟨rfl, _⟩ | ⟨start, hvalid, hstarts, hr⟩
  · exact .inl (.refl _)
  rcases Reads.bind_error_cases (reads_readChecks setOffset o iovs s) hr with
    ⟨rfl, _⟩ | ⟨_, _, hchecks, hr⟩
  · exact .inl (.refl _)
  split at hr
  · cases hr
  next hlen =>
  unfold getOpenFile getKind at hr
  rw [gets_bind_apply, gets_bind_apply] at hr
  rcases Reads.bind_error_cases Reads.failIf hr with ⟨rfl, _⟩ | ⟨_, hkind, _, hr⟩
  · exact .inl (.refl _)
  rcases Reads.bind_error_cases Reads.failIf hr with ⟨rfl, _⟩ | ⟨_, hfits, _, hr⟩
  · exact .inl (.refl _)
  have hroom : Fits iovs.toList start := (fitsIOVRange_iff hvalid).mp (by simpa using hfits)
  rcases bind_error_iff.mp hr with hloop | ⟨⟨done, _⟩, s₁, _, hend⟩
  · cases hdata : (s.file (s.openFile o).file).data with
    | memory buffer =>
      exact .inl (undisturbed_readLoop (fun q h => by rw [hdata] at h; cases h) start s (.refl s) _ _ hloop)
    | external =>
      exact .inl (undisturbed_readLoop (fun q h => by rw [hdata] at h; cases h) start s (.refl s) _ _ hloop)
    | pipe q =>
      obtain ⟨before, iov, after, hvec, hlen', hnull, hpresent, hqueued⟩ :=
        readLoop_pipe_error start iovs.toList s 0 [] hdata hloop
      rw [hvec] at hloop hroom
      obtain ⟨data', made, hmade, hpass⟩ := passes_pipe start before s 0 [] hdata hpresent hqueued
      cases (hpass.stops_at_null after hlen' hnull).symm.trans hloop
      cases hsome : total before with
      | zero =>
        refine .inl ⟨made, by rw [FS.drained_zero], fun r hmem => ?_⟩
        obtain ⟨f, len, off, rfl⟩ := hmade r hmem
        trivial
      | succ n =>
        exact .inr ⟨o, start, q, before, iov, after, hfetch, hstarts, hchecks, not_not.mp hkind, hdata,
          IOVs.eq_vec hvec, hroom, hpresent, by omega, hqueued, hlen', hnull⟩
  · obtain ⟨s₂, hadvance⟩ := advance_ok setOffset o (s.openFile o).file (start + done) s₁
    cases hend.symm.trans (bind_of_ok hadvance)

end ReadCall

/-! ## The four calls -/

/-- A call that fails leaves everything as it was. -/
def FS.KeepsOnError {α : Type} (s : FS) (call : Sys α) : Prop :=
  ∀ s' e, call s = some (s', .error e) → s.Undisturbed s'

section Calls

variable {s : FS} {setOffset : OffsetHandling} {fd : Int} {iovs : IOVs} {offset : Nat}

theorem keepsOnError_write_iff (hdoc : s.env.Documented) :
    s.KeepsOnError (writeAtOffset setOffset fd iovs offset) ↔
      ¬ ∃ o start before iov after, s.WriteSpoils setOffset fd iovs offset o start before iov after := by
  constructor
  · intro hkeeps ⟨o, start, before, iov, after, hspoils⟩
    obtain ⟨s', e, hrun, hdisturbed⟩ := hspoils.disturbs
    exact hdisturbed (hkeeps s' e hrun)
  · intro hnot s' e hrun
    rcases writeAtOffset_error hdoc hrun with hsame | hspoils
    · exact hsame
    · exact absurd hspoils hnot

theorem keepsOnError_read_iff :
    s.KeepsOnError (readAtOffset setOffset fd iovs offset) ↔
      ¬ ∃ o start q before iov after, s.ReadSpoils setOffset fd iovs offset o start q before iov after := by
  constructor
  · intro hkeeps ⟨o, start, q, before, iov, after, hspoils⟩
    obtain ⟨s', e, hrun, hdisturbed⟩ := hspoils.disturbs
    exact hdisturbed (hkeeps s' e hrun)
  · intro hnot s' e hrun
    rcases readAtOffset_error hrun with hsame | hspoils
    · exact hsame
    · exact absurd hspoils hnot

/-- In every reachable state, and for every vector, a failing call leaves everything as it
was exactly when it is not one that fails behind bytes that it has transferred, or behind
a position that it has moved. -/
theorem transfer_keeps_iff {C : FS → IOCall → Prop} (h : FileReachable C s) (fd : Int) (iovs : IOVs)
    (offset : Nat) :
    (s.KeepsOnError (fdWrite fd iovs) ↔ ¬ ∃ o start before iov after,
      s.WriteSpoils .openFileState fd iovs 0 o start before iov after) ∧
    (s.KeepsOnError (fdPwrite fd iovs offset) ↔ ¬ ∃ o start before iov after,
      s.WriteSpoils .argument fd iovs offset o start before iov after) ∧
    (s.KeepsOnError (fdRead fd iovs) ↔ ¬ ∃ o start q before iov after,
      s.ReadSpoils .openFileState fd iovs 0 o start q before iov after) ∧
    (s.KeepsOnError (fdPread fd iovs offset) ↔ ¬ ∃ o start q before iov after,
      s.ReadSpoils .argument fd iovs offset o start q before iov after) := by
  have hdoc := h.regular_any.env
  exact ⟨keepsOnError_write_iff hdoc, keepsOnError_write_iff hdoc, keepsOnError_read_iff,
    keepsOnError_read_iff⟩

end Calls

/-! ## A new file -/

def openCall : Call := .openat AT_FDCWD "/x".toList (O_CREAT ||| O_RDWR) 0o644

/-- A new instance in which descriptor 3 is open on a new file. -/
def withFile : FS := (FS.init 0 Env.quiet).after openCall

theorem withFile_openFile : withFile.openFile = Function.update (Function.update
    (FS.init 0 Env.quiet).openFile 3 ⟨9, 0, O_CREAT ||| O_RDWR, 0, []⟩) 3
    ⟨9, 0, O_CREAT ||| O_RDWR, 1, []⟩ := rfl

theorem listed_withFile : withFile.Listed := by
  intro o
  rw [withFile_openFile, Function.update_idem, Function.update_apply]
  split
  · exact Nat.zero_le _
  · exact listed_init 0 Env.quiet o

theorem fileReachable_withFile : FileReachable (fun _ _ => True) withFile := by
  have hsettled : (FS.init 0 Env.quiet).Settled :=
    (Reachable.init 0 Env.quiet).sound.tree.settled (show _ from (by decide : (FS.init 0 Env.quiet).SettledWithin 1))
  exact ⟨0, Env.quiet, documented_quiet,
    .tail .refl (.call openCall _ (.ok ()) hsettled (FS.exec_after rfl) listed_withFile)⟩

/-- A null pointer behind a byte is no harm to a read of this file. -/
theorem transfer_keeps_iff_read : withFile.KeepsOnError (fdRead 3 (.vec [.of [0], .null 1])) := by
  refine (transfer_keeps_iff fileReachable_withFile 3 _ 0).2.2.1.mpr ?_
  intro ⟨o, _, q, _, _, _, hspoils⟩
  have hfetch : wasiFetch 3 withFile = some (withFile, .ok 3) := rfl
  cases hfetch.symm.trans hspoils.fetch
  cases hspoils.data

/-- A write of a byte and of a null pointer fails, and has written the byte. -/
theorem write_null_after_byte :
    ¬ ∀ s, FileReachable (fun _ _ => True) s → ∀ fd iovs, s.KeepsOnError (fdWrite fd iovs) := by
  intro hall
  have hrun : ∃ s', fdWrite 3 (.vec [.of [65], .null 1]) withFile = some (s', .error .EINVAL) ∧
      (s'.file 9).data = .memory [65] := ⟨_, rfl, rfl⟩
  obtain ⟨s', hrun, hdata⟩ := hrun
  obtain ⟨made, rfl, _⟩ := hall withFile fileReachable_withFile 3 _ s' .EINVAL hrun
  cases hdata

end WasmFS
