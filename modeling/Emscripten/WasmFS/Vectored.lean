-- SUMMARY: What the loops over the buffers of a vector do, in closed form.
import Emscripten.WasmFS.Offsets

/-!
# Vectored transfers

A vector is transferred buffer by buffer. `Passes` says that the loop gets through some
buffers, each of them transferred in full, and where that leaves it. For writing these are
the buffers that the file takes (`FS.TakesAll`), and they are one write of their bytes
(`FS.store`). The loop then ends: behind the last buffer, at one that is null, or at one
that the file does not take in full.
-/

namespace WasmFS

open Prog

/-! ## Buffers -/

/-- The bytes of the buffers, one after the other. -/
def payload (iovs : List IOVec) : List UInt8 := iovs.flatMap fun iov => iov.buf.getD []

/-- No buffer with a length is a null pointer. -/
def Present (iovs : List IOVec) : Prop := ∀ iov ∈ iovs, 0 < iov.buf_len → iov.buf ≠ none

section Buffers

variable {iov : IOVec} {iovs : List IOVec}

theorem payload_cons (iov : IOVec) (iovs : List IOVec) :
    payload (iov :: iovs) = iov.buf.getD [] ++ payload iovs := List.flatMap_cons

theorem IOVec.getD_of_zero (h : iov.buf_len = 0) : iov.buf.getD [] = [] := by
  cases hbuf : iov.buf with
  | none => rfl
  | some bytes => exact List.eq_nil_of_length_eq_zero ((iov.len_eq bytes hbuf).trans h)

theorem length_payload (h : Present iovs) : (payload iovs).length = total iovs := by
  induction iovs with
  | nil => rfl
  | cons iov rest ih =>
    rw [payload_cons, total_cons, List.length_append, ih fun x hx => h x (List.mem_cons_of_mem _ hx)]
    congr 1
    cases hbuf : iov.buf with
    | some bytes => exact iov.len_eq bytes hbuf
    | none =>
      cases hlen : iov.buf_len with
      | zero => rfl
      | succ n => exact absurd hbuf (h iov List.mem_cons_self (by omega))

end Buffers

/-! ## The loop -/

/-- The loop gets through `before`, and continues in `s'` with what follows. -/
def Passes (check : Nat → Sys Unit) (io : List UInt8 → Nat → Sys (Nat × List UInt8))
    (before : List IOVec) (done : Nat) (data data' : List UInt8) (s s' : FS) : Prop :=
  ∀ rest, transferLoop check io (before ++ rest) done data s =
    transferLoop check io rest (done + total before) data' s'

section Loop

variable {check : Nat → Sys Unit} {io : List UInt8 → Nat → Sys (Nat × List UInt8)}
  {before : List IOVec} {iov : IOVec} {done : Nat} {data data' bytes read : List UInt8}
  {s s₁ s' : FS}

theorem Passes.nil : Passes check io [] done data data s s := fun _ => rfl

theorem Passes.zero (hlen : iov.buf_len = 0) (h : Passes check io before done data data' s s') :
    Passes check io (iov :: before) done data data' s s' := by
  intro rest
  rw [total_cons, hlen, Nat.zero_add, ← h rest, List.cons_append, transferLoop, if_pos hlen]

/-- The loop gets through a buffer that is transferred in full. -/
theorem Passes.cons (hlen : iov.buf_len ≠ 0) (hbuf : iov.buf = some bytes)
    (hcheck : check done s = some (s, .ok ()))
    (hio : io bytes done s = some (s₁, .ok (iov.buf_len, read)))
    (h : Passes check io before (done + iov.buf_len) (data ++ read) data' s₁ s') :
    Passes check io (iov :: before) done data data' s s' := by
  intro rest
  rw [total_cons, ← Nat.add_assoc, ← h rest, List.cons_append, transferLoop, if_neg hlen, hbuf]
  refine (bind_of_ok hcheck).trans ((attempt_of hio).trans ?_)
  change (if iov.buf_len < iov.buf_len then _ else _ : Sys (Nat × List UInt8)) s₁ = _
  rw [if_neg (Nat.lt_irrefl _)]

theorem Passes.ends (h : Passes check io before done data data' s s') :
    transferLoop check io before done data s = some (s', .ok (done + total before, data')) := by
  have hend := h []
  rw [List.append_nil] at hend
  exact hend

/-- The loop fails at a null pointer, whatever it has transferred. -/
theorem Passes.stops_at_null (h : Passes check io before done data data' s s')
    (after : List IOVec) (hlen : 0 < iov.buf_len) (hbuf : iov.buf = none) :
    transferLoop check io (before ++ iov :: after) done data s = some (s', .error .EINVAL) := by
  rw [h, transferLoop, if_neg (Nat.pos_iff_ne_zero.mp hlen), hbuf]
  rfl

/-- The loop ends at a buffer that is not transferred in full: with an error if nothing
has been transferred before. -/
theorem Passes.stops_at_failure {e : Errno} (h : Passes check io before done data data' s s')
    (after : List IOVec) (hlen : 0 < iov.buf_len) (hbuf : iov.buf = some bytes)
    (hcheck : check (done + total before) s' = some (s', .ok ()))
    (hio : io bytes (done + total before) s' = some (s₁, .error e)) :
    transferLoop check io (before ++ iov :: after) done data s =
      some (s₁, if 0 < done + total before then .ok (done + total before, data') else .error e) := by
  rw [h, transferLoop, if_neg (Nat.pos_iff_ne_zero.mp hlen), hbuf]
  refine (bind_of_ok hcheck).trans ((attempt_of hio).trans ?_)
  change (if 0 < done + total before then _ else _ : Sys (Nat × List UInt8)) s₁ = _
  split
  · rfl
  · rfl

theorem Passes.stops_short {n : Nat} (h : Passes check io before done data data' s s')
    (after : List IOVec) (hlen : 0 < iov.buf_len) (hbuf : iov.buf = some bytes)
    (hcheck : check (done + total before) s' = some (s', .ok ()))
    (hio : io bytes (done + total before) s' = some (s₁, .ok (n, read))) (hshort : n < iov.buf_len) :
    transferLoop check io (before ++ iov :: after) done data s =
      some (s₁, .ok (done + total before + n, data' ++ read)) := by
  rw [h, transferLoop, if_neg (Nat.pos_iff_ne_zero.mp hlen), hbuf]
  refine (bind_of_ok hcheck).trans ((attempt_of hio).trans ?_)
  change (if n < iov.buf_len then _ else _ : Sys (Nat × List UInt8)) s₁ = _
  rw [if_pos hshort]
  rfl

end Loop

/-! ## Writing -/

/-- The file takes all of `bytes` at `offset`. -/
def FS.Takes (s : FS) (f : FileId) (bytes : List UInt8) (offset : Nat) : Prop :=
  match (s.file f).data with
  | .memory buffer => offset + bytes.length ≤ max buffer.length SSIZE_MAX
  | .pipe _ => True
  | .external => s.env.write f bytes offset = .ok bytes.length

/-- The file takes all of the buffers, the first of them at `offset`. -/
def FS.TakesAll (s : FS) (f : FileId) : Nat → List IOVec → Prop
  | _, [] => True
  | offset, iov :: rest =>
    (0 < iov.buf_len → ∃ bytes, iov.buf = some bytes ∧ s.Takes f bytes offset) ∧
      s.TakesAll f (offset + iov.buf_len) rest

/-- The file with `bytes` stored at `offset`. -/
def FS.store (s : FS) (f : FileId) (offset : Nat) (bytes : List UInt8) : FS :=
  match (s.file f).data with
  | .memory buffer => s.modifyFile f fun x =>
    { x with data := .memory (ByteSeq.store 0 offset bytes buffer) }
  | .pipe q => { s with pipe := Function.update s.pipe q (s.pipe q ++ bytes) }
  | .external => s

/-- The state after some more requests. -/
def FS.asked (s : FS) (made : List DataRequest) : FS := { s with requests := made ++ s.requests }

/-- The requests for the buffers, the first of them at `offset`, latest first. -/
def writeRequests (f : FileId) : Nat → List IOVec → List DataRequest
  | _, [] => []
  | offset, iov :: rest =>
    writeRequests f (offset + iov.buf_len) rest ++
      if 0 < iov.buf_len then [.write f (iov.buf.getD []) offset] else []

section Writing

variable {s : FS} {f : FileId} {bytes as bs : List UInt8} {offset : Nat} {iovs : List IOVec}

theorem FS.asked_asked (made made' : List DataRequest) :
    (s.asked made).asked made' = s.asked (made' ++ made) := by
  unfold asked
  rw [List.append_assoc]

theorem FS.store_asked (made : List DataRequest) :
    (s.asked made).store f offset bytes = (s.store f offset bytes).asked made := by
  unfold store asked modifyFile
  dsimp only
  split
  · rfl
  · rfl
  · rfl

theorem FS.takes_asked {made : List DataRequest} :
    (s.asked made).Takes f bytes offset ↔ s.Takes f bytes offset := Iff.rfl

theorem FS.takesAll_congr {s s' : FS}
    (h : ∀ bytes offset, s'.Takes f bytes offset ↔ s.Takes f bytes offset) (iovs : List IOVec) :
    ∀ offset, s'.TakesAll f offset iovs ↔ s.TakesAll f offset iovs := by
  induction iovs with
  | nil => exact fun _ => Iff.rfl
  | cons iov rest ih =>
    intro offset
    unfold TakesAll
    simp only [h, ih]

/-- What a file takes does not depend on what it has taken. -/
theorem FS.takes_store (has : as ≠ []) (h : s.Takes f as offset) (bs : List UInt8) (offset' : Nat) :
    (s.store f offset as).Takes f bs offset' ↔ s.Takes f bs offset' := by
  unfold Takes at h ⊢
  unfold store
  cases hdata : (s.file f).data with
  | memory buffer =>
    simp only [hdata] at h
    simp only [modifyFile_file_self, ByteSeq.length_store_of_ne_nil 0 offset as buffer has]
    omega
  | pipe q => simp only [hdata]
  | external => simp only [hdata]

theorem FS.store_nil : s.store f offset [] = s := by
  unfold store
  cases hdata : (s.file f).data with
  | memory buffer =>
    refine FS.modifyFile_eq_self s f (h := fun x => { x with
      data := .memory (ByteSeq.store 0 offset [] buffer) }) ?_
    rw [ByteSeq.store_nil, ← hdata]
  | pipe q =>
    dsimp only
    rw [List.append_nil, Function.update_eq_self]
  | external => rfl

/-- Two writes in a row are one. -/
theorem FS.store_append : (s.store f offset as).store f (offset + as.length) bs =
    s.store f offset (as ++ bs) := by
  cases hdata : (s.file f).data with
  | memory buffer =>
    unfold store
    simp only [hdata, modifyFile, ByteSeq.store_append, Function.update_self,
      Function.update_idem]
  | pipe q =>
    unfold store
    simp only [hdata, Function.update_self, Function.update_idem, List.append_assoc]
  | external =>
    unfold store
    simp only [hdata]

theorem IOVec.ne_nil {iov : IOVec} (hlen : 0 < iov.buf_len) (hbuf : iov.buf = some bytes) :
    bytes ≠ [] := by
  intro hnil
  have hlength := iov.len_eq bytes hbuf
  rw [hnil] at hlength
  exact Nat.ne_of_lt hlen hlength

/-- Nor does it depend on the buffers that it has taken. -/
theorem FS.takes_storeAll (iovs : List IOVec) : ∀ (s : FS) (offset : Nat), s.TakesAll f offset iovs →
    ∀ bs offset', (s.store f offset (payload iovs)).Takes f bs offset' ↔ s.Takes f bs offset' := by
  induction iovs with
  | nil => exact fun s offset _ bs offset' => by rw [show payload [] = [] from rfl, FS.store_nil]
  | cons iov rest ih =>
    intro s offset htakes bs offset'
    rw [payload_cons]
    cases hlen : iov.buf_len with
    | zero =>
      rw [IOVec.getD_of_zero hlen, List.nil_append]
      exact ih s offset (by simpa only [hlen, Nat.add_zero] using htakes.2) bs offset'
    | succ n =>
      obtain ⟨bytes, hbuf, htake⟩ := htakes.1 (by omega)
      have hsame := FS.takes_store (IOVec.ne_nil (by omega) hbuf) htake
      rw [hbuf, Option.getD_some, ← FS.store_append, iov.len_eq bytes hbuf, ← hsame]
      exact ih _ _ ((FS.takesAll_congr hsame rest _).mpr htakes.2) bs offset'

theorem write_of_takes (hbytes : bytes ≠ []) (h : s.Takes f bytes offset) :
    DataFile.write f bytes (offset : Nat) s =
      some ((s.store f offset bytes).asked [.write f bytes offset], .ok bytes.length) := by
  unfold FS.Takes at h
  unfold DataFile.write FS.store
  change (match (s.file f).data with | .memory _ => _ | .pipe _ => _ | .external => _) = _
  cases hdata : (s.file f).data with
  | memory buffer =>
    simp only [hdata] at h
    dsimp only
    rw [if_neg (by omega), if_neg (by omega), Int.toNat_natCast,
      ByteSeq.store_of_ne_nil _ _ _ _ hbytes]
    rfl
  | pipe q => rfl
  | external =>
    simp only [hdata] at h
    change some (_, s.env.write f bytes offset) = _
    rw [h]
    rfl

theorem checkOverflow_of_le {start done : Nat} (h : start + done ≤ OFF_MAX.toNat) :
    checkOverflow start done s = some (s, .ok ()) := by
  unfold checkOverflow
  have hmax : OFF_MAX.toNat ≤ 2 ^ 64 - 1 := by decide
  rw [failIf_apply, if_neg (by omega)]

/-- The loop gets through the buffers that the file takes. -/
theorem passes_of_takesAll (start : Nat) (iovs : List IOVec) :
    ∀ (s : FS) (done : Nat) (data : List UInt8), start + done + total iovs ≤ OFF_MAX.toNat →
      s.TakesAll f (start + done) iovs →
      Passes (checkOverflow start) (writeBuffer f start) iovs done data data s
        ((s.store f (start + done) (payload iovs)).asked (writeRequests f (start + done) iovs)) := by
  induction iovs with
  | nil =>
    intro s done data _ _
    rw [show payload [] = [] from rfl, FS.store_nil]
    exact .nil
  | cons iov rest ih =>
    intro s done data hroom htakes
    rw [total_cons] at hroom
    obtain ⟨htake, hrest⟩ := htakes
    cases hlen : iov.buf_len with
    | zero =>
      rw [hlen, Nat.add_zero] at hrest
      have hpass := Passes.zero hlen (ih s done data (by omega) hrest)
      rwa [payload_cons, IOVec.getD_of_zero hlen, List.nil_append, writeRequests, hlen,
        Nat.add_zero, if_neg (Nat.lt_irrefl 0), List.append_nil]
    | succ n =>
      obtain ⟨bytes, hbuf, htake⟩ := htake (by omega)
      have hlength := iov.len_eq bytes hbuf
      have hbytes := IOVec.ne_nil (by omega) hbuf
      have hcheck : checkOverflow start done s = some (s, .ok ()) :=
        checkOverflow_of_le (by omega)
      have hio : writeBuffer f start bytes done s =
          some ((s.store f (start + done) bytes).asked [.write f bytes (start + done : Nat)],
            .ok (iov.buf_len, [])) := by
        rw [← hlength]
        exact bind_of_ok (write_of_takes hbytes htake)
      have hend : (s.store f (start + done) (payload (iov :: rest))).asked
            (writeRequests f (start + done) (iov :: rest)) =
          (((s.store f (start + done) bytes).asked [.write f bytes (start + done : Nat)]).store f
            (start + (done + iov.buf_len)) (payload rest)).asked
              (writeRequests f (start + (done + iov.buf_len)) rest) := by
        rw [FS.store_asked, FS.asked_asked, payload_cons, writeRequests, if_pos (by omega), hbuf,
          Option.getD_some, ← FS.store_append, hlength, Nat.add_assoc]
      refine Passes.cons (by omega) hbuf hcheck hio ?_
      rw [List.append_nil, hend]
      rw [Nat.add_assoc] at hrest
      have hsame : ∀ bs off, ((s.store f (start + done) bytes).asked
          [.write f bytes (start + done : Nat)]).Takes f bs off ↔ s.Takes f bs off :=
        fun bs off => FS.takes_asked.trans (FS.takes_store hbytes htake bs off)
      exact ih _ (done + iov.buf_len) data (by omega)
        ((FS.takesAll_congr hsame rest _).mpr hrest)

/-- The file takes all buffers, or all up to one that it does not take. -/
theorem FS.takesAll_or (iovs : List IOVec) : ∀ offset, s.TakesAll f offset iovs ∨
    ∃ before iov after, iovs = before ++ iov :: after ∧ s.TakesAll f offset before ∧ 0 < iov.buf_len ∧
      (iov.buf = none ∨ ∃ bytes, iov.buf = some bytes ∧ ¬ s.Takes f bytes (offset + total before)) := by
  induction iovs with
  | nil => exact fun _ => .inl trivial
  | cons iov rest ih =>
    intro offset
    by_cases htake : 0 < iov.buf_len → ∃ bytes, iov.buf = some bytes ∧ s.Takes f bytes offset
    · rcases ih (offset + iov.buf_len) with hall | ⟨before, x, after, rfl, hbefore, hlen, hstop⟩
      · exact .inl ⟨htake, hall⟩
      · refine .inr ⟨iov :: before, x, after, rfl, ⟨htake, hbefore⟩, hlen, ?_⟩
        rwa [total_cons, ← Nat.add_assoc]
    · obtain ⟨hlen, hnot⟩ := Classical.not_imp.mp htake
      refine .inr ⟨[], iov, rest, rfl, trivial, hlen, ?_⟩
      cases hbuf : iov.buf with
      | none => exact .inl rfl
      | some bytes => exact .inr ⟨bytes, rfl, fun htakes => hnot ⟨bytes, hbuf, htakes⟩⟩

theorem FS.TakesAll.present {offset : Nat} (h : s.TakesAll f offset iovs) : Present iovs := by
  induction iovs generalizing offset with
  | nil => exact fun _ hx => absurd hx List.not_mem_nil
  | cons iov rest ih =>
    intro x hx hlen
    rcases List.mem_cons.mp hx with rfl | hx
    · obtain ⟨bytes, hbuf, _⟩ := h.1 hlen
      rw [hbuf]
      exact fun hnone => by cases hnone
    · exact ih h.2 x hx hlen

end Writing

end WasmFS
