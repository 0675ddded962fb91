-- SUMMARY: The access mode of an open description: what each call makes of it, and what it protects.
import Emscripten.Lib.Machine
import Emscripten.JsFs.Calls

/-!
# Access modes

The access mode is a part of the flags word that duplicates share. `Session` runs the calls
and remembers with which flags each description was opened. As long as no `F_SETFL` brings
an access bit in, the mode of every description is the one it was opened with, and the
checks of the data paths hold reads and writes off.
-/

namespace JsFs

open Prog Machine

/-! ## What a call does to the descriptions -/

/-- From `s` to `s'` no description has got another access mode, and a stream of `s'` has a
description that `s` had open, or a new one, opened with `flags`. -/
structure FS.Moves (flags : Option Flags) (s s' : FS) : Prop where
  nextShared : s.nextShared ≤ s'.nextShared
  kept : ∀ k < s.nextShared, access (s'.shared k).flags = access (s.shared k).flags
  streams : ∀ fd st, s'.getStream fd = some st →
    (∃ fd₀ st₀, s.getStream fd₀ = some st₀ ∧ st₀.shared = st.shared) ∨
      s.nextShared ≤ st.shared ∧ st.shared < s'.nextShared ∧
        ∃ f, flags = some f ∧ access (s'.shared st.shared).flags = access f

variable (st : Stream) (n : NodeId) (path : Path) {s' : FS} {k : SharedId}

namespace FS.Moves

variable {flags : Option Flags} {s s' : FS}

theorem of_same (hn : s'.nextShared = s.nextShared)
    (hk : ∀ k, access (s'.shared k).flags = access (s.shared k).flags)
    (hs : ∀ fd st, s'.getStream fd = some st →
      ∃ fd₀ st₀, s.getStream fd₀ = some st₀ ∧ st₀.shared = st.shared) : s.Moves flags s' where
  nextShared := Nat.le_of_eq hn.symm
  kept k _ := hk k
  streams fd st hst := .inl (hs fd st hst)

instance : IsPreorder FS (FS.Moves flags) where
  refl s := of_same rfl (fun _ => rfl) fun fd st h => ⟨fd, st, h, rfl⟩
  trans s t u h h' := by
    refine ⟨Nat.le_trans h.nextShared h'.nextShared, fun k hk => ?_, fun fd st hst => ?_⟩
    · exact (h'.kept k (Nat.lt_of_lt_of_le hk h.nextShared)).trans (h.kept k hk)
    · rcases h'.streams fd st hst with ⟨fd₁, st₁, h₁, he⟩ | ⟨hle, hlt, f, hf, hacc⟩
      · rcases h.streams fd₁ st₁ h₁ with ⟨fd₀, st₀, h₀, he₀⟩ | ⟨hle, hlt, f, hf, hacc⟩
        · exact .inl ⟨fd₀, st₀, h₀, he₀.trans he⟩
        · rw [he] at hle hlt hacc
          refine .inr ⟨hle, Nat.lt_of_lt_of_le hlt h'.nextShared, f, hf, ?_⟩
          exact (h'.kept _ hlt).trans hacc
      · exact .inr ⟨Nat.le_trans h.nextShared hle, hlt, f, hf, hacc⟩

theorem of_kept (h : s.StreamsKept s') : s.Moves flags s' := by
  refine of_same h.nextShared (fun k => by rw [h.shared]) fun fd st hst => ⟨fd, st, ?_, rfl⟩
  simpa [FS.getStream, h.streams] using hst

/-- A change of a description that keeps its access mode. -/
theorem setShared {sh : Shared} (h : access sh.flags = access (s.shared k).flags) :
    s.Moves flags (s.setShared k sh) := by
  refine of_same rfl (fun j => ?_) fun fd st hst => ⟨fd, st, hst, rfl⟩
  simp only [FS.setShared, Function.update_apply]
  split
  · next he => rw [he, h]
  · rfl

/-- A descriptor more for a description that is open. -/
theorem setStream {fd fd₀ : Nat} {st₀ : Stream} (h : s.getStream fd₀ = some st₀)
    {st : Option Stream} (hst : ∀ st', st = some st' → st'.shared = st₀.shared) :
    s.Moves flags (s.setStream fd st) := by
  refine of_same rfl (fun _ => rfl) fun fd' st' h' => ?_
  rw [FS.getStream_setStream] at h'
  split at h'
  · exact ⟨fd₀, st₀, h, (hst st' h').symm⟩
  · exact ⟨fd', st', h', rfl⟩

end FS.Moves

/-! ## Words -/

theorem access_and_not {flags mask : Flags} (h : ~~~mask &&& O_ACCMODE = O_ACCMODE) :
    access (flags &&& ~~~mask) = access flags := by
  unfold access
  rw [BitVec.and_assoc, h]

theorem access_streamFlags (flags : Flags) : access (streamFlags flags) = access flags :=
  access_and_not (by decide)

/-- Bits that the description has already change nothing. -/
theorem access_or {flags arg : Flags} (h : access arg &&& ~~~flags = 0) :
    access (flags ||| arg) = access flags := by
  unfold access at *
  refine BitVec.eq_of_getElem_eq fun i hi => ?_
  have hbit := congrArg (fun w : Flags => w[i]) h
  simp at hbit ⊢
  cases hf : flags[i] <;> cases ha : arg[i] <;> simp_all

/-! ## Each call -/

variable {flags : Option Flags}

theorem createStream_apply (f : Flags) (seekable : Bool) (ops : StreamOps) (s : FS) :
    createStream n path f seekable ops s =
      match s.nextfd with
      | .error e => some (s, .error e)
      | .ok fd => some ((s.newShared ⟨f, 0⟩).setStream fd
          (some ⟨n, path, seekable, s.nextShared, ops⟩), .ok fd) := by
  unfold createStream
  change seq (chooseFd none) _ s = _
  unfold seq
  cases h : s.nextfd with
  | error e => simp [chooseFd, h]
  | ok fd =>
    simp only [chooseFd, query_apply, h]
    rfl

/-- A new description, opened with the flags that are passed down. -/
theorem moves_createStream (f : Flags) (seekable : Bool) (ops : StreamOps) :
    Within (FS.Moves (some f)) (createStream n path f seekable ops) := by
  intro s s' r h
  rw [createStream_apply] at h
  split at h
  · cases h
    exact refl_of _ _
  · next fd _ =>
      cases h
      refine ⟨Nat.le_succ _, fun k hk => ?_, fun fd' st hst => ?_⟩
      · have hne : k ≠ s.nextShared := Nat.ne_of_lt hk
        simp [FS.setStream, FS.newShared, FS.setShared, Function.update_of_ne hne]
      · rw [FS.getStream_setStream] at hst
        split at hst
        · cases hst
          refine .inr ⟨Nat.le_refl _, Nat.lt_succ_self _, f, rfl, ?_⟩
          simp [FS.setStream, FS.newShared, FS.setShared]
        · exact .inl ⟨fd', st, hst, rfl⟩

theorem moves_openStream (fd : Nat) (n : NodeId) : Within (FS.Moves flags) (openStream fd n) := by
  refine .bind .gets fun s => ?_
  split
  · split
    · exact .fail
    · refine .bind (.modify fun t => ?_) fun _ => within_throwIf _
      -- The descriptor keeps its description, if it has one.
      cases h : t.getStream fd with
      | some st =>
        refine FS.Moves.setStream h fun st' he => ?_
        obtain ⟨st₁, h₁, rfl⟩ := Option.map_eq_some_iff.mp he
        rw [Option.some.inj h₁]
      | none =>
        refine FS.Moves.of_same rfl (fun _ => rfl) fun fd' st' h' => ?_
        rw [FS.getStream_setStream] at h'
        split at h'
        · cases h'
        · exact ⟨fd', st', h', rfl⟩
  · exact .pure

/-- Moving the position leaves the flags. -/
theorem moves_setPosition (position : Nat) : Within (FS.Moves flags) (setPosition st position) :=
  .modify fun _ => FS.Moves.setShared rfl

theorem moves_setFile (f : FileData) : Within (FS.Moves flags) (setFile n f) :=
  .modify fun _ => FS.Moves.of_kept ⟨rfl, rfl, rfl⟩

theorem moves_doTruncate (len : Nat) : Within (FS.Moves flags) (doTruncate n len) :=
  (within_doTruncate n len).mono fun _ _ => FS.Moves.of_kept

theorem moves_llseek (offset whence : Int) : Within (FS.Moves flags) (llseek st offset whence) := by
  refine .bind .gets fun s => .bind .failIf fun _ => .bind .failIf fun _ => ?_
  exact .bind (within_query _) fun p => .bind (moves_setPosition st p) fun _ => .pure

theorem moves_seekPosition (position : Option Int) : Within (FS.Moves flags) (seekPosition st position) := by
  cases position with
  | none => exact .gets
  | some p => exact .bind .failIf fun _ => .pure

theorem moves_read (length : Int) (position : Option Int) :
    Within (FS.Moves flags) (read st length position) := by
  refine .bind .failIf fun _ => .bind .gets fun s => .bind .failIf fun _ => ?_
  split
  · exact .fail
  · refine .bind (moves_seekPosition st position) fun p => ?_
    exact .bind (within_doIf fun _ => moves_setPosition st _) fun _ => .pure
  · exact .fail

theorem moves_write (buffer : List UInt8) (position : Option Int) :
    Within (FS.Moves flags) (write st buffer position) := by
  refine .bind .failIf fun _ => .bind .gets fun s => .bind .failIf fun _ => ?_
  split
  · exact .fail
  · refine .bind (within_doIf fun _ => .bind (moves_llseek st _ _) fun _ => .pure) fun _ => ?_
    refine .bind (moves_seekPosition st position) fun p => ?_
    refine .bind (within_doIf fun _ => moves_setFile _ _) fun _ => ?_
    exact .bind (within_doIf fun _ => moves_setPosition st _) fun _ => .pure
  · exact .fail

theorem moves_doReadv (lens : List Nat) (offset : Option Int) :
    Within (FS.Moves flags) (doReadv st lens offset) := by
  induction lens generalizing offset with
  | nil => exact .pure
  | cons len lens ih =>
    refine .bind (moves_read st len offset) fun curr => .ite (fun _ => .pure) fun _ => ?_
    exact .bind (ih _) fun _ => .pure

theorem moves_doWritev (buffers : List (List UInt8)) (offset : Option Int) :
    Within (FS.Moves flags) (doWritev st buffers offset) := by
  induction buffers generalizing offset with
  | nil => exact .pure
  | cons buffer buffers ih =>
    refine .bind (moves_write st buffer offset) fun curr => .ite (fun _ => .pure) fun _ => ?_
    exact .bind (ih _) fun _ => .pure

theorem moves_ftruncate (fd : Nat) (len : Int) : Within (FS.Moves flags) (ftruncate fd len) := by
  refine .bind (within_query _) fun st => .bind .gets fun s => .bind .failIf fun _ => ?_
  exact moves_doTruncate _ _

theorem moves_data (c : DataCall) : Within (FS.Moves flags) c.run := by
  cases c with
  | read fd lens =>
    exact .bind (.bind (within_query _) fun st => moves_doReadv st lens none) fun _ => .pure
  | pread fd lens offset =>
    refine .bind (.bind .failIf fun _ => .bind (within_query _) fun st => ?_) fun _ => .pure
    exact moves_doReadv st lens (some offset)
  | write fd buffers =>
    exact .bind (.bind (within_query _) fun st => moves_doWritev st buffers none) fun _ => .pure
  | pwrite fd buffers offset =>
    refine .bind (.bind .failIf fun _ => .bind (within_query _) fun st => ?_) fun _ => .pure
    exact moves_doWritev st buffers (some offset)
  | lseek fd offset whence =>
    refine .bind (.bind .failIf fun _ => .bind (within_query _) fun st => ?_) fun _ => .pure
    exact moves_llseek st offset whence
  | ftruncate fd length =>
    exact .bind (.bind .failIf fun _ => moves_ftruncate fd length) fun _ => .pure
  | fallocate fd mode offset len =>
    refine .bind ?_ fun _ => .pure
    refine .bind .failIf fun _ => .bind .failIf fun _ => .bind .failIf fun _ => ?_
    refine .bind (within_query _) fun st => .bind .gets fun oldSize => ?_
    exact within_doIf fun _ => moves_ftruncate fd _

/-- `open` makes at most one description, with the access mode it was asked for. -/
theorem moves_open [Build] (flags : Flags) (mode : Mode) :
    Within (FS.Moves (some flags)) («open» path flags mode) := by
  have hcreate : ∀ (n : NodeId) (path : Path) (f : Flags), access f = access flags →
      Within (FS.Moves (some flags)) (createStream n path (streamFlags f) true .memfs) := by
    intro n path f hf
    refine (moves_createStream n path _ true .memfs).mono fun s s' h => ?_
    refine ⟨h.nextShared, h.kept, fun fd st hst => (h.streams fd st hst).imp_right ?_⟩
    rintro ⟨hle, hlt, g, hg, hacc⟩
    refine ⟨hle, hlt, flags, rfl, ?_⟩
    rw [hacc, ← Option.some.inj hg, access_streamFlags, hf]
  refine .bind .failIf fun _ => ?_
  refine .bind ((within_openNode path flags).1.mono fun _ _ => FS.Moves.of_kept) fun nc => ?_
  refine .bind_gets fun s => .bind ?_ fun _ => .bind ?_ fun fd => ?_
  · refine .bind .gets fun t => .bind .failIf fun _ => ?_
    exact .bind (within_doIf fun _ => within_throwIf _) fun _ => within_doIf fun _ => moves_doTruncate _ _
  · refine .bind (within_getPath nc.1) fun path' => .bind (hcreate _ _ _ ?_) fun fd => ?_
    · unfold FS.openFlags
      split
      · exact access_and_not (by decide)
      · rfl
    · exact .bind (moves_openStream fd _) fun _ => .pure
  · refine .bind (within_doIf fun _ => ?_) fun _ => .pure
    exact (within_chmodNode _ _).1.mono fun _ _ => FS.Moves.of_kept

theorem moves_closeStream (fd : Nat) : Within (FS.Moves flags) (closeStream fd) := by
  refine .modify fun s => FS.Moves.of_same rfl (fun _ => rfl) fun fd' st h => ?_
  rw [FS.getStream_setStream] at h
  split at h
  · cases h
  · exact ⟨fd', st, h, rfl⟩

/-- A call on a descriptor that is open goes on with its stream. -/
theorem reads_stream (s : FS) (fd : Nat) :
    Reads s (query fun s => s.getStreamChecked fd) fun st => s.getStream fd = some st := by
  intro s' r h
  cases h
  refine ⟨rfl, fun st hst => ?_⟩
  change s.getStreamChecked fd = .ok st at hst
  unfold FS.getStreamChecked at hst
  split at hst
  · next h => rw [h, Except.ok.inj hst]
  · cases hst

variable {s : FS}

theorem leads_dupStream {fd₀ : Nat} {st : Stream} (h₀ : s.getStream fd₀ = some st)
    (fd : Option Nat) : Leads (FS.Moves flags) s (dupStream st fd) := by
  have hread : Reads s (chooseFd fd) fun _ => True := by
    intro s' r hr
    cases fd <;> (cases hr; exact ⟨rfl, fun _ _ => trivial⟩)
  refine .read hread fun fd' _ => .bind ?_ fun _ _ _ => .pure
  intro s' r h
  cases h
  refine FS.Moves.setStream h₀ fun st' he => ?_
  rw [Option.some.inj he]

theorem leads_dup (fd : Nat) : Leads (FS.Moves flags) s (JsFs.dup fd) :=
  .read (reads_stream s fd) fun _ hst => leads_dupStream hst none

theorem leads_dup3 (fd : Nat) (newfd : Int) : Leads (FS.Moves flags) s (JsFs.dup3 fd newfd) := by
  refine .read (reads_stream s fd) fun st hst => .failIf fun hne => .failIf fun _ => .gets ?_
  refine .bind (within_doIf (fun _ => moves_closeStream _) s) fun s₁ _ h₁ => ?_
  -- What was open at the new descriptor is closed before the stream is put there.
  have hopen : s₁.getStream fd = some st := by
    unfold doIf at h₁
    split at h₁
    · cases h₁
      rw [FS.getStream_setStream, if_neg (by omega), hst]
    · cases h₁
      exact hst
  exact leads_dupStream hopen _

/-- `fcntl` keeps every access mode where `F_SETFL` brings no access bit in. -/
theorem leads_fcntl {fd : Nat} {cmd : Int} {arg : Flags}
    (hc : cmd = F_SETFL → ∀ st, s.getStream fd = some st → access arg &&& ~~~s.flags st = 0) :
    Leads (FS.Moves flags) s (fcntl64 fd cmd arg) := by
  refine .read (reads_stream s fd) fun st hst => ?_
  refine .ite (fun _ => ?_) fun _ => .ite (fun _ => .pure) fun _ => .ite (fun _ => ?_) fun _ => ?_
  · exact .failIf fun _ => .gets (.bind (leads_dupStream hst _) fun _ _ _ => .pure)
  · exact Within.gets.leads s
  · refine .ite (fun hcmd => .gets (.bind ?_ fun _ _ _ => .pure)) fun _ => ?_
    · intro s' r h
      cases h
      exact FS.Moves.setShared (access_or (hc hcmd st hst))
    · exact .ite (fun _ => .fail) fun _ => .fail

theorem leads_mmap (fd length position : Nat) (prot mflags : BitVec 32) :
    Leads (FS.Moves flags) s (mmap_js fd length position prot mflags) := by
  refine .read (reads_stream s fd) fun st _ => .gets (.failIf fun _ => .failIf fun _ => ?_)
  split
  · exact .failIf fun _ => .pure
  · exact .fail

/-! ## What the access mode protects -/

/-- The nodes are as they were. -/
structure FS.NodesKept (s s' : FS) : Prop where
  node : s'.node = s.node
  nextInode : s'.nextInode = s.nextInode

instance : IsPreorder FS FS.NodesKept where
  refl _ := ⟨rfl, rfl⟩
  trans _ _ _ h h' := ⟨h'.1.trans h.1, h'.2.trans h.2⟩

theorem FS.NodesKept.bytes {s : FS} (h : s.NodesKept s') : s.BytesKept s' where
  nextInode := Nat.le_of_eq h.nextInode.symm
  bytes n _ := by rw [h.node]

theorem keeps_setPosition (position : Nat) :
    Within FS.NodesKept (setPosition st position) := .modify fun _ => ⟨rfl, rfl⟩

theorem keeps_llseek (offset whence : Int) : Within FS.NodesKept (llseek st offset whence) := by
  refine .bind .gets fun s => .bind .failIf fun _ => .bind .failIf fun _ => ?_
  exact .bind (within_query _) fun p => .bind (keeps_setPosition st p) fun _ => .pure

theorem keeps_read (length : Int) (position : Option Int) : Within FS.NodesKept (read st length position) := by
  refine .bind .failIf fun _ => .bind .gets fun s => .bind .failIf fun _ => ?_
  split
  · exact .fail
  · refine .bind ?_ fun p => .bind (within_doIf fun _ => keeps_setPosition st _) fun _ => .pure
    cases position with
    | none => exact .gets
    | some p => exact .bind .failIf fun _ => .pure
  · exact .fail

theorem keeps_doReadv (lens : List Nat) (offset : Option Int) :
    Within FS.NodesKept (doReadv st lens offset) := by
  induction lens generalizing offset with
  | nil => exact .pure
  | cons len lens ih =>
    refine .bind (keeps_read st len offset) fun curr => .ite (fun _ => .pure) fun _ => ?_
    exact .bind (ih _) fun _ => .pure

theorem keeps_dupStream (fd : Option Nat) : Within FS.NodesKept (dupStream st fd) := by
  refine .bind ?_ fun fd' => .bind (.modify fun _ => ⟨rfl, rfl⟩) fun _ => .pure
  cases fd with
  | none => exact within_query _
  | some fd => exact .pure

theorem keeps_fcntl (fd : Nat) (cmd : Int) (arg : Flags) :
    Within FS.NodesKept (fcntl64 fd cmd arg) := by
  refine .bind (within_query _) fun st => .ite (fun _ => ?_) fun _ => .ite (fun _ => .pure) fun _ => ?_
  · exact .bind .failIf fun _ => .bind .gets fun _ => .bind (keeps_dupStream _ _) fun _ => .pure
  · refine .ite (fun _ => .gets) fun _ => .ite (fun _ => ?_) fun _ => .ite (fun _ => .fail) fun _ => .fail
    exact .bind .gets fun _ => .bind (.modify fun _ => ⟨rfl, rfl⟩) fun _ => .pure

theorem keeps_mmap (fd length position : Nat) (prot mflags : BitVec 32) :
    Within FS.NodesKept (mmap_js fd length position prot mflags) := by
  refine .bind (within_query _) fun st => .bind .gets fun s => .bind .failIf fun _ => ?_
  refine .bind .failIf fun _ => ?_
  split
  · exact .bind .failIf fun _ => .pure
  · exact .fail

/-- A write through a read-only description is refused. -/
theorem leads_write {st : Stream} (h : access (s.flags st) = O_RDONLY) (buffer : List UInt8)
    (position : Option Int) : Leads FS.NodesKept s (write st buffer position) := by
  refine .failIf fun _ => .gets (.failIf fun hacc => ?_)
  exact absurd h hacc

theorem leads_doWritev {st : Stream} (h : access (s.flags st) = O_RDONLY)
    (buffers : List (List UInt8)) (offset : Option Int) :
    Leads FS.NodesKept s (doWritev st buffers offset) := by
  cases buffers with
  | nil => exact .pure
  | cons buffer buffers =>
    refine .bind (leads_write h buffer offset) fun s₁ curr h₁ => ?_
    have hfail : write st buffer offset s ≠ some (s₁, .ok curr) := by
      intro hw
      obtain ⟨_, hw⟩ := failIf_bind_ok_iff.mp hw
      rw [gets_bind_apply] at hw
      exact (failIf_bind_ok_iff.mp hw).1 h
    exact absurd h₁ hfail

theorem leads_ftruncate {fd : Nat} (h : ∀ st, s.getStream fd = some st →
    access (s.flags st) = O_RDONLY) (len : Int) : Leads FS.NodesKept s (ftruncate fd len) := by
  refine .read (reads_stream s fd) fun st hst => .gets (.failIf fun hacc => ?_)
  exact absurd (.inr (h st hst)) hacc

/-- A call on the data of a file, through a read-only description. -/
theorem leads_data {c : DataCall} (h : ∀ st, s.getStream c.fd = some st →
    access (s.flags st) = O_RDONLY) : Leads FS.NodesKept s c.run := by
  cases c with
  | read fd lens =>
    refine .bind (.read (reads_stream s fd) fun st _ => ?_) fun _ _ _ => .pure
    exact (keeps_doReadv st lens none).leads s
  | pread fd lens offset =>
    refine .bind (.failIf fun _ => .read (reads_stream s fd) fun st _ => ?_) fun _ _ _ => .pure
    exact (keeps_doReadv st lens (some offset)).leads s
  | write fd buffers =>
    refine .bind (.read (reads_stream s fd) fun st hst => ?_) fun _ _ _ => .pure
    exact leads_doWritev (h st hst) buffers none
  | pwrite fd buffers offset =>
    refine .bind (.failIf fun _ => .read (reads_stream s fd) fun st hst => ?_) fun _ _ _ => .pure
    exact leads_doWritev (h st hst) buffers (some offset)
  | lseek fd offset whence =>
    refine .bind (.failIf fun _ => .read (reads_stream s fd) fun st _ => ?_) fun _ _ _ => .pure
    exact (keeps_llseek st offset whence).leads s
  | ftruncate fd length =>
    exact .bind (.failIf fun _ => leads_ftruncate h length) fun _ _ _ => .pure
  | fallocate fd mode offset len =>
    refine .bind ?_ fun _ _ _ => .pure
    refine .failIf fun _ => .failIf fun _ => .failIf fun _ => .read (reads_stream s fd) fun st _ => ?_
    exact .gets (.ite (fun _ => leads_ftruncate h _) fun _ => .pure)

theorem keeps_createStream (f : Flags) (seekable : Bool) (ops : StreamOps) :
    Within FS.NodesKept (createStream n path f seekable ops) := by
  refine .bind (within_query _) fun fd => .bind .gets fun k => ?_
  exact .bind (.modify fun _ => ⟨rfl, rfl⟩) fun _ => .bind (.modify fun _ => ⟨rfl, rfl⟩) fun _ => .pure

theorem keeps_openStream (fd : Nat) (n : NodeId) : Within FS.NodesKept (openStream fd n) := by
  refine .bind .gets fun s => ?_
  split
  · split
    · exact .fail
    · exact .bind (.modify fun _ => ⟨rfl, rfl⟩) fun _ => within_throwIf _
  · exact .pure

/-- Without `O_TRUNC`, `open` changes no file that was there. -/
theorem bytesKept_open [Build] {flags : Flags} (h : ¬ Has flags O_TRUNC) (mode : Mode) :
    Within FS.BytesKept («open» path flags mode) := by
  refine .bind .failIf fun _ => .bind (within_openNode path flags).2 fun nc => ?_
  refine .bind_gets fun s => .bind ?_ fun _ => .bind ?_ fun fd => ?_
  · refine .bind .gets fun t => .bind .failIf fun _ => .bind (within_doIf fun _ => within_throwIf _) fun _ => ?_
    refine within_doIf fun ht => absurd ht.1 ?_
    -- Where the flag was taken away it is not there either.
    unfold FS.openFlags
    split
    · simp [Has, BitVec.and_assoc]
    · exact h
  · refine .bind (within_getPath nc.1) fun path' => ?_
    refine .bind ((keeps_createStream _ _ _ _ _).mono fun _ _ => FS.NodesKept.bytes) fun fd => ?_
    exact .bind ((keeps_openStream fd _).mono fun _ _ => FS.NodesKept.bytes) fun _ => .pure
  · exact .bind (within_doIf fun _ => (within_chmodNode _ _).2) fun _ => .pure

/-! ## What a write-only description delivers -/

def Result.delivered : Except Errno Result → List UInt8
  | .ok (.bytes data) => data
  | _ => []

theorem read_refused {st : Stream} (h : access (s.flags st) = O_WRONLY) (length : Int)
    (position : Option Int) : ∃ e, read st length position s = some (s, .error e) := by
  unfold read
  rw [failIf_bind_apply]
  split
  · exact ⟨_, rfl⟩
  · refine ⟨.EBADF, ?_⟩
    rw [gets_bind_apply, failIf_bind_apply]
    exact if_pos h

theorem doReadv_refused {st : Stream} (h : access (s.flags st) = O_WRONLY) (lens : List Nat)
    (offset : Option Int) {data : List UInt8} (hr : doReadv st lens offset s = some (s', .ok data)) :
    data = [] := by
  cases lens with
  | nil =>
    cases hr
    rfl
  | cons len lens =>
    obtain ⟨e, he⟩ := read_refused h len offset
    unfold doReadv at hr
    rw [bind_of_error he] at hr
    cases hr

theorem mmap_refused {st : Stream} (h : access (s.flags st) = O_WRONLY) (length position : Nat)
    (prot mflags : BitVec 32) {data : List UInt8} :
    mmap st length position prot mflags s ≠ some (s', .ok data) := by
  intro hr
  unfold mmap at hr
  rw [gets_bind_apply] at hr
  exact (failIf_bind_ok_iff.mp (failIf_bind_ok_iff.mp hr).2).1 h

/-- A stream that was looked up is the one of the descriptor. -/
theorem stream_of_ok {α : Type} {k : Stream → Sys α} {fd : Nat} {a : α}
    (h : (query (fun s => s.getStreamChecked fd) >>= k) s = some (s', .ok a)) :
    ∃ st, s.getStream fd = some st ∧ k st s = some (s', .ok a) := by
  rcases (reads_stream s fd).bind_cases h with ⟨e, _, he⟩ | ⟨st, hst, _, hk⟩
  · cases he
  · exact ⟨st, hst, hk⟩

/-- Only a read or a mapping delivers anything, and none of a write-only description. -/
theorem delivered_eq_nil [Build] {c : Call} {r : Except Errno Result}
    (h : ∀ fd st, c.fd = some fd → s.getStream fd = some st → access (s.flags st) = O_WRONLY)
    (hr : c.run s = some (s', r)) : Result.delivered r = [] := by
  cases r with
  | error e => rfl
  | ok res =>
    cases c with
    | data c =>
      cases c with
      | read fd lens =>
        obtain ⟨data, s₁, hread, hk⟩ := bind_ok_iff.mp hr
        cases hk
        obtain ⟨st, hst, hk⟩ := stream_of_ok hread
        exact doReadv_refused (h fd st rfl hst) lens none hk
      | pread fd lens offset =>
        obtain ⟨data, s₁, hread, hk⟩ := bind_ok_iff.mp hr
        cases hk
        obtain ⟨st, hst, hk⟩ := stream_of_ok (failIf_bind_ok_iff.mp hread).2
        exact doReadv_refused (h fd st rfl hst) lens (some offset) hk
      | _ =>
        obtain ⟨_, _, _, hk⟩ := bind_ok_iff.mp hr
        cases hk
        rfl
    | mmap fd length position prot mflags =>
      obtain ⟨data, s₁, hmap, hk⟩ := bind_ok_iff.mp hr
      cases hk
      obtain ⟨st, hst, hk⟩ := stream_of_ok hmap
      exact absurd hk (mmap_refused (h fd st rfl hst) length position prot mflags)
    | _ =>
      obtain ⟨_, _, _, hk⟩ := bind_ok_iff.mp hr
      cases hk
      rfl

/-! ## Runs -/

/-- The file system, with what is remembered of the run. -/
structure Session where
  fs : FS
  /-- Ghost: the flags each description was opened with, and all that was delivered. -/
  opened : SharedId → Flags
  delivered : List UInt8

namespace Session

def start (fs : FS) : Session := ⟨fs, fun k => (fs.shared k).flags, []⟩

/-- The description that `open` makes is the next one. -/
def note (s : Session) : Call → SharedId → Flags
  | .open _ flags _ => fun k => if k < s.fs.nextShared then s.opened k else flags
  | _ => s.opened

def step [Build] (s : Session) (c : Call) : Option Session :=
  (c.run s.fs).map fun p => ⟨p.1, s.note c, s.delivered ++ Result.delivered p.2⟩

/-- No `F_SETFL` brings in an access bit that its description has not. -/
def Keeps (s : Session) : Call → Prop
  | .fcntl fd cmd arg => cmd = F_SETFL →
      ∀ st, s.fs.getStream fd = some st → access arg &&& ~~~s.fs.flags st = 0
  | _ => True

/-- The call is on a descriptor whose description was opened with this access mode, if it is on
one. -/
def OnMode (mode : Flags) (s : Session) (c : Call) : Prop :=
  ∀ fd st, c.fd = some fd → s.fs.getStream fd = some st → access (s.opened st.shared) = mode

/-- The call is on a descriptor opened read-only, or opens a file and does not truncate it. -/
def ReadOnly (s : Session) (c : Call) : Prop :=
  s.OnMode O_RDONLY c ∧ ∀ path flags mode, c = .open path flags mode → ¬ Has flags O_TRUNC

/-- Every description has the access mode it was opened with. -/
structure Faithful (s : Session) : Prop where
  lt : ∀ fd st, s.fs.getStream fd = some st → st.shared < s.fs.nextShared
  access : ∀ fd st, s.fs.getStream fd = some st →
    access (s.fs.flags st) = access (s.opened st.shared)

section Runs

variable [Build] {s t : Session} {c : Call}

/-- What a call opens, in the terms of `Moves`. -/
def asks : Call → Option Flags
  | .open _ flags _ => some flags
  | _ => none

omit [Build] in
theorem leads_close (fs : FS) (fd : Nat) : Leads (FS.Moves none) fs (fd_close fd) :=
  .read (reads_stream fs fd) fun _ _ => moves_closeStream fd fs

theorem leads_call (h : s.Keeps c) : Leads (FS.Moves (asks c)) s.fs c.run := by
  cases c with
  | data c => exact moves_data c s.fs
  | «open» path flags mode => exact .bind (moves_open path flags mode s.fs) fun _ _ _ => .pure
  | dup fd => exact .bind (leads_dup fd) fun _ _ _ => .pure
  | dup3 fd newfd => exact .bind (leads_dup3 fd newfd) fun _ _ _ => .pure
  | fcntl fd cmd arg => exact .bind (leads_fcntl h) fun _ _ _ => .pure
  | mmap fd length position prot flags => exact .bind (leads_mmap _ _ _ _ _) fun _ _ _ => .pure
  | close fd => exact .bind (leads_close s.fs fd) fun _ _ _ => .pure

omit [Build] in
theorem note_of_lt (hk : k < s.fs.nextShared) : s.note c k = s.opened k := by
  cases c with
  | «open» path flags mode => exact if_pos hk
  | _ => rfl

omit [Build] in
theorem note_of_asks {flags : Flags} (h : asks c = some flags) (hk : s.fs.nextShared ≤ k) :
    s.note c k = flags := by
  cases c with
  | «open» path f mode =>
    rw [← Option.some.inj h]
    exact if_neg (Nat.not_lt.mpr hk)
  | _ => cases h

theorem Faithful.step (h : s.Faithful) (hc : s.Keeps c) (hs : s.step c = some t) : t.Faithful := by
  obtain ⟨⟨fs', r⟩, hrun, rfl⟩ := Option.map_eq_some_iff.mp hs
  have hmoves := leads_call hc fs' r hrun
  refine ⟨fun fd st hst => ?_, fun fd st hst => ?_⟩
  · rcases hmoves.streams fd st hst with ⟨fd₀, st₀, h₀, he⟩ | ⟨_, hlt, _⟩
    · rw [← he]
      exact Nat.lt_of_lt_of_le (h.lt fd₀ st₀ h₀) hmoves.nextShared
    · exact hlt
  · rcases hmoves.streams fd st hst with ⟨fd₀, st₀, h₀, he⟩ | ⟨hle, hlt, f, hf, hacc⟩
    · -- A description that was there has kept both its mode and the note of it.
      have hlt := h.lt fd₀ st₀ h₀
      calc JsFs.access (fs'.shared st.shared).flags
          = JsFs.access (s.fs.shared st₀.shared).flags := by rw [← he, hmoves.kept _ hlt]
        _ = JsFs.access (s.opened st₀.shared) := h.access fd₀ st₀ h₀
        _ = JsFs.access (s.note c st.shared) := by rw [← he, note_of_lt hlt]
    · calc JsFs.access (fs'.shared st.shared).flags = JsFs.access f := hacc
        _ = JsFs.access (s.note c st.shared) := by rw [note_of_asks hf hle]

omit [Build] in
theorem Faithful.onMode (h : s.Faithful) {mode : Flags} (hm : s.OnMode mode c) {fd : Nat}
    {st : Stream} (hfd : c.fd = some fd) (hst : s.fs.getStream fd = some st) :
    JsFs.access (s.fs.flags st) = mode := (h.access fd st hst).trans (hm fd st hfd hst)

/-- Calls on read-only descriptors leave every file's bytes. -/
theorem Faithful.bytesKept (h : s.Faithful) (hc : s.ReadOnly c) (hs : s.step c = some t) :
    s.fs.BytesKept t.fs := by
  obtain ⟨⟨fs', r⟩, hrun, rfl⟩ := Option.map_eq_some_iff.mp hs
  have hnodes : ∀ {α : Type} {m : Sys α} {k : α → Result}, Leads FS.NodesKept s.fs m →
      Leads FS.BytesKept s.fs (m >>= fun a => pure (k a)) := by
    intro α m k hm s' r hr
    exact (Leads.bind hm (fun _ _ _ => .pure) s' r hr).bytes
  revert hrun
  cases c with
  | data c =>
    intro hrun
    exact (leads_data (fun st hst => h.onMode hc.1 rfl hst) fs' r hrun).bytes
  | «open» path flags mode =>
    exact Leads.bind (bytesKept_open path (hc.2 path flags mode rfl) mode s.fs)
      (fun _ _ _ => .pure) fs' r
  | dup fd => exact hnodes (.read (reads_stream _ fd) fun _ _ => keeps_dupStream _ _ _) fs' r
  | dup3 fd newfd =>
    refine hnodes (.read (reads_stream _ fd) fun st _ => .failIf fun _ => .failIf fun _ => .gets ?_) fs' r
    refine .bind (within_doIf (fun _ => ?_) s.fs) fun s₁ _ _ => keeps_dupStream st _ s₁
    exact .modify fun _ => ⟨rfl, rfl⟩
  | fcntl fd cmd arg => exact hnodes (keeps_fcntl fd cmd arg s.fs) fs' r
  | mmap fd length position prot flags =>
    exact hnodes (keeps_mmap fd length position prot flags s.fs) fs' r
  | close fd =>
    refine Leads.bind (.read (reads_stream _ fd) fun st _ => ?_) (fun _ _ _ => .pure) fs' r
    intro s' r h
    cases h
    exact ⟨Nat.le_refl _, fun _ _ => rfl⟩

/-- Calls on write-only descriptors deliver nothing. -/
theorem Faithful.delivered (h : s.Faithful) (hc : s.OnMode O_WRONLY c) (hs : s.step c = some t) :
    t.delivered = s.delivered := by
  obtain ⟨⟨fs', r⟩, hrun, rfl⟩ := Option.map_eq_some_iff.mp hs
  have hnil := delivered_eq_nil (fun fd st hfd hst => h.onMode hc hfd hst) hrun
  change s.delivered ++ Result.delivered r = s.delivered
  rw [hnil, List.append_nil]

omit [Build] in
theorem faithful_start {fs : FS} (h : ∀ fd st, fs.getStream fd = some st → st.shared < fs.nextShared) :
    (start fs).Faithful := ⟨h, fun _ _ _ => rfl⟩

/-- In a run in which no `F_SETFL` brings an access bit in, every description keeps the access mode
it was opened with. From then on, calls on read-only descriptors change no file, and calls on
write-only descriptors deliver nothing. -/
theorem access_kept (fs : FS) (h : ∀ fd st, fs.getStream fd = some st → st.shared < fs.nextShared) :
    ∀ s, Reaches step Keeps (start fs) s →
      (∀ fd st, s.fs.getStream fd = some st →
        JsFs.access (s.fs.flags st) = JsFs.access (s.opened st.shared)) ∧
      (∀ t, Reaches step (fun u c => Keeps u c ∧ ReadOnly u c) s t →
        ∀ n < s.fs.nextInode, (t.fs.node n).bytes = (s.fs.node n).bytes) ∧
      ∀ t, Reaches step (fun u c => Keeps u c ∧ OnMode O_WRONLY u c) s t →
        t.delivered = s.delivered := by
  intro s hr
  have hs : s.Faithful := hr.invariant (faithful_start h) fun _ _ _ h hc hs => h.step hc hs
  refine ⟨hs.access, fun t ht => ?_, fun t ht => ?_⟩
  · have hkept : t.Faithful ∧ s.fs.BytesKept t.fs :=
      ht.invariant (I := fun u => u.Faithful ∧ s.fs.BytesKept u.fs) ⟨hs, refl_of _ _⟩
        fun u c v hu hc hstep =>
        ⟨hu.1.step hc.1 hstep, trans_of _ hu.2 (hu.1.bytesKept hc.2 hstep)⟩
    exact hkept.2.bytes
  · have hkept : t.Faithful ∧ t.delivered = s.delivered :=
      ht.invariant (I := fun u => u.Faithful ∧ u.delivered = s.delivered) ⟨hs, rfl⟩
        fun u c v hu hc hstep =>
        ⟨hu.1.step hc.1 hstep, (hu.1.delivered hc.2 hstep).trans hu.2⟩
    exact hkept.2

end Runs

/-! ## A run -/

section Examples

attribute [local instance] Build.caseSensitive

/-- A file is written and opened again, read-only, and `F_SETFL` is called with some flags. -/
def reopened (arg : Flags) : List Call :=
  [.open ['f'] (O_CREAT ||| O_WRONLY) 0o666, .data (.write 0 [[1, 2]]), .close 0,
    .open ['f'] O_RDONLY 0, .fcntl 0 F_SETFL arg]

theorem access_kept_append : ∃ s, Reaches step Keeps (start FS.initial) s ∧
    (s.fs.node 2).bytes = [1, 2] ∧ ∀ t, Reaches step (fun u c => Keeps u c ∧ ReadOnly u c) s t →
      (t.fs.node 2).bytes = [1, 2] := by
  have hrun : (exec step (start FS.initial) (reopened O_APPEND)).map (fun s =>
      ((s.fs.node 2).bytes, s.fs.nextInode)) = some ([1, 2], 3) := by decide
  obtain ⟨s, hs, hobs⟩ := Option.map_eq_some_iff.mp hrun
  obtain ⟨hbytes, hnext⟩ := Prod.mk.inj hobs
  have hreach : Reaches step Keeps (start FS.initial) s := by
    refine reaches_of_exec _ hs ⟨trivial, fun _ _ => ⟨trivial, fun _ _ => ⟨trivial, fun _ _ =>
      ⟨trivial, fun _ _ => ⟨fun _ st _ => ?_, fun _ _ => trivial⟩⟩⟩⟩⟩
    have hzero : JsFs.access O_APPEND = 0 := by decide
    simp [hzero]
  refine ⟨s, hreach, hbytes, fun t ht => ?_⟩
  have hkept := (access_kept FS.initial (fun _ _ h => nomatch h) s hreach).2.1 t ht 2
    (by simp [hnext])
  exact hkept.trans hbytes

/-- `F_SETFL` makes the read-only descriptor writable: a write through it changes the file. -/
theorem setfl_writes : ∃ s, Reaches step Any (start FS.initial) s ∧ ∃ t, Reaches step ReadOnly s t ∧
    (s.fs.node 2).bytes = [1, 2] ∧ (t.fs.node 2).bytes = [9, 2] := by
  have hrun : ((exec step (start FS.initial) (reopened O_RDWR)).bind fun s =>
      (step s (.data (.write 0 [[9]]))).map fun t => ((s.fs.node 2).bytes, (t.fs.node 2).bytes,
        (s.fs.getStream 0).map fun st => JsFs.access (s.opened st.shared))) =
      some ([1, 2], [9, 2], some O_RDONLY) := by decide +kernel
  obtain ⟨s, hs, hrest⟩ := Option.bind_eq_some_iff.mp hrun
  obtain ⟨t, ht, hobs⟩ := Option.map_eq_some_iff.mp hrest
  simp only [Prod.mk.injEq] at hobs
  obtain ⟨hbefore, hafter, hmode⟩ := hobs
  refine ⟨s, reaches_of_exec _ hs (meets_any _), t, Reaches.init.next _ ⟨?_, ?_⟩ ht, hbefore, hafter⟩
  · rintro fd st hfd hst
    cases hfd
    change s.fs.getStream 0 = some st at hst
    simpa [hst] using hmode
  · rintro path flags mode h
    cases h

end Examples

end Session

end JsFs
