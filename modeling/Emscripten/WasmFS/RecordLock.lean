-- SUMMARY: POSIX record locks: range normalisation, the update of a file's lock list, and its meaning as a map on bytes.
import Emscripten.WasmFS.State

/-!
# Record locks

`fcntl(F_SETLK)` turns a `struct flock` into an absolute half-open range and
replaces this process's locks in it. The locks of a file are a list of tagged
ranges; what a program can observe of it is the type each byte is locked with.
-/

namespace WasmFS

open TaggedRange

/-- The fields of `struct flock` that the lock commands read and write. -/
structure Flock where
  l_type : Int
  l_whence : Int
  l_start : OffT
  l_len : OffT
deriving DecidableEq

/-! ## Size of a file -/

/-- `File::getSize`. -/
def FS.getSize (s : FS) (f : FileId) : Except Errno Nat :=
  match (s.file f).kind with
  | .directory => .ok 4096
  | .symlink => .ok (s.file f).target.length
  | .dataFile =>
    match (s.file f).data with
    | .memory buffer => .ok buffer.length
    | .pipe p => .ok (s.pipe p).length
    | .external => s.env.getSize f

/-- Sizes and positions are values that a nonnegative `off_t` can have. -/
structure FS.OffsetsInRange (s : FS) : Prop where
  size : ∀ f n, s.getSize f = .ok n → (n : Int) ≤ OFF_MAX
  position_nonneg : ∀ o, 0 ≤ (s.openFile o).position
  position_le : ∀ o, (s.openFile o).position ≤ OFF_MAX

/-! ## Normalisation -/

def addWouldOverflow (lhs rhs : Int) : Prop :=
  if 0 < rhs then OFF_MAX - rhs < lhs else if rhs < 0 then lhs < OFF_MIN - rhs else False

instance (lhs rhs : Int) : Decidable (addWouldOverflow lhs rhs) := by
  unfold addWouldOverflow
  infer_instance

/-- The offset that `l_start` counts from. -/
def lockBase (lock : Flock) (position : Int) (size : Except Errno Nat) : Except Errno Int :=
  if lock.l_whence = SEEK_SET then .ok 0
  else if lock.l_whence = SEEK_CUR then .ok position
  else if lock.l_whence = SEEK_END then size.map Int.ofNat
  else .error .EINVAL

def normalizeRecordLockRange (lock : Flock) (position : Int) (size : Except Errno Nat) :
    Except Errno (Int × Option Int) := do
  let base ← lockBase lock position size
  if addWouldOverflow base lock.l_start then throw .EOVERFLOW
  let start := base + lock.l_start
  if start < 0 then throw .EINVAL
  if lock.l_len.val = 0 then return (start, none)
  if addWouldOverflow start lock.l_len then throw .EOVERFLOW
  let stop := start + lock.l_len
  if stop < 0 then throw .EINVAL
  if stop < start then return (stop, some start) else return (start, some stop)

/-! ## The update of the lock list -/

def rangesOverlap (lhs rhs : RecordLock) : Bool :=
  lhs.stop.all (fun e => rhs.start < e) && rhs.stop.all (fun e => lhs.start < e)

def endsBeforeOrAt (lhs : Option Int) (rhs : Int) : Bool := lhs.any (fun e => e ≤ rhs)

def endsAfter : Option Int → Option Int → Bool
  | none, rhs => rhs.isSome
  | some _, none => false
  | some l, some r => r < l

/-- What the first loop of `applyRecordLock` keeps of `current`: all of it, or
its portions to the left and to the right of `lock`. -/
def carve (lock current : RecordLock) : List RecordLock :=
  if rangesOverlap current lock = false then [current]
  else
    (if current.start < lock.start then [⟨current.tag, current.start, some lock.start⟩] else []) ++
    (match lock.stop with
      | none => []
      | some e =>
        if endsBeforeOrAt current.stop e then [] else [⟨current.tag, e, current.stop⟩])

/-- The second loop, with `back` for `locks.back()`: the elements before it do
not change any more. -/
def mergeFrom (back : RecordLock) : List RecordLock → List RecordLock
  | [] => [back]
  | current :: rest =>
    if back.tag = current.tag ∧ back.stop.all (fun e => current.start ≤ e) then
      mergeFrom (if endsAfter current.stop back.stop then { back with stop := current.stop }
        else back) rest
    else back :: mergeFrom current rest

def mergeLocks : List RecordLock → List RecordLock
  | [] => []
  | r :: l => mergeFrom r l

/-- The vector `updated`, before it is sorted. -/
def updatedLocks (locks : List RecordLock) (lock : RecordLock) : List RecordLock :=
  locks.flatMap (carve lock) ++ (if lock.tag ≠ F_UNLCK then [lock] else [])

def applyRecordLock (locks : List RecordLock) (type start : Int) (stop : Option Int) :
    List RecordLock :=
  mergeLocks ((updatedLocks locks ⟨type, start, stop⟩).insertionSort
    (fun lhs rhs => lhs.start ≤ rhs.start))

/-! ### Carving -/

theorem rangesOverlap_eq_false_iff {a b : RecordLock} :
    rangesOverlap a b = false ↔ Separate a b := by
  obtain ⟨_, as, _ | ae⟩ := a <;> obtain ⟨_, bs, _ | be⟩ := b <;>
    simp [rangesOverlap, Separate, EndsBy, imp_iff_not_or]

theorem mem_carve_of_overlap {lock current r : RecordLock} (h : rangesOverlap current lock = true) :
    r ∈ carve lock current ↔
      (current.start < lock.start ∧ r = ⟨current.tag, current.start, some lock.start⟩) ∨
      ∃ e, lock.stop = some e ∧ endsBeforeOrAt current.stop e = false ∧
        r = ⟨current.tag, e, current.stop⟩ := by
  unfold carve
  rw [if_neg (by simp [h]), List.mem_append]
  refine or_congr ?_ ?_
  · split <;> simp_all
  · cases lock.stop with
    | none => simp
    | some e => cases hb : endsBeforeOrAt current.stop e <;> simp [hb]

/-- Every piece of `current` lies in it, keeps its type, and avoids the lock. -/
theorem carve_piece {lock current r : RecordLock} (hc : current.Nonempty)
    (hr : r ∈ carve lock current) :
    r.Nonempty ∧ r.tag = current.tag ∧ Separate r lock ∧
      current.start ≤ r.start ∧ (∀ x, current.EndsBy x → r.EndsBy x) := by
  cases h : rangesOverlap current lock with
  | false =>
    have hr' : r = current := by simpa [carve, h] using hr
    subst hr'
    exact ⟨hc, rfl, rangesOverlap_eq_false_iff.mp h, le_rfl, fun _ => id⟩
  | true =>
    have hover : ¬ Separate current lock := by
      rw [← rangesOverlap_eq_false_iff, h]
      decide
    rcases (mem_carve_of_overlap h).mp hr with ⟨hlt, rfl⟩ | ⟨e, he, hend, rfl⟩
    · refine ⟨?_, rfl, Or.inl ⟨lock.start, rfl, le_rfl⟩, le_rfl, ?_⟩
      · intro e he
        cases he
        exact hlt
      · intro x hx
        refine ⟨lock.start, rfl, ?_⟩
        by_contra hgt
        exact hover (Or.inl (hx.mono (by omega)))
    · refine ⟨?_, rfl, Or.inr ⟨e, he, le_rfl⟩, ?_, fun x hx => hx⟩
      · intro e' he'
        rw [Option.mem_def.mp he'] at hend
        simpa [endsBeforeOrAt] using hend
      · by_contra hgt
        exact hover (Or.inr ⟨e, he, by simp only [not_le] at hgt; omega⟩)

/-- The pieces of one range do not meet. -/
theorem carve_separate {lock current : RecordLock} (hl : lock.Nonempty) :
    (carve lock current).Pairwise Separate := by
  unfold carve
  split
  · simp
  · refine List.pairwise_append.mpr ⟨?_, ?_, ?_⟩
    · split <;> simp
    · split
      · simp
      · split <;> simp
    · intro a ha b hb
      cases hs : lock.stop with
      | none => simp [hs] at hb
      | some e =>
        have hlt : lock.start < e := hl e hs
        have ha' : a.stop = some lock.start := by
          split at ha <;> simp_all
        have hb' : b.start = e := by
          simp only [hs] at hb
          split at hb <;> simp_all
        exact Or.inl ⟨lock.start, ha', by omega⟩

/-- Carving removes the locked bytes from the range and no others. -/
theorem covers_carve {lock current : RecordLock} {x t : Int} :
    Covers (carve lock current) x t ↔ current.Mem x ∧ ¬ lock.Mem x ∧ current.tag = t := by
  cases h : rangesOverlap current lock with
  | false =>
    have hsep := rangesOverlap_eq_false_iff.mp h
    have heq : carve lock current = [current] := by simp [carve, h]
    rw [heq]
    simp only [Covers, List.mem_singleton, exists_eq_left]
    refine ⟨fun hx => ⟨hx.1, hsep.not_mem hx.1, hx.2⟩, fun hx => ⟨hx.1, hx.2.2⟩⟩
  | true =>
    simp only [Covers, mem_carve_of_overlap h]
    refine ⟨?_, ?_⟩
    · rintro ⟨r, ⟨hlt, rfl⟩ | ⟨e, he, hend, rfl⟩, ⟨hx₁, hx₂⟩, rfl⟩
      · have hxl : x < lock.start := hx₂ lock.start rfl
        simp only [rangesOverlap, Bool.and_eq_true] at h
        refine ⟨⟨hx₁, fun e he => ?_⟩, fun hm => absurd hm.1 (by omega), rfl⟩
        have := h.1
        rw [Option.mem_def.mp he] at this
        simp only [Option.all_some, decide_eq_true_eq] at this
        omega
      · refine ⟨⟨?_, hx₂⟩, fun hm => absurd (hm.2 e he) (by simp only at hx₁; omega), rfl⟩
        simp only [rangesOverlap, Bool.and_eq_true, he, Option.all_some,
          decide_eq_true_eq] at h
        simp only at hx₁
        omega
    · rintro ⟨⟨hx₁, hx₂⟩, hnot, rfl⟩
      by_cases hlt : x < lock.start
      · refine ⟨_, Or.inl ⟨by omega, rfl⟩, ⟨hx₁, ?_⟩, rfl⟩
        intro e he
        cases he
        exact hlt
      · have hge : ∃ e, lock.stop = some e ∧ e ≤ x := by
          by_contra hno
          refine hnot ⟨by omega, fun e he => ?_⟩
          by_contra hle
          exact hno ⟨e, he, by omega⟩
        obtain ⟨e, he, hle⟩ := hge
        refine ⟨_, Or.inr ⟨e, he, ?_, rfl⟩, ⟨hle, hx₂⟩, rfl⟩
        cases hs : current.stop with
        | none => rfl
        | some e' =>
          have := hx₂ e' hs
          simp only [endsBeforeOrAt, Option.any_some, decide_eq_false_iff_not]
          omega

/-! ### Merging -/

/-- On a sorted list the second loop joins exactly the touching neighbours of one type. -/
theorem mergeFrom_spec {back : RecordLock} {l : List RecordLock} (h : Ordered (back :: l)) :
    Canonical (mergeFrom back l) ∧
      (∀ x t, Covers (mergeFrom back l) x t ↔ Covers (back :: l) x t) ∧
      ∀ r ∈ mergeFrom back l, back.start ≤ r.start ∧ (r.start = back.start → r.tag = back.tag) := by
  induction l generalizing back with
  | nil =>
    refine ⟨⟨h, by simp [mergeFrom]⟩, fun x t => Iff.rfl, ?_⟩
    intro r hr
    rw [mergeFrom, List.mem_singleton] at hr
    subst hr
    exact ⟨le_rfl, fun _ => rfl⟩
  | cons current rest ih =>
    have hback : back.Nonempty := h.1 back (by simp)
    have hcur : current.Nonempty := h.1 current (by simp)
    obtain ⟨e, he, hle⟩ := (List.pairwise_cons.mp h.2).1 current (by simp)
    rw [mergeFrom]
    split
    · next hjoin =>
      obtain ⟨htag, hall⟩ := hjoin
      -- The ranges are sorted and apart, so a start at or before the end is the end itself.
      have htouch : back.stop = some current.start := by
        rw [he] at hall ⊢
        simp only [Option.all_some, decide_eq_true_eq] at hall
        rw [le_antisymm hle hall]
      have hafter : endsAfter current.stop back.stop = true := by
        rw [htouch]
        cases hs : current.stop with
        | none => rfl
        | some e' => simpa [endsAfter] using hcur e' hs
      rw [if_pos hafter]
      obtain ⟨hcanon, hcov, hfirst⟩ := ih (h.join htouch)
      refine ⟨hcanon, fun x t => ?_, hfirst⟩
      rw [hcov, covers_cons, covers_cons, covers_cons, mem_join_iff hback hcur htouch,
        ← htag, or_and_right, or_assoc]
    · next hkeep =>
      obtain ⟨⟨hord, hgap⟩, hcov, hfirst⟩ := ih h.of_cons
      refine ⟨⟨⟨?_, ?_⟩, ?_⟩, fun x t => ?_, ?_⟩
      · intro r hr
        rcases List.mem_cons.mp hr with rfl | hr
        · exact hback
        · exact hord.1 r hr
      · refine List.pairwise_cons.mpr ⟨fun r hr => ?_, hord.2⟩
        exact ⟨e, he, hle.trans (hfirst r hr).1⟩
      · refine List.pairwise_cons.mpr ⟨fun r hr htag htouch => ?_, hgap⟩
        rw [he, Option.some.injEq] at htouch
        have hstart := (hfirst r hr).1
        have hr' := (hfirst r hr).2 (by omega)
        exact hkeep ⟨htag.trans hr', by simp [he]; omega⟩
      · rw [covers_cons, covers_cons, hcov]
      · intro r hr
        rcases List.mem_cons.mp hr with rfl | hr
        · exact ⟨le_rfl, fun _ => rfl⟩
        · have hlt : back.start < current.start := (hback e he).trans_le hle
          have := (hfirst r hr).1
          exact ⟨by omega, fun heq => absurd heq (by omega)⟩

theorem mergeLocks_spec {l : List RecordLock} (h : Ordered l) :
    Canonical (mergeLocks l) ∧ ∀ x t, Covers (mergeLocks l) x t ↔ Covers l x t := by
  cases l with
  | nil => exact ⟨⟨h, List.Pairwise.nil⟩, fun x t => Iff.rfl⟩
  | cons r l =>
    obtain ⟨hcanon, hcov, _⟩ := mergeFrom_spec h
    exact ⟨hcanon, hcov⟩

/-! ### The whole update -/

section Apply

variable {locks : List RecordLock} {lock : RecordLock}

theorem updatedLocks_nonempty (hlocks : Ordered locks) (hlock : lock.Nonempty) :
    ∀ r ∈ updatedLocks locks lock, r.Nonempty := by
  intro r hr
  rcases List.mem_append.mp hr with hr | hr
  · obtain ⟨current, hc, hr⟩ := List.mem_flatMap.mp hr
    exact (carve_piece (hlocks.1 current hc) hr).1
  · have : r = lock := by split at hr <;> simp_all
    exact this ▸ hlock

theorem updatedLocks_separate (hlocks : Ordered locks) (hlock : lock.Nonempty) :
    (updatedLocks locks lock).Pairwise Separate := by
  refine List.pairwise_append.mpr ⟨List.pairwise_flatMap.mpr ⟨?_, ?_⟩, ?_, ?_⟩
  · intro current _
    exact carve_separate hlock
  · refine hlocks.2.imp_of_mem fun {a b} ha hb hab r hr q hq => ?_
    have hr' := carve_piece (hlocks.1 a ha) hr
    have hq' := carve_piece (hlocks.1 b hb) hq
    exact Or.inl ((hr'.2.2.2.2 _ hab).mono hq'.2.2.2.1)
  · split <;> simp
  · intro r hr q hq
    obtain ⟨current, hc, hr⟩ := List.mem_flatMap.mp hr
    have : q = lock := by split at hq <;> simp_all
    exact this ▸ (carve_piece (hlocks.1 current hc) hr).2.2.1

theorem covers_updatedLocks {x t : Int} :
    Covers (updatedLocks locks lock) x t ↔
      (Covers locks x t ∧ ¬ lock.Mem x) ∨ (lock.tag ≠ F_UNLCK ∧ lock.Mem x ∧ lock.tag = t) := by
  unfold updatedLocks
  rw [covers_append, covers_flatMap]
  refine or_congr ?_ ?_
  · refine ⟨?_, ?_⟩
    · intro h
      obtain ⟨r, hr, h⟩ := h
      obtain ⟨hx, hnot, ht⟩ := covers_carve.mp h
      exact ⟨⟨r, hr, hx, ht⟩, hnot⟩
    · intro h
      obtain ⟨⟨r, hr, hx, ht⟩, hnot⟩ := h
      exact ⟨r, hr, covers_carve.mpr ⟨hx, hnot, ht⟩⟩
  · split
    · next h => simp [Covers, h]
    · next h => simp [Covers, h]

theorem ordered_sorted_updatedLocks (hlocks : Ordered locks) (hlock : lock.Nonempty) :
    Ordered ((updatedLocks locks lock).insertionSort (fun lhs rhs => lhs.start ≤ rhs.start)) := by
  have hperm := List.perm_insertionSort (fun lhs rhs : RecordLock => lhs.start ≤ rhs.start)
    (updatedLocks locks lock)
  refine ordered_of_sorted ?_ ?_ ?_
  · intro r hr
    exact updatedLocks_nonempty hlocks hlock r (hperm.mem_iff.mp hr)
  · exact (hperm.pairwise_iff (fun h => Separate.symm h)).mpr
      (updatedLocks_separate hlocks hlock)
  · have : IsTrans RecordLock (fun lhs rhs => lhs.start ≤ rhs.start) :=
      ⟨fun _ _ _ hab hbc => le_trans hab hbc⟩
    have : Std.Total (fun lhs rhs : RecordLock => lhs.start ≤ rhs.start) :=
      ⟨fun a b => le_total a.start b.start⟩
    exact List.pairwise_insertionSort _ _

end Apply

/-- The update keeps the list canonical, gives the bytes of the range the requested
type (none for `F_UNLCK`), and leaves every other byte alone. -/
theorem applyRecordLock_spec {locks : List RecordLock} {type start : Int} {stop : Option Int}
    (hlocks : Canonical locks) (hne : (⟨type, start, stop⟩ : RecordLock).Nonempty) :
    Canonical (applyRecordLock locks type start stop) ∧
      ∀ x, tagAt (applyRecordLock locks type start stop) x =
        if (⟨type, start, stop⟩ : RecordLock).Mem x then
          (if type = F_UNLCK then none else some type)
        else tagAt locks x := by
  obtain ⟨hcanon, hcov⟩ := mergeLocks_spec (ordered_sorted_updatedLocks hlocks.1 hne)
  refine ⟨hcanon, fun x => ?_⟩
  apply Option.ext
  intro t
  change tagAt (mergeLocks _) x = some t ↔ _
  rw [tagAt_eq_some_iff hcanon.1.separate, hcov, Covers.perm (List.perm_insertionSort _ _),
    covers_updatedLocks]
  split
  · next hx =>
    simp only [hx, not_true_eq_false, and_false, false_or, true_and]
    split
    · next ht => simp [ht]
    · next ht => simp [ht]
  · next hx => simp [hx, tagAt_eq_some_iff hlocks.1.separate]

/-! ## The request -/

def isValidRecordLockType (type : Int) (query : Bool) : Prop :=
  if query then type = F_RDLCK ∨ type = F_WRLCK
  else type = F_RDLCK ∨ type = F_WRLCK ∨ type = F_UNLCK

instance (type : Int) (query : Bool) : Decidable (isValidRecordLockType type query) := by
  unfold isValidRecordLockType
  infer_instance

/-- The access mode of the description does not allow a lock of this type. -/
def recordLockAccessDenied (flags : Nat) (type : Int) : Prop :=
  type ≠ F_UNLCK ∧
    ((type = F_RDLCK ∧ flags &&& O_ACCMODE = O_WRONLY) ∨
      (type = F_WRLCK ∧ flags &&& O_ACCMODE = O_RDONLY))

instance (flags : Nat) (type : Int) : Decidable (recordLockAccessDenied flags type) := by
  unfold recordLockAccessDenied
  infer_instance

/-- The file is regular and its backend provides a lock domain. -/
def FS.canUseRecordLocks (s : FS) (f : FileId) : Prop :=
  (s.file f).mode &&& S_IFMT = S_IFREG ∧ ∃ b ∈ (s.file f).backend, s.env.supportsRecordLocks b

instance (s : FS) (f : FileId) : Decidable (s.canUseRecordLocks f) := by
  unfold FS.canUseRecordLocks
  infer_instance

def FS.setRecordLocks (s : FS) (f : FileId) (locks : List RecordLock) : FS :=
  s.modifyFile f (fun x => { x with recordLocks := locks })

/-- The part of `handleRecordLock` after the description has been read: `file`,
`position` and `flags` are the values it had then. A null `lock` is `none`; the
result is what `*lock` holds on return. -/
def lockFile (file : FileId) (position : Int) (flags : Nat) (lock : Flock) (query : Bool) :
    Sys Flock := do
  let s ← Prog.gets id
  Prog.failIf (¬ s.canUseRecordLocks file) .ENOTSUP
  let range ← Prog.ofExcept (normalizeRecordLockRange lock position (s.getSize file))
  if query then
    return { lock with l_type := F_UNLCK }
  else
    Prog.failIf (recordLockAccessDenied flags lock.l_type) .EBADF
    Prog.modify (fun s => s.setRecordLocks file
      (applyRecordLock (s.file file).recordLocks lock.l_type range.1 range.2))
    return lock

def handleRecordLock (o : OpenId) (lock : Option Flock) (query : Bool) : Sys Flock :=
  match lock with
  | none => Prog.fail .EINVAL
  | some lock => do
    Prog.failIf (¬ isValidRecordLockType lock.l_type query) .EINVAL
    let openFile ← Prog.gets (fun s : FS => s.openFile o)
    lockFile openFile.file openFile.position openFile.flags lock query

/-! ## The exact range of a request -/

/-- The first byte of the range `lock` describes from `base`, over the integers: a
negative length counts backwards from the start. -/
def exactStart (base : Int) (lock : Flock) : Int :=
  base + lock.l_start + min lock.l_len.val 0

/-- The end of that range, exclusive; a zero length has none. -/
def exactStop (base : Int) (lock : Flock) : Option Int :=
  if lock.l_len.val = 0 then none else some (base + lock.l_start + max lock.l_len.val 0)

/-- `off_t` holds both bounds of the range. -/
def ExactRepresentable (base : Int) (lock : Flock) : Prop :=
  exactStart base lock ≤ OFF_MAX ∧ ∀ e ∈ exactStop base lock, e ≤ OFF_MAX

instance (base : Int) (lock : Flock) : Decidable (ExactRepresentable base lock) :=
  match h : exactStop base lock with
  | none => decidable_of_iff (exactStart base lock ≤ OFF_MAX) (by simp [ExactRepresentable, h])
  | some e => decidable_of_iff (exactStart base lock ≤ OFF_MAX ∧ e ≤ OFF_MAX)
      (by simp [ExactRepresentable, h])

theorem exactRange_nonempty (base : Int) (lock : Flock) (type : Int) :
    (⟨type, exactStart base lock, exactStop base lock⟩ : RecordLock).Nonempty := by
  intro e he
  simp only [exactStop] at he
  split at he
  · cases he
  · cases he
    simp only [exactStart]
    omega

theorem addWouldOverflow_iff {lhs rhs : Int} (hl : OFF_MIN ≤ lhs) (hu : lhs ≤ OFF_MAX) :
    addWouldOverflow lhs rhs ↔ OFF_MAX < lhs + rhs ∨ lhs + rhs < OFF_MIN := by
  unfold addWouldOverflow
  have : OFF_MIN ≤ OFF_MAX := by decide
  split
  · omega
  · split
    · omega
    · simp only [false_iff]
      omega

/-- Normalisation computes the exact range, or says which bound of it is out of reach. -/
theorem normalizeRecordLockRange_eq {lock : Flock} {position base : Int}
    {size : Except Errno Nat} (hbase : lockBase lock position size = .ok base)
    (hnonneg : 0 ≤ base) (hle : base ≤ OFF_MAX) :
    normalizeRecordLockRange lock position size =
      if exactStart base lock < 0 then .error .EINVAL
      else if ¬ ExactRepresentable base lock then .error .EOVERFLOW
      else .ok (exactStart base lock, exactStop base lock) := by
  have hs₁ := lock.l_start.min_le
  have hl₁ := lock.l_len.min_le
  have hl₂ := lock.l_len.le_max
  have hmin : OFF_MIN = -2 ^ 63 := rfl
  have hmax : OFF_MAX = 2 ^ 63 - 1 := rfl
  unfold normalizeRecordLockRange
  rw [hbase]
  simp only [bind, Except.bind, pure, Except.pure, throw, throwThe, MonadExceptOf.throw]
  have hover : addWouldOverflow base lock.l_start ↔ _ := addWouldOverflow_iff (by omega) hle
  by_cases hstart : OFF_MAX < base + lock.l_start
  · -- A start past the limit leaves no room for a length that would reach below zero.
    rw [if_pos (hover.mpr (Or.inl hstart)), if_neg (by simp only [exactStart]; omega), if_pos]
    intro hrep
    cases h0 : decide (lock.l_len.val = 0) with
    | true =>
      have := hrep.1
      simp only [decide_eq_true_eq] at h0
      simp only [exactStart, h0] at this
      omega
    | false =>
      simp only [decide_eq_false_iff_not] at h0
      have := hrep.2 _ (by simp [exactStop, h0]; rfl)
      omega
  · rw [if_neg (by rw [hover]; omega)]
    by_cases hneg : base + lock.l_start < 0
    · rw [if_pos hneg, if_pos (by simp only [exactStart]; omega)]
    · rw [if_neg hneg]
      by_cases h0 : lock.l_len.val = 0
      · rw [if_pos h0, if_neg (by simp only [exactStart]; omega), if_neg]
        · simp [exactStart, exactStop, h0]
        · simp only [not_not]
          refine ⟨by simp only [exactStart]; omega, ?_⟩
          simp [exactStop, h0]
      · have hover' : addWouldOverflow (base + lock.l_start) lock.l_len ↔ _ :=
          addWouldOverflow_iff (by omega) (by omega)
        rw [if_neg h0]
        by_cases hstop : OFF_MAX < base + lock.l_start + lock.l_len
        · rw [if_pos (hover'.mpr (Or.inl hstop)), if_neg (by simp only [exactStart]; omega), if_pos]
          intro hrep
          have := hrep.2 _ (by simp [exactStop, h0]; rfl)
          omega
        · rw [if_neg (by rw [hover']; omega)]
          by_cases hlow : base + lock.l_start + lock.l_len < 0
          · rw [if_pos hlow, if_pos (by simp only [exactStart]; omega)]
          · have hge : ¬ exactStart base lock < 0 := by
              simp only [exactStart]
              omega
            have hrep : ExactRepresentable base lock := by
              refine ⟨by simp only [exactStart]; omega, fun e he => ?_⟩
              simp only [exactStop, h0, if_false, Option.mem_def, Option.some.injEq] at he
              omega
            rw [if_neg hlow, if_neg hge, if_neg (not_not.mpr hrep)]
            simp only [exactStart, exactStop, h0, if_false]
            split
            · next h => rw [min_eq_left (by omega), max_eq_right (by omega), Int.add_zero]
            · next h => rw [min_eq_right (by omega), max_eq_left (by omega), Int.add_zero]

/-! ## A request, and sequences of requests -/

/-- What a request with lock `lock` through the description `o` has to do to the
state `s`, in terms of the exact range. -/
structure LockOutcome (s : FS) (o : OpenId) (lock : Flock) (query : Bool) (s' : FS)
    (r : Except Errno Flock) : Prop where
  /-- An error leaves everything as it was. -/
  of_error : ∀ e, r = .error e → s' = s
  /-- The exact range of a request that gets to it has to start at or above zero. -/
  below_zero : ∀ base, isValidRecordLockType lock.l_type query →
    s.canUseRecordLocks (s.openFile o).file →
    lockBase lock (s.openFile o).position (s.getSize (s.openFile o).file) = .ok base →
    exactStart base lock < 0 → r = .error .EINVAL
  /-- Its bounds have to fit. -/
  unrepresentable : ∀ base, isValidRecordLockType lock.l_type query →
    s.canUseRecordLocks (s.openFile o).file →
    lockBase lock (s.openFile o).position (s.getSize (s.openFile o).file) = .ok base →
    0 ≤ exactStart base lock → ¬ ExactRepresentable base lock → r = .error .EOVERFLOW
  /-- A successful query changes nothing. -/
  of_query : ∀ lock', r = .ok lock' → query = true → s' = s ∧ lock' = { lock with l_type := F_UNLCK }
  /-- A successful lock or unlock changes the type of the bytes of the exact range,
  in the file of the description, and nothing else. -/
  of_ok : ∀ lock', r = .ok lock' → query = false → ∃ base,
    lockBase lock (s.openFile o).position (s.getSize (s.openFile o).file) = .ok base ∧
    (∀ x, tagAt (s'.file (s.openFile o).file).recordLocks x =
      if (⟨lock.l_type, exactStart base lock, exactStop base lock⟩ : RecordLock).Mem x then
        (if lock.l_type = F_UNLCK then none else some lock.l_type)
      else tagAt (s.file (s.openFile o).file).recordLocks x) ∧
    ∀ f, f ≠ (s.openFile o).file → s'.file f = s.file f

/-- Every file's lock list is canonical. -/
def FS.LocksCanonical (s : FS) : Prop := ∀ f, Canonical (s.file f).recordLocks

/-- The run of `lockFile`, by its checks in order. -/
theorem lockFile_apply (file : FileId) (position : Int) (flags : Nat) (lock : Flock)
    (query : Bool) (s : FS) :
    lockFile file position flags lock query s = some (
      if ¬ s.canUseRecordLocks file then (s, .error .ENOTSUP)
      else match normalizeRecordLockRange lock position (s.getSize file) with
        | .error e => (s, .error e)
        | .ok range =>
          if query then (s, .ok { lock with l_type := F_UNLCK })
          else if recordLockAccessDenied flags lock.l_type then (s, .error .EBADF)
          else (s.setRecordLocks file (applyRecordLock (s.file file).recordLocks lock.l_type
            range.1 range.2), .ok lock)) := by
  unfold lockFile
  simp only [bind, Prog.seq, Prog.gets_apply, Prog.failIf_apply, Prog.ofExcept_apply, id]
  by_cases hcan : s.canUseRecordLocks file
  · simp only [hcan, not_true_eq_false, if_false]
    cases normalizeRecordLockRange lock position (s.getSize file) with
    | error e => rfl
    | ok range =>
      cases query with
      | true => rfl
      | false =>
        by_cases hdenied : recordLockAccessDenied flags lock.l_type
        · simp [hdenied, Prog.failIf_apply, Prog.seq]
        · simp [hdenied, Prog.failIf_apply, Prog.seq, Pure.pure]
  · simp [hcan]

theorem handleRecordLock_apply (o : OpenId) (lock : Flock) (query : Bool) (s : FS) :
    handleRecordLock o (some lock) query s =
      if ¬ isValidRecordLockType lock.l_type query then some (s, .error .EINVAL)
      else lockFile (s.openFile o).file (s.openFile o).position (s.openFile o).flags lock query
        s := by
  unfold handleRecordLock
  by_cases hvalid : isValidRecordLockType lock.l_type query
  · simp [bind, Prog.seq, Prog.failIf_apply, hvalid]
  · simp [bind, Prog.seq, Prog.failIf_apply, hvalid]

@[simp] theorem setRecordLocks_getSize (s : FS) (f g : FileId) (locks : List RecordLock) :
    (s.setRecordLocks f locks).getSize g = s.getSize g := by
  by_cases h : g = f
  · subst h
    simp [FS.setRecordLocks, FS.getSize, FS.modifyFile]
  · simp [FS.setRecordLocks, FS.getSize, FS.modifyFile, h]

variable {s : FS} {o : OpenId} {f : FileId} {s' : FS}

theorem FS.OffsetsInRange.setRecordLocks (h : s.OffsetsInRange) (f : FileId) (locks : List RecordLock) :
    (s.setRecordLocks f locks).OffsetsInRange where
  size := by
    intro g n hn
    rw [setRecordLocks_getSize] at hn
    exact h.size g n hn
  position_nonneg := h.position_nonneg
  position_le := h.position_le

theorem FS.OffsetsInRange.lockBase (h : s.OffsetsInRange) {lock : Flock} {base : Int}
    (hbase : WasmFS.lockBase lock (s.openFile o).position (s.getSize f) = .ok base) :
    0 ≤ base ∧ base ≤ OFF_MAX := by
  unfold WasmFS.lockBase at hbase
  split at hbase
  · cases hbase
    exact ⟨le_rfl, by decide⟩
  · split at hbase
    · cases hbase
      exact ⟨h.position_nonneg o, h.position_le o⟩
    · split at hbase
      · cases hs : s.getSize f with
        | error e => rw [hs] at hbase; cases hbase
        | ok n =>
          rw [hs] at hbase
          cases hbase
          exact ⟨Int.natCast_nonneg n, h.size f n hs⟩
      · cases hbase

theorem lockBase_of_normalize {lock : Flock} {position : Int} {size : Except Errno Nat}
    {range : Int × Option Int} (h : normalizeRecordLockRange lock position size = .ok range) :
    ∃ base, lockBase lock position size = .ok base := by
  cases hb : lockBase lock position size with
  | ok base => exact ⟨base, rfl⟩
  | error e =>
    unfold normalizeRecordLockRange at h
    rw [hb] at h
    cases h

/-- A range that passes normalisation is the exact one, and proper. -/
theorem normalizeRecordLockRange_ok (h : s.OffsetsInRange) {lock : Flock} {base : Int}
    {range : Int × Option Int} (hbase : lockBase lock (s.openFile o).position (s.getSize f) = .ok base)
    (hn : normalizeRecordLockRange lock (s.openFile o).position (s.getSize f) = .ok range) :
    ¬ exactStart base lock < 0 ∧ ExactRepresentable base lock ∧
      range = (exactStart base lock, exactStop base lock) := by
  obtain ⟨h₁, h₂⟩ := h.lockBase hbase
  rw [normalizeRecordLockRange_eq hbase h₁ h₂] at hn
  split at hn
  · cases hn
  · next hlow =>
    split at hn
    · cases hn
    · next hrep =>
      cases hn
      exact ⟨hlow, not_not.mp hrep, rfl⟩

theorem setRecordLocks_canonical (h : s.LocksCanonical) {locks : List RecordLock} (hl : Canonical locks) :
    (s.setRecordLocks f locks).LocksCanonical := by
  intro g
  by_cases hg : g = f
  · subst hg
    simpa [FS.setRecordLocks, FS.modifyFile] using hl
  · simpa [FS.setRecordLocks, FS.modifyFile, hg] using h g

/-- A request refused with `e` has its outcome if `e` is the error its exact range asks for. -/
theorem LockOutcome.refused {lock : Flock} {query : Bool} {e : Errno}
    (h : ∀ base, isValidRecordLockType lock.l_type query →
      s.canUseRecordLocks (s.openFile o).file →
      lockBase lock (s.openFile o).position (s.getSize (s.openFile o).file) = .ok base →
      (exactStart base lock < 0 → e = .EINVAL) ∧
      (0 ≤ exactStart base lock → ¬ ExactRepresentable base lock → e = .EOVERFLOW)) :
    LockOutcome s o lock query s (.error e) where
  of_error := fun _ _ => rfl
  below_zero := by
    intro base hv hc hb hlow
    rw [(h base hv hc hb).1 hlow]
  unrepresentable := by
    intro base hv hc hb hlow hrep
    rw [(h base hv hc hb).2 hlow hrep]
  of_query := by
    intro lock' hr
    cases hr
  of_ok := by
    intro lock' hr
    cases hr

/-- One request through a description with offsets in range has its outcome, and
keeps every list canonical. -/
theorem handleRecordLock_spec (hrange : s.OffsetsInRange) (hcanon : s.LocksCanonical) {lock : Flock}
    {query : Bool} {r : Except Errno Flock} (h : handleRecordLock o (some lock) query s = some (s', r)) :
    LockOutcome s o lock query s' r ∧ s'.LocksCanonical := by
  rw [handleRecordLock_apply] at h
  split at h
  · next hvalid =>
    cases h
    exact ⟨LockOutcome.refused (fun _ hv => absurd hv hvalid), hcanon⟩
  rw [lockFile_apply, Option.some.injEq] at h
  split at h
  · next hcan =>
    cases h
    exact ⟨LockOutcome.refused (fun _ _ hc => absurd hc hcan), hcanon⟩
  cases hn : normalizeRecordLockRange lock (s.openFile o).position
      (s.getSize (s.openFile o).file) with
  | error e =>
    rw [hn] at h
    cases h
    refine ⟨LockOutcome.refused (fun base _ _ hbase => ?_), hcanon⟩
    obtain ⟨h₁, h₂⟩ := hrange.lockBase hbase
    rw [normalizeRecordLockRange_eq hbase h₁ h₂] at hn
    refine ⟨fun hlow => ?_, fun hlow hrep => ?_⟩
    · rw [if_pos hlow] at hn
      cases hn
      rfl
    · rw [if_neg (by omega), if_pos hrep] at hn
      cases hn
      rfl
  | ok range =>
    obtain ⟨base, hbase⟩ := lockBase_of_normalize hn
    obtain ⟨hlow, hrep, rfl⟩ := normalizeRecordLockRange_ok hrange hbase hn
    rw [hn] at h
    -- From here on the exact range is a proper one, whatever base it is computed from.
    have hfits : ∀ b, lockBase lock (s.openFile o).position
        (s.getSize (s.openFile o).file) = .ok b →
        ¬ exactStart b lock < 0 ∧ ExactRepresentable b lock := by
      intro b hb
      rw [hbase] at hb
      cases hb
      exact ⟨hlow, hrep⟩
    simp only at h
    split at h
    · next hquery =>
      cases h
      refine ⟨⟨fun _ _ => rfl, fun b _ _ hb hl => absurd hl (hfits b hb).1,
        fun b _ _ hb _ hr => absurd (hfits b hb).2 hr, ?_, ?_⟩, hcanon⟩
      · intro lock' hr _
        cases hr
        exact ⟨rfl, rfl⟩
      · intro _ _ hq
        rw [hq] at hquery
        cases hquery
    · next hquery =>
      split at h
      · cases h
        exact ⟨LockOutcome.refused (fun b _ _ hb =>
          ⟨fun hl => absurd hl (hfits b hb).1, fun _ hr => absurd (hfits b hb).2 hr⟩), hcanon⟩
      · cases h
        obtain ⟨hc, hmap⟩ := applyRecordLock_spec (hcanon (s.openFile o).file)
          (exactRange_nonempty base lock lock.l_type)
        refine ⟨⟨?_, fun b _ _ hb hl => absurd hl (hfits b hb).1,
          fun b _ _ hb _ hr => absurd (hfits b hb).2 hr,
          fun _ _ hq => absurd hq hquery, ?_⟩, setRecordLocks_canonical hcanon hc⟩
        · intro e hr
          cases hr
        · intro lock' _ _
          refine ⟨base, hbase, ?_, ?_⟩
          · simpa [FS.setRecordLocks] using hmap
          · intro f hf
            exact FS.modifyFile_file_ne _ _ _ _ hf

/-- One lock command of any thread on any description. -/
def LockStep (s s' : FS) : Prop :=
  ∃ o lock query r, handleRecordLock o lock query s = some (s', r)

theorem LockStep.offsetsInRange (h : LockStep s s') (hr : s.OffsetsInRange) : s'.OffsetsInRange := by
  obtain ⟨o, lock, query, r, h⟩ := h
  cases lock with
  | none => cases h; exact hr
  | some lock =>
    rw [handleRecordLock_apply] at h
    split at h
    · cases h; exact hr
    · rw [lockFile_apply, Option.some.injEq] at h
      split at h
      · cases h; exact hr
      · split at h
        · cases h; exact hr
        · split at h
          · cases h; exact hr
          · split at h
            · cases h; exact hr
            · cases h; exact hr.setRecordLocks _ _

theorem LockStep.locksCanonical (h : LockStep s s') (hr : s.OffsetsInRange) (hc : s.LocksCanonical) :
    s'.LocksCanonical := by
  obtain ⟨o, lock, query, r, h⟩ := h
  cases lock with
  | none => cases h; exact hc
  | some lock => exact (handleRecordLock_spec hr hc h).2

theorem lockRun_invariant {s₀ : FS} (hr : s₀.OffsetsInRange) (hc : s₀.LocksCanonical)
    (hrun : Relation.ReflTransGen LockStep s₀ s) : s.OffsetsInRange ∧ s.LocksCanonical := by
  induction hrun with
  | refl => exact ⟨hr, hc⟩
  | tail _ hstep ih => exact ⟨hstep.offsetsInRange ih.1, hstep.locksCanonical ih.1 ih.2⟩

/-- After any sequence of record-lock requests, the next one leaves the locks as they
were when it fails and otherwise changes the type of exactly the requested bytes;
the lists stay sorted, apart, nonempty and joined throughout. -/
theorem recordLock_requests {s₀ s : FS} (hr : s₀.OffsetsInRange) (hc : s₀.LocksCanonical)
    (hrun : Relation.ReflTransGen LockStep s₀ s) :
    s.LocksCanonical ∧
      ∀ o lock query s' r, handleRecordLock o lock query s = some (s', r) →
        (∀ e, r = .error e → s' = s) ∧ s'.LocksCanonical ∧
        ∀ l, lock = some l → LockOutcome s o l query s' r := by
  obtain ⟨hr', hc'⟩ := lockRun_invariant hr hc hrun
  refine ⟨hc', ?_⟩
  intro o lock query s' r h
  cases lock with
  | none =>
    cases h
    refine ⟨fun _ _ => rfl, hc', ?_⟩
    intro l hl
    cases hl
  | some lock =>
    obtain ⟨hout, hcanon⟩ := handleRecordLock_spec hr' hc' h
    refine ⟨hout.of_error, hcanon, ?_⟩
    intro l hl
    cases hl
    exact hout

/-- A blank state whose file 0 belongs to a backend with a lock domain. -/
def lockableFS : FS :=
  (FS.blank Env.quiet).modifyFile 0 (fun x => { x with backend := some (.external 0) })

theorem lockableFS_offsetsInRange : lockableFS.OffsetsInRange where
  size := by
    intro f n hn
    have : lockableFS.getSize f = .ok 0 := by
      by_cases hf : f = 0
      · subst hf; rfl
      · simp [lockableFS, FS.getSize, FS.modifyFile, hf, FS.blank, File.new, Env.quiet]
    rw [this] at hn
    cases hn
    decide
  position_nonneg := fun _ => le_rfl
  position_le := fun _ => (by decide : (0 : Int) ≤ OFF_MAX)

theorem lockableFS_locksCanonical : lockableFS.LocksCanonical := by
  intro f
  have : (lockableFS.file f).recordLocks = [] := by
    by_cases hf : f = 0
    · subst hf; rfl
    · simp [lockableFS, FS.modifyFile, hf, FS.blank, File.new]
  rw [this]
  exact ⟨⟨by simp, List.Pairwise.nil⟩, List.Pairwise.nil⟩

/-- The request for a write lock on bytes 10 to 14. -/
def lockTenToFourteen : Flock :=
  ⟨F_WRLCK, SEEK_SET, ⟨10, by decide, by decide⟩, ⟨5, by decide, by decide⟩⟩

theorem recordLock_requests_lockable :
    (lockableFS.setRecordLocks 0 [⟨F_WRLCK, 10, some 15⟩]).LocksCanonical ∧
      ∀ o lock query s' r,
        handleRecordLock o lock query (lockableFS.setRecordLocks 0 [⟨F_WRLCK, 10, some 15⟩]) =
          some (s', r) →
        (∀ e, r = .error e → s' = lockableFS.setRecordLocks 0 [⟨F_WRLCK, 10, some 15⟩]) ∧
        s'.LocksCanonical ∧
        ∀ l, lock = some l →
          LockOutcome (lockableFS.setRecordLocks 0 [⟨F_WRLCK, 10, some 15⟩]) o l query s' r :=
  recordLock_requests lockableFS_offsetsInRange lockableFS_locksCanonical
    (Relation.ReflTransGen.single ⟨0, some lockTenToFourteen, false, .ok lockTenToFourteen, rfl⟩)

end WasmFS
