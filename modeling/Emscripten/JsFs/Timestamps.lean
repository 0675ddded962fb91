-- SUMMARY: Access and modification times in the JS file system, set from seconds and nanoseconds and read back through a `Date`.
import Emscripten.Lib.Binary64
import Emscripten.JsFs.Paths
import Emscripten.JsFs.Basic

/-!
# Timestamps

`utimensat` makes a count of milliseconds of seconds and nanoseconds, a number of double precision. `stat`
makes a `Date` of the count and writes seconds and nanoseconds of its time to memory: seconds that are
rounded down, and nanoseconds with the sign of the count.
-/

namespace JsFs.Timestamps

open Binary64

/-! ## Dates -/

/-- The largest count of milliseconds of a `Date`. -/
def maxTime : Nat := 8640000000000000

/-- `new Date(x).getTime()`; there is none where the date is invalid. -/
def getTime (x : Int) : Option Int :=
  if x.natAbs ≤ maxTime * one then some (trunc x) else none

/-- What `Date.now()` gives. -/
abbrev Now := { n : Int // n.natAbs ≤ maxTime }

/-! ## Files -/

/-- The times of a node. That of the last change comes from the clock. -/
structure Times where
  atime : Int
  mtime : Int
  ctime : Now

/-- The nodes, where paths lead to, and the clock. -/
structure World where
  lookupPath : Path → Except Errno Nat
  node : Nat → Times
  now : Now

structure Timespec where
  tv_sec : Int
  tv_nsec : Int
deriving DecidableEq

def UTIME_NOW : Int := 0x3FFFFFFF
def UTIME_OMIT : Int := 0x3FFFFFFE

/-- The time that is set; there is none where it is to be left as it is. -/
def timeOf (now : Now) (ts : Timespec) : Option Int :=
  if ts.tv_nsec = UTIME_NOW then some (ofInt now.val)
  else if ts.tv_nsec = UTIME_OMIT then none
  else some (add (mul (ofInt ts.tv_sec) (ofInt 1000)) (div (ofInt ts.tv_nsec) (ofInt (1000 * 1000))))

/-- `FS.utime`, and `MEMFS.node_ops.setattr` of the two times. -/
def utime (w : World) (path : Path) (atime mtime : Option Int) : Except Errno World :=
  match w.lookupPath path with
  | .error e => .error e
  | .ok n =>
    let times := w.node n
    let times := { times with atime := atime.getD times.atime, mtime := mtime.getD times.mtime }
    .ok { w with node := fun m => if m = n then times else w.node m }

/-- `__syscall_utimensat`, with the path that `calculateAt` gives. -/
def __syscall_utimensat (w : World) (path : Path) (times : Option (Timespec × Timespec)) : Except Errno World :=
  let (atime, mtime) := match times with
    | none => (some (ofInt w.now.val), some (ofInt w.now.val))
    | some (a, m) => (timeOf w.now a, timeOf w.now m)
  if (mtime.orElse fun _ => atime).isSome then utime w path atime mtime else .ok w

/-! ## Reading -/

/-- How a build stores integers of 64 bits. -/
structure Target where
  MEMORY64 : Bool
  WASM_BIGINT : Bool

/-- A `long` in memory that a number is stored to, as a program reads it. -/
def Target.long (t : Target) (x : Int) : Int := Int.bmod x (if t.MEMORY64 then 2 ^ 64 else 2 ^ 32)

inductive Failure
  | errno (e : Errno)
  | RangeError
deriving DecidableEq

/-- The part of `SYSCALLS.writeStat` about one time. No `BigInt` is made of the `NaN` of an invalid date; its
words are zero. -/
def writeTime (t : Target) (time : Option Int) : Except Failure Timespec :=
  match time with
  | some n => .ok ⟨floor (div (n * one) (ofInt 1000)), t.long (n.tmod 1000 * 1000 * 1000)⟩
  | none => if t.MEMORY64 ∨ t.WASM_BIGINT then .error .RangeError else .ok ⟨0, 0⟩

structure Stat where
  st_atim : Timespec
  st_mtim : Timespec
  st_ctim : Timespec
deriving DecidableEq

/-- `__syscall_stat64`: `FS.stat`, and the times that `writeStat` leaves in memory. -/
def __syscall_stat64 (t : Target) (w : World) (path : Path) : Except Failure Stat := do
  let n ← match w.lookupPath path with
    | .ok n => .ok n
    | .error e => .error (.errno e)
  let atim ← writeTime t (getTime (w.node n).atime)
  let mtim ← writeTime t (getTime (w.node n).mtime)
  let ctim ← writeTime t (getTime ((w.node n).ctime.val * one))
  .ok ⟨atim, mtim, ctim⟩

/-! ## One time -/

/-- Whole milliseconds, and seconds of 53 bits. -/
structure Timespec.Whole (ts : Timespec) : Prop where
  sec : ts.tv_sec.natAbs ≤ 2 ^ 53
  nsec : 0 ≤ ts.tv_nsec ∧ ts.tv_nsec < 1000000000
  whole : ts.tv_nsec % 1000000 = 0

/-- The count of milliseconds. -/
def Timespec.count (ts : Timespec) : Int := ts.tv_sec * 1000 + ts.tv_nsec / 1000000

/-- The time is that of a date, and is not between two seconds before the epoch. -/
def Timespec.Kept (ts : Timespec) : Prop :=
  ts.count.natAbs ≤ maxTime ∧ (0 ≤ ts.tv_sec ∨ ts.tv_nsec = 0)

instance (ts : Timespec) : Decidable ts.Kept := inferInstanceAs (Decidable (_ ∧ _))

variable {ts : Timespec}

theorem maxTime_lt : maxTime + 1000 < 2 ^ 53 := by decide

/-- The nanoseconds are an exact quotient. -/
theorem timeOf_whole (h : ts.Whole) (now : Now) : timeOf now ts =
    some (add (mul (ts.tv_sec * one) (1000 * one)) (ts.tv_nsec / 1000000 * one)) := by
  obtain ⟨hnonneg, hlt⟩ := h.nsec
  have hnow : ts.tv_nsec ≠ UTIME_NOW := by unfold UTIME_NOW; omega
  have homit : ts.tv_nsec ≠ UTIME_OMIT := by unfold UTIME_OMIT; omega
  have hsec : ofInt ts.tv_sec = ts.tv_sec * one := ofInt_eq h.sec
  have hthousand : ofInt 1000 = 1000 * one := ofInt_eq (by decide)
  have hquot : div (ofInt ts.tv_nsec) (ofInt (1000 * 1000)) = ts.tv_nsec / 1000000 * one := by
    have hmul : ts.tv_nsec = ts.tv_nsec / 1000000 * (1000000 : Nat) := by
      have hwhole := h.whole
      omega
    have hnum : ofInt ts.tv_nsec = ts.tv_nsec / 1000000 * (1000000 : Nat) * one := by
      rw [← hmul]
      apply ofInt_eq
      omega
    have hden : ofInt (1000 * 1000) = (1000000 : Nat) * one := ofInt_eq (by decide)
    rw [hnum, hden]
    apply div_eq (by decide)
    omega
  unfold timeOf
  rw [if_neg hnow, if_neg homit, hsec, hthousand, hquot]

/-- The count is exact where there is a date of it. -/
theorem add_mul_exact (h : ts.Whole) (hmax : ts.count.natAbs ≤ maxTime) :
    add (mul (ts.tv_sec * one) (1000 * one)) (ts.tv_nsec / 1000000 * one) = ts.count * one := by
  obtain ⟨hnonneg, hlt⟩ := h.nsec
  have hlimit := maxTime_lt
  unfold Timespec.count at hmax ⊢
  have hmul : mul (ts.tv_sec * one) ((1000 : Int) * one) = ts.tv_sec * 1000 * one := by
    apply mul_eq
    omega
  rw [hmul]
  apply add_eq
  omega

/-- Rounding does not bring a count back that there is no date of. -/
theorem add_mul_beyond (h : ts.Whole) (hmax : maxTime < ts.count.natAbs) : maxTime * one <
    (add (mul (ts.tv_sec * one) (1000 * one)) (ts.tv_nsec / 1000000 * one)).natAbs := by
  obtain ⟨hnonneg, hlt⟩ := h.nsec
  have hpos := one_pos
  have hlimit := maxTime_lt
  have hms : 0 ≤ ts.tv_nsec / 1000000 ∧ ts.tv_nsec / 1000000 ≤ 999 := by omega
  unfold Timespec.count at hmax
  generalize ts.tv_nsec / 1000000 = ms at *
  -- the exact sum
  have hsum : 1 * ((maxTime + 1) * one) ≤ (mul (ts.tv_sec * one) ((1000 : Int) * one) + ms * one).natAbs := by
    rw [Nat.one_mul]
    cases Nat.lt_or_ge (2 ^ 53) (ts.tv_sec * 1000).natAbs with
    | inr hle =>
      rw [mul_eq hle, ← Int.add_mul, Int.natAbs_mul, Int.natAbs_natCast]
      exact Nat.mul_le_mul_right one hmax
    | inl hgt =>
      have hexact : one * (2 ^ 53 * one) ≤ (ts.tv_sec * one * ((1000 : Int) * one)).natAbs := by
        have hcomm : ts.tv_sec * one * ((1000 : Int) * one) = ts.tv_sec * 1000 * (one * one : Nat) := by
          rw [Int.natCast_mul]
          ac_rfl
        rw [hcomm, Int.natAbs_mul, Int.natAbs_natCast, Nat.mul_left_comm]
        exact Nat.mul_le_mul_right _ (Nat.le_of_lt hgt)
      have hmul : 2 ^ 53 * one ≤ (mul (ts.tv_sec * one) ((1000 : Int) * one)).natAbs :=
        le_natAbs_round hpos (Nat.le_refl _) hexact
      have hsmall : (ms * one).natAbs ≤ 999 * one := by
        rw [Int.natAbs_mul, Int.natAbs_natCast]
        exact Nat.mul_le_mul_right one (by omega)
      have hroom : (maxTime + 1) * one + 999 * one ≤ 2 ^ 53 * one := by
        rw [← Nat.add_mul]
        exact Nat.mul_le_mul_right one (Nat.le_of_lt hlimit)
      generalize mul (ts.tv_sec * one) ((1000 : Int) * one) = product at *
      omega
  have hround := le_natAbs_round Nat.one_pos (by omega) hsum
  refine Nat.lt_of_lt_of_le ?_ hround
  exact Nat.mul_lt_mul_of_pos_right (Nat.lt_succ_self _) hpos

theorem getTime_mul_one {n : Int} : getTime (n * one) = if n.natAbs ≤ maxTime then some n else none := by
  have hiff : (n * one).natAbs ≤ maxTime * one ↔ n.natAbs ≤ maxTime := by
    rw [Int.natAbs_mul, Int.natAbs_natCast]
    exact Nat.mul_le_mul_right_iff one_pos
  unfold getTime
  simp only [hiff, trunc_mul_one]

variable (t : Target)

theorem long_eq {x : Int} (h : x.natAbs < 2 ^ 31) : t.long x = x := by
  unfold Target.long
  split
  · apply Int.bmod_eq_of_le <;> omega
  · apply Int.bmod_eq_of_le <;> omega

theorem natAbs_nsec_lt (n : Int) : (n.tmod 1000 * 1000 * 1000).natAbs < 2 ^ 31 := by
  have hlt : (n.tmod 1000).natAbs < 1000 := by
    rw [Int.natAbs_tmod]
    exact Nat.mod_lt _ (by decide)
  generalize n.tmod 1000 = r at hlt
  omega

theorem writeTime_some (n : Int) : writeTime t (some n) =
    .ok ⟨floor (div (n * one) (ofInt 1000)), n.tmod 1000 * 1000 * 1000⟩ := by
  unfold writeTime
  dsimp only
  rw [long_eq t (natAbs_nsec_lt n)]

theorem writeTime_count (h : ts.Whole) (hk : ts.Kept) : writeTime t (some ts.count) = .ok ts := by
  obtain ⟨hnonneg, hlt⟩ := h.nsec
  have hwhole := h.whole
  obtain ⟨hmax, hsign⟩ := hk
  have hlimit := maxTime_lt
  have hthousand : ofInt 1000 = (1000 : Nat) * one := ofInt_eq (by decide)
  rw [writeTime_some, hthousand]
  cases hsign with
  | inl hsec =>
    -- a count of milliseconds after the epoch
    obtain ⟨c, hc⟩ : ∃ c : Nat, ts.count = c := Int.eq_ofNat_of_zero_le (by unfold Timespec.count; omega)
    have hfloor := floor_div (m := c) (d := 1000) (p := 9) (by rw [lowest_eq]; decide) (by decide) (by decide)
      (by omega)
    rw [hc, hfloor, Int.tmod_eq_emod_of_nonneg (Int.natCast_nonneg c)]
    unfold Timespec.count at hc
    have hsec' : ((c / 1000 : Nat) : Int) = ts.tv_sec := by omega
    have hnsec' : (c : Int) % 1000 * 1000 * 1000 = ts.tv_nsec := by omega
    rw [hsec', hnsec']
  | inr hzero =>
    -- whole seconds are an exact quotient
    have hc : ts.count = ts.tv_sec * (1000 : Nat) := by
      unfold Timespec.count
      omega
    have hdiv := div_eq (x := ts.tv_sec) (y := 1000) (by decide) h.sec
    have hmod : (ts.tv_sec * (1000 : Nat)).tmod 1000 = 0 := Int.mul_tmod_left _ _
    rw [hc, hdiv, floor_mul_one, hmod, Int.zero_mul, Int.zero_mul, ← hzero]

/-- The words that are read: those that were set, if there is a date and its nanoseconds are not negative. -/
theorem writeTime_iff (h : ts.Whole) (now : Now) {x : Int} (hx : timeOf now ts = some x) :
    writeTime t (getTime x) = .ok ts ↔ ts.Kept := by
  have hwhole := h.whole
  obtain ⟨hnonneg, hlt⟩ := h.nsec
  rw [timeOf_whole h now] at hx
  obtain rfl := Option.some.inj hx
  cases Nat.lt_or_ge maxTime ts.count.natAbs with
  | inl hgt =>
    -- an invalid date
    have hnone : getTime (add (mul (ts.tv_sec * one) (1000 * one)) (ts.tv_nsec / 1000000 * one)) = none :=
      if_neg (Nat.not_le.mpr (add_mul_beyond h hgt))
    refine iff_of_false ?_ fun hk => absurd hk.1 (Nat.not_le.mpr hgt)
    rw [hnone]
    unfold writeTime
    dsimp only
    split
    · exact nofun
    · intro heq
      obtain rfl := Except.ok.inj heq
      exact absurd hgt (by decide)
  | inr hle =>
    rw [add_mul_exact h hle, getTime_mul_one, if_pos hle]
    refine ⟨fun heq => ⟨hle, ?_⟩, writeTime_count t h⟩
    rw [writeTime_some] at heq
    have hnsec : ts.count.tmod 1000 * 1000 * 1000 = ts.tv_nsec :=
      congrArg Timespec.tv_nsec (Except.ok.inj heq)
    cases Int.lt_or_le ts.tv_sec 0 with
    | inr hsec => exact .inl hsec
    | inl hsec =>
      right
      have hneg : ts.count < 0 := by
        unfold Timespec.count
        omega
      have hmod : -ts.count.tmod 1000 = -ts.count % 1000 := by
        rw [← Int.neg_tmod]
        apply Int.tmod_eq_emod_of_nonneg
        omega
      omega

/-! ## Both times -/

/-- The times of a file are set, and are what is read then. -/
def ReadsBack (t : Target) (w : World) (path : Path) (a m : Timespec) : Prop :=
  ∃ w' st, __syscall_utimensat w path (some (a, m)) = .ok w' ∧ __syscall_stat64 t w' path = .ok st ∧
    st.st_atim = a ∧ st.st_mtim = m

/-- Two times are set, and read: the first that cannot be read fails. -/
theorem set_and_stat {w : World} {path : Path} {n : Nat} (hw : w.lookupPath path = .ok n) {a m : Timespec}
    {x y : Int} (hx : timeOf w.now a = some x) (hy : timeOf w.now m = some y) :
    ∃ w' c, __syscall_utimensat w path (some (a, m)) = .ok w' ∧
      __syscall_stat64 t w' path = (writeTime t (getTime x)).bind fun atim =>
        (writeTime t (getTime y)).bind fun mtim => .ok ⟨atim, mtim, c⟩ := by
  obtain ⟨c, hctime⟩ : ∃ c, writeTime t (getTime ((w.node n).ctime.val * one)) = .ok c := by
    rw [getTime_mul_one, if_pos (w.node n).ctime.property]
    exact ⟨_, writeTime_some t _⟩
  refine ⟨{ w with node := fun k =>
    if k = n then { w.node n with atime := x, mtime := y } else w.node k }, c, ?_, ?_⟩
  · unfold __syscall_utimensat utime
    simp [hx, hy, hw]
  · unfold __syscall_stat64
    simp only [hw, bind, Except.bind, if_true, hctime]

/-- Seconds and nanoseconds are read back as they were set exactly if both are those of a date, and none of them
lies between two seconds before the epoch. -/
theorem stat_utimensat (t : Target) {w : World} {path : Path} {n : Nat} (hw : w.lookupPath path = .ok n)
    {a m : Timespec} (ha : a.Whole) (hm : m.Whole) : ReadsBack t w path a m ↔ a.Kept ∧ m.Kept := by
  obtain ⟨w', c, hset, hstat⟩ := set_and_stat t hw (timeOf_whole ha w.now) (timeOf_whole hm w.now)
  rw [← writeTime_iff t ha w.now (timeOf_whole ha w.now), ← writeTime_iff t hm w.now (timeOf_whole hm w.now)]
  generalize getTime (add (mul (a.tv_sec * one) (1000 * one)) (a.tv_nsec / 1000000 * one)) = atime at *
  generalize getTime (add (mul (m.tv_sec * one) (1000 * one)) (m.tv_nsec / 1000000 * one)) = mtime at *
  refine ⟨fun ⟨w₁, st, hset₁, hstat₁, hatim, hmtim⟩ => ?_, fun ⟨hatim, hmtim⟩ => ?_⟩
  · obtain rfl : w' = w₁ := Except.ok.inj (hset.symm.trans hset₁)
    rw [hstat] at hstat₁
    cases hatime : writeTime t atime with
    | error e =>
      rw [hatime] at hstat₁
      cases hstat₁
    | ok atim =>
      cases hmtime : writeTime t mtime with
      | error e =>
        rw [hatime, hmtime] at hstat₁
        cases hstat₁
      | ok mtim =>
        rw [hatime, hmtime] at hstat₁
        obtain rfl := Except.ok.inj hstat₁
        exact ⟨congrArg Except.ok hatim, congrArg Except.ok hmtim⟩
  · rw [hatim, hmtim] at hstat
    exact ⟨w', _, hset, hstat, rfl, rfl⟩

/-- One file at every path. -/
def sampleWorld : World where
  lookupPath := fun _ => .ok 0
  node := fun _ => ⟨0, 0, ⟨0, Nat.zero_le _⟩⟩
  now := ⟨0, Nat.zero_le _⟩

/-- Half a second after the epoch, and a second before it. -/
theorem stat_utimensat_sample : ReadsBack ⟨false, true⟩ sampleWorld [] ⟨0, 500000000⟩ ⟨-1, 0⟩ := by
  have hlookup : sampleWorld.lookupPath [] = .ok 0 := rfl
  apply (stat_utimensat ⟨false, true⟩ hlookup ⟨by decide, by decide, by decide⟩
    ⟨by decide, by decide, by decide⟩).mpr
  decide

/-- Half a second before the epoch is read with `-500000000` nanoseconds, and for a time after the last date
`stat` throws. -/
theorem stat_negative_nanoseconds :
    (∃ w' st, __syscall_utimensat sampleWorld [] (some (⟨-1, 500000000⟩, ⟨0, 0⟩)) = .ok w' ∧
      __syscall_stat64 ⟨false, true⟩ w' [] = .ok st ∧ st.st_atim.tv_nsec = -500000000) ∧
    (∃ w', __syscall_utimensat sampleWorld [] (some (⟨8640000000001, 0⟩, ⟨0, 0⟩)) = .ok w' ∧
      __syscall_stat64 ⟨false, true⟩ w' [] = .error .RangeError) ∧
    ¬ ReadsBack ⟨false, true⟩ sampleWorld [] ⟨-1, 500000000⟩ ⟨0, 0⟩ := by
  have hlookup : sampleWorld.lookupPath [] = .ok 0 := rfl
  have hwhole : Timespec.Whole ⟨0, 0⟩ := ⟨by decide, by decide, by decide⟩
  have hzero : writeTime ⟨false, true⟩ (getTime (add (mul (0 * one) (1000 * one)) (0 / 1000000 * one))) =
      .ok ⟨0, 0⟩ :=
    (writeTime_iff _ hwhole sampleWorld.now (timeOf_whole hwhole _)).mpr (by decide)
  have hhalf : Timespec.Whole ⟨-1, 500000000⟩ := ⟨by decide, by decide, by decide⟩
  have hlate : Timespec.Whole ⟨8640000000001, 0⟩ := ⟨by decide, by decide, by decide⟩
  obtain ⟨w', c, hset, hstat⟩ := set_and_stat ⟨false, true⟩ hlookup
    (timeOf_whole hhalf _) (timeOf_whole hwhole _)
  have hcount : getTime (add (mul (-1 * one) (1000 * one)) (500000000 / 1000000 * one)) = some (-500) := by
    rw [add_mul_exact hhalf (by decide), getTime_mul_one]
    rfl
  rw [hcount, writeTime_some, hzero] at hstat
  have hnsec : (-500 : Int).tmod 1000 * 1000 * 1000 = -500000000 := by decide
  refine ⟨⟨w', _, hset, hstat, hnsec⟩, ?_, ?_⟩
  · obtain ⟨w₂, c₂, hset₂, hstat₂⟩ := set_and_stat ⟨false, true⟩ hlookup
      (timeOf_whole hlate _) (timeOf_whole hwhole _)
    have hnone : getTime (add (mul (8640000000001 * one) (1000 * one)) (0 / 1000000 * one)) = none :=
      if_neg (Nat.not_le.mpr (add_mul_beyond hlate (by decide)))
    rw [hnone] at hstat₂
    exact ⟨w₂, hset₂, hstat₂⟩
  · rintro ⟨w₁, st, hset₁, hstat₁, hatim, -⟩
    obtain rfl : w' = w₁ := Except.ok.inj (hset.symm.trans hset₁)
    obtain rfl := Except.ok.inj (hstat.symm.trans hstat₁)
    have heq : (-500 : Int).tmod 1000 * 1000 * 1000 = 500000000 := congrArg Timespec.tv_nsec hatim
    exact absurd (hnsec.symm.trans heq) (by decide)

end JsFs.Timestamps
