-- SUMMARY: The times of a file set in milliseconds and read in seconds and nanoseconds, in 32-bit and in 64-bit builds.
import Emscripten.Lib.Binary64
import Emscripten.WasmFS.Basic

/-!
# Times of files

A file's times are numbers of milliseconds, of double precision. `_wasmfs_utime` takes such numbers and
passes seconds and nanoseconds on to `utimensat`, which makes milliseconds of them again; `stat` makes seconds
and nanoseconds of these.
-/

namespace FileTimes

open WasmFS Binary64

/-! ## Conversions -/

/-- What numbers are converted to a `long` of: its width, and what a number outside of its range becomes. -/
structure Build where
  wasm64 : Bool
  nontrapping : Bool

def Build.longMax (b : Build) : Int := if b.wasm64 then 0x7FFFFFFFFFFFFFFF else 0x7FFFFFFF
def Build.longMin (b : Build) : Int := if b.wasm64 then -0x8000000000000000 else -0x80000000

/-- `(long)x`. The instruction that does not trap saturates. The code around the one that traps gives the
smallest number. -/
def Build.long (b : Build) (x : Int) : Int :=
  if b.longMin ≤ trunc x ∧ trunc x ≤ b.longMax then trunc x
  else if b.nontrapping ∧ b.longMax < trunc x then b.longMax
  else b.longMin

structure Timespec where
  tv_sec : Int
  tv_nsec : Int
deriving DecidableEq

def UTIME_NOW : Int := 0x3FFFFFFF
def UTIME_OMIT : Int := 0x3FFFFFFE

/-- `none` is `INFINITY`. -/
def timespec_to_ms (now : Int) (ts : Timespec) : Option Int :=
  if ts.tv_nsec = UTIME_OMIT then none
  else if ts.tv_nsec = UTIME_NOW then some now
  else some (add (mul (ofInt ts.tv_sec) (ofInt 1000)) (div (ofInt ts.tv_nsec) (ofInt (1000 * 1000))))

def ms_to_timespec (ms : Int) : Timespec :=
  let seconds := trunc (div ms (ofInt 1000))
  ⟨seconds, trunc (mul (mul (sub ms (ofInt (seconds * 1000))) (ofInt 1000)) (ofInt 1000))⟩

/-! ## Files -/

structure File where
  size : Except Errno Nat
  atime : Int
  mtime : Int
  ctime : Int
  supportsExplicitMetadataMutation : Bool

def AT_SYMLINK_NOFOLLOW : Nat := 0x100
def AT_NO_AUTOMOUNT : Nat := 0x800
def AT_EMPTY_PATH : Nat := 0x1000

/-- The files, what a path and flags are resolved to, and the clock. -/
structure World where
  getFileAt : String → Nat → Except Errno Nat
  files : Nat → File
  now : Int

def World.setFile (w : World) (i : Nat) (f : File) : World :=
  { w with files := fun k => if k = i then f else w.files k }

@[simp] theorem World.setFile_getFileAt (w : World) (i : Nat) (f : File) :
    (w.setFile i f).getFileAt = w.getFileAt := rfl

@[simp] theorem World.setFile_files_self (w : World) (i : Nat) (f : File) : (w.setFile i f).files i = f :=
  if_pos rfl

def __syscall_utimensat (w : World) (path : String) (times : Option (Timespec × Timespec)) (flags : Nat) :
    Except Errno World :=
  if flags ||| AT_SYMLINK_NOFOLLOW ≠ AT_SYMLINK_NOFOLLOW then .error .EINVAL
  else
    match w.getFileAt path (flags ||| AT_EMPTY_PATH) with
    | .error e => .error e
    | .ok i =>
      let (aTime, mTime) :=
        match times with
        | none => (some w.now, some w.now)
        | some (a, m) => (timespec_to_ms w.now a, timespec_to_ms w.now m)
      -- two times that are left out are no change, whatever the backend
      if aTime = none ∧ mTime = none then .ok w
      else if !(w.files i).supportsExplicitMetadataMutation then .error .ENOTSUP
      else
        let file := w.files i
        .ok (w.setFile i { file with atime := aTime.getD file.atime, mtime := mTime.getD file.mtime })

def _wasmfs_utime (b : Build) (w : World) (path : String) (atime_ms mtime_ms : Int) : Except Errno World :=
  let times (ms : Int) : Timespec := ⟨(b.long ms).tdiv 1000, (b.long ms).tmod 1000 * 1000000⟩
  __syscall_utimensat w path (some (times atime_ms, times mtime_ms)) 0

structure Stat where
  st_size : Nat
  st_atim : Timespec
  st_mtim : Timespec
  st_ctim : Timespec

def __syscall_newfstatat (w : World) (path : String) (flags : Nat) : Except Errno Stat :=
  if flags ||| (AT_EMPTY_PATH ||| AT_NO_AUTOMOUNT ||| AT_SYMLINK_NOFOLLOW) ≠
      AT_EMPTY_PATH ||| AT_NO_AUTOMOUNT ||| AT_SYMLINK_NOFOLLOW then .error .EINVAL
  else
    match w.getFileAt path flags with
    | .error e => .error e
    | .ok i =>
      let file := w.files i
      match file.size with
      | .error e => .error e
      | .ok size =>
        .ok ⟨size, ms_to_timespec file.atime, ms_to_timespec file.mtime, ms_to_timespec file.ctime⟩

def __syscall_stat64 (w : World) (path : String) : Except Errno Stat := __syscall_newfstatat w path 0

/-! ## There and back -/

/-- Seconds and nanoseconds of a whole number of milliseconds. -/
def timespec (n : Int) : Timespec := ⟨n.tdiv 1000, n.tmod 1000 * 1000000⟩

theorem timespec_inj {m n : Int} (h : timespec m = timespec n) : m = n := by
  obtain ⟨hsec, hnsec⟩ := Timespec.mk.inj h
  have hm := Int.mul_tdiv_add_tmod m 1000
  have hn := Int.mul_tdiv_add_tmod n 1000
  omega

theorem natAbs_tmod_lt (n : Int) : (n.tmod 1000).natAbs < 1000 := by
  rw [Int.natAbs_tmod]
  exact Nat.mod_lt _ (by decide)

theorem natAbs_tdiv_mul_le (n : Int) : (n.tdiv 1000 * 1000).natAbs ≤ n.natAbs := by
  rw [Int.natAbs_mul, Int.natAbs_tdiv]
  exact Nat.div_mul_le_self n.natAbs 1000

/-- Nanoseconds of whole milliseconds stand for themselves. -/
theorem tmod_ne (n : Int) : n.tmod 1000 * 1000000 ≠ UTIME_OMIT ∧ n.tmod 1000 * 1000000 ≠ UTIME_NOW := by
  have := natAbs_tmod_lt n
  unfold UTIME_OMIT UTIME_NOW
  omega

theorem timespec_to_ms_timespec {n : Int} (h : n.natAbs < 2 ^ 53) (now : Int) :
    timespec_to_ms now (timespec n) = some (n * one) := by
  have hmod := natAbs_tmod_lt n
  have hsum := Int.mul_tdiv_add_tmod n 1000
  have hdiv : (n.tdiv 1000 * 1000).natAbs ≤ 2 ^ 53 := Nat.le_trans (natAbs_tdiv_mul_le n) (Nat.le_of_lt h)
  obtain ⟨homit, hnow⟩ := tmod_ne n
  have hsec : mul (ofInt (n.tdiv 1000)) (ofInt 1000) = n.tdiv 1000 * 1000 * one := by
    rw [ofInt_eq (by omega), ofInt_eq (by decide)]
    exact mul_eq hdiv
  have hnsec : div (ofInt (n.tmod 1000 * 1000000)) (ofInt (1000 * 1000)) = n.tmod 1000 * one := by
    rw [ofInt_eq (by omega), ofInt_eq (by decide)]
    exact div_eq (y := 1000000) (by decide) (by omega)
  unfold timespec_to_ms timespec
  rw [if_neg homit, if_neg hnow, hsec, hnsec, add_eq (by omega)]
  congr 2
  omega

theorem ms_to_timespec_mul_one {n : Int} (h : n.natAbs < 2 ^ 53) : ms_to_timespec (n * one) = timespec n := by
  have hmod := natAbs_tmod_lt n
  have hsum := Int.mul_tdiv_add_tmod n 1000
  have hk : (n.natAbs / 1000 + 1) * 2 ^ 9 ≤ 2 ^ 53 := by omega
  have hsec : trunc (div (n * one) (ofInt 1000)) = n.tdiv 1000 := by
    rw [ofInt_eq (by decide)]
    exact trunc_div (d := 1000) (by rw [lowest_eq]; decide) (by decide) (by decide) hk
  have hdiv : (n.tdiv 1000 * 1000).natAbs ≤ 2 ^ 53 := Nat.le_trans (natAbs_tdiv_mul_le n) (Nat.le_of_lt h)
  have hrest : n - n.tdiv 1000 * 1000 = n.tmod 1000 := by omega
  unfold ms_to_timespec timespec
  simp only [hsec]
  rw [ofInt_eq hdiv, sub_eq (by omega), hrest, ofInt_eq (by decide), mul_eq (by omega), mul_eq (by omega),
    trunc_mul_one]
  congr 1
  omega

/-! ## Setting and reading -/

/-- The path leads to the file, whose times can be set, whether or not an empty path is one. -/
structure World.Settable (w : World) (path : String) (i : Nat) : Prop where
  resolves : w.getFileAt path 0 = .ok i
  resolvesAt : w.getFileAt path AT_EMPTY_PATH = .ok i
  supports : (w.files i).supportsExplicitMetadataMutation = true
  size : ∃ n, (w.files i).size = .ok n

/-- What is read after times were set: those that the conversion to a `long` gave. -/
theorem stat_utime {b : Build} {w : World} {path : String} {i : Nat} (hw : w.Settable path i) {a m : Int}
    (ha : (b.long a).natAbs < 2 ^ 53) (hm : (b.long m).natAbs < 2 ^ 53) :
    ∃ w' st, _wasmfs_utime b w path a m = .ok w' ∧ __syscall_stat64 w' path = .ok st ∧
      st.st_atim = timespec (b.long a) ∧ st.st_mtim = timespec (b.long m) := by
  obtain ⟨n, hn⟩ := hw.size
  have hset : _wasmfs_utime b w path a m =
      .ok (w.setFile i { w.files i with atime := b.long a * one, mtime := b.long m * one }) := by
    have hta := timespec_to_ms_timespec ha w.now
    have htm := timespec_to_ms_timespec hm w.now
    unfold timespec at hta htm
    unfold _wasmfs_utime __syscall_utimensat
    simp [hw.resolvesAt, hta, htm, hw.supports]
  refine ⟨_, ⟨n, ms_to_timespec (b.long a * one), ms_to_timespec (b.long m * one),
    ms_to_timespec (w.files i).ctime⟩, hset, ?_, ?_⟩
  · unfold __syscall_stat64 __syscall_newfstatat
    simp [hw.resolves, hn]
  · exact ⟨ms_to_timespec_mul_one ha, ms_to_timespec_mul_one hm⟩

/-- In 32-bit builds a number is converted to one of 32 bits. -/
theorem long_bounds (b : Build) (h : b.wasm64 = false) (x : Int) :
    -0x80000000 ≤ b.long x ∧ b.long x ≤ 0x7FFFFFFF := by
  unfold Build.long Build.longMin Build.longMax
  simp only [h, Bool.false_eq_true, if_false]
  split
  · assumption
  · split
    · simp
    · simp

/-- A count of milliseconds is kept in 64-bit builds, and in 32-bit builds below `2^31`. -/
theorem long_ofInt_eq_iff (b : Build) {n : Nat} (h : n < 2 ^ 53) :
    b.long (ofInt n) = n ↔ b.wasm64 = true ∨ n < 2 ^ 31 := by
  have htrunc : trunc (ofInt n) = n := by
    rw [ofInt_eq (by omega)]
    exact trunc_mul_one n
  cases hb : b.wasm64 with
  | true =>
    have hrange : b.longMin ≤ trunc (ofInt n) ∧ trunc (ofInt n) ≤ b.longMax := by
      rw [htrunc]
      simp only [Build.longMin, Build.longMax, hb, if_true]
      omega
    simp only [true_or, iff_true]
    unfold Build.long
    rw [if_pos hrange, htrunc]
  | false =>
    simp only [Bool.false_eq_true, false_or]
    constructor
    · intro heq
      have := (long_bounds b hb (ofInt n)).2
      omega
    · intro hn
      have hrange : b.longMin ≤ trunc (ofInt n) ∧ trunc (ofInt n) ≤ b.longMax := by
        rw [htrunc]
        simp only [Build.longMin, Build.longMax, hb, Bool.false_eq_true, if_false]
        omega
      unfold Build.long
      rw [if_pos hrange, htrunc]

theorem long_ofInt_lt (b : Build) {n : Nat} (h : n < 2 ^ 53) : (b.long (ofInt n)).natAbs < 2 ^ 53 := by
  cases hb : b.wasm64 with
  | true =>
    rw [(long_ofInt_eq_iff b h).mpr (Or.inl hb)]
    omega
  | false =>
    have := long_bounds b hb (ofInt n)
    omega

theorem timespec_natCast (n : Nat) : timespec n = ⟨n / 1000, n % 1000 * 1000000⟩ := by
  unfold timespec
  rw [Int.tdiv_eq_ediv_of_nonneg (by omega), Int.tmod_eq_emod_of_nonneg (by omega)]

/-- The times are set, and seconds and nanoseconds of them are read. -/
def ReadsBack (b : Build) (w : World) (path : String) (atime mtime : Nat) : Prop :=
  ∃ w' st, _wasmfs_utime b w path (ofInt atime) (ofInt mtime) = .ok w' ∧ __syscall_stat64 w' path = .ok st ∧
    st.st_atim = ⟨atime / 1000, atime % 1000 * 1000000⟩ ∧
    st.st_mtim = ⟨mtime / 1000, mtime % 1000 * 1000000⟩

/-- Times in milliseconds are read back as they were set, in 64-bit builds always, and in 32-bit builds where
both have 31 bits. -/
theorem _wasmfs_utime_stat (b : Build) (w : World) (path : String) (i : Nat) (hw : w.Settable path i)
    (atime mtime : Nat) (ha : atime < 2 ^ 53) (hm : mtime < 2 ^ 53) :
    ReadsBack b w path atime mtime ↔ b.wasm64 = true ∨ atime < 2 ^ 31 ∧ mtime < 2 ^ 31 := by
  obtain ⟨w', st, hset, hstat, hatim, hmtim⟩ := stat_utime hw (long_ofInt_lt b ha) (long_ofInt_lt b hm)
  have hread : ReadsBack b w path atime mtime ↔
      b.long (ofInt atime) = atime ∧ b.long (ofInt mtime) = mtime := by
    constructor
    · rintro ⟨w₁, st₁, hset₁, hstat₁, hatim₁, hmtim₁⟩
      obtain rfl : w' = w₁ := Except.ok.inj (hset.symm.trans hset₁)
      obtain rfl : st = st₁ := Except.ok.inj (hstat.symm.trans hstat₁)
      rw [← timespec_natCast] at hatim₁ hmtim₁
      exact ⟨timespec_inj (hatim.symm.trans hatim₁), timespec_inj (hmtim.symm.trans hmtim₁)⟩
    · rintro ⟨hla, hlm⟩
      rw [hla, timespec_natCast] at hatim
      rw [hlm, timespec_natCast] at hmtim
      exact ⟨w', st, hset, hstat, hatim, hmtim⟩
  rw [hread, long_ofInt_eq_iff b ha, long_ofInt_eq_iff b hm]
  cases b.wasm64 with
  | true => simp
  | false => simp

/-- One file at every path. -/
def sampleWorld : World where
  getFileAt := fun _ _ => .ok 0
  files := fun _ => ⟨.ok 0, 0, 0, 0, true⟩
  now := 0

theorem sampleWorld_settable (path : String) : sampleWorld.Settable path 0 :=
  ⟨rfl, rfl, rfl, 0, rfl⟩

theorem _wasmfs_utime_stat_sample : ReadsBack ⟨true, true⟩ sampleWorld "/f" 1700000000123 1700000000123 := by
  apply (_wasmfs_utime_stat ⟨true, true⟩ sampleWorld "/f" 0 (sampleWorld_settable "/f") _ _ (by decide)
    (by decide)).mpr
  left
  rfl

/-- In a 32-bit build a time in the year 2023 is read back as one of the year 1970. -/
theorem _wasmfs_utime_saturates :
    ∃ w' st, _wasmfs_utime ⟨false, true⟩ sampleWorld "/f" (ofInt 1700000000123) (ofInt 1700000000123) = .ok w' ∧
      __syscall_stat64 w' "/f" = .ok st ∧ st.st_mtim = ⟨2147483, 647000000⟩ ∧
      ¬ ReadsBack ⟨false, true⟩ sampleWorld "/f" 1700000000123 1700000000123 := by
  have hlong : Build.long ⟨false, true⟩ (ofInt 1700000000123) = 2147483647 := by
    have htrunc : trunc (ofInt 1700000000123) = 1700000000123 := by
      rw [ofInt_eq (by decide)]
      exact trunc_mul_one _
    unfold Build.long
    rw [htrunc]
    decide
  obtain ⟨w', st, hset, hstat, hatim, hmtim⟩ :=
    stat_utime (b := ⟨false, true⟩) (sampleWorld_settable "/f")
      (a := ofInt 1700000000123) (m := ofInt 1700000000123) (by rw [hlong]; decide) (by rw [hlong]; decide)
  rw [hlong] at hmtim
  refine ⟨w', st, hset, hstat, hmtim, ?_⟩
  rintro ⟨w₁, st₁, hset₁, hstat₁, -, hmtim₁⟩
  obtain rfl : w' = w₁ := Except.ok.inj (hset.symm.trans hset₁)
  obtain rfl : st = st₁ := Except.ok.inj (hstat.symm.trans hstat₁)
  rw [hmtim] at hmtim₁
  exact absurd (congrArg Timespec.tv_sec hmtim₁) (by decide)

end FileTimes
