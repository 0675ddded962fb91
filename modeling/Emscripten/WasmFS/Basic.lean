-- SUMMARY: Errors, flags, off_t limits and path strings shared by the WasmFS model.
import Mathlib.Algebra.Ring.Int.Defs
import Mathlib.Algebra.Ring.Nat

/-!
# Basic definitions

The numeric constants have the values of the wasm32 libc headers: octal open
flags and permission bits, `O_ACCMODE` with its `O_SEARCH` bit, and the limits of
a 64-bit `off_t` and a 32-bit `ssize_t`.
-/

namespace WasmFS

/-- The error numbers WasmFS reports, as the positive `errno`. -/
inductive Errno
  | EPERM | ENOENT | EIO | EBADF | EACCES | EFAULT | EBUSY | EEXIST | EXDEV | ENOTDIR | EISDIR
  | EINVAL | EMFILE | EFBIG | ESPIPE | ERANGE | ENAMETOOLONG | ELOOP | ENOTEMPTY | EOVERFLOW
  | ENOTSUP | ESHUTDOWN | ECANCELED | EDEADLK | EAGAIN | ETIMEDOUT | ENOSYS | ENODEV | ENOMEM
deriving DecidableEq, Repr

/-! ## Integers -/

def OFF_MAX : Int := 2 ^ 63 - 1
def OFF_MIN : Int := -2 ^ 63

/-- A value of the signed 64-bit type `off_t`. -/
structure OffT where
  val : Int
  min_le : OFF_MIN ≤ val
  le_max : val ≤ OFF_MAX
deriving DecidableEq

instance : Coe OffT Int := ⟨OffT.val⟩

/-- The largest `ssize_t`, which is also the most bytes a `std::vector<uint8_t>` can hold. -/
def SSIZE_MAX : Nat := 2 ^ 31 - 1

def UIO_MAXIOV : Nat := 1024
def WASMFS_FD_MAX : Nat := 4096
def WASMFS_NAME_MAX : Nat := 255
def MAX_RECURSIONS : Nat := 40

/-! ## Flags and modes -/

def O_RDONLY : Nat := 0o0
def O_WRONLY : Nat := 0o1
def O_RDWR : Nat := 0o2
def O_ACCMODE : Nat := 0o10000003
def O_CREAT : Nat := 0o100
def O_EXCL : Nat := 0o200
def O_NOCTTY : Nat := 0o400
def O_TRUNC : Nat := 0o1000
def O_APPEND : Nat := 0o2000
def O_NONBLOCK : Nat := 0o4000
def O_DSYNC : Nat := 0o10000
def O_ASYNC : Nat := 0o20000
def O_DIRECT : Nat := 0o40000
def O_LARGEFILE : Nat := 0o100000
def O_DIRECTORY : Nat := 0o200000
def O_NOFOLLOW : Nat := 0o400000
def O_NOATIME : Nat := 0o1000000
def O_CLOEXEC : Nat := 0o2000000
def O_SYNC : Nat := 0o4010000
def O_TMPFILE : Nat := 0o20200000

def AT_REMOVEDIR : Nat := 0x200
def AT_FDCWD : Int := -100

def F_RDLCK : Int := 0
def F_WRLCK : Int := 1
def F_UNLCK : Int := 2

def SEEK_SET : Int := 0
def SEEK_CUR : Int := 1
def SEEK_END : Int := 2

def S_IALLUGO : Nat := 0o7777
def S_IRWXUGO : Nat := 0o777
def S_ISVTX : Nat := 0o1000
def S_IRUGO : Nat := 0o444
def S_IWUGO : Nat := 0o222
def S_IXUGO : Nat := 0o111
def S_IFMT : Nat := 0o170000
def S_IFDIR : Nat := 0o40000
def S_IFREG : Nat := 0o100000
def S_IFCHR : Nat := 0o20000
def S_IFLNK : Nat := 0o120000
def S_IFBLK : Nat := 0o60000
def S_IFIFO : Nat := 0o10000
def S_IFSOCK : Nat := 0o140000

def WASMFS_PERM_READ : Nat := 0o444
def WASMFS_PERM_WRITE : Nat := 0o222

/-- Some bit of `mask` is set in `flags`: the test `flags & mask`. -/
def has (flags mask : Nat) : Prop := flags &&& mask ≠ 0

instance (flags mask : Nat) : Decidable (has flags mask) := inferInstanceAs (Decidable (_ ≠ _))

/-- `flags & ~mask`: the bits of `flags` outside `mask`. -/
def without (flags mask : Nat) : Nat := flags ^^^ (flags &&& mask)

/-! ## Paths -/

/-- The bytes of a path or of one of its segments. -/
abbrev Path := List Char

abbrev Name := List Char

def dot : Name := ['.']

def dotDot : Name := ['.', '.']

end WasmFS
