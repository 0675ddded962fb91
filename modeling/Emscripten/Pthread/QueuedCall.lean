-- SUMMARY: Calls that are queued for another thread: variadic arguments put into slots by a signature word, and taken out by a switch.
import Mathlib.Data.List.Basic

/-!
# Queued calls

A signature is a word: the type of the result, the number of parameters, and two bits for the type
of each. The caller's arguments are put into slots as the bits of the word say; a switch with one
case for each supported signature takes them out again.
-/

namespace QueuedCall

/-! ## Types and values -/

/-- The types of parameters. -/
inductive Kind
  | I | J | F | D
deriving DecidableEq, Repr

/-- An argument or a result. Floating point numbers are known by their bits. -/
inductive Value
  | i (v : BitVec 32)
  | j (v : BitVec 64)
  | f (v : BitVec 32)
  | d (v : BitVec 64)
deriving DecidableEq, Repr

def Value.kind : Value → Kind
  | .i _ => .I
  | .j _ => .J
  | .f _ => .F
  | .d _ => .D

/-- The exponent is all ones and the fraction is not zero. -/
def IsNaN (f : BitVec 32) : Prop := f.extractLsb' 23 8 = 0xFF ∧ f.extractLsb' 0 23 ≠ 0

/-- `(double)f` and `(float)d`. No number is lost when a `float` is widened. What is not a number remains
so, perhaps with other bits. -/
structure Floats where
  widen : BitVec 32 → BitVec 64
  narrow : BitVec 64 → BitVec 32
  narrow_widen : ∀ f, ¬ IsNaN f → narrow (widen f) = f
  nan : ∀ f, IsNaN f → IsNaN (narrow (widen f))

/-- Conversions that keep the bits, for calls without floating point arguments. -/
instance : Inhabited Floats where
  default := ⟨fun f => f.setWidth 64, fun d => d.setWidth 32, fun f _ => by simp, fun f h => by simpa using h⟩

/-- The same argument: equal, or not a number on both sides. -/
def Same (v w : Value) : Prop := v = w ∨ ∃ f g, v = .f f ∧ w = .f g ∧ IsNaN f ∧ IsNaN g

/-! ## Slots -/

/-- An `em_variant_val`: a union of eight bytes, least significant first. -/
abbrev Slot := BitVec 64

/-- A member of four bytes leaves the other four as they were. -/
def Slot.withLow (s : Slot) (v : BitVec 32) : Slot := s.extractLsb' 32 32 ++ v

def Slot.low (s : Slot) : BitVec 32 := s.setWidth 32

def Slot.write (s : Slot) : Value → Slot
  | .i v => s.withLow v
  | .j v => v
  | .f v => s.withLow v
  | .d v => v

def Slot.read (s : Slot) : Kind → Value
  | .I => .i s.low
  | .J => .j s
  | .F => .f s.low
  | .D => .d s

@[simp] theorem Slot.low_withLow (s : Slot) (v : BitVec 32) : (s.withLow v).low = v := by
  unfold Slot.withLow Slot.low
  rw [BitVec.setWidth_append]
  simp

/-- What is written is read when it is read as what it is. -/
@[simp] theorem Slot.read_write (s : Slot) (v : Value) : (s.write v).read v.kind = v := by
  cases v <;> simp [Slot.write, Slot.read, Value.kind]

/-! ## Variadic arguments -/

/-- A variadic argument. A `float` is passed as a `double`. -/
inductive VarArg
  | int (v : BitVec 32)
  | int64 (v : BitVec 64)
  | double (v : BitVec 64)
deriving DecidableEq, Repr

def passed (floats : Floats) : Value → VarArg
  | .i v => .int v
  | .j v => .int64 v
  | .f v => .double (floats.widen v)
  | .d v => .double v

/-- The bytes of an argument, which `va_arg` takes for what it is asked for. -/
def VarArg.bits : VarArg → BitVec 64
  | .int v => v.setWidth 64
  | .int64 v => v
  | .double v => v

/-- `va_arg` as the type of a parameter. -/
def vaArg (floats : Floats) (a : VarArg) : Kind → Value
  | .I => .i (a.bits.setWidth 32)
  | .J => .j a.bits
  | .F => .f (floats.narrow a.bits)
  | .D => .d a.bits

variable (floats : Floats)

@[simp] theorem vaArg_kind (a : VarArg) (k : Kind) : (vaArg floats a k).kind = k := by
  cases k <;> rfl

/-- An argument is received as it was passed. -/
theorem vaArg_passed (v : Value) : Same v (vaArg floats (passed floats v) v.kind) := by
  cases v with
  | i v => left; simp [vaArg, passed, VarArg.bits, Value.kind]
  | j v => left; rfl
  | d v => left; rfl
  | f v =>
    by_cases h : IsNaN v
    · right
      exact ⟨v, _, rfl, rfl, h, floats.nan v h⟩
    · left
      apply congrArg Value.f
      exact (floats.narrow_widen v h).symm

/-! ## Signatures -/

/-- The letters of which the names of signatures are made. -/
inductive Letter
  | V | I | J | F | D | P
deriving DecidableEq, Repr

/-- `P` is a pointer: `J` in 64-bit builds and `I` in 32-bit builds. -/
def Letter.kind? (wasm64 : Bool) : Letter → Option Kind
  | .V => none
  | .I => some .I
  | .J => some .J
  | .F => some .F
  | .D => some .D
  | .P => if wasm64 then some .J else some .I

def returnBits (wasm64 : Bool) (l : Letter) : Nat :=
  match l.kind? wasm64 with
  | none => 0
  | some .I => 1
  | some .J => 2
  | some .F => 3
  | some .D => 4

def paramBits (wasm64 : Bool) (l : Letter) : Nat :=
  match l.kind? wasm64 with
  | some .J => 1
  | some .F => 2
  | some .D => 3
  | some .I | none => 0

/-- `EM_FUNC_SIG_RETURN_VALUE | EM_FUNC_SIG_WITH_N_PARAMETERS(n) | EM_FUNC_SIG_SET_PARAM(i, type) | ..`. -/
def word (wasm64 : Bool) (ret : Letter) (n : Nat) (params : List (Nat × Letter)) : Nat :=
  params.foldl (fun w (i, l) => w ||| paramBits wasm64 l <<< (2 * i)) (returnBits wasm64 ret <<< 29 ||| n <<< 25)

/-- `EM_FUNC_SIG_NUM_FUNC_ARGUMENTS`. -/
def numArguments (w : Nat) : Nat := (w >>> 25) &&& 0xF

/-- `sig & EM_FUNC_SIG_ARGUMENTS_TYPE_MASK`. -/
def argumentsType (w : Nat) : Nat := w &&& 0x1FFFFFF

/-- The parameter type that the lowest bits stand for. -/
def lowestKind (t : Nat) : Kind :=
  match t &&& 3 with
  | 0 => .I
  | 1 => .J
  | 2 => .F
  | _ => .D

/-- The types that the bits of a word stand for. -/
def kinds : Nat → Nat → List Kind
  | 0, _ => []
  | n + 1, t => lowestKind t :: kinds n (t >>> 2)

/-! ## The encoding -/

/-- The loop of `init_em_queued_call_args`, from argument `i` on. -/
def init_args (floats : Floats) (args : Nat → Slot) : Nat → Nat → Nat → List VarArg → Nat → Slot
  | 0, _, _, _ => args
  | _ + 1, _, _, [] => args
  | n + 1, i, t, a :: as =>
    init_args floats (fun k => if k = i then (args k).write (vaArg floats a (lowestKind t)) else args k) n (i + 1)
      (t >>> 2) as

def init_em_queued_call_args (floats : Floats) (args : Nat → Slot) (sig : Nat) (as : List VarArg) : Nat → Slot :=
  init_args floats args (numArguments sig) 0 (argumentsType sig) as

/-! ## The signatures of the header -/

/-- A signature: the letters of its name, and the parameters that its macro sets. -/
structure Signature where
  ret : Letter
  params : List Letter
  set : List (Nat × Letter)
deriving DecidableEq, Repr

def Signature.word (s : Signature) (wasm64 : Bool) : Nat := QueuedCall.word wasm64 s.ret s.params.length s.set

/-- What a function of the signature takes. -/
def Signature.kinds (s : Signature) (wasm64 : Bool) : List Kind := s.params.filterMap (Letter.kind? wasm64)

/-- The macro sets the parameters of the name in order. -/
def signature (ret : Letter) (params : List Letter) : Signature :=
  ⟨ret, params, params.zipIdx.map fun (l, i) => (i, l)⟩

def EM_FUNC_SIG_V : Signature := signature .V []
def EM_FUNC_SIG_D : Signature := signature .D []
def EM_FUNC_SIG_VI : Signature := signature .V [.I]
def EM_FUNC_SIG_VF : Signature := signature .V [.F]
def EM_FUNC_SIG_FI : Signature := signature .F [.I]
def EM_FUNC_SIG_DI : Signature := signature .D [.I]
def EM_FUNC_SIG_VII : Signature := signature .V [.I, .I]
def EM_FUNC_SIG_VIF : Signature := signature .V [.I, .F]
def EM_FUNC_SIG_VFF : Signature := signature .V [.F, .F]
def EM_FUNC_SIG_VIII : Signature := signature .V [.I, .I, .I]
def EM_FUNC_SIG_VIIF : Signature := signature .V [.I, .I, .F]
def EM_FUNC_SIG_VIFF : Signature := signature .V [.I, .F, .F]
def EM_FUNC_SIG_VFFF : Signature := signature .V [.F, .F, .F]
def EM_FUNC_SIG_VIIII : Signature := signature .V [.I, .I, .I, .I]
def EM_FUNC_SIG_VIIFI : Signature := signature .V [.I, .I, .F, .I]
def EM_FUNC_SIG_VIFFF : Signature := signature .V [.I, .F, .F, .F]
def EM_FUNC_SIG_VFFFF : Signature := signature .V [.F, .F, .F, .F]
def EM_FUNC_SIG_IIFFF : Signature := signature .I [.I, .F, .F, .F]
def EM_FUNC_SIG_VIIIII : Signature := signature .V [.I, .I, .I, .I, .I]
def EM_FUNC_SIG_VIFFFF : Signature := signature .V [.I, .F, .F, .F, .F]
def EM_FUNC_SIG_VIIIIII : Signature := signature .V [.I, .I, .I, .I, .I, .I]
def EM_FUNC_SIG_VIIIIIII : Signature := signature .V [.I, .I, .I, .I, .I, .I, .I]
def EM_FUNC_SIG_VIIIIIIII : Signature := signature .V [.I, .I, .I, .I, .I, .I, .I, .I]
def EM_FUNC_SIG_VIIIIIIIII : Signature := signature .V [.I, .I, .I, .I, .I, .I, .I, .I, .I]
def EM_FUNC_SIG_VIIIIIIIIII : Signature := signature .V [.I, .I, .I, .I, .I, .I, .I, .I, .I, .I]
def EM_FUNC_SIG_VIIIIIIIIIII : Signature := signature .V [.I, .I, .I, .I, .I, .I, .I, .I, .I, .I, .I]
def EM_FUNC_SIG_I : Signature := signature .I []
def EM_FUNC_SIG_II : Signature := signature .I [.I]
def EM_FUNC_SIG_III : Signature := signature .I [.I, .I]
def EM_FUNC_SIG_IIIJ : Signature := signature .I [.I, .I, .J]
def EM_FUNC_SIG_IIII : Signature := signature .I [.I, .I, .I]
def EM_FUNC_SIG_IIPP : Signature := signature .I [.I, .P, .P]
def EM_FUNC_SIG_IIIII : Signature := signature .I [.I, .I, .I, .I]
def EM_FUNC_SIG_IIIIII : Signature := signature .I [.I, .I, .I, .I, .I]
def EM_FUNC_SIG_IIIIIII : Signature := signature .I [.I, .I, .I, .I, .I, .I]
def EM_FUNC_SIG_IIIIIIII : Signature := signature .I [.I, .I, .I, .I, .I, .I, .I]
def EM_FUNC_SIG_IIIIIIIII : Signature := signature .I [.I, .I, .I, .I, .I, .I, .I, .I]
def EM_FUNC_SIG_IIIIIIIIII : Signature := signature .I [.I, .I, .I, .I, .I, .I, .I, .I, .I]
def EM_FUNC_SIG_IP : Signature := signature .I [.P]
def EM_FUNC_SIG_PI : Signature := signature .P [.I]
def EM_FUNC_SIG_PPP : Signature := signature .P [.P, .P]
def EM_FUNC_SIG_PII : Signature := signature .P [.I, .I]
def EM_FUNC_SIG_PIIII : Signature := signature .P [.I, .I, .I, .I]
def EM_FUNC_SIG_VIIP : Signature := signature .V [.I, .I, .P]
def EM_FUNC_SIG_VIIJ : Signature := signature .V [.I, .I, .J]
def EM_FUNC_SIG_VIPI : Signature := signature .V [.I, .P, .I]
def EM_FUNC_SIG_VIP : Signature := signature .V [.I, .P]
def EM_FUNC_SIG_IIP : Signature := signature .I [.I, .P]
def EM_FUNC_SIG_VIIPP : Signature := signature .V [.I, .I, .P, .P]
def EM_FUNC_SIG_VIPPI : Signature := signature .V [.I, .P, .P, .I]
def EM_FUNC_SIG_VIIIP : Signature :=
  ⟨.V, [.I, .I, .I, .P], [(0, .I), (1, .I), (2, .I), (3, .I), (4, .P)]⟩
def EM_FUNC_SIG_VIIIIIP : Signature := signature .V [.I, .I, .I, .I, .I, .P]
def EM_FUNC_SIG_VIIIIIIP : Signature := signature .V [.I, .I, .I, .I, .I, .I, .P]
def EM_FUNC_SIG_VIIIIIIIIP : Signature := signature .V [.I, .I, .I, .I, .I, .I, .I, .I, .P]

def header : List Signature :=
  [EM_FUNC_SIG_V, EM_FUNC_SIG_D, EM_FUNC_SIG_VI, EM_FUNC_SIG_VF, EM_FUNC_SIG_FI, EM_FUNC_SIG_DI,
    EM_FUNC_SIG_VII, EM_FUNC_SIG_VIF, EM_FUNC_SIG_VFF, EM_FUNC_SIG_VIII, EM_FUNC_SIG_VIIF,
    EM_FUNC_SIG_VIFF, EM_FUNC_SIG_VFFF, EM_FUNC_SIG_VIIII, EM_FUNC_SIG_VIIFI, EM_FUNC_SIG_VIFFF,
    EM_FUNC_SIG_VFFFF, EM_FUNC_SIG_IIFFF, EM_FUNC_SIG_VIIIII, EM_FUNC_SIG_VIFFFF, EM_FUNC_SIG_VIIIIII,
    EM_FUNC_SIG_VIIIIIII, EM_FUNC_SIG_VIIIIIIII, EM_FUNC_SIG_VIIIIIIIII, EM_FUNC_SIG_VIIIIIIIIII,
    EM_FUNC_SIG_VIIIIIIIIIII, EM_FUNC_SIG_I, EM_FUNC_SIG_II, EM_FUNC_SIG_III, EM_FUNC_SIG_IIIJ,
    EM_FUNC_SIG_IIII, EM_FUNC_SIG_IIPP, EM_FUNC_SIG_IIIII, EM_FUNC_SIG_IIIIII, EM_FUNC_SIG_IIIIIII,
    EM_FUNC_SIG_IIIIIIII, EM_FUNC_SIG_IIIIIIIII, EM_FUNC_SIG_IIIIIIIIII, EM_FUNC_SIG_IP, EM_FUNC_SIG_PI,
    EM_FUNC_SIG_PPP, EM_FUNC_SIG_PII, EM_FUNC_SIG_PIIII, EM_FUNC_SIG_VIIP, EM_FUNC_SIG_VIIJ,
    EM_FUNC_SIG_VIPI, EM_FUNC_SIG_VIP, EM_FUNC_SIG_IIP, EM_FUNC_SIG_VIIPP, EM_FUNC_SIG_VIPPI,
    EM_FUNC_SIG_VIIIP, EM_FUNC_SIG_VIIIIIP, EM_FUNC_SIG_VIIIIIIP, EM_FUNC_SIG_VIIIIIIIIP]

/-! ## The switch -/

/-- A case: the slots and members that are passed, and the member that takes the result. -/
structure Case where
  sig : Signature
  args : List (Kind × Nat)
  ret : Option Kind

/-- The cases of functions that return nothing, without those of 64-bit builds. -/
def casesV : List Case :=
  [⟨EM_FUNC_SIG_V, [], none⟩,
    ⟨EM_FUNC_SIG_VI, [(.I, 0)], none⟩,
    ⟨EM_FUNC_SIG_VF, [(.F, 0)], none⟩,
    ⟨EM_FUNC_SIG_VII, [(.I, 0), (.I, 1)], none⟩,
    ⟨EM_FUNC_SIG_VIF, [(.I, 0), (.F, 1)], none⟩,
    ⟨EM_FUNC_SIG_VFF, [(.F, 0), (.F, 1)], none⟩,
    ⟨EM_FUNC_SIG_VIII, [(.I, 0), (.I, 1), (.I, 2)], none⟩,
    ⟨EM_FUNC_SIG_VIIJ, [(.I, 0), (.I, 1), (.J, 2)], none⟩,
    ⟨EM_FUNC_SIG_VIIF, [(.I, 0), (.I, 1), (.F, 2)], none⟩,
    ⟨EM_FUNC_SIG_VIFF, [(.I, 0), (.F, 1), (.F, 2)], none⟩,
    ⟨EM_FUNC_SIG_VFFF, [(.F, 0), (.F, 1), (.F, 2)], none⟩,
    ⟨EM_FUNC_SIG_VIIII, [(.I, 0), (.I, 1), (.I, 2), (.I, 3)], none⟩,
    ⟨EM_FUNC_SIG_VIIFI, [(.I, 0), (.I, 1), (.F, 2), (.I, 3)], none⟩,
    ⟨EM_FUNC_SIG_VIFFF, [(.I, 0), (.F, 1), (.F, 2), (.F, 3)], none⟩,
    ⟨EM_FUNC_SIG_VFFFF, [(.F, 0), (.F, 1), (.F, 2), (.F, 3)], none⟩,
    ⟨EM_FUNC_SIG_VIIIII, [(.I, 0), (.I, 1), (.I, 2), (.I, 3), (.I, 4)], none⟩,
    ⟨EM_FUNC_SIG_VIFFFF, [(.I, 0), (.F, 1), (.F, 2), (.F, 3), (.F, 4)], none⟩,
    ⟨EM_FUNC_SIG_VIIIIII, [(.I, 0), (.I, 1), (.I, 2), (.I, 3), (.I, 4), (.I, 5)], none⟩,
    ⟨EM_FUNC_SIG_VIIIIIII, [(.I, 0), (.I, 1), (.I, 2), (.I, 3), (.I, 4), (.I, 5), (.I, 6)], none⟩,
    ⟨EM_FUNC_SIG_VIIIIIIII, [(.I, 0), (.I, 1), (.I, 2), (.I, 3), (.I, 4), (.I, 5), (.I, 6), (.I, 7)],
      none⟩,
    ⟨EM_FUNC_SIG_VIIIIIIIII, [(.I, 0), (.I, 1), (.I, 2), (.I, 3), (.I, 4), (.I, 5), (.I, 6), (.I, 7),
      (.I, 8)], none⟩,
    ⟨EM_FUNC_SIG_VIIIIIIIIII, [(.I, 0), (.I, 1), (.I, 2), (.I, 3), (.I, 4), (.I, 5), (.I, 6), (.I, 7),
      (.I, 8), (.I, 9)], none⟩,
    ⟨EM_FUNC_SIG_VIIIIIIIIIII, [(.I, 0), (.I, 1), (.I, 2), (.I, 3), (.I, 4), (.I, 5), (.I, 6), (.I, 7),
      (.I, 8), (.I, 9), (.I, 10)], none⟩]

/-- The cases of 64-bit builds. -/
def cases64 : List Case :=
  [⟨EM_FUNC_SIG_IP, [(.J, 0)], some .I⟩,
    ⟨EM_FUNC_SIG_IIPP, [(.I, 0), (.J, 1), (.J, 2)], some .I⟩,
    ⟨EM_FUNC_SIG_PI, [(.I, 0)], some .J⟩,
    ⟨EM_FUNC_SIG_IIP, [(.I, 0), (.J, 1)], some .I⟩,
    ⟨EM_FUNC_SIG_PPP, [(.J, 0), (.J, 1)], some .J⟩,
    ⟨EM_FUNC_SIG_VIP, [(.I, 0), (.J, 1)], none⟩,
    ⟨EM_FUNC_SIG_VIIPP, [(.I, 0), (.I, 1), (.J, 2), (.J, 3)], none⟩,
    ⟨EM_FUNC_SIG_VIIIP, [(.I, 0), (.I, 1), (.I, 2), (.J, 3)], none⟩,
    ⟨EM_FUNC_SIG_VIPPI, [(.I, 0), (.J, 1), (.J, 2), (.I, 3)], none⟩,
    ⟨EM_FUNC_SIG_VIPI, [(.I, 0), (.J, 1), (.I, 3)], none⟩,
    ⟨EM_FUNC_SIG_VIIIIIP, [(.I, 0), (.I, 1), (.I, 2), (.I, 3), (.I, 4), (.J, 5)], none⟩,
    ⟨EM_FUNC_SIG_VIIIIIIP, [(.I, 0), (.I, 1), (.I, 2), (.I, 3), (.I, 4), (.I, 5), (.J, 6)], none⟩,
    ⟨EM_FUNC_SIG_VIIIIIIIIP, [(.I, 0), (.I, 1), (.I, 2), (.I, 3), (.I, 4), (.I, 5), (.I, 6), (.I, 7),
      (.J, 8)], none⟩]

/-- The cases of functions that return an `int`. -/
def casesI : List Case :=
  [⟨EM_FUNC_SIG_I, [], some .I⟩,
    ⟨EM_FUNC_SIG_II, [(.I, 0)], some .I⟩,
    ⟨EM_FUNC_SIG_III, [(.I, 0), (.I, 1)], some .I⟩,
    ⟨EM_FUNC_SIG_IIII, [(.I, 0), (.I, 1), (.I, 2)], some .I⟩,
    ⟨EM_FUNC_SIG_IIIJ, [(.I, 0), (.I, 1), (.J, 2)], some .I⟩,
    ⟨EM_FUNC_SIG_IIIII, [(.I, 0), (.I, 1), (.I, 2), (.I, 3)], some .I⟩,
    ⟨EM_FUNC_SIG_IIIIII, [(.I, 0), (.I, 1), (.I, 2), (.I, 3), (.I, 4)], some .I⟩,
    ⟨EM_FUNC_SIG_IIIIIII, [(.I, 0), (.I, 1), (.I, 2), (.I, 3), (.I, 4), (.I, 5)], some .I⟩,
    ⟨EM_FUNC_SIG_IIIIIIII, [(.I, 0), (.I, 1), (.I, 2), (.I, 3), (.I, 4), (.I, 5), (.I, 6)], some .I⟩,
    ⟨EM_FUNC_SIG_IIIIIIIII, [(.I, 0), (.I, 1), (.I, 2), (.I, 3), (.I, 4), (.I, 5), (.I, 6), (.I, 7)],
      some .I⟩,
    ⟨EM_FUNC_SIG_IIIIIIIIII, [(.I, 0), (.I, 1), (.I, 2), (.I, 3), (.I, 4), (.I, 5), (.I, 6), (.I, 7),
      (.I, 8)], some .I⟩]

def cases (wasm64 : Bool) : List Case := casesV ++ (if wasm64 then cases64 else []) ++ casesI

def caseOf (wasm64 : Bool) (functionEnum : Nat) : Option Case :=
  (cases wasm64).find? fun c => c.sig.word wasm64 = functionEnum

/-- Where the switch puts the result. -/
def stored (ret : Option Kind) (returnValue : Slot) (result : Option Value) : Slot :=
  match ret, result with
  | some _, some v => returnValue.write v
  | _, _ => returnValue

/-- What the function is called with, and the slot of the result. There is no case for a word that is
not supported. -/
def _do_call (wasm64 : Bool) (functionEnum : Nat) (args : Nat → Slot) (returnValue : Slot)
    (functionPtr : List Value → Option Value) : Option (List Value × Slot) :=
  (caseOf wasm64 functionEnum).map fun c =>
    let actual := c.args.map fun (k, i) => (args i).read k
    (actual, stored c.ret returnValue (functionPtr actual))

/-! ## Encoding and decoding -/

/-- The slots before those that are set stay. -/
theorem init_args_below (floats : Floats) {k : Nat} :
    ∀ (n i t : Nat) (as : List VarArg) (args : Nat → Slot), k < i → init_args floats args n i t as k = args k
  | 0, _, _, _, _, _ => rfl
  | _ + 1, _, _, [], _, _ => rfl
  | n + 1, i, t, a :: as, args, hk => by
    unfold init_args
    rw [init_args_below floats n (i + 1) (t >>> 2) as _ (by omega)]
    exact if_neg (by omega)

/-- What the slots are read as, from slot `i` on. -/
def decoded (args : Nat → Slot) (ks : List Kind) (i : Nat) : List Value :=
  (ks.zipIdx i).map fun (k, j) => (args j).read k

@[simp] theorem decoded_cons (args : Nat → Slot) (k : Kind) (ks : List Kind) (i : Nat) :
    decoded args (k :: ks) i = (args i).read k :: decoded args ks (i + 1) := rfl

/-- By induction on the parameters: each argument is found in the slot of its place, as its type. -/
theorem decoded_init_args (floats : Floats) :
    ∀ (n i t : Nat) (vs : List Value) (args : Nat → Slot), vs.map Value.kind = kinds n t →
      List.Forall₂ Same vs (decoded (init_args floats args n i t (vs.map (passed floats))) (kinds n t) i)
  | 0, _, _, [], _, _ => .nil
  | 0, _, _, _ :: _, _, h => by cases h
  | _ + 1, _, _, [], _, h => by cases h
  | n + 1, i, t, v :: vs, args, h => by
    obtain ⟨hv, hvs⟩ : v.kind = lowestKind t ∧ vs.map Value.kind = kinds n (t >>> 2) := by
      simpa [kinds] using h
    unfold kinds
    rw [decoded_cons]
    apply List.Forall₂.cons
    · -- the slot of `v` is set now and not again
      have hslot : (init_args floats args (n + 1) i t ((v :: vs).map (passed floats)) i).read (lowestKind t) =
          vaArg floats (passed floats v) v.kind := by
        simp only [List.map_cons, init_args]
        rw [init_args_below floats _ _ _ _ _ (Nat.lt_succ_self i), if_pos rfl, ← hv]
        have hread := Slot.read_write (args i) (vaArg floats (passed floats v) v.kind)
        rwa [vaArg_kind] at hread
      rw [hslot]
      exact vaArg_passed floats v
    · exact decoded_init_args floats n (i + 1) (t >>> 2) vs _ hvs

/-! ## Agreement -/

/-- The word and the case of a signature say what its letters say. -/
def Case.Agrees (c : Case) (wasm64 : Bool) (s : Signature) : Prop :=
  kinds (numArguments (s.word wasm64)) (argumentsType (s.word wasm64)) = s.kinds wasm64 ∧
    c.args = (s.kinds wasm64).zipIdx ∧ c.ret = s.ret.kind? wasm64

instance (c : Case) (wasm64 : Bool) (s : Signature) : Decidable (c.Agrees wasm64 s) := by
  unfold Case.Agrees
  infer_instance

/-- The pointer is followed by an argument that is not read, or is itself not marked as a pointer. -/
def Slips (wasm64 : Bool) (s : Signature) : Prop :=
  wasm64 = true ∧ (s = EM_FUNC_SIG_VIPI ∨ s = EM_FUNC_SIG_VIIIP)

instance (wasm64 : Bool) (s : Signature) : Decidable (Slips wasm64 s) := by
  unfold Slips
  infer_instance

/-- Every signature of the header that has a case agrees with it, but two. -/
theorem header_agrees : ∀ wasm64, ∀ s ∈ header, ¬ Slips wasm64 s →
    ∀ c ∈ caseOf wasm64 (s.word wasm64), c.Agrees wasm64 s := by
  decide

/-- A call of the signature, queued and executed: the function is called with the arguments, and its
result is in the slot. -/
def Marshals (floats : Floats) (wasm64 : Bool) (s : Signature) : Prop :=
  ∀ (args : List Value) (initial : Nat → Slot) (returnValue : Slot) (functionPtr : List Value → Option Value),
    args.map Value.kind = s.kinds wasm64 →
    (∀ actual, actual.map Value.kind = s.kinds wasm64 →
      (functionPtr actual).map Value.kind = s.ret.kind? wasm64) →
    ∃ actual slot,
      _do_call wasm64 (s.word wasm64)
          (init_em_queued_call_args floats initial (s.word wasm64) (args.map (passed floats))) returnValue
          functionPtr = some (actual, slot) ∧
        List.Forall₂ Same args actual ∧ ∀ v, functionPtr actual = some v → slot.read v.kind = v

theorem Same.kind_eq {v w : Value} (h : Same v w) : w.kind = v.kind := by
  obtain rfl | ⟨f, g, rfl, rfl, -, -⟩ := h
  · rfl
  · rfl

theorem kinds_of_same {vs ws : List Value} (h : List.Forall₂ Same vs ws) :
    ws.map Value.kind = vs.map Value.kind := by
  induction h with
  | nil => rfl
  | cons hv _ ih => simp [hv.kind_eq, ih]

/-- A case that takes a result stores it. -/
theorem stored_read {ret : Option Kind} {result : Option Value} {returnValue : Slot} {v : Value}
    (hret : result.map Value.kind = ret) (hv : result = some v) :
    (stored ret returnValue result).read v.kind = v := by
  subst hret hv
  exact Slot.read_write returnValue v

/-- Where a signature agrees with its case, calls are marshalled. -/
theorem Case.Agrees.marshals {floats : Floats} {wasm64 : Bool} {s : Signature} {c : Case}
    (hc : caseOf wasm64 (s.word wasm64) = some c) (ha : c.Agrees wasm64 s) : Marshals floats wasm64 s := by
  obtain ⟨hkinds, hargs, hret⟩ := ha
  intro args initial returnValue functionPtr hvs hf
  have hsame := decoded_init_args floats _ 0 (argumentsType (s.word wasm64)) args initial (hvs.trans hkinds.symm)
  rw [hkinds] at hsame
  generalize hactual : decoded _ (s.kinds wasm64) 0 = actual at hsame
  refine ⟨actual, stored c.ret returnValue (functionPtr actual), ?_, hsame, ?_⟩
  · unfold _do_call
    rw [hc, Option.map_some, hargs, ← hactual]
    rfl
  · intro v hv
    rw [hret]
    apply stored_read _ hv
    apply hf
    exact (kinds_of_same hsame).trans hvs

/-! ## The signatures that slip -/

/-- The argument after the pointer is taken from a slot that was not set. -/
theorem vipi_reads :
    _do_call true (EM_FUNC_SIG_VIPI.word true)
        (init_em_queued_call_args floats (fun _ => 0) (EM_FUNC_SIG_VIPI.word true)
          ([.i 1, .j 2, .i 3].map (passed floats))) 0 (fun _ => none) =
      some ([.i 1, .j 2, .i 0], 0) := by
  with_unfolding_all rfl

/-- The pointer loses its upper half. -/
theorem viiip_reads (v : BitVec 64) :
    _do_call true (EM_FUNC_SIG_VIIIP.word true)
        (init_em_queued_call_args floats (fun _ => 0) (EM_FUNC_SIG_VIIIP.word true)
          ([.i 1, .i 2, .i 3, .j v].map (passed floats))) 0 (fun _ => none) =
      some ([.i 1, .i 2, .i 3, .j (Slot.withLow 0 (v.setWidth 32))], 0) := by
  have hcase : caseOf true (EM_FUNC_SIG_VIIIP.word true) =
      some ⟨EM_FUNC_SIG_VIIIP, [(.I, 0), (.I, 1), (.I, 2), (.J, 3)], none⟩ := by rfl
  -- the fourth argument is taken for an `int`
  have hkinds : numArguments (EM_FUNC_SIG_VIIIP.word true) = 4 ∧
      argumentsType (EM_FUNC_SIG_VIIIP.word true) = 0x100 := by decide
  unfold _do_call init_em_queued_call_args
  rw [hcase, hkinds.1, hkinds.2]
  simp [init_args, lowestKind, passed, vaArg, VarArg.bits, Slot.write, Slot.read, stored]

theorem same_of_marshals {floats : Floats} {wasm64 : Bool} {s : Signature} (h : Marshals floats wasm64 s)
    {args actual : List Value} {initial : Nat → Slot} {returnValue slot : Slot}
    (hvs : args.map Value.kind = s.kinds wasm64) (hret : s.ret.kind? wasm64 = none)
    (hcall : _do_call wasm64 (s.word wasm64)
      (init_em_queued_call_args floats initial (s.word wasm64) (args.map (passed floats))) returnValue
      (fun _ => none) = some (actual, slot)) : List.Forall₂ Same args actual := by
  obtain ⟨actual', slot', hcall', hsame, -⟩ :=
    h args initial returnValue (fun _ => none) hvs (fun _ _ => hret.symm)
  obtain ⟨rfl, rfl⟩ : actual = actual' ∧ slot = slot' := by simpa using hcall.symm.trans hcall'
  exact hsame

theorem not_same_of_ne {v w : Value} (hne : v ≠ w) (hk : v.kind ≠ .F) : ¬ Same v w := by
  rintro (h | ⟨f, -, rfl, -⟩)
  · exact hne h
  · exact hk rfl

theorem vipi_slips : ¬ Marshals floats true EM_FUNC_SIG_VIPI := by
  intro h
  have hsame := same_of_marshals h rfl rfl (vipi_reads floats)
  obtain ⟨-, hsame⟩ := List.forall₂_cons.mp hsame
  obtain ⟨-, hsame⟩ := List.forall₂_cons.mp hsame
  obtain ⟨hlast, -⟩ := List.forall₂_cons.mp hsame
  exact not_same_of_ne (by decide) (by decide) hlast

theorem viiip_slips : ¬ Marshals floats true EM_FUNC_SIG_VIIIP := by
  intro h
  have hsame := same_of_marshals h rfl rfl (viiip_reads floats 0x100000000)
  obtain ⟨-, hsame⟩ := List.forall₂_cons.mp hsame
  obtain ⟨-, hsame⟩ := List.forall₂_cons.mp hsame
  obtain ⟨-, hsame⟩ := List.forall₂_cons.mp hsame
  obtain ⟨hlast, -⟩ := List.forall₂_cons.mp hsame
  exact not_same_of_ne (by decide) (by decide) hlast

/-! ## Calls are marshalled -/

/-- Calls of every signature of the header that has a case are marshalled, but those of two in 64-bit
builds. -/
theorem _do_call_marshals (floats : Floats) (wasm64 : Bool) (s : Signature) (hs : s ∈ header)
    (hcase : (caseOf wasm64 (s.word wasm64)).isSome) : Marshals floats wasm64 s ↔ ¬ Slips wasm64 s := by
  constructor
  · rintro h ⟨rfl, rfl | rfl⟩
    · exact vipi_slips floats h
    · exact viiip_slips floats h
  · intro hslip
    obtain ⟨c, hc⟩ := Option.isSome_iff_exists.mp hcase
    exact (header_agrees wasm64 s hs hslip c hc).marshals hc

theorem _do_call_marshals_viip : Marshals default true EM_FUNC_SIG_VIIP := by
  apply (_do_call_marshals default true EM_FUNC_SIG_VIIP (by decide) (by decide)).mpr
  decide

/-- In 64-bit builds the function is not called with the arguments `1`, `2`, `3`, nor with a pointer to
`0x100000000`. -/
theorem _do_call_loses_arguments :
    (∀ floats, ∃ actual slot,
      _do_call true (EM_FUNC_SIG_VIPI.word true)
        (init_em_queued_call_args floats (fun _ => 0) (EM_FUNC_SIG_VIPI.word true)
          ([.i 1, .j 2, .i 3].map (passed floats))) 0 (fun _ => none) = some (actual, slot) ∧
      actual[2]? = some (.i 0)) ∧
    (∀ floats, ∃ actual slot,
      _do_call true (EM_FUNC_SIG_VIIIP.word true)
        (init_em_queued_call_args floats (fun _ => 0) (EM_FUNC_SIG_VIIIP.word true)
          ([.i 1, .i 2, .i 3, .j 0x100000000].map (passed floats))) 0 (fun _ => none) = some (actual, slot) ∧
      actual[3]? = some (.j 0)) ∧
    ∃ floats s, s ∈ header ∧ (caseOf true (s.word true)).isSome ∧ ¬ Marshals floats true s := by
  refine ⟨fun floats => ⟨_, _, vipi_reads floats, rfl⟩, fun floats => ⟨_, _, viiip_reads floats 0x100000000, by decide⟩, ?_⟩
  exact ⟨default, EM_FUNC_SIG_VIPI, by decide, by decide, vipi_slips default⟩

end QueuedCall
