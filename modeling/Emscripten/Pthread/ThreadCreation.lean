-- SUMMARY: The creation of a thread: the layout of its block, its registration, and what is undone where it cannot be started.
import Emscripten.Lib.Areas
import Emscripten.Pthread.ThreadList

/-!
# Creation of threads

`__pthread_create` allocates one block for the thread structure, the thread-local data, the pointers to
thread-specific data and the stack. The size of the block leaves room for the largest paddings. The thread
is registered before it is started, and taken off again where it cannot be started.
-/

namespace ThreadCreation

open Areas Pthread

/-! ## Builds and calls -/

/-- What the compiler and the linker know of a build. -/
structure Build where
  pointerSize : Nat
  sizeof_pthread : Nat
  tls_size : Nat
  tls_align : Nat
  tsd_size : Nat
  default_stacksize : Nat
  pointerSize_eq : pointerSize = 4 ∨ pointerSize = 8
  dvd_sizeof_pthread : pointerSize ∣ sizeof_pthread
  tls_align_eq : ∃ k, tls_align = 2 ^ k
  tls_align_lt : tls_align < 2 ^ (8 * pointerSize)

structure Attr where
  a_stacksize : Nat
  a_stackaddr : Nat
deriving DecidableEq

/-- A call by the thread `self`, and what is answered to it: the results of `malloc` for the block and for the
mailbox, where 0 is a failure, and the one of `__pthread_create_js`. -/
structure Call where
  self : Nat
  res_null : Bool
  attrp : Option Attr
  block : Nat
  queue : Nat
  tasks : Nat
  rtn : Int

structure State where
  links : Links Nat
  threads_minus_1 : Int
  need_locks : Int
  /-- `*res` -/
  res : Nat
  /-- The blocks that are allocated. -/
  allocated : List Nat

/-- The fields of a thread structure that its creation sets. -/
structure Thread where
  map_base : Nat
  map_size : Nat
  stack_size : Nat
  tls_base : Nat
  tsd : Nat
  stack : Nat
  mailbox : Nat

inductive Outcome
  | returned (rc : Int) (s : State) (new : Option Thread)
  | assertionFailed
  /-- A null pointer is written through. -/
  | nullWritten

def EINVAL : Int := 28
def STACK_ALIGN : Nat := 16

namespace Build

variable (b : Build)

/-- The numbers of a `uintptr_t`. -/
def word : Nat := 2 ^ (8 * b.pointerSize)

def TSD_ALIGN : Nat := b.pointerSize

/-- `ROUND_UP`, where the alignment is a power of two. -/
def ROUND_UP (x alignment : Nat) : Nat := (x + alignment - 1) % b.word / alignment * alignment

/-- The attributes of a call. -/
def attr (attrp : Option Attr) : Attr :=
  let attr := attrp.getD ⟨0, 0⟩
  if attr.a_stacksize = 0 then { attr with a_stacksize := b.default_stacksize } else attr

/-- The size of the part that is cleared, before it wraps. -/
def zeroTotal : Nat :=
  b.sizeof_pthread + (if b.tls_size ≠ 0 then b.tls_size + b.tls_align - 1 else 0) + (b.tsd_size + b.TSD_ALIGN - 1)

/-- The size of the block, before it wraps. -/
def total (attr : Attr) : Nat :=
  b.zeroTotal + if attr.a_stackaddr = 0 then attr.a_stacksize + STACK_ALIGN - 1 else 0

def size (attr : Attr) : Nat := b.total attr % b.word

/-- Where an area of some size comes, and the offset after it. No area comes where there is nothing. -/
def place (offset size alignment : Nat) : Nat × Nat :=
  if size ≠ 0 then (b.ROUND_UP offset alignment, (b.ROUND_UP offset alignment + size) % b.word) else (0, offset)

/-- The thread structure in a block, and the last offset. -/
def layout (attr : Attr) (block mailbox : Nat) : Thread × Nat :=
  let (tls_base, offset) := b.place ((block + b.sizeof_pthread) % b.word) b.tls_size b.tls_align
  let (tsd, offset) := b.place offset b.tsd_size b.TSD_ALIGN
  let stack := if attr.a_stackaddr ≠ 0 then attr.a_stackaddr
    else b.ROUND_UP ((offset + attr.a_stacksize) % b.word) STACK_ALIGN
  (⟨block, b.size attr, attr.a_stacksize, tls_base, tsd, stack, mailbox⟩,
    if attr.a_stackaddr ≠ 0 then offset else stack)

end Build

/-- The queue, or 0. -/
def em_task_queue_create (c : Call) (s : State) : Nat × State :=
  -- a queue without tasks is freed again
  if c.queue = 0 ∨ c.tasks = 0 then (0, s) else (c.queue, { s with allocated := c.tasks :: c.queue :: s.allocated })

/-- The registration of the thread. -/
def register (c : Call) (s : State) : Option State :=
  (ListEdit.run (ListEdit.link c.self c.block).writes s.links).map fun links =>
    { s with
      links := links
      threads_minus_1 := s.threads_minus_1 + 1
      need_locks := if s.threads_minus_1 = 0 then 1 else s.need_locks
      res := c.block }

/-- What is undone where the thread cannot be started. -/
def unregister (c : Call) (s : State) : Option State :=
  (ListEdit.run (ListEdit.unlink c.block).writes s.links).map fun links =>
    { s with
      links := links
      threads_minus_1 := s.threads_minus_1 - 1
      need_locks := if s.threads_minus_1 - 1 = 0 then 0 else s.need_locks
      res := 0 }

def __pthread_create (b : Build) (c : Call) (s : State) : Outcome :=
  if c.res_null then .returned EINVAL s none
  else if c.block = 0 then .nullWritten
  else
    let attr := b.attr c.attrp
    let s := { s with allocated := c.block :: s.allocated }
    let (mailbox, s') := em_task_queue_create c s
    let (new, offset) := b.layout attr c.block mailbox
    if ¬ offset < (c.block + b.size attr) % b.word then .assertionFailed
    else
      match register c s' with
      | none => .nullWritten
      | some s =>
        if c.rtn = 0 then .returned 0 s (some new)
        else
          match unregister c s with
          | none => .nullWritten
          | some s => .returned c.rtn s none

/-! ## Layout -/

/-- The areas of a thread. A stack that the attributes name is not in the block. -/
def Thread.areas (p : Thread) (b : Build) (attr : Attr) : List Area :=
  ⟨p.map_base, b.sizeof_pthread, p.map_base, b.pointerSize⟩ ::
    ((if b.tls_size ≠ 0 then [⟨p.tls_base, b.tls_size, p.tls_base, b.tls_align⟩] else []) ++
      ((if b.tsd_size ≠ 0 then [⟨p.tsd, b.tsd_size, p.tsd, b.TSD_ALIGN⟩] else []) ++
        if attr.a_stackaddr = 0 then
          [⟨(p.stack + b.word - p.stack_size) % b.word, p.stack_size, p.stack, STACK_ALIGN⟩]
        else []))

/-- The areas come one after another in the block, and they are aligned. -/
def Thread.Laid (p : Thread) (b : Build) (attr : Attr) : Prop :=
  ((p.areas b attr).Pairwise fun r r' => r.stop ≤ r'.start) ∧
    ∀ r ∈ p.areas b attr, p.map_base ≤ r.start ∧ r.stop ≤ p.map_base + p.map_size ∧ r.align ∣ r.anchor

namespace Build

variable {b : Build}

theorem pointerSize_pos (b : Build) : 0 < b.pointerSize := by
  have := b.pointerSize_eq
  omega

theorem tls_align_pos (b : Build) : 0 < b.tls_align := by
  obtain ⟨k, hk⟩ := b.tls_align_eq
  rw [hk]
  exact Nat.two_pow_pos k

theorem ROUND_UP_eq {x a : Nat} (h : x + a - 1 < b.word) : b.ROUND_UP x a = roundUp x a := by
  unfold ROUND_UP roundUp
  rw [Nat.mod_eq_of_lt h]

/-- An area is placed after the offset, with no more than the largest padding. -/
theorem place_spec (b : Build) (offset size : Nat) {a : Nat} (ha : 0 < a)
    (h : offset + (if size ≠ 0 then size + a - 1 else 0) < b.word) :
    InOrder offset (if size ≠ 0 then [⟨(b.place offset size a).1, size, (b.place offset size a).1, a⟩] else [])
        (b.place offset size a).2 ∧
      (b.place offset size a).2 ≤ offset + (if size ≠ 0 then size + a - 1 else 0) ∧
      ((b.place offset size a).2 = offset + (if size ≠ 0 then size + a - 1 else 0) ↔
        (size ≠ 0 → a ∣ offset + a - 1)) := by
  unfold place
  split
  · rename_i hsize
    rw [if_pos hsize] at h
    have hle := roundUp_le offset a
    have hge := le_roundUp (x := offset) ha
    rw [ROUND_UP_eq (by omega), Nat.mod_eq_of_lt (by omega)]
    refine ⟨⟨hge, dvd_roundUp offset a, Nat.le_refl _⟩, by dsimp only; omega, ?_⟩
    rw [← roundUp_eq_iff]
    simp only [hsize, not_false_eq_true, forall_const, ne_eq]
    omega
  · rename_i hsize
    exact ⟨Nat.le_refl _, Nat.le_refl _, fun _ h => absurd h hsize, fun _ => rfl⟩

/-- The stack ends at a multiple of 16, and its lowest address is not before the offset. -/
theorem stack_spec (b : Build) (offset stack_size : Nat) (h : offset + (stack_size + STACK_ALIGN - 1) < b.word) :
    let stack := b.ROUND_UP ((offset + stack_size) % b.word) STACK_ALIGN
    InOrder offset [⟨(stack + b.word - stack_size) % b.word, stack_size, stack, STACK_ALIGN⟩] stack ∧
      stack ≤ offset + (stack_size + STACK_ALIGN - 1) ∧
      (stack = offset + (stack_size + STACK_ALIGN - 1) ↔ STACK_ALIGN ∣ offset + stack_size + STACK_ALIGN - 1) := by
  have ha : 0 < STACK_ALIGN := by decide
  have hmod : (offset + stack_size) % b.word = offset + stack_size := Nat.mod_eq_of_lt (by omega)
  have hle := roundUp_le (offset + stack_size) STACK_ALIGN
  have hge := le_roundUp (x := offset + stack_size) ha
  have heq := roundUp_eq_iff (x := offset + stack_size) (a := STACK_ALIGN)
  have hdvd := dvd_roundUp (offset + stack_size) STACK_ALIGN
  rw [hmod, ROUND_UP_eq (by omega)]
  generalize roundUp (offset + stack_size) STACK_ALIGN = stack at hle hge heq hdvd
  have hstart : (stack + b.word - stack_size) % b.word = stack - stack_size := by
    rw [Nat.sub_add_comm (by omega), Nat.add_mod_right]
    exact Nat.mod_eq_of_lt (by omega)
  refine ⟨⟨?_, hdvd, ?_⟩, by omega, by rw [← heq]; omega⟩
  · dsimp only
    omega
  · change (stack + b.word - stack_size) % b.word + stack_size ≤ stack
    rw [hstart]
    omega

/-- All paddings are as large as they can be. -/
def NoSlack (b : Build) (attr : Attr) (block : Nat) : Prop :=
  b.tls_size ≠ 0 ∧ b.tls_align = 1 ∧ b.tls_size % b.pointerSize = 1 ∧ b.tsd_size ≠ 0 ∧
    (attr.a_stackaddr = 0 →
      (block + b.sizeof_pthread + b.tls_size + (b.pointerSize - 1) + b.tsd_size + attr.a_stacksize) % STACK_ALIGN = 1)

/-- A power of two that divides a number before a multiple of itself and of 4. -/
theorem tls_align_eq_one {x : Nat} (hx : b.pointerSize ∣ x) (h : b.tls_align ∣ x + b.tls_align - 1) :
    b.tls_align = 1 := by
  obtain ⟨k, hk⟩ := b.tls_align_eq
  cases k with
  | zero => exact hk
  | succ k =>
    -- an even alignment, and an odd number
    have htwo : 2 ∣ b.tls_align := by
      rw [hk, Nat.pow_succ]
      exact Nat.dvd_mul_left 2 _
    have heven : 2 ∣ x := by
      refine Nat.dvd_trans ?_ hx
      obtain hp | hp := b.pointerSize_eq
      · rw [hp]
        decide
      · rw [hp]
        decide
    have hodd := Nat.dvd_trans htwo h
    have := b.tls_align_pos
    omega

/-- A pointer's padding is as large as it can be one byte after a multiple of its size. -/
theorem pointer_padding {base x : Nat} (hbase : b.pointerSize ∣ base) :
    b.pointerSize ∣ base + x + b.pointerSize - 1 ↔ x % b.pointerSize = 1 := by
  obtain hp | hp := b.pointerSize_eq
  · rw [hp] at hbase ⊢
    omega
  · rw [hp] at hbase ⊢
    omega

/-- Where the size of the block does not wrap, everything is laid out in the block. The last offset is its
end only without slack. -/
theorem layout_spec (b : Build) (attr : Attr) (mailbox : Nat) {block : Nat} (hblock : b.pointerSize ∣ block)
    (htotal : b.total attr < b.word) (hend : block + b.total attr < b.word) :
    (b.layout attr block mailbox).1.Laid b attr ∧
      (b.layout attr block mailbox).2 ≤ block + b.total attr ∧
      ((b.layout attr block mailbox).2 = block + b.total attr ↔ NoSlack b attr block) := by
  have hsize : b.size attr = b.total attr := Nat.mod_eq_of_lt htotal
  have hpos := b.pointerSize_pos
  have hzero : b.zeroTotal ≤ b.total attr := Nat.le_add_right ..
  have hzeroTotal : b.zeroTotal = b.sizeof_pthread +
    (if b.tls_size ≠ 0 then b.tls_size + b.tls_align - 1 else 0) + (b.tsd_size + b.pointerSize - 1) := rfl
  have hmod : (block + b.sizeof_pthread) % b.word = block + b.sizeof_pthread := Nat.mod_eq_of_lt (by omega)
  have htsd : (if b.tsd_size ≠ 0 then b.tsd_size + b.pointerSize - 1 else 0) ≤ b.tsd_size + b.pointerSize - 1 := by
    split <;> omega
  obtain ⟨horder₁, hle₁, heq₁⟩ := place_spec b (block + b.sizeof_pthread) b.tls_size
    b.tls_align_pos (by omega)
  unfold layout
  rw [hmod]
  generalize b.place (block + b.sizeof_pthread) b.tls_size b.tls_align = placed₁ at *
  obtain ⟨tls_base, offset₁⟩ := placed₁
  obtain ⟨horder₂, hle₂, heq₂⟩ := place_spec b offset₁ b.tsd_size
    hpos (by dsimp only at hle₁; omega)
  dsimp only [TSD_ALIGN] at horder₁ hle₁ heq₁ ⊢
  generalize b.place offset₁ b.tsd_size b.pointerSize = placed₂ at *
  obtain ⟨tsd, offset₂⟩ := placed₂
  dsimp only at horder₂ hle₂ heq₂ ⊢
  -- the offset after the thread-specific data
  have hbase : b.pointerSize ∣ block + b.sizeof_pthread := Nat.dvd_add hblock b.dvd_sizeof_pthread
  have hpadded : offset₂ ≤ block + b.zeroTotal ∧ (offset₂ = block + b.zeroTotal ↔
      b.tls_size ≠ 0 ∧ b.tls_align = 1 ∧ b.tls_size % b.pointerSize = 1 ∧ b.tsd_size ≠ 0) := by
    refine ⟨by omega, ?_⟩
    constructor
    · intro hfull
      have hfull₁ := heq₁.mp (by omega)
      have hfull₂ := heq₂.mp (by omega)
      have hne : b.tsd_size ≠ 0 := by
        intro hzero
        rw [hzero] at hle₂ hzeroTotal
        have := b.pointerSize_eq
        simp only [ne_eq, not_true_eq_false, if_false] at hle₂
        omega
      rw [if_pos hne] at hle₂
      by_cases htls : b.tls_size = 0
      · -- without thread-local data there is no padding here
        simp only [htls, ne_eq, not_true_eq_false, if_false] at hle₁ hzeroTotal
        obtain rfl : offset₁ = block + b.sizeof_pthread := by omega
        have hzero := (pointer_padding (x := 0) hbase).mp (by simpa using hfull₂ hne)
        rw [Nat.zero_mod] at hzero
        cases hzero
      · have halign := tls_align_eq_one hbase (hfull₁ htls)
        rw [if_pos htls, halign] at hle₁ hzeroTotal
        obtain rfl : offset₁ = block + b.sizeof_pthread + b.tls_size := by omega
        exact ⟨htls, halign, (pointer_padding hbase).mp (hfull₂ hne), hne⟩
    · rintro ⟨htls, halign, hmod₁, hne⟩
      have hoffset₁ := heq₁.mpr fun _ => by
        rw [halign]
        exact Nat.one_dvd _
      rw [if_pos htls, halign, Nat.add_sub_cancel] at hoffset₁
      have hoffset₂ := heq₂.mpr fun _ => by
        rw [hoffset₁]
        exact (pointer_padding hbase).mpr hmod₁
      rw [if_pos hne] at hoffset₂
      rw [if_pos htls, halign] at hzeroTotal
      omega
  obtain ⟨hle, heq⟩ := hpadded
  have hstruct : ∀ {rs hi}, InOrder (block + b.sizeof_pthread) rs hi →
      InOrder block (⟨block, b.sizeof_pthread, block, b.pointerSize⟩ :: rs) hi :=
    fun h => ⟨Nat.le_refl _, hblock, h⟩
  have laid : ∀ {stack offset : Nat} {rs : List Area},
      (if attr.a_stackaddr = 0 then
        [⟨(stack + b.word - attr.a_stacksize) % b.word, attr.a_stacksize, stack, STACK_ALIGN⟩] else []) = rs →
      InOrder offset₂ rs offset → offset ≤ block + b.total attr →
      Thread.Laid ⟨block, b.size attr, attr.a_stacksize, tls_base, tsd, stack, mailbox⟩ b attr := by
    intro stack offset rs hrs horder hoffset
    have hall := (hstruct (horder₁.append (horder₂.append horder))).mono hoffset
    rw [← hrs, ← hsize] at hall
    exact ⟨hall.pairwise, fun r hr => hall.mem hr⟩
  by_cases haddr : attr.a_stackaddr = 0
  · have htotal' : b.total attr = b.zeroTotal + (attr.a_stacksize + STACK_ALIGN - 1) := by
      unfold total
      rw [if_pos haddr]
    obtain ⟨horder, hlast, hfull⟩ := stack_spec b offset₂ attr.a_stacksize (by omega)
    rw [if_neg (not_not.mpr haddr), if_neg (not_not.mpr haddr)]
    generalize b.ROUND_UP ((offset₂ + attr.a_stacksize) % b.word) STACK_ALIGN = stack at *
    refine ⟨laid (if_pos haddr) horder (by omega), by omega, ?_⟩
    constructor
    · intro hlast'
      obtain ⟨htls, halign, hmod₁, hne⟩ := heq.mp (by omega)
      have hdvd := hfull.mp (by omega)
      rw [if_pos htls, halign] at hzeroTotal
      refine ⟨htls, halign, hmod₁, hne, fun _ => ?_⟩
      unfold STACK_ALIGN at hdvd ⊢
      omega
    · rintro ⟨htls, halign, hmod₁, hne, hmod₂⟩
      have hoffset₂ := heq.mpr ⟨htls, halign, hmod₁, hne⟩
      have hmod₂ := hmod₂ haddr
      rw [if_pos htls, halign] at hzeroTotal
      have hlast' := hfull.mpr (by unfold STACK_ALIGN at hmod₂ ⊢; omega)
      omega
  · have htotal' : b.total attr = b.zeroTotal := by
      unfold total
      rw [if_neg haddr, Nat.add_zero]
    rw [if_pos haddr, if_pos haddr]
    refine ⟨laid (if_neg haddr) (Nat.le_refl offset₂) (by omega), by omega, ?_⟩
    rw [htotal', heq]
    unfold NoSlack
    simp [haddr]

theorem two_mul_tls_align_le (b : Build) : 2 * b.tls_align ≤ b.word := by
  obtain ⟨k, hk⟩ := b.tls_align_eq
  have hlt := b.tls_align_lt
  rw [hk] at hlt ⊢
  have hk' : k < 8 * b.pointerSize := (Nat.pow_lt_pow_iff_right (by decide)).mp hlt
  unfold word
  rw [← Nat.pow_succ']
  exact Nat.pow_le_pow_right (by decide) hk'

theorem le_word (b : Build) : 2 ^ 32 ≤ b.word := by
  unfold word
  apply Nat.pow_le_pow_right (by decide)
  have := b.pointerSize_eq
  omega

/-- Where everything is laid out in the block, its size did not wrap. -/
theorem total_lt_of_laid {p : Thread} {attr : Attr} (h : p.Laid b attr) (hsize : p.map_size = b.size attr)
    (hstack : p.stack_size = attr.a_stacksize) : b.total attr < b.word := by
  by_contra hge
  have hwrap : b.size attr ≤ b.total attr - b.word := by
    unfold size
    rw [Nat.mod_eq_sub_mod (Nat.le_of_not_lt hge)]
    exact Nat.mod_le _ _
  have hsum := sum_length_le (Nat.le_add_right p.map_base p.map_size) h.1
    fun r hr => ⟨(h.2 r hr).1, (h.2 r hr).2.1⟩
  have hhalf := b.two_mul_tls_align_le
  have hword := b.le_word
  have hpointer := b.pointerSize_eq
  -- the areas are all of the block but the paddings, which are smaller than a word
  have hlengths : b.total attr ≤
      ((p.areas b attr).map Area.length).sum + (b.tls_align - 1) + (b.pointerSize - 1) + (STACK_ALIGN - 1) := by
    unfold total zeroTotal Thread.areas TSD_ALIGN
    rw [hstack]
    have := b.tls_align_pos
    split <;> split <;> split <;> simp [STACK_ALIGN] <;> omega
  unfold STACK_ALIGN at hlengths
  omega

end Build

/-! ## Registration -/

variable {b : Build} {c : Call} {s s' : State} {l : List Nat}

/-- A thread can always be registered by one that is on the list. -/
theorem register_eq_some (hl : LinkedRing s.links.next s.links.prev l) (hself : c.self ∈ l) (hblock : c.block ∉ l) :
    ∃ s', register c s = some s' := by
  obtain ⟨links, -, hrun, -⟩ := ListEdit.run_link hl hself hblock
  unfold register
  rw [hrun]
  exact ⟨_, rfl⟩

theorem register_allocated (h : register c s = some s') : s'.allocated = s.allocated := by
  unfold register at h
  obtain ⟨links, -, rfl⟩ := Option.map_eq_some_iff.mp h
  rfl

theorem unregister_allocated (h : unregister c s = some s') : s'.allocated = s.allocated := by
  unfold unregister at h
  obtain ⟨links, -, rfl⟩ := Option.map_eq_some_iff.mp h
  rfl

/-! ## Correctness -/

/-- The call has left nothing behind. -/
def State.Restores (block : Nat) (s s' : State) : Prop :=
  (∀ t ≠ block, s'.links.next t = s.links.next t ∧ s'.links.prev t = s.links.prev t) ∧
    s'.threads_minus_1 = s.threads_minus_1 ∧ s'.res = s.res ∧ ∀ a, a ∈ s'.allocated ↔ a ∈ s.allocated

/-- A thread that is created has all its areas in its block, and a mailbox. A call that fails leaves
everything as it was. -/
def Correct (b : Build) (c : Call) (s : State) : Prop :=
  match __pthread_create b c s with
  | .returned rc s' new =>
    (rc = 0 → ∃ p, new = some p ∧ p.Laid b (b.attr c.attrp) ∧ p.mailbox ≠ 0) ∧ (rc ≠ 0 → s.Restores c.block s')
  | .assertionFailed => False
  | .nullWritten => False

/-- What `malloc` promises of the block. -/
structure Malloc (b : Build) (c : Call) (s : State) : Prop where
  aligned : b.pointerSize ∣ c.block
  within : c.block + b.size (b.attr c.attrp) < b.word
  fresh : c.block ∉ s.allocated

theorem mem_em_task_queue_create {a : Nat} (h : a ∈ s.allocated) : a ∈ (em_task_queue_create c s).2.allocated := by
  unfold em_task_queue_create
  split
  · exact h
  · exact List.mem_cons_of_mem _ (List.mem_cons_of_mem _ h)

theorem em_task_queue_create_links : (em_task_queue_create c s).2.links = s.links := by
  unfold em_task_queue_create
  split <;> rfl

/-- The thread has a mailbox if both of its blocks could be allocated. -/
theorem em_task_queue_create_ne_zero : (em_task_queue_create c s).1 ≠ 0 ↔ c.queue ≠ 0 ∧ c.tasks ≠ 0 := by
  unfold em_task_queue_create
  split
  · rename_i h
    simp only [ne_eq, not_true_eq_false, false_iff]
    tauto
  · rename_i h
    tauto

/-- A creation in a block that could be allocated. -/
theorem correct_iff_of_block (hl : LinkedRing s.links.next s.links.prev l) (hself : c.self ∈ l) (hblock : c.block ∉ l)
    (hres : c.res_null = false) (hne : c.block ≠ 0) (hmalloc : Malloc b c s) :
    Correct b c s ↔ c.queue ≠ 0 ∧ c.tasks ≠ 0 ∧ c.rtn = 0 ∧ b.total (b.attr c.attrp) < b.word ∧
      ¬ b.NoSlack (b.attr c.attrp) c.block := by
  set attr := b.attr c.attrp with hattr
  obtain ⟨mailbox, s₁, hqueue⟩ : ∃ mailbox s₁,
    em_task_queue_create c { s with allocated := c.block :: s.allocated } = (mailbox, s₁) := ⟨_, _, rfl⟩
  have hlinks : s₁.links = s.links := by
    have := em_task_queue_create_links (c := c) (s := { s with allocated := c.block :: s.allocated })
    rw [hqueue] at this
    exact this
  have hmem : c.block ∈ s₁.allocated := by
    have := mem_em_task_queue_create (c := c) (s := { s with allocated := c.block :: s.allocated }) (a := c.block)
      List.mem_cons_self
    rw [hqueue] at this
    exact this
  have hmailbox : mailbox ≠ 0 ↔ c.queue ≠ 0 ∧ c.tasks ≠ 0 := by
    have := em_task_queue_create_ne_zero (c := c) (s := { s with allocated := c.block :: s.allocated })
    rw [hqueue] at this
    exact this
  obtain ⟨s₂, hregister⟩ := register_eq_some (c := c) (s := s₁) (hlinks ▸ hl) hself hblock
  have hend : (c.block + b.size attr) % b.word = c.block + b.size attr := Nat.mod_eq_of_lt hmalloc.within
  unfold Correct __pthread_create
  simp only [hres, hne, ← hattr, hqueue, hregister, hend, Bool.false_eq_true, if_false]
  by_cases hrtn : c.rtn = 0
  · by_cases htotal : b.total attr < b.word
    · have hsize : b.size attr = b.total attr := Nat.mod_eq_of_lt htotal
      obtain ⟨hlaid, hle, hfull⟩ := Build.layout_spec b attr mailbox
        hmalloc.aligned htotal (hsize ▸ hmalloc.within)
      by_cases hslack : b.NoSlack attr c.block
      · -- the last offset is the end of the block
        rw [if_pos (by have := hfull.mpr hslack; omega)]
        simp [hslack]
      · have hlt : (b.layout attr c.block mailbox).2 ≠ c.block + b.total attr := fun heq => hslack (hfull.mp heq)
        rw [if_neg (by omega), if_pos hrtn]
        have hp : (b.layout attr c.block mailbox).1.mailbox = mailbox := rfl
        simp [hrtn, htotal, hslack, hlaid, hp, ← hmailbox]
    · -- the size has wrapped, so that the areas cannot be in the block
      simp only [htotal, false_and, and_false, iff_false]
      by_cases hassert : (b.layout attr c.block mailbox).2 < c.block + b.size attr
      · rw [if_neg (not_not.mpr hassert), if_pos hrtn]
        rintro ⟨hok, -⟩
        obtain ⟨p, hp, hlaid, -⟩ := hok rfl
        cases hp
        exact htotal (Build.total_lt_of_laid hlaid rfl rfl)
      · rw [if_pos hassert]
        exact id
  · -- the block stays allocated
    simp only [hrtn, false_and, and_false, iff_false, if_false]
    by_cases hassert : (b.layout attr c.block mailbox).2 < c.block + b.size attr
    · rw [if_neg (not_not.mpr hassert)]
      cases hunregister : unregister c s₂ with
      | none => exact id
      | some s₃ =>
        rintro ⟨-, hfail⟩
        obtain ⟨-, -, -, hall⟩ := hfail hrtn
        apply hmalloc.fresh
        rw [← hall, unregister_allocated hunregister, register_allocated hregister]
        exact hmem
    · rw [if_pos hassert]
      exact id

/-- A creation is correct if there is nothing to be created, or if everything can be allocated, the size of
the block does not wrap, some slack is left in the block, and the thread can be started. -/
theorem correct_iff (hl : LinkedRing s.links.next s.links.prev l) (hself : c.self ∈ l) (hblock : c.block ∉ l)
    (hmalloc : c.block ≠ 0 → Malloc b c s) :
    Correct b c s ↔ c.res_null = true ∨ (c.block ≠ 0 ∧ c.queue ≠ 0 ∧ c.tasks ≠ 0 ∧ c.rtn = 0 ∧
      b.total (b.attr c.attrp) < b.word ∧ ¬ b.NoSlack (b.attr c.attrp) c.block) := by
  cases hres : c.res_null with
  | true =>
    have : Correct b c s := by
      unfold Correct __pthread_create
      rw [if_pos hres]
      exact ⟨nofun, fun _ => ⟨fun _ _ => ⟨rfl, rfl⟩, rfl, rfl, fun _ => Iff.rfl⟩⟩
    simp [this]
  | false =>
    by_cases hne : c.block = 0
    · -- the failure of `malloc` is not seen
      have : ¬ Correct b c s := by
        unfold Correct __pthread_create
        simp [hres, hne]
      simp [this, hne]
    · rw [correct_iff_of_block hl hself hblock hres hne (hmalloc hne)]
      simp [hne]

/-- A wasm32 build: no thread-local data, and room for 128 keys. -/
def wasm32 : Build where
  pointerSize := 4
  sizeof_pthread := 124
  tls_size := 0
  tls_align := 1
  tsd_size := 512
  default_stacksize := 65536
  pointerSize_eq := .inl rfl
  dvd_sizeof_pthread := by decide
  tls_align_eq := ⟨0, rfl⟩
  tls_align_lt := by decide

/-- The main thread at 1024 is alone. -/
def mainThread : State where
  links := ⟨fun _ => some 1024, fun _ => some 1024⟩
  threads_minus_1 := 0
  need_locks := 0
  res := 0
  allocated := [1024]

/-- A block at 4096. The thread is started. -/
def createThread : Call := ⟨1024, false, none, 4096, 70288, 70336, 0⟩

theorem mainThread_ring : LinkedRing mainThread.links.next mainThread.links.prev [1024] := .singleton rfl rfl

theorem createThread_correct : Correct wasm32 createThread mainThread ↔ createThread.res_null = true ∨
    (createThread.block ≠ 0 ∧ createThread.queue ≠ 0 ∧ createThread.tasks ≠ 0 ∧ createThread.rtn = 0 ∧
      wasm32.total (wasm32.attr createThread.attrp) < wasm32.word ∧
        ¬ wasm32.NoSlack (wasm32.attr createThread.attrp) createThread.block) :=
  correct_iff mainThread_ring (by decide) (by decide) fun _ => ⟨by decide, by decide, by decide⟩

/-- The thread cannot be started: its block stays allocated. -/
theorem createThread_leaks : ¬ Correct wasm32 { createThread with rtn := 6 } mainThread := by
  rintro ⟨-, hfail⟩
  obtain ⟨-, -, -, hall⟩ := hfail (by decide)
  have hblock : 4096 ∈ mainThread.allocated := (hall 4096).mp (by decide)
  exact absurd hblock (by decide)

end ThreadCreation
