-- SUMMARY: The task queue as a ring buffer that grows, and the list that it implements.
import Emscripten.Lib.RingBuffer
import Emscripten.Libc.Sbrk

/-!
# The ring of a task queue

A task queue is a ring buffer of which one slot stays free. It doubles when it is full; the growth
fails when there is no memory for both blocks.
-/

namespace TaskRing

open RingBuffer

/-! ## The queue -/

def EM_TASK_QUEUE_INITIAL_CAPACITY : Nat := 128

structure Queue (Task : Type) where
  /-- What is behind `capacity` tasks does not belong to the block. -/
  tasks : Nat → Task
  capacity : Nat
  head : Nat
  tail : Nat

/-- `(int)n`. -/
def int32 (n : Int) : Int := if n % 2 ^ 32 < 2 ^ 31 then n % 2 ^ 32 else n % 2 ^ 32 - 2 ^ 32

/-- A task is three pointers. -/
def sizeofTask (b : Sbrk.Build) : Nat := if b.wasm64 then 24 else 12

/-- `sizeof(task) * capacity`, a `size_t`. -/
def bytes (b : Sbrk.Build) (capacity : Int) : Nat := b.uintptr (sizeofTask b * b.uintptr capacity)

section Queue

variable {Task : Type} (b : Sbrk.Build)

def em_task_queue_is_empty (q : Queue Task) : Bool := q.head = q.tail

def em_task_queue_is_full (q : Queue Task) : Bool := q.head = (q.tail + 1) % q.capacity

/-- `malloc` returns blocks that lie in the memory. -/
def em_task_queue_create (tasks : Nat → Task) : Option (Queue Task) :=
  if bytes b EM_TASK_QUEUE_INITIAL_CAPACITY ≤ b.heapMax then
    some ⟨tasks, EM_TASK_QUEUE_INITIAL_CAPACITY, 0, 0⟩
  else none

/-- An `int`, so that it may become negative. -/
def new_capacity (q : Queue Task) : Int := int32 (q.capacity * 2)

/-- The block of the queue and the new one both lie in the memory. -/
def fits (q : Queue Task) : Bool := bytes b q.capacity + bytes b (new_capacity q) ≤ b.heapMax

/-- `em_task_queue_grow` when `malloc` has returned the block `new_tasks`. -/
def em_task_queue_grow (q : Queue Task) (new_tasks : Nat → Task) : Queue Task :=
  if q.head ≤ q.tail then
    let queued_tasks := q.tail - q.head
    ⟨copy new_tasks 0 q.tasks q.head queued_tasks, (new_capacity q).toNat, 0, queued_tasks⟩
  else
    let first_queued := q.capacity - q.head
    let last_queued := q.tail
    ⟨copy (copy new_tasks 0 q.tasks q.head first_queued) first_queued q.tasks 0 last_queued,
      (new_capacity q).toNat, 0, first_queued + last_queued⟩

def put (q : Queue Task) (t : Task) : Queue Task :=
  { q with tasks := Function.update q.tasks q.tail t, tail := (q.tail + 1) % q.capacity }

/-- `block` is what `malloc` returns if the queue has to grow. -/
def em_task_queue_enqueue (q : Queue Task) (t : Task) (block : Option (Nat → Task)) : Option (Queue Task × Bool) :=
  if em_task_queue_is_full q then
    match block with
    | none => some (q, false)
    | some new_tasks => if fits b q then some (put (em_task_queue_grow q new_tasks) t, true) else none
  else some (put q t, true)

def em_task_queue_dequeue (q : Queue Task) : Queue Task × Task :=
  ({ q with head := (q.head + 1) % q.capacity }, q.tasks q.head)

/-- The loop of `em_task_queue_cancel`, and the tasks that it dequeues. -/
def drain : Nat → Queue Task → Queue Task × List Task
  | 0, q => (q, [])
  | fuel + 1, q =>
    if em_task_queue_is_empty q then (q, [])
    else
      let (q', t) := em_task_queue_dequeue q
      let (q'', ts) := drain fuel q'
      (q'', t :: ts)

/-- The tasks that have a `cancel` function are cancelled. -/
def em_task_queue_cancel (cancel : Task → Bool) (q : Queue Task) : Queue Task × List Task :=
  let (q', ts) := drain q.capacity q
  (q', ts.filter cancel)

end Queue

/-! ## Operations -/

inductive Op (Task : Type)
  | enqueue (t : Task) (block : Option (Nat → Task))
  | dequeue
  | cancel
  | is_empty
  | is_full

inductive Result (Task : Type)
  | enqueued (success : Bool)
  | dequeued (t : Task)
  | cancelled (ts : List Task)
  | answer (b : Bool)
deriving DecidableEq, Repr

section Run

variable {Task : Type} (b : Sbrk.Build) (cancel : Task → Bool)

/-- Only a queue that is not empty is dequeued from. -/
def step (q : Queue Task) : Op Task → Option (Queue Task × Result Task)
  | .enqueue t block => (em_task_queue_enqueue b q t block).map fun (q', success) => (q', .enqueued success)
  | .dequeue =>
    if em_task_queue_is_empty q then none
    else
      let (q', t) := em_task_queue_dequeue q
      some (q', .dequeued t)
  | .cancel =>
    let (q', ts) := em_task_queue_cancel cancel q
    some (q', .cancelled ts)
  | .is_empty => some (q, .answer (em_task_queue_is_empty q))
  | .is_full => some (q, .answer (em_task_queue_is_full q))

def run (q : Queue Task) : List (Op Task) → Option (Queue Task × List (Result Task))
  | [] => some (q, [])
  | op :: ops =>
    (step b cancel q op).bind fun (q', r) => (run q' ops).map fun (q'', rs) => (q'', r :: rs)

end Run

/-! ## The list -/

/-- A list of tasks, and the number of slots, of which one stays free. -/
structure Fifo (Task : Type) where
  tasks : List Task
  capacity : Nat
deriving DecidableEq, Repr

section Fifo

variable {Task : Type} (cancel : Task → Bool)

namespace Fifo

def isFull (l : Fifo Task) : Bool := l.tasks.length + 1 = l.capacity

def enqueue (l : Fifo Task) (t : Task) (memory : Bool) : Fifo Task × Bool :=
  if l.isFull then if memory then (⟨l.tasks ++ [t], l.capacity * 2⟩, true) else (l, false)
  else (⟨l.tasks ++ [t], l.capacity⟩, true)

def step (l : Fifo Task) : Op Task → Option (Fifo Task × Result Task)
  | .enqueue t block =>
    let (l', success) := l.enqueue t block.isSome
    some (l', .enqueued success)
  | .dequeue =>
    match l.tasks with
    | [] => none
    | t :: ts => some (⟨ts, l.capacity⟩, .dequeued t)
  | .cancel => some (⟨[], l.capacity⟩, .cancelled (l.tasks.filter cancel))
  | .is_empty => some (l, .answer l.tasks.isEmpty)
  | .is_full => some (l, .answer l.isFull)

def run (l : Fifo Task) : List (Op Task) → Option (Fifo Task × List (Result Task))
  | [] => some (l, [])
  | op :: ops => (step cancel l op).bind fun (l', r) => (run l' ops).map fun (l'', rs) => (l'', r :: rs)

end Fifo

end Fifo

/-! ## Growth -/

/-- How often a queue can double before there is no memory for another block. -/
def maxDoublings (b : Sbrk.Build) : Nat := if b.wasm64 then 23 else 20

variable {k : Nat}

section Valid

variable {Task : Type} {b : Sbrk.Build} {q : Queue Task}

structure Valid (b : Sbrk.Build) (q : Queue Task) : Prop where
  head_lt : q.head < q.capacity
  tail_lt : q.tail < q.capacity
  doublings : ∃ k ≤ maxDoublings b, q.capacity = EM_TASK_QUEUE_INITIAL_CAPACITY * 2 ^ k

theorem pow_le {n : Nat} (h : k ≤ n) : 2 ^ k ≤ 2 ^ n := Nat.pow_le_pow_right (by decide) h

theorem uintptr_of_lt {n : Nat} (h : n < b.addressSpace) : b.uintptr n = n := by
  unfold Sbrk.Build.uintptr
  rw [Int.emod_eq_of_lt (Int.natCast_nonneg n) (Int.ofNat_lt.mpr h)]
  exact Int.toNat_natCast n

theorem bytes_lt (b : Sbrk.Build) (hk : k ≤ maxDoublings b) :
    sizeofTask b * (EM_TASK_QUEUE_INITIAL_CAPACITY * 2 ^ k) < b.addressSpace := by
  have hpow := pow_le hk
  unfold maxDoublings at hpow
  unfold sizeofTask Sbrk.Build.addressSpace EM_TASK_QUEUE_INITIAL_CAPACITY
  generalize 2 ^ k = size at hpow
  split at hpow
  · rename_i hb
    rw [if_pos hb, if_pos hb]
    apply Nat.lt_of_lt_of_le (m := 2 ^ 40) ?_ (pow_le (by decide))
    omega
  · rename_i hb
    rw [if_neg hb, if_neg hb]
    omega

/-- The block holds all tasks: its size does not wrap. -/
theorem bytes_eq (b : Sbrk.Build) (hk : k ≤ maxDoublings b) {capacity : Nat}
    (hc : capacity = EM_TASK_QUEUE_INITIAL_CAPACITY * 2 ^ k) : bytes b capacity = sizeofTask b * capacity := by
  have hlt := bytes_lt b hk
  rw [← hc] at hlt
  have hsize : 0 < sizeofTask b := by
    unfold sizeofTask
    split <;> decide
  have hcapacity : capacity < b.addressSpace := Nat.lt_of_le_of_lt (Nat.le_mul_of_pos_left _ hsize) hlt
  unfold bytes
  rw [uintptr_of_lt hcapacity, ← Int.natCast_mul, uintptr_of_lt hlt]

theorem new_capacity_of_lt (hk : k < maxDoublings b) (hc : q.capacity = EM_TASK_QUEUE_INITIAL_CAPACITY * 2 ^ k) :
    new_capacity q = q.capacity * 2 := by
  have hpow : 2 ^ k ≤ 2 ^ 22 := by
    apply pow_le
    unfold maxDoublings at hk
    split at hk <;> omega
  unfold EM_TASK_QUEUE_INITIAL_CAPACITY at hc
  unfold new_capacity int32
  omega

theorem new_capacity_last (hc : q.capacity = EM_TASK_QUEUE_INITIAL_CAPACITY * 2 ^ maxDoublings b) :
    new_capacity q = if b.wasm64 then -2 ^ 31 else 2 ^ 28 := by
  unfold new_capacity
  rw [hc]
  unfold maxDoublings
  cases b.wasm64 with
  | true => rfl
  | false => rfl

/-- The largest queue does not find memory to double: in 32-bit builds two blocks do not fit, in 64-bit
builds the capacity becomes negative. -/
theorem not_fits (hc : q.capacity = EM_TASK_QUEUE_INITIAL_CAPACITY * 2 ^ maxDoublings b) : ¬ fits b q := by
  have hold := bytes_eq b (Nat.le_refl _) hc
  have hmax := b.heapMax_le
  unfold fits
  rw [decide_eq_true_eq, hold, new_capacity_last hc, hc, Nat.not_le]
  refine Nat.lt_of_le_of_lt hmax ?_
  unfold bytes Sbrk.Build.uintptr Sbrk.Build.addressSpace sizeofTask maxDoublings
  cases b.wasm64 with
  | true => decide
  | false => decide

/-- A queue that finds memory can double, and `int` does not overflow. -/
theorem Valid.grows (h : Valid b q) (hfits : fits b q) : ∃ k < maxDoublings b,
    q.capacity = EM_TASK_QUEUE_INITIAL_CAPACITY * 2 ^ k ∧ (new_capacity q).toNat = q.capacity * 2 := by
  obtain ⟨k, hk, hc⟩ := h.doublings
  have hlt : k < maxDoublings b := by
    by_contra hge
    obtain rfl : k = maxDoublings b := by omega
    exact not_fits hc hfits
  refine ⟨k, hlt, hc, ?_⟩
  rw [new_capacity_of_lt hlt hc]
  omega

/-! ## Refinement -/

/-- The list that a queue stands for. -/
def Queue.fifo (q : Queue Task) : Fifo Task := ⟨contents q.tasks q.capacity q.head q.tail, q.capacity⟩

theorem is_empty_eq (h : Valid b q) : em_task_queue_is_empty q = q.fifo.tasks.isEmpty := by
  rw [Bool.eq_iff_iff, List.isEmpty_iff]
  simp only [em_task_queue_is_empty, decide_eq_true_eq]
  exact (contents_eq_nil h.head_lt).symm

theorem is_full_eq (h : Valid b q) : em_task_queue_is_full q = q.fifo.isFull := by
  simp only [em_task_queue_is_full, Fifo.isFull, Queue.fifo, length_contents, decide_eq_decide]
  exact full_iff h.head_lt h.tail_lt

theorem put_spec (h : Valid b q) (hroom : ¬ em_task_queue_is_full q) (t : Task) :
    Valid b (put q t) ∧ (put q t).fifo = ⟨q.fifo.tasks ++ [t], q.capacity⟩ := by
  have hne : q.head ≠ (q.tail + 1) % q.capacity := fun heq => hroom (decide_eq_true heq)
  constructor
  · exact ⟨h.head_lt, Nat.mod_lt _ (Nat.zero_lt_of_lt h.head_lt), h.doublings⟩
  · simp only [Queue.fifo, put, contents_put h.head_lt h.tail_lt hne]

theorem dequeue_spec (h : Valid b q) (hne : ¬ em_task_queue_is_empty q) :
    Valid b (em_task_queue_dequeue q).1 ∧
      q.fifo.tasks = (em_task_queue_dequeue q).2 :: (em_task_queue_dequeue q).1.fifo.tasks := by
  have hne : q.head ≠ q.tail := fun heq => hne (decide_eq_true heq)
  constructor
  · exact ⟨Nat.mod_lt _ (Nat.zero_lt_of_lt h.head_lt), h.tail_lt, h.doublings⟩
  · exact contents_take h.head_lt h.tail_lt hne

theorem grow_eq (h : Valid b q) (new_tasks : Nat → Task) :
    ∃ tasks, em_task_queue_grow q new_tasks =
        ⟨tasks, (new_capacity q).toNat, 0, occupied q.capacity q.head q.tail⟩ ∧
      ∀ i < occupied q.capacity q.head q.tail, tasks i = q.tasks ((q.head + i) % q.capacity) := by
  unfold em_task_queue_grow occupied
  by_cases hle : q.head ≤ q.tail
  · simp only [hle, if_true]
    exact ⟨_, rfl, fun i hi => copy_straight h.tail_lt hle hi⟩
  · simp only [hle, if_false]
    exact ⟨_, rfl, fun i hi => copy_wrapped h.head_lt (by omega) hi⟩

/-- Growing keeps the tasks and their order, whether or not the ring is wrapped. -/
theorem grow_spec (h : Valid b q) (hfits : fits b q) (new_tasks : Nat → Task) :
    Valid b (em_task_queue_grow q new_tasks) ∧
      (em_task_queue_grow q new_tasks).fifo = ⟨q.fifo.tasks, q.capacity * 2⟩ := by
  obtain ⟨k, hk, hc, hcapacity⟩ := h.grows hfits
  obtain ⟨tasks, hgrow, htasks⟩ := grow_eq h new_tasks
  have hocc := occupied_lt h.head_lt h.tail_lt
  rw [hgrow, hcapacity]
  constructor
  · refine ⟨by dsimp only; omega, by dsimp only; omega, k + 1, hk, ?_⟩
    dsimp only
    rw [hc, Nat.pow_succ, Nat.mul_assoc]
  · simp only [Queue.fifo]
    rw [contents_copy (by omega) htasks]

/-- A ring that has grown is not full. -/
theorem grow_not_full (h : Valid b q) (hfits : fits b q) (new_tasks : Nat → Task) :
    ¬ em_task_queue_is_full (em_task_queue_grow q new_tasks) := by
  obtain ⟨hvalid, hfifo⟩ := grow_spec h hfits new_tasks
  rw [is_full_eq hvalid, hfifo]
  have hocc := occupied_lt h.head_lt h.tail_lt
  simp only [Fifo.isFull, Queue.fifo, length_contents, decide_eq_true_eq]
  omega

variable {q' : Queue Task}

theorem enqueue_spec (h : Valid b q) {t : Task} {block : Option (Nat → Task)} {success : Bool}
    (hs : em_task_queue_enqueue b q t block = some (q', success)) :
    Valid b q' ∧ q.fifo.enqueue t block.isSome = (q'.fifo, success) := by
  unfold em_task_queue_enqueue at hs
  have hfull := is_full_eq h
  split at hs
  · rename_i hq
    rw [hq] at hfull
    cases block with
    | none =>
      cases hs
      exact ⟨h, by simp [Fifo.enqueue, ← hfull]⟩
    | some new_tasks =>
      dsimp only at hs
      split at hs
      · rename_i hfits
        cases hs
        obtain ⟨hvalid, hfifo⟩ := grow_spec h hfits new_tasks
        obtain ⟨hvalid', hfifo'⟩ := put_spec hvalid (grow_not_full h hfits new_tasks) t
        refine ⟨hvalid', ?_⟩
        have hcapacity : (em_task_queue_grow q new_tasks).capacity = q.capacity * 2 := congrArg Fifo.capacity hfifo
        simp only [Fifo.enqueue, ← hfull, if_true, Option.isSome_some, hfifo', hfifo, hcapacity]
        rfl
      · cases hs
  · rename_i hq
    cases hs
    obtain ⟨hvalid, hfifo⟩ := put_spec h hq t
    refine ⟨hvalid, ?_⟩
    rw [Bool.not_eq_true] at hq
    rw [hq] at hfull
    simp only [Fifo.enqueue, ← hfull, Bool.false_eq_true, if_false, hfifo]
    rfl

/-- The loop ends with an empty ring when it may run as often as there are tasks. -/
theorem drain_spec (h : Valid b q) {fuel : Nat} (hfuel : q.fifo.tasks.length ≤ fuel) :
    Valid b (drain fuel q).1 ∧ (drain fuel q).1.fifo = ⟨[], q.capacity⟩ ∧ (drain fuel q).2 = q.fifo.tasks := by
  induction fuel generalizing q with
  | zero =>
    have hnil : q.fifo.tasks = [] := List.length_eq_zero_iff.mp (Nat.le_zero.mp hfuel)
    refine ⟨h, ?_, hnil.symm⟩
    rw [← hnil]
    rfl
  | succ fuel ih =>
    by_cases hq : em_task_queue_is_empty q
    · simp only [drain, hq, if_true]
      rw [is_empty_eq h, List.isEmpty_iff] at hq
      refine ⟨h, ?_, hq.symm⟩
      rw [← hq]
      rfl
    · obtain ⟨hvalid, htasks⟩ := dequeue_spec h hq
      rw [htasks, List.length_cons] at hfuel
      obtain ⟨hvalid', hfifo, hts⟩ := ih hvalid (Nat.le_of_succ_le_succ hfuel)
      simp only [drain, hq, Bool.false_eq_true, if_false]
      exact ⟨hvalid', hfifo, by rw [hts, htasks]⟩

variable {cancel : Task → Bool}

theorem step_spec (h : Valid b q) {op : Op Task} {r : Result Task} (hs : step b cancel q op = some (q', r)) :
    Valid b q' ∧ q.fifo.step cancel op = some (q'.fifo, r) := by
  cases op with
  | enqueue t block =>
    obtain ⟨⟨q'', success⟩, henqueue, heq⟩ := Option.map_eq_some_iff.mp hs
    cases heq
    obtain ⟨hvalid, hfifo⟩ := enqueue_spec h henqueue
    refine ⟨hvalid, ?_⟩
    simp only [Fifo.step, hfifo]
  | dequeue =>
    simp only [step] at hs
    split at hs
    · cases hs
    · rename_i hne
      cases hs
      obtain ⟨hvalid, htasks⟩ := dequeue_spec h hne
      refine ⟨hvalid, ?_⟩
      simp only [Fifo.step, htasks]
      rfl
  | cancel =>
    cases hs
    have hlength : q.fifo.tasks.length ≤ q.capacity := by
      rw [Queue.fifo, length_contents]
      exact (occupied_lt h.head_lt h.tail_lt).le
    obtain ⟨hvalid, hfifo, hts⟩ := drain_spec h hlength
    refine ⟨hvalid, ?_⟩
    simp only [Fifo.step, hfifo, hts]
    rfl
  | is_empty =>
    cases hs
    exact ⟨h, by rw [is_empty_eq h]; rfl⟩
  | is_full =>
    cases hs
    exact ⟨h, by rw [is_full_eq h]; rfl⟩

theorem run_spec (h : Valid b q) {ops : List (Op Task)} {rs : List (Result Task)}
    (hrun : run b cancel q ops = some (q', rs)) :
    Valid b q' ∧ Fifo.run cancel q.fifo ops = some (q'.fifo, rs) := by
  induction ops generalizing q rs with
  | nil =>
    cases hrun
    exact ⟨h, rfl⟩
  | cons op ops ih =>
    obtain ⟨⟨m, r⟩, hs, hmap⟩ := Option.bind_eq_some_iff.mp hrun
    obtain ⟨⟨q'', rs'⟩, hrest, heq⟩ := Option.map_eq_some_iff.mp hmap
    cases heq
    obtain ⟨hvalid, hstep⟩ := step_spec h hs
    obtain ⟨hvalid', htail⟩ := ih hvalid hrest
    exact ⟨hvalid', by simp only [Fifo.run, hstep, Option.bind_some, htail, Option.map_some]⟩

/-- The operations that do not take place: there is nothing to dequeue, or no such memory. -/
theorem step_none {op : Op Task} (hs : step b cancel q op = none) :
    (op = .dequeue ∧ em_task_queue_is_empty q) ∨
      ∃ t new_tasks, op = .enqueue t (some new_tasks) ∧ em_task_queue_is_full q ∧ ¬ fits b q := by
  cases op with
  | enqueue t block =>
    simp only [step, Option.map_eq_none_iff, em_task_queue_enqueue] at hs
    split at hs
    · rename_i hfull
      cases block with
      | none => cases hs
      | some new_tasks =>
        dsimp only at hs
        split at hs
        · cases hs
        · rename_i hfits
          exact .inr ⟨t, new_tasks, rfl, hfull, hfits⟩
    · cases hs
  | dequeue =>
    simp only [step] at hs
    split at hs
    · rename_i hempty
      exact .inl ⟨rfl, hempty⟩
    · cases hs
  | cancel => cases hs
  | is_empty => cases hs
  | is_full => cases hs

theorem create_spec {tasks : Nat → Task} (h : em_task_queue_create b tasks = some q) :
    Valid b q ∧ q.fifo = ⟨[], EM_TASK_QUEUE_INITIAL_CAPACITY⟩ := by
  simp only [em_task_queue_create] at h
  split at h
  · cases h
    exact ⟨⟨Nat.zero_lt_succ _, Nat.zero_lt_succ _, 0, Nat.zero_le _, rfl⟩, rfl⟩
  · cases h

/-- A queue behaves as a list: the same operations give the same results. All slots of the ring lie in
its block, and what does not take place in it has no place in the list, or no memory. -/
theorem em_task_queue_fifo {tasks : Nat → Task} {q₀ : Queue Task} (hcreate : em_task_queue_create b tasks = some q₀)
    {ops : List (Op Task)} {rs : List (Result Task)} (hrun : run b cancel q₀ ops = some (q, rs)) :
    Fifo.run cancel ⟨[], EM_TASK_QUEUE_INITIAL_CAPACITY⟩ ops = some (q.fifo, rs) ∧
      (q.head < q.capacity ∧ q.tail < q.capacity ∧ bytes b q.capacity = sizeofTask b * q.capacity) ∧
      ∀ op, step b cancel q op = none → (op = .dequeue ∧ q.fifo.tasks = []) ∨
        ∃ t new_tasks, op = .enqueue t (some new_tasks) ∧ q.fifo.isFull ∧ ¬ fits b q := by
  obtain ⟨hvalid₀, hfifo₀⟩ := create_spec hcreate
  obtain ⟨hvalid, hfifo⟩ := run_spec hvalid₀ hrun
  obtain ⟨k, hk, hc⟩ := hvalid.doublings
  refine ⟨hfifo₀ ▸ hfifo, ⟨hvalid.head_lt, hvalid.tail_lt, bytes_eq b hk hc⟩, fun op hs => ?_⟩
  obtain ⟨rfl, hempty⟩ | ⟨t, new_tasks, rfl, hfull, hfits⟩ := step_none hs
  · rw [is_empty_eq hvalid, List.isEmpty_iff] at hempty
    exact .inl ⟨rfl, hempty⟩
  · rw [is_full_eq hvalid] at hfull
    exact .inr ⟨t, new_tasks, rfl, hfull, hfits⟩

end Valid

/-! ## A queue that grows -/

def smallBuild : Sbrk.Build := Sbrk.smallBuild

/-- A task is put in and taken out, and then the ring is filled over its end and grows. -/
def fill : List (Op Nat) :=
  [.enqueue 500 none, .dequeue] ++ (List.range 128).map fun t => .enqueue t (some fun _ => 0)

theorem em_task_queue_fifo_fill : ∃ q rs,
    run smallBuild (· % 2 = 0) ⟨fun _ => 0, 128, 0, 0⟩ fill = some (q, rs) ∧ q.capacity = 256 ∧
      Fifo.run (· % 2 = 0) ⟨[], 128⟩ fill = some (q.fifo, rs) := by
  have hrun : ((run smallBuild (· % 2 = 0) ⟨fun _ => 0, 128, 0, 0⟩ fill).map fun r => r.1.capacity) = some 256 := by
    decide +kernel
  obtain ⟨⟨q, rs⟩, hrun, hcapacity⟩ := Option.map_eq_some_iff.mp hrun
  have hcreate : em_task_queue_create smallBuild (fun _ => 0) = some ⟨fun _ => 0, 128, 0, 0⟩ := if_pos (by decide)
  exact ⟨q, rs, hrun, hcapacity, (em_task_queue_fifo hcreate hrun).1⟩

end TaskRing
