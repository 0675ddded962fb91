-- SUMMARY: Futexes with a main browser thread that cannot sleep: its simulated, nested waits and the wakes of all threads.
import Mathlib.Algebra.Ring.Int.Defs
import Mathlib.Algebra.Ring.Nat
import Emscripten.Lib.Machine

/-!
# Futex waits of the main browser thread

The main thread marks one global word with the address it waits on, and unmarks it
around a call of `_emscripten_yield`, in which it may wait again. A step is one atomic
access, or the reading of the clock. The threads in `T` sleep and are notified by the
engine.
-/

namespace Pthread

open Machine

def INT_MAX : Int := 2 ^ 31 - 1

/-! ## State -/

/-- Where a simulated wait is. -/
inductive WaitPc
  /-- At the top of the loop. -/
  | check
  /-- The time is over, and the word still to be unmarked. -/
  | timedOut
  /-- Before it is unmarked for `_emscripten_yield`. -/
  | unmark
  | yielding
  | reload
  | remark
deriving DecidableEq, Repr

structure MainWait where
  addr : Nat
  val : Nat
  pc : WaitPc
  /-- Ghost: it has marked the word, and has neither unmarked it nor been woken since. -/
  marked : Bool
deriving DecidableEq, Repr

/-- A wake between its access to the word and the notification of the sleeping threads. -/
structure Notify where
  addr : Nat
  /-- How many may still be woken. -/
  left : Int
  main_thread_woken : Int
  /-- Ghost: the `count` of the call, and how many it has released. -/
  count : Int
  released : Int
deriving DecidableEq, Repr

/-- Ghost: a wake that returned a number. -/
structure Woken where
  count : Int
  result : Int
  released : Int
deriving DecidableEq, Repr

/-- Ghost: a wake that took the mark of the main thread. `waiting` tells whether the main
thread was in a wait on the address, marked; `late` whether it had found its time over;
`others` whether a thread slept on the address. -/
structure Spent where
  count : Int
  waiting : Bool
  late : Bool
  others : Bool
deriving DecidableEq, Repr

structure FutexState (T : Type) where
  memory : Nat → Nat
  /-- `_emscripten_main_thread_futex`. -/
  main_thread_futex : Nat
  /-- The waits of the main thread, innermost first. -/
  main : List MainWait
  /-- The sleeping threads and their addresses, in the order they are notified in. -/
  sleeping : List (T × Nat)
  /-- The wakes under way; the main thread is `none`. -/
  waker : Option T → Option Notify
  /-- Ghost: an assertion has failed. -/
  failed : Bool
  woken : List Woken
  spent : List Spent

inductive FutexAction (T : Type)
  | store (addr val : Nat)
  | mainWait (addr val : Nat)
  /-- The top of the loop: whether the thread is cancelled (and whether
  `__pthread_testcancel` acts on it), and whether the time is over. -/
  | mainCheck (cancelled exits late : Bool)
  | mainTimedOut
  | mainUnmark
  | mainYielded
  /-- The yield leaves to the event loop. -/
  | mainUnwind
  | mainReload
  | mainRemark
  | sleep (t : T) (addr val : Nat)
  /-- A sleeping thread's time is over. -/
  | leave (t : T)
  | wake (c : Option T) (addr : Nat) (count : Int)
  | notify (c : Option T)

namespace FutexState

variable {T : Type} [DecidableEq T]

def init : FutexState T := ⟨fun _ => 0, 0, [], [], fun _ => none, false, [], []⟩

/-! ## The main thread -/

/-- The main thread runs code of its own: it is in no wait, or in the yield of one. -/
def mainFree (s : FutexState T) : Bool := s.main.head?.all fun w => w.pc = .yielding

/-- The exchange of 0 for the address, which is asserted to find a 0. -/
def mark (s : FutexState T) (w : MainWait) (rest : List MainWait) : FutexState T :=
  if s.main_thread_futex = 0 then
    { s with
      main_thread_futex := w.addr, main := { w with pc := .check, marked := true } :: rest }
  else { s with main := { w with pc := .check, marked := false } :: rest, failed := true }

/-- The exchange of the address for 0, which is asserted to find the one or the other, and
what it found. -/
def unmark (s : FutexState T) (addr : Nat) : FutexState T × Nat :=
  if s.main_thread_futex = addr then ({ s with main_thread_futex := 0 }, addr)
  else ({ s with failed := s.failed || s.main_thread_futex ≠ 0 }, s.main_thread_futex)

def mainWait (s : FutexState T) (addr val : Nat) : Option (FutexState T) :=
  if ¬ s.mainFree ∨ s.waker none ≠ none then none
  else if addr % 4 ≠ 0 then some s
  else some (s.mark ⟨addr, val, .check, false⟩ s.main)

/-- A cancelled wait returns, or the thread exits. -/
def mainCheck (s : FutexState T) (w : MainWait) (rest : List MainWait)
    (cancelled exits late : Bool) : FutexState T :=
  if cancelled then { s with main := if exits then [] else rest }
  else { s with main := { w with pc := if late then .timedOut else .unmark } :: rest }

def mainTimedOut (s : FutexState T) (w : MainWait) (rest : List MainWait) : FutexState T :=
  { (s.unmark w.addr).1 with main := rest }

/-- A wait that finds a 0 has been woken and returns. -/
def mainUnmark (s : FutexState T) (w : MainWait) (rest : List MainWait) : FutexState T :=
  let u := s.unmark w.addr
  if u.2 = 0 then { u.1 with main := rest }
  else { u.1 with main := { w with pc := .yielding, marked := false } :: rest }

def mainReload (s : FutexState T) (w : MainWait) (rest : List MainWait) : FutexState T :=
  if s.memory w.addr ≠ w.val then { s with main := rest }
  else { s with main := { w with pc := .remark } :: rest }

/-- A step of the innermost wait, which is at `pc`. -/
def innermost (s : FutexState T) (pc : WaitPc)
    (f : MainWait → List MainWait → FutexState T) : Option (FutexState T) :=
  match s.main with
  | w :: rest => if w.pc = pc then some (f w rest) else none
  | [] => none

/-! ## Other threads -/

def awake (s : FutexState T) (t : T) : Bool := s.sleeping.all fun x => x.1 ≠ t

/-- `memory.atomic.wait32`. -/
def sleep (s : FutexState T) (t : T) (addr val : Nat) : Option (FutexState T) :=
  if ¬ s.awake t ∨ s.waker (some t) ≠ none then none
  else if s.memory addr = val then some { s with sleeping := s.sleeping ++ [(t, addr)] }
  else some s

/-- `memory.atomic.notify`: wake up to `count` of the threads that sleep on the address. -/
def atomicNotify (addr : Nat) : Nat → List (T × Nat) → Nat × List (T × Nat)
  | 0, l => (0, l)
  | _ + 1, [] => (0, [])
  | n + 1, x :: l =>
    if x.2 = addr then ((atomicNotify addr n l).1 + 1, (atomicNotify addr n l).2)
    else ((atomicNotify addr (n + 1) l).1, x :: (atomicNotify addr (n + 1) l).2)

/-- The mark is taken from the wait that has it. -/
def woke (s : FutexState T) : List MainWait :=
  s.main.map fun w => if w.marked then { w with marked := false } else w

def spend (s : FutexState T) (addr : Nat) (count : Int) : Spent where
  count := count
  waiting := s.main.any fun w => w.marked && w.addr = addr
  late := s.main.head?.any fun w => w.pc = .timedOut
  others := s.sleeping.any fun x => x.2 = addr

/-- A wake that does not find the main thread waiting on the address. -/
def wakeOthers (s : FutexState T) (c : Option T) (addr : Nat) (count : Int) : FutexState T :=
  { s with waker := Function.update s.waker c (some ⟨addr, count, 0, count, 0⟩) }

/-- A wake that does. The main thread must not wake itself. -/
def wakeMain (s : FutexState T) (c : Option T) (addr : Nat) (count : Int) : FutexState T :=
  let s' := { s with
    main_thread_futex := 0
    main := s.woke
    failed := s.failed || c.isNone
    spent := s.spend addr count :: s.spent }
  if count ≠ INT_MAX then
    if count - 1 ≤ 0 then { s' with woken := ⟨count, 1, 1⟩ :: s.woken }
    else { s' with waker := Function.update s.waker c (some ⟨addr, count - 1, 1, count, 1⟩) }
  else { s' with waker := Function.update s.waker c (some ⟨addr, count, 0, count, 1⟩) }

/-- `emscripten_futex_wake` up to the notification. -/
def wake (s : FutexState T) (c : Option T) (addr : Nat) (count : Int) : FutexState T :=
  if addr = 0 ∨ addr % 4 ≠ 0 ∨ count < 0 then s
  else if count = 0 then { s with woken := ⟨0, 0, 0⟩ :: s.woken }
  else if s.main_thread_futex = addr then s.wakeMain c addr count
  else s.wakeOthers c addr count

/-- Whether a thread runs code of its own. -/
def free (s : FutexState T) : Option T → Bool
  | none => s.mainFree
  | some t => s.awake t

/-- A thread makes a wake when it is in no other; `count` is an `int`. -/
def callWake (s : FutexState T) (c : Option T) (addr : Nat) (count : Int) :
    Option (FutexState T) :=
  if s.waker c = none ∧ s.free c ∧ count ≤ INT_MAX then some (s.wake c addr count) else none

def notify (s : FutexState T) (c : Option T) (n : Notify) : FutexState T :=
  let r := atomicNotify n.addr n.left.toNat s.sleeping
  { s with
    sleeping := r.2
    waker := Function.update s.waker c none
    woken := ⟨n.count, r.1 + n.main_thread_woken,
      n.released + (s.sleeping.length - r.2.length : Nat)⟩ :: s.woken }

def step (s : FutexState T) : FutexAction T → Option (FutexState T)
  | .store addr val => some { s with memory := Function.update s.memory addr val }
  | .mainWait addr val => s.mainWait addr val
  | .mainCheck cancelled exits late =>
    s.innermost .check fun w rest => s.mainCheck w rest cancelled exits late
  | .mainTimedOut => s.innermost .timedOut s.mainTimedOut
  | .mainUnmark => s.innermost .unmark s.mainUnmark
  | .mainYielded => s.innermost .yielding fun w rest =>
    { s with main := { w with pc := .reload } :: rest }
  | .mainUnwind => s.innermost .yielding fun _ _ => { s with main := [] }
  | .mainReload => s.innermost .reload s.mainReload
  | .mainRemark => s.innermost .remark s.mark
  | .sleep t addr val => s.sleep t addr val
  | .leave t => some { s with sleeping := s.sleeping.filter fun x => x.1 ≠ t }
  | .wake c addr count => s.callWake c addr count
  | .notify c => (s.waker c).map (s.notify c)

/-! ## The property and its conditions -/

/-- The address of the innermost wait that is marked, and 0 where none is. -/
def markedAddr (main : List MainWait) : Nat := ((main.find? (·.marked)).map (·.addr)).getD 0

structure Sound (s : FutexState T) : Prop where
  word : s.main_thread_futex = markedAddr s.main
  asserts : s.failed = false
  woken : ∀ r ∈ s.woken, r.released ≤ r.count ∧ r.result = r.released
  /-- A wake that takes the mark finds the main thread waiting. -/
  spent : ∀ z ∈ s.spent, z.count = 1 → z.others → z.waiting

/-- A wake with count 1 takes no mark of a main thread whose time is over while another
thread sleeps. -/
def Timely (s : FutexState T) : Prop := ∀ z ∈ s.spent, z.count = 1 → z.others → z.late = false

/-- A wait is cancelled only when it has been woken, and a wake of all threads does not find
the main thread. -/
def Permits (s : FutexState T) : FutexAction T → Prop
  | .mainCheck true _ _ => s.main_thread_futex = 0
  | .wake _ addr count => count = INT_MAX → addr ≠ 0 → s.main_thread_futex ≠ addr
  | _ => True

/-- In addition, a wake with count 1 does not find a main thread whose time is over while
another thread sleeps on the address. -/
def PermitsTimely (s : FutexState T) (a : FutexAction T) : Prop :=
  s.Permits a ∧ ∀ c addr, a = .wake c addr 1 → s.main_thread_futex = addr →
    (s.spend addr 1).others → (s.spend addr 1).late = false

end FutexState

/-! ## The invariant -/

/-- Between its marking and its unmarking of the word. -/
def WaitPc.marks : WaitPc → Bool
  | .check => true
  | .timedOut => true
  | .unmark => true
  | _ => false

structure Notify.Ok (n : Notify) : Prop where
  left : 0 ≤ n.left
  count : n.left + n.released ≤ n.count
  told : n.main_thread_woken = n.released

namespace FutexState

variable {T : Type}

structure Inv (s : FutexState T) : Prop where
  sound : s.Sound
  outer : ∀ w ∈ s.main.tail, w.pc = .yielding
  unmarked : ∀ w ∈ s.main, w.pc.marks = false → w.marked = false
  waker : ∀ c n, s.waker c = some n → Notify.Ok n

section

variable {s s' : FutexState T} {w : MainWait} {rest : List MainWait} {m : List MainWait}
  {a : FutexAction T} {c : Option T} {addr : Nat} {count : Int}

/-! ## The marked wait -/

theorem markedAddr_of_unmarked (h : ∀ w ∈ m, w.marked = false) : markedAddr m = 0 := by
  have hnone : m.find? (·.marked) = none :=
    List.find?_eq_none.mpr fun w hw => by rw [h w hw]; exact Bool.false_ne_true
  rw [markedAddr, hnone]
  rfl

theorem markedAddr_cons_marked (h : w.marked = true) : markedAddr (w :: rest) = w.addr := by
  rw [markedAddr, List.find?_cons_of_pos h]
  rfl

/-- The waits around the innermost one have no mark. -/
theorem Inv.rest_unmarked (hi : s.Inv) (hm : s.main = w :: rest) : ∀ v ∈ rest, v.marked = false := by
  intro v hv
  have hpc : v.pc = .yielding := hi.outer v (by rw [hm]; exact hv)
  exact hi.unmarked v (by rw [hm]; exact List.mem_cons_of_mem w hv) (by rw [hpc]; rfl)

/-- The word, as the innermost wait has it. -/
theorem Inv.word (hi : s.Inv) (hm : s.main = w :: rest) :
    s.main_thread_futex = if w.marked then w.addr else 0 := by
  rw [hi.sound.word, hm]
  split
  · next hmark => exact markedAddr_cons_marked hmark
  · next hmark =>
      refine markedAddr_of_unmarked fun v hv => ?_
      rcases List.mem_cons.mp hv with rfl | hv
      · exact Bool.eq_false_iff.mpr hmark
      · exact hi.rest_unmarked hm v hv

theorem Inv.word_of_unmarked (hi : s.Inv) (h : ∀ w ∈ s.main, w.marked = false) :
    s.main_thread_futex = 0 := hi.sound.word.trans (markedAddr_of_unmarked h)

/-- The word is 0 while the main thread runs code of its own. -/
theorem Inv.word_of_free (hi : s.Inv) (hfree : s.mainFree = true) :
    (∀ w ∈ s.main, w.pc = .yielding) ∧ s.main_thread_futex = 0 := by
  have hall : ∀ w ∈ s.main, w.pc = .yielding := by
    cases hm : s.main with
    | nil => exact fun w hw => (by cases hw)
    | cons w rest =>
      intro v hv
      rcases List.mem_cons.mp hv with rfl | hv
      · rw [mainFree, hm] at hfree
        exact of_decide_eq_true hfree
      · exact hi.outer v (by rw [hm]; exact hv)
  exact ⟨hall, hi.word_of_unmarked fun w hw => hi.unmarked w hw (by rw [hall w hw]; rfl)⟩

/-! ## Steps of the main thread -/

/-- The main thread changes its waits and the word. -/
theorem Inv.withMain {f : Nat} (hi : s.Inv) (houter : ∀ w ∈ m.tail, w.pc = .yielding)
    (hunmarked : ∀ w ∈ m, w.pc.marks = false → w.marked = false) (hword : f = markedAddr m) :
    { s with main_thread_futex := f, main := m }.Inv where
  sound := { hi.sound with word := hword }
  outer := houter
  unmarked := hunmarked
  waker := hi.waker

/-- The innermost wait returns, and leaves no mark. -/
theorem Inv.pop (hi : s.Inv) (hm : s.main = w :: rest) :
    { s with main_thread_futex := 0, main := rest }.Inv := by
  have hrest := hi.rest_unmarked hm
  refine hi.withMain (fun v hv => hi.outer v ?_) (fun v hv _ => hrest v hv)
    (markedAddr_of_unmarked hrest).symm
  rw [hm]
  exact List.mem_of_mem_tail hv

/-- The innermost wait moves on without a change of its mark. -/
theorem Inv.move {pc : WaitPc} (hi : s.Inv) (hm : s.main = w :: rest)
    (hmark : pc.marks = false → w.marked = false) :
    { s with main := { w with pc := pc } :: rest }.Inv := by
  have hrest := hi.rest_unmarked hm
  refine hi.withMain (f := s.main_thread_futex) (fun v hv => hi.outer v ?_) ?_ ?_
  · rw [hm]
    exact hv
  · intro v hv
    rcases List.mem_cons.mp hv with rfl | hv
    · exact hmark
    · exact fun _ => hrest v hv
  · rw [hi.word hm]
    split
    · next h => exact (markedAddr_cons_marked (w := { w with pc := pc }) h).symm
    · next h =>
        refine (markedAddr_of_unmarked fun v hv => ?_).symm
        rcases List.mem_cons.mp hv with rfl | hv
        · exact Bool.eq_false_iff.mpr h
        · exact hrest v hv

/-- Marking, where the other waits are in their yields. -/
theorem Inv.mark (hi : s.Inv) (hword : s.main_thread_futex = 0)
    (hpc : ∀ v ∈ rest, v.pc = .yielding) (hrest : ∀ v ∈ rest, v.marked = false) :
    (s.mark w rest).Inv := by
  rw [FutexState.mark, if_pos hword]
  refine hi.withMain hpc ?_
    (markedAddr_cons_marked (w := { w with pc := .check, marked := true }) rfl).symm
  intro v hv
  rcases List.mem_cons.mp hv with rfl | hv
  · exact fun h => (by cases h)
  · exact fun _ => hrest v hv

/-- Unmarking finds the address or 0. -/
theorem Inv.unmark (hi : s.Inv) (hm : s.main = w :: rest) :
    (s.unmark w.addr).1 = { s with main_thread_futex := 0 } := by
  unfold FutexState.unmark
  split
  · rfl
  · next hne =>
      have hzero : s.main_thread_futex = 0 := by
        rw [hi.word hm] at hne ⊢
        split at hne
        · exact absurd rfl hne
        · next h => exact if_neg h
      have hfailed : (s.failed || s.main_thread_futex ≠ 0) = s.failed := by
        rw [hzero]
        exact Bool.or_false _
      change { s with failed := s.failed || s.main_thread_futex ≠ 0 } = _
      rw [hfailed, ← hzero]

theorem Inv.mainWait {val : Nat} (hi : s.Inv) (h : s.mainWait addr val = some s') : s'.Inv := by
  unfold FutexState.mainWait at h
  split at h
  · cases h
  · next hfree =>
      split at h
      · cases h
        exact hi
      · cases h
        obtain ⟨hpc, hword⟩ := hi.word_of_free (not_not.mp (not_or.mp hfree).1)
        exact hi.mark hword hpc fun v hv => hi.unmarked v hv (by rw [hpc v hv]; rfl)

theorem Inv.mainCheck {cancelled exits late : Bool} (hi : s.Inv) (hm : s.main = w :: rest)
    (hc : cancelled = true → s.main_thread_futex = 0) :
    (s.mainCheck w rest cancelled exits late).Inv := by
  unfold FutexState.mainCheck
  split
  · next hcancelled =>
      have hword := hc hcancelled
      split
      · exact hi.withMain (fun v hv => by cases hv) (fun v hv => by cases hv) hword
      · have hpop := hi.pop hm
        rwa [← hword] at hpop
  · split
    · exact hi.move hm fun h => (by cases h)
    · exact hi.move hm fun h => (by cases h)

theorem Inv.mainTimedOut (hi : s.Inv) (hm : s.main = w :: rest) : (s.mainTimedOut w rest).Inv := by
  unfold FutexState.mainTimedOut
  rw [hi.unmark hm]
  exact hi.pop hm

theorem Inv.mainUnmark (hi : s.Inv) (hm : s.main = w :: rest) : (s.mainUnmark w rest).Inv := by
  unfold FutexState.mainUnmark
  dsimp only
  rw [hi.unmark hm]
  split
  · exact hi.pop hm
  · have hrest := hi.rest_unmarked hm
    refine hi.withMain (fun v hv => hi.outer v ?_) ?_ (markedAddr_of_unmarked ?_).symm
    · rw [hm]
      exact hv
    · intro v hv
      rcases List.mem_cons.mp hv with rfl | hv
      · exact fun _ => rfl
      · exact fun _ => hrest v hv
    · intro v hv
      rcases List.mem_cons.mp hv with rfl | hv
      · rfl
      · exact hrest v hv

theorem Inv.mainReload (hi : s.Inv) (hm : s.main = w :: rest) (hpc : w.pc = .reload) :
    (s.mainReload w rest).Inv := by
  have hmark : w.marked = false :=
    hi.unmarked w (by rw [hm]; exact List.mem_cons_self) (by rw [hpc]; rfl)
  unfold FutexState.mainReload
  split
  · have hpop := hi.pop hm
    have hword : s.main_thread_futex = 0 := by
      rw [hi.word hm, hmark]
      rfl
    rwa [← hword] at hpop
  · exact hi.move hm fun _ => hmark

theorem Inv.mainRemark (hi : s.Inv) (hm : s.main = w :: rest) (hpc : w.pc = .remark) :
    (s.mark w rest).Inv := by
  have hmark : w.marked = false :=
    hi.unmarked w (by rw [hm]; exact List.mem_cons_self) (by rw [hpc]; rfl)
  refine hi.mark ?_ (fun v hv => hi.outer v (by rw [hm]; exact hv)) (hi.rest_unmarked hm)
  rw [hi.word hm, hmark]
  rfl

theorem innermost_some {pc : WaitPc} {f : MainWait → List MainWait → FutexState T}
    (h : s.innermost pc f = some s') :
    ∃ w rest, s.main = w :: rest ∧ w.pc = pc ∧ s' = f w rest := by
  unfold innermost at h
  split at h
  · next w rest hm =>
      split at h
      · next hpc =>
          cases h
          exact ⟨w, rest, hm, hpc, rfl⟩
      · cases h
  · cases h

end

section

variable [DecidableEq T] {s s' : FutexState T} {a : FutexAction T} {c : Option T} {addr : Nat}
  {count : Int}

/-! ## Wakes -/

omit [DecidableEq T] in
/-- A notification releases as many as it reports, and no more than it may. -/
theorem atomicNotify_spec (addr n : Nat) (l : List (T × Nat)) :
    (atomicNotify addr n l).1 ≤ n ∧
      (atomicNotify addr n l).1 + (atomicNotify addr n l).2.length = l.length := by
  induction n, l using atomicNotify.induct addr with
  | case1 l =>
    rw [atomicNotify]
    exact ⟨Nat.le_refl 0, Nat.zero_add _⟩
  | case2 n =>
    rw [atomicNotify]
    exact ⟨Nat.zero_le _, rfl⟩
  | case3 n x l hx ih =>
    rw [atomicNotify, if_pos hx, List.length_cons]
    obtain ⟨hle, hsum⟩ := ih
    constructor <;> dsimp only <;> omega
  | case4 n x l hx ih =>
    rw [atomicNotify, if_neg hx, List.length_cons, List.length_cons]
    obtain ⟨hle, hsum⟩ := ih
    constructor <;> dsimp only <;> omega

theorem waker_ok {n : Notify} (hw : ∀ c n, s.waker c = some n → Notify.Ok n) (hn : Notify.Ok n) :
    ∀ d m, Function.update s.waker c (some n) d = some m → Notify.Ok m := by
  intro d m hm
  rcases eq_or_ne d c with rfl | hd
  · rw [Function.update_self] at hm
    exact Option.some.inj hm ▸ hn
  · rw [Function.update_of_ne hd] at hm
    exact hw d m hm

theorem Inv.wakeOthers (hi : s.Inv) (hcount : 0 ≤ count) : (s.wakeOthers c addr count).Inv where
  sound := { hi.sound with }
  outer := hi.outer
  unmarked := hi.unmarked
  waker := waker_ok hi.waker ⟨hcount, Int.le_of_eq (Int.add_zero count), rfl⟩

omit [DecidableEq T] in
/-- A wake that finds its address in the word finds the innermost wait marked. -/
theorem Inv.marked_of_word (hi : s.Inv) (h : s.main_thread_futex = addr) (haddr : addr ≠ 0) :
    ∃ w rest, s.main = w :: rest ∧ w.marked = true ∧ w.addr = addr := by
  cases hm : s.main with
  | nil =>
    have hzero := hi.word_of_unmarked fun w hw => (by rw [hm] at hw; cases hw)
    exact absurd (h.symm.trans hzero) haddr
  | cons w rest =>
    have hword := hi.word hm
    split at hword
    · next hmark => exact ⟨w, rest, rfl, hmark, hword.symm.trans h⟩
    · exact absurd (h.symm.trans hword) haddr

omit [DecidableEq T] in
/-- What a wake leaves of the main thread when it takes the mark. -/
theorem Inv.woke (hi : s.Inv) :
    (∀ w ∈ s.woke.tail, w.pc = .yielding) ∧ ∀ w ∈ s.woke, w.marked = false := by
  constructor
  · intro w hw
    rw [FutexState.woke, ← List.map_tail] at hw
    obtain ⟨v, hv, rfl⟩ := List.mem_map.mp hw
    have hpc := hi.outer v hv
    split
    · exact hpc
    · exact hpc
  · intro w hw
    obtain ⟨v, -, rfl⟩ := List.mem_map.mp hw
    split
    · rfl
    · next h => exact Bool.eq_false_iff.mpr h

/-- A wake of the main thread: the mark is taken, the thread that wakes is another one. -/
theorem Inv.wakeMain (hi : s.Inv) (hfree : s.free c = true) (hword : s.main_thread_futex = addr)
    (haddr : addr ≠ 0) (hcount : 0 < count) (hall : count ≠ INT_MAX) :
    (s.wakeMain c addr count).Inv := by
  obtain ⟨w, rest, hm, hmark, hwaddr⟩ := hi.marked_of_word hword haddr
  obtain ⟨houter, hunmarked⟩ := hi.woke
  have hfailed : (s.failed || c.isNone) = false := by
    rw [hi.sound.asserts, Bool.false_or]
    cases c with
    | some t => rfl
    | none => exact absurd (hword.symm.trans (hi.word_of_free hfree).2) haddr
  have hspent : ∀ z ∈ s.spend addr count :: s.spent, z.count = 1 → z.others → z.waiting := by
    intro z hz
    rcases List.mem_cons.mp hz with rfl | hz
    · intro _ _
      refine List.any_eq_true.mpr ⟨w, by rw [hm]; exact List.mem_cons_self, ?_⟩
      rw [hmark, hwaddr]
      exact decide_eq_true rfl
    · exact hi.sound.spent z hz
  have hwoke : 0 = markedAddr s.woke := (markedAddr_of_unmarked hunmarked).symm
  unfold FutexState.wakeMain
  dsimp only
  rw [if_pos hall]
  split
  · refine ⟨⟨hwoke, hfailed, ?_, hspent⟩, houter, fun w hw _ => hunmarked w hw, hi.waker⟩
    intro r hr
    rcases List.mem_cons.mp hr with rfl | hr
    · exact ⟨hcount, rfl⟩
    · exact hi.sound.woken r hr
  · next hmore =>
      refine ⟨⟨hwoke, hfailed, hi.sound.woken, hspent⟩, houter, fun w hw _ => hunmarked w hw, ?_⟩
      have hleft : 0 ≤ count - 1 := by omega
      have hsum : count - 1 + 1 ≤ count := by omega
      exact waker_ok hi.waker ⟨hleft, hsum, rfl⟩

theorem Inv.callWake (hi : s.Inv) (hc : count = INT_MAX → addr ≠ 0 → s.main_thread_futex ≠ addr)
    (h : s.callWake c addr count = some s') : s'.Inv := by
  unfold FutexState.callWake at h
  split at h
  · next hcall =>
      cases h
      unfold FutexState.wake
      split
      · exact hi
      · next hvalid =>
          obtain ⟨haddr, hvalid⟩ := not_or.mp hvalid
          split
          · refine ⟨{ hi.sound with woken := ?_ }, hi.outer, hi.unmarked, hi.waker⟩
            intro r hr
            rcases List.mem_cons.mp hr with rfl | hr
            · exact ⟨Int.le_refl 0, rfl⟩
            · exact hi.sound.woken r hr
          · next hzero =>
              have hcount : 0 < count := by omega
              split
              · next hword =>
                  exact hi.wakeMain hcall.2.1 hword haddr hcount fun h => hc h haddr hword
              · exact hi.wakeOthers (Int.le_of_lt hcount)
  · cases h

theorem Inv.notify {n : Notify} (hi : s.Inv) (hn : s.waker c = some n) : (s.notify c n).Inv := by
  have hok := hi.waker c n hn
  obtain ⟨hle, hsum⟩ := atomicNotify_spec n.addr n.left.toNat s.sleeping
  refine ⟨{ hi.sound with woken := ?_ }, hi.outer, hi.unmarked, ?_⟩
  · intro r hr
    rcases List.mem_cons.mp hr with rfl | hr
    · have hcount := hok.count
      have hleft := hok.left
      have htold := hok.told
      constructor <;> dsimp only <;> omega
    · exact hi.sound.woken r hr
  · intro d m hm
    rcases eq_or_ne d c with rfl | hd
    · change Function.update s.waker d none d = some m at hm
      rw [Function.update_self] at hm
      cases hm
    · exact hi.waker d m ((Function.update_of_ne hd ..).symm.trans hm)

/-! ## Steps and runs -/

theorem Inv.step (hi : s.Inv) (hc : s.Permits a) (hs : s.step a = some s') : s'.Inv := by
  cases a with
  | store addr val =>
    cases hs
    exact ⟨{ hi.sound with }, hi.outer, hi.unmarked, hi.waker⟩
  | mainWait addr val => exact hi.mainWait hs
  | mainCheck cancelled exits late =>
    obtain ⟨w, rest, hm, -, rfl⟩ := innermost_some hs
    refine hi.mainCheck hm fun h => ?_
    subst h
    exact hc
  | mainTimedOut =>
    obtain ⟨w, rest, hm, -, rfl⟩ := innermost_some hs
    exact hi.mainTimedOut hm
  | mainUnmark =>
    obtain ⟨w, rest, hm, -, rfl⟩ := innermost_some hs
    exact hi.mainUnmark hm
  | mainYielded =>
    obtain ⟨w, rest, hm, hpc, rfl⟩ := innermost_some hs
    refine hi.move hm fun _ => hi.unmarked w ?_ (by rw [hpc]; rfl)
    rw [hm]
    exact List.mem_cons_self
  | mainUnwind =>
    obtain ⟨w, rest, hm, hpc, rfl⟩ := innermost_some hs
    have hfree : s.mainFree = true := by
      rw [mainFree, hm]
      exact decide_eq_true hpc
    have hword := (hi.word_of_free hfree).2
    exact hi.withMain (fun v hv => by cases hv) (fun v hv => by cases hv) hword
  | mainReload =>
    obtain ⟨w, rest, hm, hpc, rfl⟩ := innermost_some hs
    exact hi.mainReload hm hpc
  | mainRemark =>
    obtain ⟨w, rest, hm, hpc, rfl⟩ := innermost_some hs
    exact hi.mainRemark hm hpc
  | sleep t addr val =>
    change s.sleep t addr val = some s' at hs
    unfold FutexState.sleep at hs
    split at hs
    · cases hs
    · split at hs
      · cases hs
        exact ⟨{ hi.sound with }, hi.outer, hi.unmarked, hi.waker⟩
      · cases hs
        exact hi
  | leave t =>
    cases hs
    exact ⟨{ hi.sound with }, hi.outer, hi.unmarked, hi.waker⟩
  | wake c addr count => exact hi.callWake hc hs
  | notify c =>
    obtain ⟨n, hn, rfl⟩ := Option.map_eq_some_iff.mp hs
    exact hi.notify hn

omit [DecidableEq T] in
theorem init_inv : (init (T := T)).Inv where
  sound := ⟨rfl, rfl, fun _ hr => (by cases hr), fun _ hz => (by cases hz)⟩
  outer _ hw := (by cases hw)
  unmarked _ hw := (by cases hw)
  waker _ _ hn := (by cases hn)

theorem reaches_inv (h : Reaches step Permits (init (T := T)) s) : s.Inv :=
  h.invariant init_inv fun _ _ _ hi hc hs => hi.step hc hs

omit [DecidableEq T] in
theorem mark_spent {w : MainWait} {rest : List MainWait} : (s.mark w rest).spent = s.spent := by
  unfold FutexState.mark
  split
  · rfl
  · rfl

omit [DecidableEq T] in
theorem unmark_spent : (s.unmark addr).1.spent = s.spent := by
  unfold FutexState.unmark
  split
  · rfl
  · rfl

theorem wakeMain_spent : (s.wakeMain c addr count).spent = s.spend addr count :: s.spent := by
  unfold FutexState.wakeMain
  dsimp only
  split
  · split
    · rfl
    · rfl
  · rfl

/-- What a step adds to the marks that were taken. -/
theorem step_spent (hs : s.step a = some s') : s'.spent = s.spent ∨
    ∃ c addr count, a = .wake c addr count ∧ s.main_thread_futex = addr ∧
      s'.spent = s.spend addr count :: s.spent := by
  cases a with
  | store addr val =>
    cases hs
    exact .inl rfl
  | mainWait addr val =>
    change s.mainWait addr val = some s' at hs
    unfold FutexState.mainWait at hs
    split at hs
    · cases hs
    · split at hs
      · cases hs
        exact .inl rfl
      · cases hs
        exact .inl mark_spent
  | mainCheck cancelled exits late =>
    obtain ⟨w, rest, -, -, rfl⟩ := innermost_some hs
    unfold FutexState.mainCheck
    split
    · exact .inl rfl
    · exact .inl rfl
  | mainTimedOut =>
    obtain ⟨w, rest, -, -, rfl⟩ := innermost_some hs
    exact .inl unmark_spent
  | mainUnmark =>
    obtain ⟨w, rest, -, -, rfl⟩ := innermost_some hs
    unfold FutexState.mainUnmark
    dsimp only
    split
    · exact .inl unmark_spent
    · exact .inl unmark_spent
  | mainYielded =>
    obtain ⟨w, rest, -, -, rfl⟩ := innermost_some hs
    exact .inl rfl
  | mainUnwind =>
    obtain ⟨w, rest, -, -, rfl⟩ := innermost_some hs
    exact .inl rfl
  | mainReload =>
    obtain ⟨w, rest, -, -, rfl⟩ := innermost_some hs
    unfold FutexState.mainReload
    split
    · exact .inl rfl
    · exact .inl rfl
  | mainRemark =>
    obtain ⟨w, rest, -, -, rfl⟩ := innermost_some hs
    exact .inl mark_spent
  | sleep t addr val =>
    change s.sleep t addr val = some s' at hs
    unfold FutexState.sleep at hs
    split at hs
    · cases hs
    · split at hs
      · cases hs
        exact .inl rfl
      · cases hs
        exact .inl rfl
  | leave t =>
    cases hs
    exact .inl rfl
  | wake c addr count =>
    change s.callWake c addr count = some s' at hs
    unfold FutexState.callWake at hs
    split at hs
    · cases hs
      unfold FutexState.wake
      split
      · exact .inl rfl
      · split
        · exact .inl rfl
        · split
          · next hword => exact .inr ⟨c, addr, count, rfl, hword, wakeMain_spent⟩
          · exact .inl rfl
    · cases hs
  | notify c =>
    obtain ⟨n, -, rfl⟩ := Option.map_eq_some_iff.mp hs
    exact .inl rfl

theorem step_timely (ht : s.Timely) (hc : s.PermitsTimely a) (hs : s.step a = some s') :
    s'.Timely := by
  rcases step_spent hs with h | ⟨c, addr, count, rfl, hword, h⟩
  · rw [Timely, h]
    exact ht
  · rw [Timely, h]
    intro z hz hcount hothers
    rcases List.mem_cons.mp hz with rfl | hz
    · have hone : count = 1 := hcount
      subst hone
      exact hc.2 c addr rfl hword hothers
    · exact ht z hz hcount hothers

/-! ## Results -/

/-- In a run in which no marked wait is cancelled and no wake of all threads finds the main
thread marked, the word is right, no assertion fails, the wakes report what they release,
and a wake is spent on the main thread only while that waits. Where also no wake comes
between the end of the main thread's time and its unmarking while another thread sleeps, none
is spent on a wait that has run out. -/
theorem futex_sound (h : Reaches step Permits (init (T := T)) s) :
    s.Sound ∧ (Reaches step PermitsTimely (init (T := T)) s → s.Timely) := by
  refine ⟨(reaches_inv h).sound, fun ht => ?_⟩
  exact ht.invariant (fun _ hz => by cases hz) fun _ _ _ hJ hc hs => step_timely hJ hc hs

end

/-! ## Runs -/

/-- The main thread waits, yields, waits on another address in the yield, and is woken there
together with a sleeping thread. -/
theorem futex_sound_nested :
    ∃ s : FutexState Bool, s.Sound ∧ s.Timely ∧ s.woken = [⟨2, 2, 2⟩] ∧ s.main.length = 1 := by
  have hother : ∀ (s : FutexState Bool) a, s.Permits a → (∀ c addr, a ≠ .wake c addr 1) →
      s.PermitsTimely a := fun s a h hne => ⟨h, fun c addr ha => absurd ha (hne c addr)⟩
  have h₀ : Reaches step PermitsTimely (init (T := Bool)) init := .init
  have h₁ := h₀.next (.mainWait 4 0) (hother _ _ trivial nofun) rfl
  have h₂ := h₁.next (.mainCheck false false false) (hother _ _ trivial nofun) rfl
  have h₃ := h₂.next .mainUnmark (hother _ _ trivial nofun) rfl
  have h₄ := h₃.next (.mainWait 8 0) (hother _ _ trivial nofun) rfl
  have h₅ := h₄.next (.sleep true 8 0) (hother _ _ trivial nofun) rfl
  have h₆ := h₅.next (.wake (some false) 8 2)
    (hother _ _ (fun h => absurd h (by decide)) nofun) rfl
  have h₇ := h₆.next (.notify (some false)) (hother _ _ trivial nofun) rfl
  have h₈ := h₇.next (.mainCheck false false false) (hother _ _ trivial nofun) rfl
  have h₉ := h₈.next .mainUnmark (hother _ _ trivial nofun) rfl
  have hsound := futex_sound (h₉.mono fun _ _ hc => hc.1)
  exact ⟨_, hsound.1, hsound.2 h₉, rfl, rfl⟩

/-- A wait that is cancelled leaves its mark behind, and a wake of all threads does not
count the main thread. -/
theorem cancel_leaves_mark :
    (∃ s : FutexState Bool, Reaches step Any init s ∧ s.main = [] ∧ s.main_thread_futex = 4 ∧
      ¬ s.Sound) ∧
    ∃ s : FutexState Bool, Reaches step Any init s ∧ s.woken = [⟨INT_MAX, 0, 1⟩] ∧ ¬ s.Sound := by
  have h₀ : Reaches step Any (init (T := Bool)) init := .init
  have h₁ := h₀.next (.mainWait 4 0) trivial rfl
  constructor
  · have h₂ := h₁.next (.mainCheck true false false) trivial rfl
    exact ⟨_, h₂, rfl, rfl, fun h => absurd h.word (by decide)⟩
  · have h₂ := h₁.next (.wake (some false) 4 INT_MAX) trivial rfl
    have h₃ := h₂.next (.notify (some false)) trivial rfl
    refine ⟨_, h₃, rfl, fun h => ?_⟩
    exact absurd (h.woken ⟨INT_MAX, 0, 1⟩ List.mem_cons_self).2 (by decide)

end FutexState

end Pthread
