-- SUMMARY: Careful runs of Asyncify: sleeps return their own values, blocks are freed once, rewinds come back to where they belong.
import Emscripten.JsRuntime.Asyncify

/-!
# Runs of sleeps and swaps

The invariant has three parts: what the control variables are between two steps, what memory holds of the
suspended computations, and the ledger of the sleeps.
-/

namespace Asyncify

open Machine

/-! ## Invariants -/

structure Control (s : State) : Prop where
  normal : s.state = .Normal
  works : s.crashed = false
  next : s.nextFiber = none
  trampoline : s.trampolineRunning = s.inTrampoline
  inside : s.inTrampoline = true → s.running ≠ none

/-- A data block holds a computation that left at the point. -/
structure HeldAt (s : State) (ptr : Data) (p : Point) (sv : Saved) : Prop where
  saved : s.saved ptr = some sv
  point : sv.point = p
  func : s.rewindFunc ptr = sv.exports.head?
  suspended : (sv.comp, p) ∈ s.suspended

/-- No sleep waits, or one does, and its block is the current one. -/
inductive Pending (s : State) : Prop
  | none (hw : s.waiting = []) (hc : s.currData = none) : Pending s
  | one (n : Nat) (sv : Saved) (hw : s.waiting = [n]) (hc : s.currData = some (.block n))
      (h : HeldAt s (.block n) (.sleep n) sv) : Pending s

structure Memory (s : State) : Prop where
  fibers : ∀ f sv, s.saved (.fiber f) = some sv → HeldAt s (.fiber f) (.swap f) sv
  pending : Pending s

structure Ledger (s : State) : Prop where
  values : ∀ r ∈ s.results, r ∈ s.wakes
  woken : (s.wakes.map Prod.fst).Nodup
  once : (s.results.map Prod.fst).Nodup
  freedOnce : s.freed.Nodup
  blocks : ∀ d, d ∈ s.allocated ↔ d ∈ s.freed ∨ ∃ n ∈ s.waiting, d = .block n
  live : ∀ n ∈ s.waiting, .block n ∉ s.freed
  points : ∀ r ∈ s.resumes, r.1 = r.2
  resumed : ∀ n v, (n, v) ∈ s.wakes → .block n ∈ s.allocated → (.sleep n, .sleep n) ∈ s.resumes
  wakesLt : ∀ r ∈ s.wakes, r.1 < s.nextSleep
  waitingLt : ∀ n ∈ s.waiting, n < s.nextSleep
  unwoken : ∀ n ∈ s.waiting, ∀ v, (n, v) ∉ s.wakes
  allocatedLt : ∀ d ∈ s.allocated, ∃ n < s.nextSleep, d = .block n
  callbacks : ∀ r ∈ s.running, ∀ c ∈ r.callbacks,
    (c.1, s.handleSleepReturnValue) ∈ s.wakes ∧ ∀ v, (c.1, v) ∉ s.results

structure Inv (keepalive : Int) (s : State) : Prop where
  control : Control s
  memory : Memory s
  ledger : Ledger s
  swaps : s.switched = s.asked
  counter : s.runtimeKeepaliveCounter = keepalive + s.suspended.length

variable {k : Int} {s s' : State}

theorem Inv.sound (h : Inv k s) : Sound k s where
  works := h.control.works
  values := h.ledger.values
  woken := h.ledger.woken
  once := h.ledger.once
  freedOnce := h.ledger.freedOnce
  blocks := h.ledger.blocks
  live := h.ledger.live
  points := h.ledger.points
  resumed := h.ledger.resumed
  swaps := h.swaps
  counter := h.counter

theorem inv_start (k : Int) : Inv k (start k) where
  control := ⟨rfl, rfl, rfl, rfl, by simp [start]⟩
  memory := ⟨by simp [start], .none rfl rfl⟩
  ledger := by constructor <;> simp [start]
  swaps := rfl
  counter := by simp [start]

/-! ## Rewinds -/

variable {sv : Saved} {n : Nat}

theorem doRewind_eq {ptr : Data} {p : Point} (h : HeldAt s ptr p sv) :
    doRewind ptr p s = reenter sv { s with
      runtimeKeepaliveCounter := s.runtimeKeepaliveCounter - 1
      exportCallStack := sv.exports
      saved := Function.update s.saved ptr none
      suspended := s.suspended.erase (sv.comp, p)
      resumes := (p, p) :: s.resumes } := by
  unfold doRewind
  simp only [h.saved, h.func, if_true, h.point]

/-- Another computation that is held stays so. -/
theorem HeldAt.erase {ptr : Data} {p p' : Point} {sv' : Saved} (h : HeldAt s ptr p sv) (hp : p ≠ p')
    (hsaved : s'.saved ptr = s.saved ptr) (hfunc : s'.rewindFunc ptr = s.rewindFunc ptr)
    (hsus : s'.suspended = s.suspended.erase (sv'.comp, p')) : HeldAt s' ptr p sv := by
  refine ⟨hsaved.trans h.saved, h.point, hfunc.trans h.func, ?_⟩
  rw [hsus]
  refine (List.mem_erase_of_ne ?_).mpr h.suspended
  simp [hp]

/-- The end of a wait: the computation of the sleep runs, and its callbacks first. -/
theorem wakeUp_eq (hw : s.waiting = [n]) (hc : s.currData = some (.block n))
    (h : HeldAt s (.block n) (.sleep n) sv) (v : Int) : wakeUp n v s = { s with
      state := .Normal
      currData := none
      handleSleepReturnValue := v
      exportCallStack := sv.exports
      runtimeKeepaliveCounter := s.runtimeKeepaliveCounter - 1
      saved := Function.update s.saved (.block n) none
      running := some ⟨sv.comp, some (n, sv.exports.length), true⟩
      waiting := []
      wakes := (n, v) :: s.wakes
      freed := .block n :: s.freed
      suspended := s.suspended.erase (sv.comp, .sleep n)
      resumes := (.sleep n, .sleep n) :: s.resumes } := by
  have hheld : HeldAt { s with
      handleSleepReturnValue := v, waiting := [], wakes := (n, v) :: s.wakes, state := .Rewinding }
      (.block n) (.sleep n) sv := ⟨h.saved, h.point, h.func, h.suspended⟩
  unfold wakeUp
  simp only [hc, hw, List.erase_cons_head]
  rw [← hc, doRewind_eq hheld]
  simp [reenter, h.point, hc]

theorem Memory.wake (h : Memory s) (hsaved : s'.saved = Function.update s.saved (.block n) none)
    (hfunc : s'.rewindFunc = s.rewindFunc) (hsus : s'.suspended = s.suspended.erase (sv.comp, .sleep n))
    (hw : s'.waiting = []) (hc : s'.currData = none) : Memory s' := by
  refine ⟨fun f sv' hf => ?_, .none hw hc⟩
  rw [hsaved] at hf
  exact (h.fibers f sv' (by simpa using hf)).erase (by simp) (by simp [hsaved]) (by rw [hfunc]) hsus

theorem Ledger.wake (h : Ledger s) (hw : s.waiting = [n]) (v : Int) (comp depth : Nat) :
    Ledger { s with
      handleSleepReturnValue := v
      running := some ⟨comp, some (n, depth), true⟩
      waiting := []
      wakes := (n, v) :: s.wakes
      freed := .block n :: s.freed
      resumes := (.sleep n, .sleep n) :: s.resumes } := by
  have hn : n ∈ s.waiting := by simp [hw]
  have hnew : ∀ v, (n, v) ∉ s.wakes := h.unwoken n hn
  constructor
  case values => exact fun r hr => List.mem_cons_of_mem _ (h.values r hr)
  case woken =>
    refine List.nodup_cons.mpr ⟨fun hmem => ?_, h.woken⟩
    obtain ⟨r, hr, hfst⟩ := List.mem_map.mp hmem
    exact hnew r.2 (by rw [← show r.1 = n from hfst]; exact hr)
  case once => exact h.once
  case freedOnce => exact List.nodup_cons.mpr ⟨h.live n hn, h.freedOnce⟩
  case blocks =>
    intro d
    have hd := h.blocks d
    simp only [hw, List.mem_singleton, exists_eq_left] at hd
    simp [hd, or_comm]
  case live => simp
  case points =>
    intro r hr
    rcases List.mem_cons.mp hr with rfl | hr
    · rfl
    · exact h.points r hr
  case resumed =>
    intro m u hm hd
    rcases List.mem_cons.mp hm with hm | hm
    · cases hm
      exact List.mem_cons_self ..
    · exact List.mem_cons_of_mem _ (h.resumed m u hm hd)
  case wakesLt =>
    intro r hr
    rcases List.mem_cons.mp hr with rfl | hr
    · exact h.waitingLt n hn
    · exact h.wakesLt r hr
  case waitingLt => simp
  case unwoken => simp
  case allocatedLt => exact h.allocatedLt
  case callbacks =>
    intro r hr c hc
    cases hr
    cases hc
    exact ⟨List.mem_cons_self .., fun u hu => hnew u (h.values _ hu)⟩

theorem Inv.wake (h : Inv k s) (hn : n ∈ s.waiting) (v : Int) : Inv k (wakeUp n v s) := by
  cases h.memory.pending with
  | none hw _ => simp [hw] at hn
  | one m sv hw hc held =>
    have hnm : n = m := by simpa [hw] using hn
    subst hnm
    rw [wakeUp_eq hw hc held]
    refine ⟨⟨rfl, h.control.works, h.control.next, h.control.trampoline, by simp⟩,
      h.memory.wake rfl rfl rfl rfl rfl, ?_, h.swaps, ?_⟩
    · have hl := h.ledger.wake hw v sv.comp sv.exports.length
      exact ⟨hl.values, hl.woken, hl.once, hl.freedOnce, hl.blocks, hl.live, hl.points, hl.resumed,
        hl.wakesLt, hl.waitingLt, hl.unwoken, hl.allocatedLt, hl.callbacks⟩
    · have hpos := List.length_pos_of_mem held.suspended
      have hcount := h.counter
      simp only [List.length_erase_of_mem held.suspended]
      omega

/-! ## Sleeps -/

theorem sleepSync_eq (h : Control s) (v : Int) : sleepSync v s = { s with
    handleSleepReturnValue := v
    nextSleep := s.nextSleep + 1
    wakes := (s.nextSleep, v) :: s.wakes
    results := (s.nextSleep, v) :: s.results } :=
  if_pos h.normal

theorem Ledger.sleepSync (h : Ledger s) {v : Int}
    (hsame : ∀ r ∈ s.running, ∀ c ∈ r.callbacks, (c.1, v) ∈ s.wakes) :
    Ledger { s with
      handleSleepReturnValue := v
      nextSleep := s.nextSleep + 1
      wakes := (s.nextSleep, v) :: s.wakes
      results := (s.nextSleep, v) :: s.results } := by
  have hnew : ∀ u, (s.nextSleep, u) ∉ s.wakes := fun u hu => Nat.lt_irrefl _ (h.wakesLt _ hu)
  have hkey : ∀ l : List (Nat × Int), (∀ u, (s.nextSleep, u) ∉ l) → s.nextSleep ∉ l.map Prod.fst := by
    intro l hl hmem
    obtain ⟨r, hr, hfst⟩ := List.mem_map.mp hmem
    exact hl r.2 (by rw [← show r.1 = s.nextSleep from hfst]; exact hr)
  constructor
  case values =>
    intro r hr
    rcases List.mem_cons.mp hr with rfl | hr
    · exact List.mem_cons_self ..
    · exact List.mem_cons_of_mem _ (h.values r hr)
  case woken => exact List.nodup_cons.mpr ⟨hkey _ hnew, h.woken⟩
  case once => exact List.nodup_cons.mpr ⟨hkey _ fun u hu => hnew u (h.values _ hu), h.once⟩
  case freedOnce => exact h.freedOnce
  case blocks => exact h.blocks
  case live => exact h.live
  case points => exact h.points
  case resumed =>
    intro n u hn hd
    rcases List.mem_cons.mp hn with hn | hn
    · cases hn
      obtain ⟨m, hm, hmn⟩ := h.allocatedLt _ hd
      cases hmn
      exact absurd hm (Nat.lt_irrefl _)
    · exact h.resumed n u hn hd
  case wakesLt =>
    intro r hr
    rcases List.mem_cons.mp hr with rfl | hr
    · exact Nat.lt_succ_self _
    · exact Nat.lt_succ_of_lt (h.wakesLt r hr)
  case waitingLt => exact fun n hn => Nat.lt_succ_of_lt (h.waitingLt n hn)
  case unwoken =>
    intro n hn u hu
    rcases List.mem_cons.mp hu with hu | hu
    · cases hu
      exact Nat.lt_irrefl _ (h.waitingLt _ hn)
    · exact h.unwoken n hn u hu
  case allocatedLt =>
    intro d hd
    obtain ⟨n, hn, rfl⟩ := h.allocatedLt d hd
    exact ⟨n, Nat.lt_succ_of_lt hn, rfl⟩
  case callbacks =>
    intro r hr c hc
    have hmem := hsame r hr c hc
    refine ⟨List.mem_cons_of_mem _ hmem, fun u hu => ?_⟩
    rcases List.mem_cons.mp hu with hu | hu
    · have hkey : c.1 = s.nextSleep := congrArg Prod.fst hu
      rw [hkey] at hmem
      exact hnew v hmem
    · exact (h.callbacks r hr c hc).2 u hu

theorem Inv.sleepSync (h : Inv k s) {v : Int}
    (hsame : ∀ r ∈ s.running, ∀ c ∈ r.callbacks, (c.1, v) ∈ s.wakes) : Inv k (sleepSync v s) := by
  rw [sleepSync_eq h.control]
  refine ⟨⟨h.control.normal, h.control.works, h.control.next, h.control.trampoline, h.control.inside⟩,
    ⟨fun f sv hf => ?_, ?_⟩, h.ledger.sleepSync hsame, h.swaps, h.counter⟩
  · have held := h.memory.fibers f sv hf
    exact ⟨held.saved, held.point, held.func, held.suspended⟩
  · cases h.memory.pending with
    | none hw hc => exact .none hw hc
    | one n sv hw hc held => exact .one n sv hw hc ⟨held.saved, held.point, held.func, held.suspended⟩

/-- The computation is unwound, and the loop of the trampoline ends where one was running. -/
theorem sleepAsync_eq (h : Control s) (comp : Nat) : sleepAsync comp s = { s with
    state := .Normal
    currData := some (.block s.nextSleep)
    exportCallStack := []
    runtimeKeepaliveCounter := s.runtimeKeepaliveCounter + 1
    trampolineRunning := false
    rewindFunc := Function.update s.rewindFunc (.block s.nextSleep) s.exportCallStack.head?
    saved := Function.update s.saved (.block s.nextSleep)
      (some ⟨comp, s.exportCallStack, .sleep s.nextSleep⟩)
    running := none
    inTrampoline := false
    nextSleep := s.nextSleep + 1
    waiting := s.nextSleep :: s.waiting
    allocated := .block s.nextSleep :: s.allocated
    suspended := (comp, .sleep s.nextSleep) :: s.suspended } := by
  have htramp := h.trampoline
  unfold sleepAsync
  rw [if_pos h.normal]
  cases hin : s.inTrampoline with
  | true =>
    simp [hin] at htramp
    simp [allocateData, setDataRewindFunc, unwind, maybeStopUnwind, trampoline, returned, trampolineLoop, h.next]
  | false =>
    simp [hin] at htramp
    simp [allocateData, setDataRewindFunc, unwind, maybeStopUnwind, trampoline, returned, h.next, htramp]

theorem Ledger.sleepAsync (h : Ledger s) (hw : s.waiting = []) (hnext : s'.nextSleep = s.nextSleep + 1)
    (hwaiting : s'.waiting = [s.nextSleep]) (halloc : s'.allocated = .block s.nextSleep :: s.allocated)
    (hrun : s'.running = none) (hwakes : s'.wakes = s.wakes) (hresults : s'.results = s.results)
    (hfreed : s'.freed = s.freed) (hresumes : s'.resumes = s.resumes) : Ledger s' := by
  have hblocks : ∀ d, d ∈ s.allocated ↔ d ∈ s.freed := by
    intro d
    simpa [hw] using h.blocks d
  have hnew : .block s.nextSleep ∉ s.allocated := by
    intro hmem
    obtain ⟨n, hn, hd⟩ := h.allocatedLt _ hmem
    cases hd
    exact Nat.lt_irrefl _ hn
  constructor
  case values => rw [hwakes, hresults]; exact h.values
  case woken => rw [hwakes]; exact h.woken
  case once => rw [hresults]; exact h.once
  case freedOnce => rw [hfreed]; exact h.freedOnce
  case blocks =>
    intro d
    simp [halloc, hfreed, hwaiting, hblocks d, or_comm]
  case live =>
    intro n hn
    have hn' : n = s.nextSleep := by simpa [hwaiting] using hn
    rw [hfreed, hn', ← hblocks]
    exact hnew
  case points => rw [hresumes]; exact h.points
  case resumed =>
    intro n u hn hd
    rw [hwakes] at hn
    rw [hresumes]
    rw [halloc] at hd
    rcases List.mem_cons.mp hd with hd | hd
    · cases hd
      exact absurd (h.wakesLt _ hn) (Nat.lt_irrefl _)
    · exact h.resumed n u hn hd
  case wakesLt =>
    intro r hr
    rw [hwakes] at hr
    rw [hnext]
    exact Nat.lt_succ_of_lt (h.wakesLt r hr)
  case waitingLt => simp [hwaiting, hnext]
  case unwoken =>
    intro n hn u hu
    have hn' : n = s.nextSleep := by simpa [hwaiting] using hn
    rw [hwakes, hn'] at hu
    exact Nat.lt_irrefl _ (h.wakesLt _ hu)
  case allocatedLt =>
    intro d hd
    rw [halloc] at hd
    rw [hnext]
    rcases List.mem_cons.mp hd with rfl | hd
    · exact ⟨_, Nat.lt_succ_self _, rfl⟩
    · obtain ⟨n, hn, rfl⟩ := h.allocatedLt d hd
      exact ⟨n, Nat.lt_succ_of_lt hn, rfl⟩
  case callbacks => simp [hrun]

theorem Inv.sleepAsync (h : Inv k s) (hw : s.waiting = []) (comp : Nat) : Inv k (sleepAsync comp s) := by
  rw [sleepAsync_eq h.control]
  refine ⟨⟨rfl, h.control.works, h.control.next, rfl, by simp⟩, ⟨fun f sv hf => ?_, ?_⟩, ?_, h.swaps, ?_⟩
  · have held := h.memory.fibers f sv (by simpa using hf)
    exact ⟨by simpa using held.saved, held.point, by simpa using held.func,
      List.mem_cons_of_mem _ held.suspended⟩
  · refine .one s.nextSleep ⟨comp, s.exportCallStack, .sleep s.nextSleep⟩ (by simp [hw]) rfl ?_
    exact ⟨by simp, rfl, by simp, List.mem_cons_self ..⟩
  · exact h.ledger.sleepAsync hw rfl (by simp [hw]) rfl rfl rfl rfl rfl rfl
  · have hcount := h.counter
    simp only [List.length_cons]
    omega

/-! ## Swaps -/

/-- The state in which the trampoline goes to the new fiber. -/
def leave (comp oldFiber newFiber : Nat) (s : State) : State :=
  { s with
    state := .Normal
    currData := some (.fiber oldFiber)
    exportCallStack := []
    runtimeKeepaliveCounter := s.runtimeKeepaliveCounter + 1
    nextFiber := none
    trampolineRunning := true
    rewindFunc := Function.update s.rewindFunc (.fiber oldFiber) s.exportCallStack.head?
    saved := Function.update s.saved (.fiber oldFiber) (some ⟨comp, s.exportCallStack, .swap oldFiber⟩)
    running := none
    inTrampoline := true
    suspended := (comp, .swap oldFiber) :: s.suspended
    asked := newFiber :: s.asked }

theorem swap_eq (h : Control s) (comp oldFiber newFiber : Nat)
    (hgoes : (finishContextSwitch newFiber (leave comp oldFiber newFiber s)).running ≠ none) :
    emscripten_fiber_swap comp oldFiber newFiber s =
      finishContextSwitch newFiber (leave comp oldFiber newFiber s) := by
  have htramp := h.trampoline
  unfold emscripten_fiber_swap
  rw [if_pos h.normal]
  cases hin : s.inTrampoline with
  | true =>
    simp [hin] at htramp
    simp [setDataRewindFunc, unwind, maybeStopUnwind, trampoline, returned, trampolineLoop, htramp, leave]
  | false =>
    simp [hin] at htramp
    simp [leave] at hgoes
    simp [setDataRewindFunc, unwind, maybeStopUnwind, trampoline, returned, trampolineLoop, htramp, leave, hgoes]

/-- The fiber that is left holds the computation, and the others hold what they held. -/
theorem leave_held (h : Memory s) (comp oldFiber newFiber : Nat) {f : Nat}
    (hf : (leave comp oldFiber newFiber s).saved (.fiber f) = some sv) :
    HeldAt (leave comp oldFiber newFiber s) (.fiber f) (.swap f) sv := by
  by_cases hfo : f = oldFiber
  · subst hfo
    simp [leave] at hf
    subst hf
    exact ⟨by simp [leave], rfl, by simp [leave], List.mem_cons_self ..⟩
  · have held := h.fibers f sv (by simpa [leave, hfo] using hf)
    exact ⟨hf, held.point, by simpa [leave, hfo] using held.func, List.mem_cons_of_mem _ held.suspended⟩

/-- Other computations run, without callbacks, and rewinds come back to their points. -/
theorem Ledger.run (h : Ledger s) (hrun : ∀ r ∈ s'.running, r.callbacks = none)
    (hnext : s'.nextSleep = s.nextSleep) (hwaiting : s'.waiting = s.waiting) (hwakes : s'.wakes = s.wakes)
    (hresults : s'.results = s.results) (halloc : s'.allocated = s.allocated) (hfreed : s'.freed = s.freed)
    (hresumes : ∃ l, (∀ r ∈ l, r.1 = r.2) ∧ s'.resumes = l ++ s.resumes) : Ledger s' := by
  obtain ⟨l, hl, hresumes⟩ := hresumes
  constructor
  case values => rw [hwakes, hresults]; exact h.values
  case woken => rw [hwakes]; exact h.woken
  case once => rw [hresults]; exact h.once
  case freedOnce => rw [hfreed]; exact h.freedOnce
  case blocks => rw [halloc, hfreed, hwaiting]; exact h.blocks
  case live => rw [hwaiting, hfreed]; exact h.live
  case points =>
    intro r hr
    rw [hresumes] at hr
    exact (List.mem_append.mp hr).elim (hl r) (h.points r)
  case resumed =>
    intro n u hn hd
    rw [hwakes] at hn
    rw [halloc] at hd
    rw [hresumes]
    exact List.mem_append_right _ (h.resumed n u hn hd)
  case wakesLt => rw [hwakes, hnext]; exact h.wakesLt
  case waitingLt => rw [hwaiting, hnext]; exact h.waitingLt
  case unwoken => rw [hwaiting, hwakes]; exact h.unwoken
  case allocatedLt => rw [halloc, hnext]; exact h.allocatedLt
  case callbacks =>
    intro r hr c hc
    simp [hrun r hr] at hc

theorem Inv.swap (h : Inv k s) (hw : s.waiting = []) (comp : Nat) {oldFiber newFiber : Nat}
    (hmay : maySwap s oldFiber newFiber = true) : Inv k (emscripten_fiber_swap comp oldFiber newFiber s) := by
  have hcount := h.counter
  simp only [maySwap, Bool.and_eq_true, Bool.not_eq_true', Bool.or_eq_true, beq_iff_eq] at hmay
  cases hentry : s.entry newFiber with
  | true =>
    -- the fiber is entered for the first time
    have hgo : finishContextSwitch newFiber (leave comp oldFiber newFiber s) =
        { leave comp oldFiber newFiber s with
          switched := newFiber :: s.switched
          currData := none
          entry := Function.update s.entry newFiber false
          exportCallStack := [dynCall_vp]
          running := some ⟨s.nextComp, none, false⟩
          nextComp := s.nextComp + 1 } := by
      simp [finishContextSwitch, leave, hentry]
    rw [swap_eq h.control _ _ _ (by simp [hgo]), hgo]
    refine ⟨⟨rfl, h.control.works, rfl, rfl, by simp⟩, ⟨fun f sv hf => ?_, .none hw rfl⟩, ?_, ?_, ?_⟩
    · have held := leave_held h.memory comp oldFiber newFiber hf
      exact ⟨held.saved, held.point, held.func, held.suspended⟩
    · exact h.ledger.run (by simp) rfl rfl rfl rfl rfl rfl ⟨[], by simp, rfl⟩
    · exact congrArg _ h.swaps
    · simp only [leave, List.length_cons]
      omega
  | false =>
    have hholds : ∃ sv, (leave comp oldFiber newFiber s).saved (.fiber newFiber) = some sv := by
      by_cases hno : newFiber = oldFiber
      · exact ⟨⟨comp, s.exportCallStack, .swap oldFiber⟩, by simp [leave, hno]⟩
      · have hsome : holds s newFiber = true := by simpa [hno, hentry] using hmay.2
        simpa [leave, hno, holds, Option.isSome_iff_exists] using hsome
    obtain ⟨sv, hsv⟩ := hholds
    have held := leave_held h.memory comp oldFiber newFiber hsv
    have hgo : finishContextSwitch newFiber (leave comp oldFiber newFiber s) =
        { leave comp oldFiber newFiber s with
          switched := newFiber :: s.switched
          currData := none
          runtimeKeepaliveCounter := s.runtimeKeepaliveCounter
          exportCallStack := sv.exports
          saved := Function.update (leave comp oldFiber newFiber s).saved (.fiber newFiber) none
          running := some ⟨sv.comp, none, true⟩
          suspended := (leave comp oldFiber newFiber s).suspended.erase (sv.comp, .swap newFiber)
          resumes := (.swap newFiber, .swap newFiber) :: s.resumes } := by
      have hnot : ¬ (leave comp oldFiber newFiber s).entry newFiber = true := by simp [leave, hentry]
      have hheld : HeldAt { leave comp oldFiber newFiber s with
          switched := newFiber :: s.switched, currData := some (.fiber newFiber), state := .Rewinding }
          (.fiber newFiber) (.swap newFiber) sv := ⟨held.saved, held.point, held.func, held.suspended⟩
      have hstep : finishContextSwitch newFiber (leave comp oldFiber newFiber s) =
          doRewind (.fiber newFiber) (.swap newFiber) { leave comp oldFiber newFiber s with
            switched := newFiber :: s.switched, currData := some (.fiber newFiber), state := .Rewinding } :=
        if_neg hnot
      rw [hstep, doRewind_eq hheld]
      simp [reenter, held.point, leave]
    rw [swap_eq h.control _ _ _ (by simp [hgo]), hgo]
    refine ⟨⟨rfl, h.control.works, rfl, rfl, by simp⟩, ⟨fun f sv' hf => ?_, .none hw rfl⟩, ?_, ?_, ?_⟩
    · have hne : f ≠ newFiber := by
        rintro rfl
        simp at hf
      have hold : (leave comp oldFiber newFiber s).saved (.fiber f) = some sv' := by simpa [hne] using hf
      exact (leave_held h.memory comp oldFiber newFiber hold).erase (by simp [hne])
        (by simp [hne]) rfl rfl
    · exact h.ledger.run (by simp) rfl rfl rfl rfl rfl rfl
        ⟨[(.swap newFiber, .swap newFiber)], by simp, rfl⟩
    · exact congrArg _ h.swaps
    · simp only [List.length_erase_of_mem held.suspended]
      simp only [leave, List.length_cons]
      omega

/-! ## Other steps -/

/-- The memory does not depend on what runs. -/
theorem Memory.congr (h : Memory s) (hsaved : s'.saved = s.saved) (hfunc : s'.rewindFunc = s.rewindFunc)
    (hsus : s'.suspended = s.suspended) (hw : s'.waiting = s.waiting) (hc : s'.currData = s.currData) :
    Memory s' := by
  have hheld : ∀ {ptr p sv}, HeldAt s ptr p sv → HeldAt s' ptr p sv := by
    intro ptr p sv held
    exact ⟨by rw [hsaved]; exact held.saved, held.point, by rw [hfunc]; exact held.func,
      by rw [hsus]; exact held.suspended⟩
  refine ⟨fun f sv hf => hheld (h.fibers f sv (by rw [← hsaved]; exact hf)), ?_⟩
  cases h.pending with
  | none hw' hc' => exact .none (hw.trans hw') (hc.trans hc')
  | one n sv hw' hc' held => exact .one n sv (hw.trans hw') (hc.trans hc') (hheld held)

/-- Exports are entered and left, and fibers made. -/
theorem Inv.exports (h : Inv k s) (l : List Nat) (e : Nat → Bool) :
    Inv k { s with exportCallStack := l, entry := e } := by
  refine ⟨⟨h.control.normal, h.control.works, h.control.next, h.control.trampoline, h.control.inside⟩,
    h.memory.congr rfl rfl rfl rfl rfl, ?_, h.swaps, h.counter⟩
  have hl := h.ledger
  exact ⟨hl.values, hl.woken, hl.once, hl.freedOnce, hl.blocks, hl.live, hl.points, hl.resumed,
    hl.wakesLt, hl.waitingLt, hl.unwoken, hl.allocatedLt, hl.callbacks⟩

theorem Inv.call (h : Inv k s) (hout : s.inTrampoline = false) (f : Nat) :
    Inv k { s with
      exportCallStack := [f]
      running := some ⟨s.nextComp, none, false⟩
      nextComp := s.nextComp + 1 } :=
  ⟨⟨h.control.normal, h.control.works, h.control.next, h.control.trampoline, by simp [hout]⟩,
    h.memory.congr rfl rfl rfl rfl rfl,
    h.ledger.run (by simp) rfl rfl rfl rfl rfl rfl ⟨[], by simp, rfl⟩, h.swaps, h.counter⟩

theorem Inv.ended (h : Inv k s) :
    Inv k { s with
      exportCallStack := [], running := none, trampolineRunning := false, inTrampoline := false } :=
  ⟨⟨h.control.normal, h.control.works, h.control.next, rfl, by simp⟩,
    h.memory.congr rfl rfl rfl rfl rfl,
    h.ledger.run (by simp) rfl rfl rfl rfl rfl rfl ⟨[], by simp, rfl⟩, h.swaps, h.counter⟩

theorem maybeStopUnwind_normal (h : s.state = .Normal) : maybeStopUnwind s = s := by
  simp [maybeStopUnwind, h]

/-- A computation that ends ends the loop of the trampoline, as no fiber is to follow. -/
theorem returned_eq (h : Control s) :
    returned (maybeStopUnwind { s with exportCallStack := [], running := none }) =
      { s with exportCallStack := [], running := none, trampolineRunning := false, inTrampoline := false } := by
  have htramp := h.trampoline
  have hstop : maybeStopUnwind { s with exportCallStack := [], running := none } =
      { s with exportCallStack := [], running := none } := maybeStopUnwind_normal h.normal
  rw [hstop]
  cases hin : s.inTrampoline with
  | true => simp [returned, trampolineLoop, h.next]
  | false =>
    rw [hin] at htramp
    simp [returned, htramp]

theorem Inv.callbacksDone (h : Inv k s) {r : Running} {c : Nat × Nat} (hr : s.running = some r)
    (hc : r.callbacks = some c) : Inv k (callbacksDone r c.1 s) := by
  obtain ⟨hval, hnew⟩ := h.ledger.callbacks r hr c hc
  have hl := h.ledger
  refine ⟨⟨h.control.normal, h.control.works, h.control.next, h.control.trampoline, fun _ => by simp [Asyncify.callbacksDone]⟩,
    h.memory.congr rfl rfl rfl rfl rfl, ?_, h.swaps, h.counter⟩
  refine ⟨fun p hp => ?_, hl.woken, ?_, hl.freedOnce, hl.blocks, hl.live, hl.points, hl.resumed,
    hl.wakesLt, hl.waitingLt, hl.unwoken, hl.allocatedLt, fun r' hr' c' hc' => ?_⟩
  · rcases List.mem_cons.mp hp with rfl | hp
    · exact hval
    · exact hl.values p hp
  · refine List.nodup_cons.mpr ⟨fun hmem => ?_, hl.once⟩
    obtain ⟨p, hp, hfst⟩ := List.mem_map.mp hmem
    exact hnew p.2 (by rw [← show p.1 = c.1 from hfst]; exact hp)
  · cases hr'
    cases hc'

/-! ## Runs -/

theorem Inv.throw (h : Inv k s) {r : Running} (hr : s.running = some r) {quiet : Bool}
    (hc : Careful s (.throw quiet)) (hs : stepRunning s r (.throw quiet) = some s') : Inv k s' := by
  have hstop : maybeStopUnwind { s with exportCallStack := [], running := none } =
      { s with exportCallStack := [], running := none } := maybeStopUnwind_normal h.control.normal
  simp only [stepRunning] at hs
  split at hs
  · cases hs
    exact h.exports _ s.entry
  · next hcall =>
      split at hs
      · cases hs
        rw [returned_eq h.control]
        exact h.ended
      · next hthrown =>
          cases hs
          have hout : s.inTrampoline = false := by
            cases hin : s.inTrampoline with
            | false => rfl
            | true =>
              obtain ⟨hquiet, hbelow⟩ := hc r hr hin
              cases hcb : r.callbacks with
              | none => simp [hquiet, hcb] at hthrown hbelow; simp [hbelow] at hthrown
              | some c => exact absurd hquiet (hcall c.1 c.2 hcb)
          have htramp : s.trampolineRunning = false := h.control.trampoline.trans hout
          have hended := h.ended
          rw [hstop]
          simp only [htramp]
          exact hended

/-- Besides calls, wake-ups and new fibers, steps are those of the code that runs. -/
theorem step_cases {a : Action} (hs : Asyncify.step s a = some s') : (∃ f, a = .call f) ∨ (∃ n v, a = .wakeUp n v) ∨
    (∃ f entry, a = .fiberInit f entry) ∨ ∃ r, s.running = some r ∧ stepRunning s r a = some s' := by
  unfold Asyncify.step at hs
  split at hs
  · exact .inl ⟨_, rfl⟩
  · exact .inr (.inl ⟨_, _, rfl⟩)
  · exact .inr (.inr (.inl ⟨_, _, rfl⟩))
  · split at hs
    · next r hr => exact .inr (.inr (.inr ⟨r, hr, hs⟩))
    · cases hs

theorem Inv.step (h : Inv k s) {a : Action} (hc : Careful s a) (hs : step s a = some s') : Inv k s' := by
  obtain ⟨f, rfl⟩ | ⟨n, v, rfl⟩ | ⟨f, entry, rfl⟩ | ⟨r, hr, hs⟩ := step_cases hs
  · simp only [Asyncify.step, Option.ite_none_right_eq_some, Option.some.injEq] at hs
    obtain ⟨⟨_, hout⟩, rfl⟩ := hs
    exact h.call hout f
  · simp only [Asyncify.step, Option.ite_none_right_eq_some, Option.some.injEq] at hs
    obtain ⟨⟨_, _, hn⟩, rfl⟩ := hs
    exact h.wake hn v
  · simp only [Asyncify.step, Option.ite_none_right_eq_some, Option.some.injEq] at hs
    obtain ⟨_, rfl⟩ := hs
    exact h.exports s.exportCallStack _
  cases a with
  | call | wakeUp | fiberInit => cases hs
  | enter f =>
    cases hs
    exact h.exports _ s.entry
  | leave =>
    simp only [stepRunning, Option.ite_none_right_eq_some, Option.some.injEq] at hs
    obtain ⟨_, rfl⟩ := hs
    exact h.exports _ s.entry
  | sleepSync v =>
    cases hs
    exact h.sleepSync hc
  | sleepAsync =>
    simp only [stepRunning, Option.ite_none_right_eq_some, Option.some.injEq] at hs
    obtain ⟨_, rfl⟩ := hs
    exact h.sleepAsync hc r.comp
  | callbacksDone =>
    simp only [stepRunning] at hs
    split at hs
    · next n depth hcall =>
        simp only [Option.ite_none_right_eq_some, Option.some.injEq] at hs
        obtain ⟨_, rfl⟩ := hs
        exact h.callbacksDone hr hcall
    · cases hs
  | swap oldFiber newFiber =>
    simp only [stepRunning, Option.ite_none_right_eq_some, Option.some.injEq] at hs
    obtain ⟨⟨_, hmay⟩, rfl⟩ := hs
    exact h.swap hc r.comp hmay
  | finish =>
    simp only [stepRunning, Option.ite_none_right_eq_some, Option.some.injEq] at hs
    obtain ⟨_, rfl⟩ := hs
    rw [returned_eq h.control]
    exact h.ended
  | throw quiet => exact h.throw hr hc hs

/-- In a careful run, sleeps return what they were woken with, blocks are freed once, rewinds come back to
their points, swaps lead to their fibers, and the counter counts the suspended computations. -/
theorem sound_of_reaches {keepalive : Int} (h : Reaches step Careful (start keepalive) s) :
    Sound keepalive s :=
  (h.invariant (I := Inv keepalive) (inv_start keepalive) fun _ _ _ hi hc hs => hi.step hc hs).sound

instance (s : State) : (a : Action) → Decidable (Careful s a)
  | .sleepAsync => inferInstanceAs (Decidable (s.waiting = []))
  | .swap _ _ => inferInstanceAs (Decidable (s.waiting = []))
  | .sleepSync v => inferInstanceAs
      (Decidable (∀ r ∈ s.running, ∀ c ∈ r.callbacks, (c.1, v) ∈ s.wakes))
  | .throw quiet => inferInstanceAs (Decidable (∀ r ∈ s.running, s.inTrampoline = true →
      quiet = true ∧ (r.resumed = true ∨ r.callbacks ≠ none)))
  | .call _ => isTrue trivial
  | .enter _ => isTrue trivial
  | .leave => isTrue trivial
  | .wakeUp _ _ => isTrue trivial
  | .callbacksDone => isTrue trivial
  | .fiberInit _ _ => isTrue trivial
  | .finish => isTrue trivial

/-- A sleep, during which another call sleeps synchronously, a swap to a new fiber and back, and an exception
out of a computation that was resumed after one more sleep. -/
theorem sound_run : ∃ s, (s.results = [(3, 9), (0, 5), (1, 8)] ∧ s.switched = [0, 1] ∧
    s.suspended = [(2, .swap 1)]) ∧ Sound 2 s := by
  let as : List Action := [.call 3, .fiberInit 1 true, .enter 7, .sleepAsync, .call 4, .sleepSync 8, .finish,
    .wakeUp 0 5, .callbacksDone, .leave, .swap 0 1, .swap 1 0, .sleepAsync, .wakeUp 2 6, .throw false,
    .call 3, .sleepSync 9]
  have hrun : (exec step (start 2) as).map (fun s => (s.results, s.switched, s.suspended)) =
      some ([(3, 9), (0, 5), (1, 8)], [0, 1], [(2, .swap 1)]) := by decide
  obtain ⟨s, hs, hobs⟩ := Option.map_eq_some_iff.mp hrun
  have hmeets : Meets step Careful (start 2) as :=
    meets_of_check (c := fun s a => decide (Careful s a)) (fun _ _ => of_decide_eq_true) as (by decide)
  obtain ⟨hresults, hrest⟩ := Prod.mk.inj hobs
  obtain ⟨hswitched, hsuspended⟩ := Prod.mk.inj hrest
  exact ⟨s, ⟨hresults, hswitched, hsuspended⟩, sound_of_reaches (reaches_of_exec as hs hmeets)⟩

/-- A sleep returns what a callback slept with. -/
theorem callback_unsound : ∃ s, Reaches step Any (start 0) s ∧ ¬ Sound 0 s := by
  have hrun : (exec step (start 0) [.call 1, .sleepAsync, .wakeUp 0 5, .sleepSync 7, .callbacksDone]).map
      (fun s => (s.results, s.wakes)) = some ([(0, 7), (1, 7)], [(1, 7), (0, 5)]) := by decide
  obtain ⟨s, hreach, hobs⟩ := reaches_of_map _ hrun
  obtain ⟨hresults, hwakes⟩ := Prod.mk.inj hobs
  refine ⟨s, hreach, fun hsound => ?_⟩
  have hval := hsound.values (0, 7) (by simp [hresults])
  simp [hwakes] at hval

end Asyncify
