-- SUMMARY: Asynchronous waits: their tokens, the table of live waits and the keep-alive counter, over any sequence of calls and wake-ups.
import Mathlib.Algebra.Ring.Int.Defs
import Mathlib.Algebra.Ring.Nat
import Emscripten.Lib.Assoc
import Emscripten.Lib.Machine

/-!
# Asynchronous waits

`emscripten_atomic_wait_async` enters the address of a wait in a table, under a number
that counts up and wraps around, and gives its caller the negative of the number as a
token. The handler of the wait's promise runs the callback if it finds the number in the
table. The cancellations take entries out of it.
-/

namespace Pthread

open Machine

/-! ## State -/

abbrev Address := Nat

/-- Ghost: a wait that has been started. -/
structure AsyncWait where
  number : Int
  address : Address
  /-- The promise has not been handled. -/
  pending : Bool
  /-- A cancellation has meant the wait while it was live. -/
  cancelled : Bool
  calls : Nat
deriving DecidableEq, Repr

/-- A live wait has neither been handled nor cancelled. -/
def AsyncWait.live (w : AsyncWait) : Bool := w.pending && ! w.cancelled

/-- What `emscripten_atomic_wait_async` returned for the wait. -/
def AsyncWait.token (w : AsyncWait) : Int := -w.number

structure AsyncWaits where
  /-- `liveAtomicWaitAsyncs`. -/
  table : List (Int × Address)
  /-- `liveAtomicWaitAsyncCounter`. -/
  counter : Int
  runtimeKeepaliveCounter : Int
  /-- Ghost: all waits, in their order. -/
  waits : List AsyncWait
deriving Repr

inductive WaitResult
  | ok
  | notEqual
  | timedOut
deriving DecidableEq, Repr

def EMSCRIPTEN_RESULT_SUCCESS : Int := 0
def EMSCRIPTEN_RESULT_INVALID_PARAM : Int := -5

/-- The counter one further, by the rules of a 32-bit number. -/
def nextCounter (counter : Int) : Int :=
  max 0 (if counter + 1 = 2 ^ 31 then -2 ^ 31 else counter + 1)

namespace AsyncWaits

def start (keepalive : Int) : AsyncWaits := ⟨[], 0, keepalive, []⟩

/-- `delete liveAtomicWaitAsyncs[number]`. -/
def delete (s : AsyncWaits) (number : Int) : AsyncWaits :=
  { s with table := s.table.filter fun e => e.1 ≠ number }

/-- Ghost: the cancellation means the live waits with `p`. -/
def cancelWhere (p : AsyncWait → Bool) (ws : List AsyncWait) : List AsyncWait :=
  ws.map fun w => if w.live && p w then { w with cancelled := true } else w

/-! ## The functions -/

/-- `emscripten_atomic_wait_async`, where `async` tells whether the wait of the memory is
asynchronous or has a result at once. -/
def emscripten_atomic_wait_async (s : AsyncWaits) (addr : Address) (async : Except WaitResult Unit) :
    AsyncWaits × Int :=
  match async with
  | .error .notEqual => (s, 1)
  | .error .timedOut => (s, 2)
  | .error .ok => (s, 0)
  | .ok _ =>
    ({ s.delete s.counter with
        table := (s.delete s.counter).table ++ [(s.counter, addr)]
        counter := nextCounter s.counter
        runtimeKeepaliveCounter := s.runtimeKeepaliveCounter + 1
        waits := s.waits ++ [⟨s.counter, addr, true, false, 0⟩] }, -s.counter)

/-- The handler of the promise of the wait `i`, which settles in whatever way. -/
def settle (s : AsyncWaits) (i : Nat) : Option AsyncWaits :=
  match s.waits[i]? with
  | none => none
  | some w =>
    if ¬ w.pending then none
    else match s.table.lookup w.number with
      | none => some { s with waits := s.waits.set i { w with pending := false } }
      | some _ =>
        some { s.delete w.number with
          runtimeKeepaliveCounter := s.runtimeKeepaliveCounter - 1
          waits := s.waits.set i { w with pending := false, calls := w.calls + 1 } }

def emscripten_atomic_cancel_wait_async (s : AsyncWaits) (waitToken : Int) : AsyncWaits × Int :=
  let waits := cancelWhere (fun w => w.token = waitToken) s.waits
  match s.table.lookup waitToken with
  | some _ =>
    ({ s.delete waitToken with
        runtimeKeepaliveCounter := s.runtimeKeepaliveCounter - 1
        waits := waits }, EMSCRIPTEN_RESULT_SUCCESS)
  | none => ({ s with waits := waits }, EMSCRIPTEN_RESULT_INVALID_PARAM)

def emscripten_atomic_cancel_all_wait_asyncs (s : AsyncWaits) : AsyncWaits × Int :=
  ({ s with table := [], waits := cancelWhere (fun _ => true) s.waits }, s.table.length)

def emscripten_atomic_cancel_all_wait_asyncs_at_address (s : AsyncWaits) (address : Address) :
    AsyncWaits × Int :=
  ({ s with
      table := s.table.filter fun e => e.2 ≠ address
      waits := cancelWhere (fun w => w.address = address) s.waits },
    (s.table.filter fun e => e.2 = address).length)

end AsyncWaits

/-! ## Steps -/

inductive WaitAction
  | wait (addr : Address) (async : Except WaitResult Unit)
  | settle (i : Nat)
  | cancel (waitToken : Int)
  | cancelAll
  | cancelAtAddress (address : Address)

namespace AsyncWaits

/-- A wait is on an address that is not zero. -/
def step (s : AsyncWaits) : WaitAction → Option AsyncWaits
  | .wait addr async => if addr = 0 then none else some (s.emscripten_atomic_wait_async addr async).1
  | .settle i => s.settle i
  | .cancel waitToken => some (s.emscripten_atomic_cancel_wait_async waitToken).1
  | .cancelAll => some s.emscripten_atomic_cancel_all_wait_asyncs.1
  | .cancelAtAddress address => some (s.emscripten_atomic_cancel_all_wait_asyncs_at_address address).1

/-! ## The property and its condition -/

/-- The token is its own number, or it is the token or the number of no live wait. -/
def TokenIsNumber (s : AsyncWaits) (waitToken : Int) : Prop :=
  waitToken = 0 ∨ s.table.lookup waitToken = none ∧ s.table.lookup (-waitToken) = none

/-- The counter does not come to the number of a wait whose promise is not handled yet, and
only the first token of a round is cancelled by. -/
def TokensFit (s : AsyncWaits) : WaitAction → Prop
  | .wait _ _ => ∀ w ∈ s.waits, w.pending = true → w.number ≠ s.counter
  | .cancel waitToken => s.TokenIsNumber waitToken
  | _ => True

/-- A cancellation of all waits, or of those at an address, finds none. -/
def CancelsNone (s : AsyncWaits) : WaitAction → Prop
  | .cancelAll => s.table = []
  | .cancelAtAddress address => ∀ e ∈ s.table, e.2 ≠ address
  | _ => True

def liveWaits (s : AsyncWaits) : List AsyncWait := s.waits.filter AsyncWait.live

end AsyncWaits

/-- The callback of a wait runs once its promise is handled, unless the wait was cancelled. -/
def AsyncWait.CalledOnce (w : AsyncWait) : Prop :=
  w.calls = if w.pending || w.cancelled then 0 else 1

instance (w : AsyncWait) : Decidable w.CalledOnce := inferInstanceAs (Decidable (_ = _))

/-- The entry of a wait in the table. -/
def AsyncWait.entry (w : AsyncWait) : Int × Address := (w.number, w.address)

variable {w : AsyncWait} {n : Int}

namespace AsyncWaits

variable {s s' : AsyncWaits} {ws : List AsyncWait} {i : Nat}

/-! ## The invariant -/

/-- The numbers that a handler may still look up. -/
def pendingNumbers (ws : List AsyncWait) : List Int :=
  (ws.filter AsyncWait.pending).map AsyncWait.number

structure Inv (s : AsyncWaits) : Prop where
  table : s.table = s.liveWaits.map AsyncWait.entry
  distinct : (pendingNumbers s.waits).Nodup
  called : ∀ w ∈ s.waits, w.CalledOnce

theorem pending_of_live (h : w.live = true) : w.pending = true := by
  unfold AsyncWait.live at h
  simp only [Bool.and_eq_true] at h
  exact h.1

theorem live_sublist : (ws.filter AsyncWait.live).Sublist (ws.filter AsyncWait.pending) := by
  have hsame : ws.filter AsyncWait.live = (ws.filter AsyncWait.pending).filter AsyncWait.live := by
    rw [List.filter_filter]
    refine List.filter_congr fun w _ => ?_
    cases hlive : w.live with
    | false => rfl
    | true => rw [pending_of_live hlive]; rfl
  rw [hsame]
  exact List.filter_sublist

theorem Inv.live_numbers (hi : s.Inv) : (s.liveWaits.map AsyncWait.number).Nodup :=
  hi.distinct.sublist (live_sublist.map AsyncWait.number)

theorem Inv.keys (hi : s.Inv) : (s.table.map Prod.fst).Nodup := by
  rw [hi.table, List.map_map]
  exact hi.live_numbers

/-- The table has a number exactly if it is that of a live wait. -/
theorem Inv.lookup_iff (hi : s.Inv) :
    (∃ a, s.table.lookup n = some a) ↔ ∃ w ∈ s.waits, w.live = true ∧ w.number = n := by
  refine ⟨?_, ?_⟩
  · rintro ⟨a, ha⟩
    have hmem := Assoc.mem_of_lookup ha
    rw [hi.table] at hmem
    obtain ⟨w, hw, hentry⟩ := List.mem_map.mp hmem
    obtain ⟨hw, hlive⟩ := List.mem_filter.mp hw
    exact ⟨w, hw, hlive, congrArg Prod.fst hentry⟩
  · rintro ⟨w, hw, hlive, rfl⟩
    refine ⟨w.address, Assoc.lookup_of_mem hi.keys ?_⟩
    rw [hi.table]
    exact List.mem_map.mpr ⟨w, List.mem_filter.mpr ⟨hw, hlive⟩, rfl⟩

theorem Inv.lookup_none (hi : s.Inv) (h : s.table.lookup n = none) (hw : w ∈ s.waits) (hlive : w.live = true) :
    w.number ≠ n := by
  intro hn
  obtain ⟨a, ha⟩ := hi.lookup_iff.mpr ⟨w, hw, hlive, hn⟩
  rw [h] at ha
  cases ha

/-! ### Starting a wait -/

theorem Inv.wait (hi : s.Inv) {addr : Address} {async : Except WaitResult Unit}
    (hc : ∀ w ∈ s.waits, w.pending = true → w.number ≠ s.counter) :
    (s.emscripten_atomic_wait_async addr async).1.Inv := by
  cases async with
  | error r => cases r <;> exact hi
  | ok u =>
    have hkeep : (s.delete s.counter).table = s.table := by
      refine List.filter_eq_self.mpr fun e he => ?_
      rw [hi.table] at he
      obtain ⟨w, hw, rfl⟩ := List.mem_map.mp he
      obtain ⟨hw, hlive⟩ := List.mem_filter.mp hw
      exact decide_eq_true (hc w hw (pending_of_live hlive))
    refine ⟨?_, ?_, ?_⟩
    · change (s.delete s.counter).table ++ [(s.counter, addr)] = _
      rw [hkeep, hi.table]
      simp [liveWaits, emscripten_atomic_wait_async, AsyncWait.live, AsyncWait.entry]
    · have hnew : s.counter ∉ pendingNumbers s.waits := by
        intro hmem
        obtain ⟨w, hw, hnumber⟩ := List.mem_map.mp hmem
        obtain ⟨hw, hpending⟩ := List.mem_filter.mp hw
        exact hc w hw hpending hnumber
      have hnumbers : pendingNumbers (s.emscripten_atomic_wait_async addr (.ok u)).1.waits =
          pendingNumbers s.waits ++ [s.counter] := by
        simp [pendingNumbers, emscripten_atomic_wait_async]
      rw [hnumbers, List.nodup_append]
      refine ⟨hi.distinct, List.nodup_singleton _, ?_⟩
      rintro n hn m hm rfl
      exact hnew (List.mem_singleton.mp hm ▸ hn)
    · intro w hw
      rcases List.mem_append.mp hw with hw | hw
      · exact hi.called w hw
      · cases List.mem_singleton.mp hw
        rfl

/-! ### Cancellations -/

/-- A predicate that a cancellation may go by: it does not look at what it changes. -/
def ByEntry (p : AsyncWait → Bool) (q : Int × Address → Bool) : Prop :=
  ∀ w : AsyncWait, p w = q w.entry

theorem cancelWhere_live (p : AsyncWait → Bool) (ws : List AsyncWait) :
    (cancelWhere p ws).filter AsyncWait.live = (ws.filter AsyncWait.live).filter fun w => ! p w := by
  unfold cancelWhere
  induction ws with
  | nil => rfl
  | cons w ws ih =>
    rw [List.map_cons]
    cases hlive : w.live with
    | false => simpa [hlive] using ih
    | true =>
      cases hp : p w with
      | false => simpa [hlive, hp] using ih
      | true => simpa [hlive, hp, AsyncWait.live] using ih

theorem cancelWhere_pending (p : AsyncWait → Bool) (ws : List AsyncWait) :
    pendingNumbers (cancelWhere p ws) = pendingNumbers ws := by
  unfold pendingNumbers cancelWhere
  induction ws with
  | nil => rfl
  | cons w ws ih =>
    have hsame : ∀ v : AsyncWait, v.pending = w.pending → v.number = w.number →
        ((v :: ws.map fun w => if w.live && p w then { w with cancelled := true } else w).filter
          AsyncWait.pending).map AsyncWait.number =
        ((w :: ws).filter AsyncWait.pending).map AsyncWait.number := by
      intro v hpending hnumber
      cases hw : w.pending with
      | false =>
        rw [List.filter_cons_of_neg (by simp [hpending, hw]), List.filter_cons_of_neg (by simp [hw])]
        exact ih
      | true =>
        rw [List.filter_cons_of_pos (by simp [hpending, hw]), List.filter_cons_of_pos hw,
          List.map_cons, List.map_cons, hnumber, ih]
    rw [List.map_cons]
    split
    · exact hsame _ rfl rfl
    · exact hsame _ rfl rfl

theorem cancelWhere_called {p : AsyncWait → Bool} (h : ∀ w ∈ ws, w.CalledOnce) :
    ∀ w ∈ cancelWhere p ws, w.CalledOnce := by
  intro w hw
  obtain ⟨v, hv, rfl⟩ := List.mem_map.mp hw
  split
  · next hlive =>
      simp only [Bool.and_eq_true] at hlive
      have hcalled := h v hv
      unfold AsyncWait.CalledOnce at hcalled ⊢
      rw [pending_of_live hlive.1] at hcalled ⊢
      simpa using hcalled
  · exact h v hv

/-- A cancellation that takes out of the table what it means. -/
theorem Inv.cancelWhere (hi : s.Inv) {p : AsyncWait → Bool} {q : Int × Address → Bool}
    (hpq : ByEntry p q) (htable : s'.table = s.table.filter fun e => ! q e)
    (hwaits : s'.waits = AsyncWaits.cancelWhere p s.waits) : s'.Inv := by
  refine ⟨?_, ?_, ?_⟩
  · unfold liveWaits
    rw [htable, hwaits, cancelWhere_live, hi.table, List.filter_map]
    congr 1
    refine List.filter_congr fun w _ => ?_
    exact congrArg (! ·) (hpq w).symm
  · rw [hwaits, cancelWhere_pending]
    exact hi.distinct
  · rw [hwaits]
    exact cancelWhere_called hi.called

theorem Inv.cancelAll (hi : s.Inv) : s.emscripten_atomic_cancel_all_wait_asyncs.1.Inv :=
  hi.cancelWhere (p := fun _ => true) (q := fun _ => true) (fun _ => rfl) (by simp [emscripten_atomic_cancel_all_wait_asyncs]) rfl

theorem Inv.cancelAtAddress (hi : s.Inv) (address : Address) :
    (s.emscripten_atomic_cancel_all_wait_asyncs_at_address address).1.Inv :=
  hi.cancelWhere (q := fun e => e.2 = address) (fun _ => rfl)
    (by simp [emscripten_atomic_cancel_all_wait_asyncs_at_address]) rfl

/-- A cancellation by the token `waitToken` takes the entry `-waitToken`, if any, out. -/
theorem Inv.cancel (hi : s.Inv) {waitToken : Int} (hc : s.TokenIsNumber waitToken) :
    (s.emscripten_atomic_cancel_wait_async waitToken).1.Inv := by
  have hpq : ByEntry (fun w => w.token = waitToken) fun e => e.1 = -waitToken := by
    intro w
    unfold AsyncWait.token AsyncWait.entry
    change decide (-w.number = waitToken) = decide (w.number = -waitToken)
    refine decide_eq_decide.mpr ⟨fun h => ?_, fun h => ?_⟩
    · omega
    · omega
  have hnone : ∀ n, s.table.lookup n = none → s.table = s.table.filter fun e => ! decide (e.1 = n) := by
    intro n hn
    refine (List.filter_eq_self.mpr ?_).symm
    rintro ⟨k, a⟩ he
    simp only [Bool.not_eq_true', decide_eq_false_iff_not]
    rintro rfl
    exact Assoc.lookup_eq_none.mp hn a he
  unfold emscripten_atomic_cancel_wait_async
  dsimp only
  split
  · next a ha =>
      obtain rfl : waitToken = 0 := hc.resolve_right (by simp [ha])
      exact hi.cancelWhere hpq (by simp [delete]) rfl
  · next hlookup =>
      refine hi.cancelWhere hpq (hnone _ ?_) rfl
      rcases hc with rfl | hc
      · exact hlookup
      · exact hc.2

/-! ### The handler of a promise -/

theorem set_around {α : Type} {l : List α} {i : Nat} {a : α} (h : l[i]? = some a) (b : α) :
    ∃ l₁ l₂, l = l₁ ++ a :: l₂ ∧ l.set i b = l₁ ++ b :: l₂ := by
  induction l generalizing i with
  | nil => cases h
  | cons x l ih =>
    cases i with
    | zero =>
      cases h
      exact ⟨[], l, rfl, rfl⟩
    | succ i =>
      obtain ⟨l₁, l₂, hl, hset⟩ := ih h
      refine ⟨x :: l₁, l₂, ?_, ?_⟩
      · rw [List.cons_append, ← hl]
      · rw [List.set_cons_succ, hset, List.cons_append]

/-- The handler of a wait that is not in the table. -/
theorem Inv.settle_gone (hi : s.Inv) (hw : s.waits[i]? = some w) (hpending : w.pending = true)
    (hlookup : s.table.lookup w.number = none) :
    Inv { s with waits := s.waits.set i { w with pending := false } } := by
  have hmem : w ∈ s.waits := List.mem_of_getElem? hw
  have hdead : w.live = false :=
    Bool.eq_false_iff.mpr fun hlive => hi.lookup_none hlookup hmem hlive rfl
  have hcancelled : w.cancelled = true := by simpa [AsyncWait.live, hpending] using hdead
  obtain ⟨l₁, l₂, hl, hset⟩ := set_around hw { w with pending := false }
  refine ⟨?_, ?_, ?_⟩
  · change s.table = _
    rw [hi.table]
    unfold liveWaits
    simp only [hset]
    rw [hl, List.filter_append, List.filter_append, List.filter_cons_of_neg (by simp [hdead]),
      List.filter_cons_of_neg (by simp [AsyncWait.live])]
  · change (pendingNumbers (s.waits.set i _)).Nodup
    have hdistinct := hi.distinct
    rw [hset]
    rw [hl] at hdistinct
    refine hdistinct.sublist ?_
    simp [pendingNumbers, hpending]
  · intro v hv
    rcases List.mem_or_eq_of_mem_set hv with hv | rfl
    · exact hi.called v hv
    · have hcalled := hi.called w hmem
      unfold AsyncWait.CalledOnce at hcalled ⊢
      simpa [hcancelled] using hcalled

/-- The handler of a live wait. -/
theorem Inv.settle_live (hi : s.Inv) (hw : s.waits[i]? = some w) (hlive : w.live = true) :
    Inv { s.delete w.number with
      runtimeKeepaliveCounter := s.runtimeKeepaliveCounter - 1
      waits := s.waits.set i { w with pending := false, calls := w.calls + 1 } } := by
  have hmem : w ∈ s.waits := List.mem_of_getElem? hw
  have hpending := pending_of_live hlive
  have hcancelled : w.cancelled = false := by simpa [AsyncWait.live, hpending] using hlive
  obtain ⟨l₁, l₂, hl, hset⟩ := set_around hw { w with pending := false, calls := w.calls + 1 }
  have hlives : s.liveWaits = l₁.filter AsyncWait.live ++ w :: l₂.filter AsyncWait.live := by
    unfold liveWaits
    rw [hl, List.filter_append, List.filter_cons_of_pos hlive]
  refine ⟨?_, ?_, ?_⟩
  · change s.table.filter (fun e => e.1 ≠ w.number) = _
    have hkeys := hi.keys
    rw [hi.table, hlives, List.map_append, List.map_cons] at hkeys ⊢
    refine (Assoc.filter_append (a := w.entry) hkeys).trans ?_
    unfold liveWaits
    simp only [hset]
    simp [List.filter_append, AsyncWait.live]
  · change (pendingNumbers (s.waits.set i _)).Nodup
    have hdistinct := hi.distinct
    rw [hset]
    rw [hl] at hdistinct
    refine hdistinct.sublist ?_
    simp [pendingNumbers, hpending]
  · intro v hv
    rcases List.mem_or_eq_of_mem_set hv with hv | rfl
    · exact hi.called v hv
    · have hcalled := hi.called w hmem
      unfold AsyncWait.CalledOnce at hcalled ⊢
      simpa [hcancelled, hpending] using hcalled

/-- The number of a pending wait is in the table for that wait only. -/
theorem Inv.live_of_lookup (hi : s.Inv) (hw : w ∈ s.waits) (hpending : w.pending = true) {a : Address}
    (h : s.table.lookup w.number = some a) : w.live = true := by
  obtain ⟨v, hv, hlive, hnumber⟩ := hi.lookup_iff.mp ⟨a, h⟩
  have hsame : v = w := List.inj_on_of_nodup_map hi.distinct
    (List.mem_filter.mpr ⟨hv, pending_of_live hlive⟩) (List.mem_filter.mpr ⟨hw, hpending⟩) hnumber
  exact hsame ▸ hlive

theorem Inv.settle (hi : s.Inv) (hs : s.settle i = some s') : s'.Inv := by
  unfold AsyncWaits.settle at hs
  split at hs
  · cases hs
  · next w hw =>
      split at hs
      · cases hs
      · next hpending =>
          have hpending : w.pending = true := not_not.mp hpending
          split at hs
          · next hlookup =>
              cases hs
              exact hi.settle_gone hw hpending hlookup
          · next a ha =>
              cases hs
              exact hi.settle_live hw (hi.live_of_lookup (List.mem_of_getElem? hw) hpending ha)

/-! ## Runs -/

theorem start_inv (k : Int) : (start k).Inv where
  table := rfl
  distinct := List.nodup_nil
  called _ hw := absurd hw List.not_mem_nil

theorem Inv.step {a : WaitAction} (hi : s.Inv) (hc : s.TokensFit a) (hs : s.step a = some s') :
    s'.Inv := by
  cases a with
  | wait addr async =>
    change (if addr = 0 then none else some (s.emscripten_atomic_wait_async addr async).1) = some s'
      at hs
    split at hs
    · cases hs
    · cases hs
      exact hi.wait hc
  | settle i => exact hi.settle hs
  | cancel waitToken =>
    cases hs
    exact hi.cancel hc
  | cancelAll =>
    cases hs
    exact hi.cancelAll
  | cancelAtAddress address =>
    cases hs
    exact hi.cancelAtAddress address

/-! ### The keep-alive counter -/

/-- The counter has one for every entry of the table. -/
def KeptAlive (k : Int) (s : AsyncWaits) : Prop := s.runtimeKeepaliveCounter = k + s.table.length

theorem length_delete (hi : s.Inv) {a : Address} (h : s.table.lookup n = some a) :
    (s.delete n).table.length + 1 = s.table.length := by
  obtain ⟨l₁, l₂, hl⟩ := List.append_of_mem (Assoc.mem_of_lookup h)
  have hkeys := hi.keys
  rw [hl] at hkeys
  change (s.table.filter fun e => e.1 ≠ n).length + 1 = s.table.length
  rw [hl, Assoc.filter_append (a := (n, a)) hkeys]
  simp
  omega

theorem KeptAlive.step {k : Int} {a : WaitAction} (h : KeptAlive k s) (hi : s.Inv)
    (hc : s.TokensFit a) (hn : s.CancelsNone a) (hs : s.step a = some s') : KeptAlive k s' := by
  unfold KeptAlive at h ⊢
  cases a with
  | wait addr async =>
    change (if addr = 0 then none else some (s.emscripten_atomic_wait_async addr async).1) = some s'
      at hs
    split at hs
    · cases hs
    · cases hs
      cases async with
      | error r => cases r <;> exact h
      | ok u =>
        have hnew : (s.emscripten_atomic_wait_async addr (.ok u)).1.Inv := hi.wait hc
        have htable := hnew.table
        have hlives : (s.emscripten_atomic_wait_async addr (.ok u)).1.liveWaits =
            s.liveWaits ++ [⟨s.counter, addr, true, false, 0⟩] := by
          simp [liveWaits, emscripten_atomic_wait_async, AsyncWait.live]
        rw [htable, hlives]
        rw [hi.table] at h
        simp only [List.length_map, List.length_append, List.length_singleton] at h ⊢
        change s.runtimeKeepaliveCounter + 1 = _
        omega
  | settle i =>
    change s.settle i = some s' at hs
    unfold AsyncWaits.settle at hs
    split at hs
    · cases hs
    · split at hs
      · cases hs
      · split at hs
        · cases hs
          exact h
        · next a ha =>
            cases hs
            have hlen := length_delete hi ha
            change s.runtimeKeepaliveCounter - 1 = k + (s.delete _).table.length
            omega
  | cancel waitToken =>
    cases hs
    unfold emscripten_atomic_cancel_wait_async
    dsimp only
    split
    · next a ha =>
        have hlen := length_delete hi ha
        change s.runtimeKeepaliveCounter - 1 = k + (s.delete _).table.length
        omega
    · exact h
  | cancelAll =>
    cases hs
    have hnone : s.table = [] := hn
    rw [hnone] at h
    exact h
  | cancelAtAddress address =>
    cases hs
    have hkeep : (s.table.filter fun e => e.2 ≠ address) = s.table :=
      List.filter_eq_self.mpr fun e he => decide_eq_true (hn e he)
    change s.runtimeKeepaliveCounter = k + (s.table.filter fun e => e.2 ≠ address).length
    rw [hkeep]
    exact h

/-- Two waits start, the second is cancelled by its token, and its promise settles. -/
def cancelSecond : List WaitAction :=
  [.wait 4 (.ok ()), .wait 8 (.ok ()), .cancel (-1), .settle 1]

end AsyncWaits

end Pthread
