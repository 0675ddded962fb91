-- SUMMARY: The shared list of linker events: threads that append to it and threads that replay it, in any interleaving.
import Mathlib.Data.List.Range
import Emscripten.Lib.Machine
import Emscripten.Dynlink.Calls

/-!
# Replaying the event list

Every thread keeps a pointer into the list, its `thread_local_tail`, and catches up with
the events behind it: a background thread in the loop of `_emscripten_dlsync_self`, the
main thread in `dlsync_next`, which goes on in a callback after each library.

An event is named by its place among the events that were ever made. A step of the model
has at most one access to what the threads share.
-/

namespace Dynlink

open Machine

/-! ## State -/

/-- How far a thread is in `new_dlevent`: the event is made, it is behind the last one,
it is the tail. -/
inductive Append
  | made
  | linked
  | moved
deriving DecidableEq, Repr

/-- Where `dlsync_next` is. -/
inductive Cursor
  /-- Before it reads what comes next behind the event. -/
  | behind (q : Nat)
  | at (p : Nat)
  /-- The library of the event loads. -/
  | loading (p : Nat)
deriving DecidableEq, Repr

/-- A synchronization under way. -/
inductive Replay (T : Type)
  /-- `_emscripten_dlsync_self`, before it reads the next event or while it processes it. -/
  | self (t : T) (p : Option Nat)
  | next (t : T) (c : Cursor)

def Replay.thread {T : Type} : Replay T → T
  | .self t _ => t
  | .next t _ => t

/-- Ghost: a synchronization that has told its caller that all is loaded. -/
structure Synced (T : Type) where
  thread : T
  /-- The event behind which nothing was found. -/
  observed : Nat
  /-- `tail` at that time, and whether an event was behind it already. -/
  tail : Nat
  appending : Bool
  /-- The thread's own tail then, and what it had processed. -/
  localTail : Nat
  processed : List Nat
deriving DecidableEq, Repr

structure EventList (T : Type) where
  /-- The events, from `main_event` on. -/
  events : List DlEvent
  next : Nat → Option Nat
  tail : Nat
  /-- `dso->event`. -/
  event : DsoId → Option Nat
  /-- The thread in `new_dlevent`, which has the write lock. -/
  writer : Option (T × Append)
  thread_local_tail : T → Nat
  replays : Nat → Option (Replay T)
  /-- Ghost: the events that a thread has processed, in their order. -/
  processed : T → List Nat
  /-- Ghost: latest first. -/
  synced : List (Synced T)

variable {T : Type} [DecidableEq T]

namespace EventList

def start : EventList T where
  events := [⟨none, some mainDso⟩]
  next := fun _ => none
  tail := 0
  event := fun _ => none
  writer := none
  thread_local_tail := fun _ => 0
  replays := fun _ => none
  processed := fun _ => []
  synced := []

/-- The thread is in the middle of `new_dlevent`. -/
def Writes (s : EventList T) (t : T) : Bool := s.writer.any fun w => w.1 = t

def process (s : EventList T) (t : T) (p : Nat) : EventList T :=
  { s with processed := Function.update s.processed t (s.processed t ++ [p]) }

def setTail (s : EventList T) (t : T) (p : Nat) : EventList T :=
  { s with thread_local_tail := Function.update s.thread_local_tail t p }

def setReplay (s : EventList T) (i : Nat) (r : Option (Replay T)) : EventList T :=
  { s with replays := Function.update s.replays i r }

/-- The synchronization is complete: behind `observed` there is nothing. -/
def finish (s : EventList T) (i : Nat) (t : T) (observed : Nat) : EventList T :=
  { s.setReplay i none with
    synced := ⟨t, observed, s.tail, s.writer.any fun w => w.2 = .linked,
      s.thread_local_tail t, s.processed t⟩ :: s.synced }

/-! ## Steps -/

/-- `new_dlevent` up to the links: the event is filled in and the library points to it. -/
def make (s : EventList T) (t : T) (e : DlEvent) : Option (EventList T) :=
  if s.writer.isSome then none
  else some { s with
    events := s.events ++ [e]
    event := match e.dso with
      | none => s.event
      | some d => Function.update s.event d (some s.events.length)
    writer := some (t, .made) }

/-- The event that is being appended. -/
def newest (s : EventList T) : Nat := s.events.length - 1

/-- `tail->next = ev`. -/
def link (s : EventList T) (t : T) : EventList T :=
  { s with next := Function.update s.next s.tail (some s.newest), writer := some (t, .linked) }

/-- `tail = ev`. -/
def moveTail (s : EventList T) (t : T) : EventList T :=
  { s with tail := s.newest, writer := some (t, .moved) }

/-- `thread_local_tail = ev`. The thread has done by itself what the event stands for. -/
def leave (s : EventList T) (t : T) : EventList T :=
  { (s.setTail t s.newest).process t s.newest with writer := none }

/-- The next step of `new_dlevent`. -/
def append (s : EventList T) : Option (EventList T) :=
  match s.writer with
  | none => none
  | some (t, .made) => some (s.link t)
  | some (t, .linked) => some (s.moveTail t)
  | some (t, .moved) => some (s.leave t)

/-- The beginning of `_emscripten_dlsync_self`. -/
def dlsync_self (s : EventList T) (i : Nat) (t : T) : Option (EventList T) :=
  if (s.replays i).isSome ∨ s.Writes t then none
  else if s.thread_local_tail t = s.tail then some (s.finish i t s.tail)
  else some (s.setReplay i (some (.self t none)))

/-- The test of its loop. -/
def dlsync_self_read (s : EventList T) (i : Nat) (t : T) : EventList T :=
  match s.next (s.thread_local_tail t) with
  | none => s.finish i t (s.thread_local_tail t)
  | some p => s.setReplay i (some (.self t (some p)))

/-- The body of its loop, which returns where the event fails. -/
def dlsync_self_process (s : EventList T) (i : Nat) (t : T) (p : Nat) (success : Bool) :
    EventList T :=
  if success then ((s.process t p).setTail t p).setReplay i (some (.self t none))
  else s.setReplay i none

/-- `_emscripten_dlsync_self_async`. -/
def dlsync_self_async (s : EventList T) (i : Nat) (t : T) : Option (EventList T) :=
  if (s.replays i).isSome ∨ s.Writes t then none
  else some (s.setReplay i (some (.next t (.behind (s.thread_local_tail t)))))

/-- `dlsync_next` behind the event `q`. -/
def dlsync_next_read (s : EventList T) (i : Nat) (t : T) (q : Nat) : EventList T :=
  match s.next q with
  | none => s.finish i t q
  | some p => s.setReplay i (some (.next t (.at p)))

/-- `dlsync_next` at an event: a symbol is processed, a library starts to load. -/
def dlsync_next_process (s : EventList T) (i : Nat) (t : T) (p : Nat) (success : Bool) :
    Option (EventList T) :=
  match s.events[p]? with
  | none => none
  | some e =>
    if e.sym_index = none then some (s.setReplay i (some (.next t (.loading p))))
    -- `sync_one_onerror` aborts.
    else if success then some ((s.process t p).setReplay i (some (.next t (.behind p))))
    else none

/-- `sync_one_onsuccess` for the library of `p`, or `sync_one_onerror`. -/
def sync_one (s : EventList T) (i : Nat) (t : T) (p : Nat) (success : Bool) :
    Option (EventList T) :=
  match s.events[p]?.bind fun e => e.dso.bind s.event with
  | none => none
  | some q =>
    if success then some (((s.process t p).setTail t q).setReplay i (some (.next t (.behind q))))
    else none

/-- A synchronization goes on, unless its thread is in `new_dlevent`. -/
def advance (s : EventList T) (i : Nat) (success : Bool) : Option (EventList T) :=
  match s.replays i with
  | none => none
  | some r =>
    if s.Writes r.thread then none
    else match r with
      | .self t none => some (s.dlsync_self_read i t)
      | .self t (some p) => some (s.dlsync_self_process i t p success)
      | .next t (.behind q) => some (s.dlsync_next_read i t q)
      | .next t (.at p) => s.dlsync_next_process i t p success
      | .next t (.loading p) => s.sync_one i t p success

end EventList

inductive ListAction (T : Type)
  | make (t : T) (e : DlEvent)
  | append
  | dlsync_self (i : Nat) (t : T)
  | dlsync_self_async (i : Nat)
  | advance (i : Nat) (success : Bool)

/-- Background threads synchronize at once, the main thread in its event loop. -/
def listStep (main : T) (s : EventList T) : ListAction T → Option (EventList T)
  | .make t e => s.make t e
  | .append => s.append
  | .dlsync_self i t => if t = main then none else s.dlsync_self i t
  | .dlsync_self_async i => s.dlsync_self_async i main
  | .advance i success => s.advance i success

/-! ## The condition on the steps -/

/-- No synchronization of the thread is under way. -/
def EventList.Idle (s : EventList T) (t : T) : Prop :=
  ∀ i r, s.replays i = some r → r.thread ≠ t

/-- A synchronization of the main thread does not come to its end behind a symbol that it
has just processed, and finds the event of a library that has loaded where it is. -/
def EventList.EndsAtLibrary (s : EventList T) (i : Nat) : Prop :=
  match s.replays i with
  | some (.next t (.behind q)) => s.thread_local_tail t = q ∨ s.next q ≠ none
  | some (.next _ (.loading p)) => (s.events[p]?.bind fun e => e.dso.bind s.event) = some p
  | _ => True

/-- A thread that appends has caught up with the list, a thread has one synchronization at
a time, and those of the main thread end at libraries. -/
def InStep (main : T) (s : EventList T) : ListAction T → Prop
  | .make t _ => s.thread_local_tail t = s.tail ∧ s.Idle t
  | .append => True
  | .dlsync_self _ t => s.Idle t
  | .dlsync_self_async _ => s.Idle main
  | .advance i _ => s.EndsAtLibrary i

/-! ## The invariant -/

/-- The events that are made but not linked, and those that are made but not the tail. -/
def unlinked : Option (T × Append) → Nat
  | some (_, .made) => 1
  | _ => 0

def untailed : Option (T × Append) → Nat
  | some (_, .made) => 1
  | some (_, .linked) => 1
  | _ => 0

namespace EventList

/-- The last event that can be reached. -/
def last (s : EventList T) : Nat := s.events.length - 1 - unlinked s.writer

/-- How many events the thread has processed. -/
def count (s : EventList T) (t : T) : Nat := (s.processed t).length

end EventList

/-- A synchronization of a thread with the local tail `l` that has processed `c` events. -/
def Replay.Fits (l c last : Nat) : Replay T → Prop
  | .self _ none => l = c
  | .self _ (some p) => l = c ∧ p = c + 1 ∧ p ≤ last
  | .next _ (.behind q) => q = c
  | .next _ (.at p) => p = c + 1 ∧ p ≤ last
  | .next _ (.loading p) => p = c + 1 ∧ p ≤ last

/-- At the end of the synchronization the thread had processed the whole list, and its
tail was the last event. An event that was linked but not the tail yet counts. -/
structure Synced.Complete (c : Synced T) : Prop where
  localTail : c.localTail = c.observed
  processed : c.processed = List.range' 1 c.observed
  tail : c.observed = c.tail ∨ c.observed = c.tail + 1 ∧ c.appending = true

variable {success : Bool} {p : Nat} {ps : List Nat} {r : Replay T} {l q : Nat}

namespace EventList

variable {s s' : EventList T} {t : T} {i : Nat}

structure Inv (s : EventList T) : Prop where
  made : unlinked s.writer + 1 ≤ s.events.length
  tail : s.tail + untailed s.writer + 1 = s.events.length
  next : ∀ k, s.next k = if k < s.last then some (k + 1) else none
  order : ∀ t, s.processed t = List.range' 1 (s.count t)
  bound : ∀ t, s.count t ≤ s.last
  idle : ∀ t, s.Idle t → s.thread_local_tail t = s.count t
  fits : ∀ i r, s.replays i = some r → r.Fits (s.thread_local_tail r.thread) (s.count r.thread) s.last
  one : ∀ i j r r', s.replays i = some r → s.replays j = some r' → r.thread = r'.thread → i = j
  writer : ∀ t a, s.writer = some (t, a) → s.Idle t ∧ s.thread_local_tail t + 2 = s.events.length
  synced : ∀ c ∈ s.synced, c.Complete

/-! ### One thread's own part -/

/-- What is wanted of the synchronizations and of the progress of a single thread. -/
structure Own (replays : Nat → Option (Replay T)) (t : T) (l : Nat) (ps : List Nat) (last : Nat) :
    Prop where
  fits : ∀ j r, replays j = some r → r.thread = t → r.Fits l ps.length last
  one : ∀ i j r r', replays i = some r → replays j = some r' → r.thread = t → r'.thread = t → i = j
  idle : (∀ j r, replays j = some r → r.thread ≠ t) → l = ps.length
  order : ps = List.range' 1 ps.length
  bound : ps.length ≤ last

/-- A thread that is not the writer goes on by itself. -/
theorem Inv.thread (hi : s.Inv) (t : T) {replays : Nat → Option (Replay T)} (hw : s.Writes t = false)
    (hothers : ∀ j r, r.thread ≠ t → (replays j = some r ↔ s.replays j = some r))
    (hown : Own replays t l ps s.last) :
    Inv { s with
      replays := replays
      thread_local_tail := Function.update s.thread_local_tail t l
      processed := Function.update s.processed t ps } := by
  have hlocal : ∀ u, u ≠ t → Function.update s.thread_local_tail t l u = s.thread_local_tail u :=
    fun u hu => Function.update_of_ne hu ..
  have hprocessed : ∀ u, u ≠ t → Function.update s.processed t ps u = s.processed u :=
    fun u hu => Function.update_of_ne hu ..
  refine ⟨hi.made, hi.tail, hi.next, ?_, ?_, ?_, ?_, ?_, ?_, hi.synced⟩
  · intro u
    unfold count
    rcases eq_or_ne u t with rfl | hu
    · simp only [Function.update_self]
      exact hown.order
    · simp only [hprocessed u hu]
      exact hi.order u
  · intro u
    unfold count
    rcases eq_or_ne u t with rfl | hu
    · simp only [Function.update_self]
      exact hown.bound
    · simp only [hprocessed u hu]
      exact hi.bound u
  · intro u hidle
    unfold count
    rcases eq_or_ne u t with rfl | hu
    · simp only [Function.update_self]
      exact hown.idle hidle
    · simp only [hprocessed u hu, hlocal u hu]
      refine hi.idle u fun j r hr hru => ?_
      exact hidle j r ((hothers j r (hru ▸ hu)).mpr hr) hru
  · intro j r hr
    unfold count
    rcases eq_or_ne r.thread t with ht | ht
    · simp only [ht, Function.update_self]
      exact hown.fits j r hr ht
    · simp only [hprocessed _ ht, hlocal _ ht]
      exact hi.fits j r ((hothers j r ht).mp hr)
  · intro j k r r' hr hr' hsame
    rcases eq_or_ne r.thread t with ht | ht
    · exact hown.one j k r r' hr hr' ht (hsame ▸ ht)
    · have ht' : r'.thread ≠ t := hsame ▸ ht
      exact hi.one j k r r' ((hothers j r ht).mp hr) ((hothers k r' ht').mp hr') hsame
  · intro u a hua
    have hu : u ≠ t := by
      rintro rfl
      rw [Writes, hua] at hw
      simp at hw
    obtain ⟨hidle, hlen⟩ := hi.writer u a hua
    refine ⟨fun j r hr hru => ?_, ?_⟩
    · exact hidle j r ((hothers j r (hru ▸ hu)).mp hr) hru
    · simp only [hlocal u hu]
      exact hlen

/-- The slot `i` is free for the thread: no other synchronization is in it, and none of the
thread is elsewhere. -/
structure Slot (s : EventList T) (i : Nat) (t : T) : Prop where
  mine : ∀ j r, s.replays j = some r → r.thread = t → j = i
  only : ∀ r, s.replays i = some r → r.thread = t

omit [DecidableEq T] in
theorem Idle.slot (h : s.Idle t) (hi : s.replays i = none) : s.Slot i t where
  mine j r hr ht := absurd ht (h j r hr)
  only r hr := by
    rw [hi] at hr
    cases hr

omit [DecidableEq T] in
theorem Inv.slot (hi : s.Inv) (hr : s.replays i = some r) : s.Slot i r.thread where
  mine j r' hr' ht := hi.one j i r' r hr' hr ht
  only r' hr' := by
    rw [hr] at hr'
    cases hr'
    rfl

/-- A step of one synchronization: `r` is what becomes of it, and the thread has the tail
`l` and has processed `ps` then. -/
theorem Inv.advance (hi : s.Inv) (hw : s.Writes t = false) (hslot : s.Slot i t) {r : Option (Replay T)}
    (hr : ∀ r', r = some r' → r'.thread = t) (hfits : match r with
      | none => l = ps.length
      | some r' => r'.Fits l ps.length s.last) (horder : ps = List.range' 1 ps.length)
    (hbound : ps.length ≤ s.last) :
    Inv { s with
      replays := Function.update s.replays i r
      thread_local_tail := Function.update s.thread_local_tail t l
      processed := Function.update s.processed t ps } := by
  have hnew : ∀ j r', Function.update s.replays i r j = some r' → r'.thread = t →
      j = i ∧ r = some r' := by
    intro j r' hj ht
    rcases eq_or_ne j i with rfl | hji
    · exact ⟨rfl, by rwa [Function.update_self] at hj⟩
    · rw [Function.update_of_ne hji] at hj
      exact absurd (hslot.mine j r' hj ht) hji
  refine hi.thread t hw ?_ ⟨?_, ?_, ?_, horder, hbound⟩
  · intro j r' ht
    rcases eq_or_ne j i with rfl | hji
    · rw [Function.update_self]
      exact ⟨fun h => absurd (hr r' h) ht, fun h => absurd (hslot.only r' h) ht⟩
    · rw [Function.update_of_ne hji]
  · intro j r' hj ht
    obtain ⟨-, rfl⟩ := hnew j r' hj ht
    exact hfits
  · intro j k r₁ r₂ hj hk h₁ h₂
    exact (hnew j r₁ hj h₁).1.trans (hnew k r₂ hk h₂).1.symm
  · intro hnone
    cases r with
    | none => exact hfits
    | some r' => exact absurd (hr r' rfl) (hnone i r' (Function.update_self ..))

theorem Inv.setReplay (hi : s.Inv) (hw : s.Writes t = false) (hslot : s.Slot i t)
    {r : Option (Replay T)} (hr : ∀ r', r = some r' → r'.thread = t)
    (hfits : match r with
      | none => s.thread_local_tail t = s.count t
      | some r' => r'.Fits (s.thread_local_tail t) (s.count t) s.last) :
    Inv (s.setReplay i r) := by
  have h := hi.advance hw hslot hr hfits (hi.order t) (hi.bound t)
  rwa [Function.update_eq_self, Function.update_eq_self] at h

theorem range'_succ (h : ps = List.range' 1 ps.length) (hp : p = ps.length + 1) :
    ps ++ [p] = List.range' 1 (ps ++ [p]).length := by
  rw [List.length_append, List.length_singleton, List.range'_1_concat, ← h, hp, Nat.add_comm]

/-- The thread processes the next event, and its tail becomes `l`. -/
theorem Inv.process (hi : s.Inv) (hw : s.Writes t = false) (hslot : s.Slot i t) (hr : r.thread = t)
    (hp : p = s.count t + 1) (hlast : p ≤ s.last) (hfits : r.Fits l p s.last) :
    Inv { s with
      replays := Function.update s.replays i (some r)
      thread_local_tail := Function.update s.thread_local_tail t l
      processed := Function.update s.processed t (s.processed t ++ [p]) } := by
  have hlen : (s.processed t ++ [p]).length = p := by
    rw [List.length_append, List.length_singleton]
    exact hp.symm
  refine hi.advance hw hslot (fun r' h => by cases h; exact hr) ?_ (range'_succ (hi.order t) hp) ?_
  · change r.Fits l _ s.last
    rwa [hlen]
  · rwa [hlen]

/-! ### Steps of the synchronizations -/

omit [DecidableEq T] in
/-- Behind the last event there is nothing, and only an append that is not over tells the
last event from the tail. -/
theorem Inv.last_eq (hi : s.Inv) :
    s.last = s.tail ∨ s.last = s.tail + 1 ∧ (s.writer.any fun w => w.2 = .linked) = true := by
  have htail := hi.tail
  unfold last
  cases hw : s.writer with
  | none =>
    rw [hw] at htail
    simp only [untailed, unlinked] at htail ⊢
    omega
  | some w =>
    obtain ⟨u, a⟩ := w
    rw [hw] at htail
    cases a <;> simp [untailed, unlinked] at htail ⊢ <;> omega

theorem Inv.finish (hi : s.Inv) (hw : s.Writes t = false) (hslot : s.Slot i t)
    (hlocal : s.thread_local_tail t = s.count t) (hq : q = s.thread_local_tail t)
    (hend : q = s.tail ∨ s.next q = none) : Inv (s.finish i t q) := by
  have h := hi.setReplay (r := none) hw hslot (by simp) hlocal
  refine ⟨h.made, h.tail, h.next, h.order, h.bound, h.idle, h.fits, h.one, h.writer, ?_⟩
  intro c hc
  rcases List.mem_cons.mp hc with rfl | hc
  · refine ⟨hq.symm, ?_, ?_⟩
    · rw [hq, hlocal]
      exact hi.order t
    · rcases hend with hend | hend
      · exact .inl hend
      · have hlast : q = s.last := by
          have hbound := hi.bound t
          rw [hi.next q] at hend
          split at hend
          · cases hend
          · omega
        exact hlast ▸ hi.last_eq
  · exact hi.synced c hc

theorem Inv.dlsync_self (hi : s.Inv) (hidle : s.Idle t) (hs : s.dlsync_self i t = some s') :
    s'.Inv := by
  unfold EventList.dlsync_self at hs
  split at hs
  · cases hs
  · next hfree =>
      obtain ⟨hnone, hw⟩ := not_or.mp hfree
      rw [Option.not_isSome_iff_eq_none] at hnone
      have hw : s.Writes t = false := Bool.eq_false_iff.mpr hw
      have hlocal := hi.idle t hidle
      split at hs
      · next htail =>
          cases hs
          exact hi.finish hw (hidle.slot hnone) hlocal htail.symm (.inl rfl)
      · cases hs
        refine hi.setReplay hw (hidle.slot hnone) ?_ hlocal
        rintro _ ⟨⟩
        rfl

theorem Inv.dlsync_self_async (hi : s.Inv) (hidle : s.Idle t)
    (hs : s.dlsync_self_async i t = some s') : s'.Inv := by
  unfold EventList.dlsync_self_async at hs
  split at hs
  · cases hs
  · next hfree =>
      obtain ⟨hnone, hw⟩ := not_or.mp hfree
      rw [Option.not_isSome_iff_eq_none] at hnone
      have hw : s.Writes t = false := Bool.eq_false_iff.mpr hw
      cases hs
      refine hi.setReplay hw (hidle.slot hnone) ?_ (hi.idle t hidle)
      rintro _ ⟨⟩
      rfl

omit [DecidableEq T] in
theorem Inv.next_some (hi : s.Inv) (h : s.next q = some p) : p = q + 1 ∧ p ≤ s.last := by
  rw [hi.next q] at h
  split at h
  · cases h
    exact ⟨rfl, by omega⟩
  · cases h

theorem Inv.dlsync_self_read (hi : s.Inv) (hr : s.replays i = some (.self t none))
    (hw : s.Writes t = false) : (s.dlsync_self_read i t).Inv := by
  have hslot : s.Slot i t := hi.slot hr
  have hlocal : s.thread_local_tail t = s.count t := hi.fits i _ hr
  unfold EventList.dlsync_self_read
  split
  · next hend => exact hi.finish hw hslot hlocal rfl (.inr hend)
  · next p hnext =>
      obtain ⟨hp, hlast⟩ := hi.next_some hnext
      refine hi.setReplay (r := some (.self t (some p))) hw hslot (by rintro _ ⟨⟩; rfl) ?_
      exact ⟨hlocal, by rw [hp, hlocal], hlast⟩

theorem Inv.dlsync_self_process (hi : s.Inv) (hr : s.replays i = some (.self t (some p)))
    (hw : s.Writes t = false) : (s.dlsync_self_process i t p success).Inv := by
  have hslot : s.Slot i t := hi.slot hr
  obtain ⟨hlocal, hp, hlast⟩ := hi.fits i _ hr
  cases success with
  | true => exact hi.process (r := .self t none) hw hslot rfl hp hlast rfl
  | false => exact hi.setReplay (r := none) hw hslot (by simp) hlocal

theorem Inv.dlsync_next_read (hi : s.Inv) (hr : s.replays i = some (.next t (.behind q)))
    (hw : s.Writes t = false) (hc : s.thread_local_tail t = q ∨ s.next q ≠ none) :
    (s.dlsync_next_read i t q).Inv := by
  have hslot : s.Slot i t := hi.slot hr
  have hq : q = s.count t := hi.fits i _ hr
  unfold EventList.dlsync_next_read
  split
  · next hend =>
      have hlocal : s.thread_local_tail t = q := hc.resolve_right fun h => h hend
      exact hi.finish hw hslot (hlocal.trans hq) hlocal.symm (.inr hend)
  · next p hnext =>
      obtain ⟨hp, hlast⟩ := hi.next_some hnext
      refine hi.setReplay (r := some (.next t (.at p))) hw hslot (by rintro _ ⟨⟩; rfl) ?_
      exact ⟨by rw [hp, hq], hlast⟩

theorem Inv.dlsync_next_process (hi : s.Inv) (hr : s.replays i = some (.next t (.at p)))
    (hw : s.Writes t = false) (hs : s.dlsync_next_process i t p success = some s') : s'.Inv := by
  have hslot : s.Slot i t := hi.slot hr
  obtain ⟨hp, hlast⟩ := hi.fits i _ hr
  unfold EventList.dlsync_next_process at hs
  split at hs
  · cases hs
  · split at hs
    · cases hs
      exact hi.setReplay (r := some (.next t (.loading p))) hw hslot (by rintro _ ⟨⟩; rfl) ⟨hp, hlast⟩
    · split at hs
      · cases hs
        have h := hi.process (r := .next t (.behind p)) (l := s.thread_local_tail t)
          hw hslot rfl hp hlast rfl
        rwa [Function.update_eq_self] at h
      · cases hs

theorem Inv.sync_one (hi : s.Inv) (hr : s.replays i = some (.next t (.loading p))) (hw : s.Writes t = false)
    (hc : (s.events[p]?.bind fun e => e.dso.bind s.event) = some p) (hs : s.sync_one i t p success = some s') :
    s'.Inv := by
  have hslot : s.Slot i t := hi.slot hr
  obtain ⟨hp, hlast⟩ := hi.fits i _ hr
  unfold EventList.sync_one at hs
  rw [hc] at hs
  dsimp only at hs
  split at hs
  · cases hs
    exact hi.process (r := .next t (.behind p)) hw hslot rfl hp hlast rfl
  · cases hs

theorem Inv.step_advance (hi : s.Inv) (hc : s.EndsAtLibrary i) (hs : s.advance i success = some s') :
    s'.Inv := by
  unfold EventList.advance at hs
  split at hs
  · cases hs
  · next r hr =>
      unfold EndsAtLibrary at hc
      rw [hr] at hc
      split at hs
      · cases hs
      · next hw =>
          have hw : s.Writes r.thread = false := Bool.eq_false_iff.mpr hw
          split at hs
          · cases hs
            exact hi.dlsync_self_read hr hw
          · cases hs
            exact hi.dlsync_self_process hr hw
          · cases hs
            exact hi.dlsync_next_read hr hw hc
          · exact hi.dlsync_next_process hr hw hs
          · exact hi.sync_one hr hw hc hs

/-! ### Steps of the writer -/

omit [DecidableEq T] in
theorem fits_mono {c m n : Nat} (h : r.Fits l c m) (hmn : m ≤ n) : r.Fits l c n := by
  cases r with
  | self t p =>
    cases p with
    | none => exact h
    | some p => exact ⟨h.1, h.2.1, h.2.2.trans hmn⟩
  | next t c =>
    cases c with
    | behind q => exact h
    | «at» p => exact ⟨h.1, h.2.trans hmn⟩
    | loading p => exact ⟨h.1, h.2.trans hmn⟩

omit [DecidableEq T] in
/-- The list changes, and no thread reads or processes anything. -/
theorem Inv.relist (hi : s.Inv) (hlist : s' = { s with
      events := s'.events, next := s'.next, tail := s'.tail, event := s'.event, writer := s'.writer })
    (hlast : s.last ≤ s'.last) (hmade : unlinked s'.writer + 1 ≤ s'.events.length)
    (htail : s'.tail + untailed s'.writer + 1 = s'.events.length)
    (hnext : ∀ k, s'.next k = if k < s'.last then some (k + 1) else none)
    (hwriter : ∀ t a, s'.writer = some (t, a) →
      s.Idle t ∧ s.thread_local_tail t + 2 = s'.events.length) : s'.Inv := by
  have hprocessed : s'.processed = s.processed := by rw [hlist]
  have hlocal : s'.thread_local_tail = s.thread_local_tail := by rw [hlist]
  have hreplays : s'.replays = s.replays := by rw [hlist]
  have hcount : ∀ t, s'.count t = s.count t := fun t => congrArg (fun f => (f t).length) hprocessed
  refine ⟨hmade, htail, hnext, ?_, ?_, ?_, ?_, ?_, ?_, ?_⟩
  · intro t
    rw [hcount, hprocessed]
    exact hi.order t
  · intro t
    rw [hcount]
    exact (hi.bound t).trans hlast
  · intro t hidle
    rw [hcount, hlocal]
    exact hi.idle t fun j r hr => hidle j r (hreplays ▸ hr)
  · intro j r hr
    rw [hcount, hlocal]
    exact fits_mono (hi.fits j r (hreplays ▸ hr)) hlast
  · intro j k r r' hr hr'
    exact hi.one j k r r' (hreplays ▸ hr) (hreplays ▸ hr')
  · intro t a hta
    obtain ⟨hidle, hlen⟩ := hwriter t a hta
    exact ⟨fun j r hr => hidle j r (hreplays ▸ hr), hlocal ▸ hlen⟩
  · intro c hc
    exact hi.synced c (by rw [hlist] at hc; exact hc)

omit [DecidableEq T] in
theorem Inv.make {e : DlEvent} (hi : s.Inv) (hlocal : s.thread_local_tail t = s.tail)
    (hidle : s.Idle t) (hs : s.make t e = some s') : s'.Inv := by
  unfold EventList.make at hs
  split at hs
  · cases hs
  · next hw =>
      rw [Option.not_isSome_iff_eq_none] at hw
      have htail := hi.tail
      rw [hw] at htail
      simp only [untailed] at htail
      have hlast : s'.last = s.last := by
        cases hs
        simp [last, hw, unlinked]
      have hnext := hi.next
      rw [← hlast] at hnext
      cases hs
      refine hi.relist rfl hlast.ge ?_ ?_ hnext ?_
      · simp [unlinked]
        omega
      · simp [untailed]
        omega
      · rintro u a ⟨⟩
        refine ⟨hidle, ?_⟩
        simp
        omega

omit [DecidableEq T] in
theorem Inv.link (hi : s.Inv) (hw : s.writer = some (t, .made)) : (s.link t).Inv := by
  obtain ⟨hidle, hlen⟩ := hi.writer t _ hw
  have htail := hi.tail
  rw [hw] at htail
  simp only [untailed] at htail
  have hlast : s.last = s.tail := by
    simp [last, hw, unlinked]
    omega
  have hlast' : (s.link t).last = s.tail + 1 := by
    simp [last, unlinked, EventList.link]
    omega
  refine hi.relist rfl (by omega) ?_ ?_ ?_ ?_
  · simp [unlinked, EventList.link]
    omega
  · simp [untailed, EventList.link]
    omega
  · intro k
    rw [hlast']
    change Function.update s.next s.tail (some s.newest) k = _
    rcases eq_or_ne k s.tail with rfl | hk
    · have hnewest : s.newest = s.tail + 1 := by
        unfold newest
        omega
      rw [Function.update_self, if_pos (by omega), hnewest]
    · rw [Function.update_of_ne hk, hi.next k, hlast]
      rcases Nat.lt_or_gt_of_ne hk with hlt | hgt
      · rw [if_pos hlt, if_pos (by omega)]
      · rw [if_neg (by omega), if_neg (by omega)]
  · rintro u a ⟨⟩
    exact ⟨hidle, hlen⟩

omit [DecidableEq T] in
theorem Inv.moveTail (hi : s.Inv) (hw : s.writer = some (t, .linked)) : (s.moveTail t).Inv := by
  obtain ⟨hidle, hlen⟩ := hi.writer t _ hw
  have hlast : (s.moveTail t).last = s.last := by simp [last, hw, unlinked, EventList.moveTail]
  have hnext := hi.next
  rw [← hlast] at hnext
  refine hi.relist rfl hlast.ge ?_ ?_ hnext ?_
  · simp [unlinked, EventList.moveTail]
    omega
  · simp [untailed, EventList.moveTail, newest]
    omega
  · rintro u a ⟨⟩
    exact ⟨hidle, hlen⟩

/-- The writer had caught up with the list, so that its own event is the next one. -/
theorem Inv.leave (hi : s.Inv) (hw : s.writer = some (t, .moved)) : (s.leave t).Inv := by
  obtain ⟨hidle, hlen⟩ := hi.writer t _ hw
  have htail := hi.tail
  rw [hw] at htail
  simp only [untailed] at htail
  have hlast : EventList.last { s with writer := none } = s.last := by simp [last, hw, unlinked]
  have hdone : Inv { s with writer := none } := by
    have hnext := hi.next
    rw [← hlast] at hnext
    refine hi.relist rfl hlast.ge ?_ htail hnext ?_
    · simp [unlinked]
      omega
    · rintro u a ⟨⟩
  have hp : s.newest = s.count t + 1 := by
    have hlocal := hi.idle t hidle
    unfold newest
    omega
  have hlength : (s.processed t ++ [s.newest]).length = s.newest := by
    rw [List.length_append, List.length_singleton]
    exact hp.symm
  have hbound : s.newest ≤ s.last := by simp [last, hw, unlinked, newest]
  refine hdone.thread (l := s.newest) t rfl (fun _ _ _ => Iff.rfl) ⟨?_, ?_, ?_, ?_, ?_⟩
  · exact fun j r hr ht => absurd ht (hidle j r hr)
  · exact fun j k r r' hr _ ht => absurd ht (hidle j r hr)
  · exact fun _ => hlength.symm
  · exact range'_succ (hi.order t) hp
  · change (s.processed t ++ [s.newest]).length ≤ _
    rw [hlength, hlast]
    exact hbound

theorem Inv.append (hi : s.Inv) (hs : s.append = some s') : s'.Inv := by
  unfold EventList.append at hs
  split at hs
  · cases hs
  · next t hw =>
      cases hs
      exact hi.link hw
  · next t hw =>
      cases hs
      exact hi.moveTail hw
  · next t hw =>
      cases hs
      exact hi.leave hw

/-! ## Runs -/

omit [DecidableEq T] in
theorem start_inv : (start : EventList T).Inv where
  made := Nat.le_refl 1
  tail := rfl
  next _ := rfl
  order _ := rfl
  bound _ := Nat.le_refl 0
  idle _ _ := rfl
  fits _ _ h := by cases h
  one _ _ _ _ h := by cases h
  writer _ _ h := by cases h
  synced _ h := absurd h List.not_mem_nil

theorem Inv.step {main : T} {a : ListAction T} (hi : s.Inv) (hc : InStep main s a)
    (hs : listStep main s a = some s') : s'.Inv := by
  cases a with
  | make t e => exact hi.make hc.1 hc.2 hs
  | append => exact hi.append hs
  | dlsync_self i t =>
    change (if t = main then none else s.dlsync_self i t) = some s' at hs
    split at hs
    · cases hs
    · exact hi.dlsync_self hc hs
  | dlsync_self_async i => exact hi.dlsync_self_async hc hs
  | advance i success => exact hi.step_advance hc hs

end EventList

/-- In a run in which the appending threads have caught up, a thread synchronizes once at
a time and the main thread's synchronizations end at libraries, every thread has processed
a first part of the list, each event once and in order, and a synchronization that is
complete has left the thread with all of the list behind it. -/
theorem replays_in_order {main : T} {s : EventList T}
    (h : Reaches (listStep main) (InStep main) EventList.start s) :
    (∀ t, s.processed t = List.range' 1 (s.processed t).length ∧
      (s.processed t).length < s.events.length) ∧ ∀ c ∈ s.synced, c.Complete := by
  have hi : s.Inv := h.invariant EventList.start_inv fun _ _ _ hi hc hs => hi.step hc hs
  refine ⟨fun t => ⟨hi.order t, ?_⟩, hi.synced⟩
  have hbound := hi.bound t
  have hmade := hi.made
  unfold EventList.last EventList.count at hbound
  omega

/-! ### Runs of two threads -/

/-- The main thread, and one that appends. -/
def mainThread : Bool := true
def worker : Bool := false

/-- The worker opens a library, and the main thread loads it. -/
theorem replays_in_order_library : ∃ s : EventList Bool, s.processed mainThread = [1] ∧
    (∀ t, s.processed t = List.range' 1 (s.processed t).length ∧
      (s.processed t).length < s.events.length) ∧ ∀ c ∈ s.synced, c.Complete := by
  have hidle : EventList.Idle (EventList.start : EventList Bool) worker := fun _ _ h => by cases h
  have hinit : Reaches (listStep mainThread) (InStep mainThread) (EventList.start : EventList Bool)
      EventList.start := .init
  have hmade := hinit.next (.make worker ⟨none, some 1⟩) ⟨rfl, hidle⟩ rfl
  have happended := ((hmade.next .append trivial rfl).next .append trivial rfl).next
    .append trivial rfl
  have hbegun := happended.next (.dlsync_self_async 0) (fun _ _ h => by cases h) rfl
  have hat := hbegun.next (.advance 0 true) (.inl rfl) rfl
  have hloading := hat.next (.advance 0 true) trivial rfl
  have hloaded := hloading.next (.advance 0 true) rfl rfl
  have hdone := hloaded.next (.advance 0 true) (.inl rfl) rfl
  exact ⟨_, rfl, replays_in_order hdone⟩

/-- The worker looks up a symbol, and the main thread synchronizes twice. -/
def symbolTwice : List (ListAction Bool) :=
  [.make worker ⟨some 0, none⟩, .append, .append, .append,
    .dlsync_self_async 0, .advance 0 true, .advance 0 true, .advance 0 true,
    .dlsync_self_async 0, .advance 0 true, .advance 0 true, .advance 0 true]

/-- The main thread's tail stays in front of a symbol at the end of the list, so that the
next synchronization processes the symbol again. -/
theorem dlsync_next_repeats_symbol : ¬ ∀ s : EventList Bool,
    Reaches (listStep mainThread) Any EventList.start s →
      (∀ t, s.processed t = List.range' 1 (s.processed t).length ∧
        (s.processed t).length < s.events.length) ∧ ∀ c ∈ s.synced, c.Complete := by
  obtain ⟨s, hs, hobs⟩ : ∃ s, Reaches (listStep mainThread) Any EventList.start s ∧
      s.processed mainThread = [1, 1] := reaches_of_map symbolTwice rfl
  intro h
  have horder := ((h s hs).1 mainThread).1
  rw [hobs] at horder
  cases horder

end Dynlink
