-- SUMMARY: The write lock of the dynamic linker over any sequence of calls and completions of asynchronous loads.
import Emscripten.Lib.Machine
import Emscripten.Dynlink.Calls

/-!
# The write lock between calls

Calls come one after another from any threads, and asynchronous loads complete in any
order. A call that finds the lock taken waits in it. The callbacks of a load run on the
thread that started it, when that thread is back in its event loop.
-/

namespace Dynlink

open Prog Machine

variable {T : Type} [DecidableEq T] {s s' : Linker T} {t : T} {env : Env}

/-! ## Steps -/

def Call.exec (t : T) (env : Env) : Call → Code T Unit
  | .dlopen file flags => do let _ ← Dynlink.dlopen t env file flags
  | .emscripten_dlopen file flags => do let _ ← Dynlink.emscripten_dlopen t env file flags
  | .dlsym p => do let _ ← Dynlink.dlsym t env p

/-- Whether the call comes to `do_write_lock`. -/
def Linker.locks (s : Linker T) : Call → Bool
  | .dlopen file _ => file.isSome
  | .emscripten_dlopen file _ => file.isSome
  | .dlsym p => ! s.refuses p

inductive Action (T : Type)
  | call (t : T) (c : Call) (env : Env)
  /-- The call that waits in the thread gets the lock. -/
  | resume (t : T) (env : Env)
  | complete (i : Nat) (success : Bool) (env : Env)
  /-- The tables of libraries change otherwise: a thread starts, or ends. -/
  | libraries (loadedLibs : T → DsoId → Bool)

/-- The state after a call, whether it has returned or thrown. -/
def Linker.run (s : Linker T) (m : Code T Unit) : Option (Linker T) := (m s).map Prod.fst

def Load.callback (l : Load T) (success : Bool) (env : Env) : Code T Unit :=
  if success then do let _ ← dlopen_onsuccess l.thread env l.dso
  else do let _ ← (dlopen_onerror : Code T Report)

namespace Linker

/-- A thread makes a call. -/
def call (s : Linker T) (t : T) (c : Call) (env : Env) : Option (Linker T) :=
  if (s.waiting t).isSome then none
  else if s.locks c ∧ s.write_lock then
    some { s with waiting := Function.update s.waiting t (some c) }
  else s.run (c.exec t env)

def resume (s : Linker T) (t : T) (env : Env) : Option (Linker T) :=
  match s.waiting t with
  | none => none
  | some c =>
    if s.write_lock then none
    else run { s with waiting := Function.update s.waiting t none } (c.exec t env)

def complete (s : Linker T) (i : Nat) (success : Bool) (env : Env) : Option (Linker T) :=
  match s.loads[i]? with
  | none => none
  | some l =>
    if (s.waiting l.thread).isSome then none
    else run { s with loads := s.loads.eraseIdx i } (l.callback success env)

end Linker

def step (s : Linker T) : Action T → Option (Linker T)
  | .call t c env => s.call t c env
  | .resume t env => s.resume t env
  | .complete i success env => s.complete i success env
  | .libraries loadedLibs => some { s with loadedLibs := loadedLibs }

/-! ## The condition on the calls -/

/-- The call leaves no lock behind on its own: it is no `emscripten_dlopen` of a library
that is open, and no `dlsym` of one that the thread does not have. -/
def Linker.Returns (s : Linker T) (t : T) (env : Env) : Call → Prop
  | .dlopen _ _ => True
  | .emscripten_dlopen none _ => True
  | .emscripten_dlopen (some file) _ => s.find_existing (env.find_dylib file) = none
  | .dlsym p => s.refuses p ∨ s.knows t p.resolve

/-- The condition on a call at the time it runs. -/
def CallsReturn (s : Linker T) : Action T → Prop
  | .call t c env => s.locks c ∧ s.write_lock ∨ s.Returns t env c
  | .resume t env => ∀ c, s.waiting t = some c → s.Returns t env c
  | _ => True

/-- A thread that has an asynchronous load under way makes no call that needs the lock. -/
def KeepsEventLoop (s : Linker T) : Action T → Prop
  | .call t c _ => s.locks c → ∀ l ∈ s.loads, l.thread ≠ t
  | _ => True

/-! ## What a call does to the lock -/

/-- The lock stands for the loads under way. -/
structure Linker.Locked (s : Linker T) : Prop where
  iff : s.write_lock = true ↔ s.loads ≠ []
  once : s.loads.length ≤ 1
  stray : s.strayReleases = 0

/-- No load is under way. Inside a call the lock is held, outside it is not. -/
structure Linker.Quiet (held : Bool) (waiting : T → Option Call) (s : Linker T) : Prop where
  lock : s.write_lock = held
  loads : s.loads = []
  stray : s.strayReleases = 0
  waiting : s.waiting = waiting

/-- The load that `emscripten_dlopen` has just started has the lock. -/
structure Linker.Started (t : T) (waiting : T → Option Call) (s : Linker T) : Prop where
  lock : s.write_lock = true
  loads : ∃ p, s.loads = [⟨t, p⟩]
  stray : s.strayReleases = 0
  waiting : s.waiting = waiting

section

variable {held : Bool} {w : T → Option Call}

omit [DecidableEq T]

theorem Linker.Quiet.locked (h : s.Quiet false w) : s.Locked where
  iff := by simp [h.lock, h.loads]
  once := by simp [h.loads]
  stray := h.stray

theorem Linker.Started.locked (h : s.Started t w) : s.Locked := by
  obtain ⟨p, hp⟩ := h.loads
  exact ⟨by simp [h.lock, hp], by simp [hp], h.stray⟩

theorem Linker.Locked.quiet (h : s.Locked) (hlock : s.write_lock = false) :
    s.Quiet false s.waiting where
  lock := hlock
  loads := by
    by_contra hloads
    have hlocked := h.iff.mpr hloads
    rw [hlock] at hlocked
    cases hlocked
  stray := h.stray
  waiting := rfl

/-- The lock is held by one load. -/
theorem Linker.Locked.load (h : s.Locked) {i : Nat} {l : Load T} (hl : s.loads[i]? = some l) :
    s.loads = [l] ∧ i = 0 := by
  have honce := h.once
  cases hloads : s.loads with
  | nil =>
    rw [hloads] at hl
    cases hl
  | cons l₀ rest =>
    rw [hloads] at hl honce
    cases rest with
    | cons l₁ rest => simp at honce
    | nil =>
      cases i with
      | zero =>
        cases hl
        exact ⟨rfl, rfl⟩
      | succ i => cases hl

end

/-! ### The parts of the calls

None of them throws, so that the postcondition `E` of an exception is arbitrary. -/

section

variable {held : Bool} {w : T → Option Call} {E : Thrown → Linker T → Prop}

section

omit [DecidableEq T]

theorem lock_spec :
    Triple (Linker.Quiet false w) (do_write_lock : Code T Unit) (fun _ => Linker.Quiet true w) E :=
  Triple.modify.weaken fun _ h => ⟨rfl, h.loads, h.stray, h.waiting⟩

theorem unlock_spec : Triple (Linker.Quiet true w) (do_write_unlock : Code T Unit)
    (fun _ => Linker.Quiet false w) E := by
  refine Triple.modify.weaken fun s h => ⟨rfl, h.loads, ?_, h.waiting⟩
  rw [if_pos h.lock]
  exact h.stray

theorem new_dlevent_spec (p : Option DsoId) (i : Option Nat) :
    Triple (Linker.Quiet held w) (new_dlevent env p i) (fun _ => Linker.Quiet held w) E :=
  .ite (fun _ => Triple.modify.weaken fun _ h => ⟨h.lock, h.loads, h.stray, h.waiting⟩)
    fun _ => .crash

theorem dlsync_threads_spec :
    Triple (Linker.Quiet held w) dlsync_threads (fun _ => Linker.Quiet held w) E :=
  Triple.modify.weaken fun _ h => ⟨h.lock, h.loads, h.stray, h.waiting⟩

theorem load_library_done_spec (p : DsoId) :
    Triple (Linker.Quiet held w) (load_library_done env p) (fun _ => Linker.Quiet held w) E :=
  (new_dlevent_spec _ _).bind fun _ => dlsync_threads_spec

theorem load_library_start_spec (name : Name) (flags : Nat) :
    Triple (Linker.Quiet held w) (load_library_start env name flags)
      (fun _ => Linker.Quiet held w) E := by
  refine .ite (fun _ => .skip) fun _ => .ite (fun _ => ?_) fun _ => .crash
  refine Triple.bind (Q := fun _ => Linker.Quiet held w) (Triple.gets.weaken fun _ h => h) fun p => ?_
  refine Triple.bind (Q := fun _ => Linker.Quiet held w) ?_ fun _ => .skip
  exact Triple.modify.weaken fun _ h => ⟨h.lock, h.loads, h.stray, h.waiting⟩

end

theorem loaded_spec (p : DsoId) :
    Triple (Linker.Quiet held w) (loaded t p) (fun _ => Linker.Quiet held w) E :=
  Triple.modify.weaken fun _ h => ⟨h.lock, h.loads, h.stray, h.waiting⟩

theorem openLibrary_spec (file : Name) (flags : Nat) :
    Triple (Linker.Quiet held w) (openLibrary t env file flags)
      (fun _ => Linker.Quiet held w) E := by
  refine Triple.bind (Q := fun _ => Linker.Quiet held w) (Triple.gets.weaken fun _ h => h)
    fun found => ?_
  cases found with
  | some p => exact .skip
  | none =>
    refine (load_library_start_spec file flags).bind fun p => ?_
    cases p with
    | none => exact .skip
    | some p =>
      refine .ite (fun _ => ?_) fun _ => .skip
      exact (loaded_spec p).bind fun _ => (load_library_done_spec p).bind fun _ => .skip

/-! ### The calls -/

theorem dlopen_spec (file : Option Name) (flags : Nat) :
    Triple (Linker.Quiet false w) (dlopen t env file flags) (fun _ => Linker.Quiet false w) E := by
  cases file with
  | none => exact .skip
  | some file =>
    refine lock_spec.bind fun _ => (openLibrary_spec _ flags).bind fun p => ?_
    exact unlock_spec.bind fun _ => .skip

omit [DecidableEq T] in
/-- Where the library is not open, `emscripten_dlopen` returns without the lock or leaves
it to the load. -/
theorem emscripten_dlopen_spec (file : Option Name) (flags : Nat) :
    Triple (fun s => s.Quiet false w ∧ s.Returns t env (.emscripten_dlopen file flags))
      (emscripten_dlopen t env file flags) (fun _ s => s.Quiet false w ∨ s.Started t w) E := by
  cases file with
  | none => exact Triple.returns fun _ h => .inl h.1
  | some file =>
    refine Triple.bind
      (Q := fun _ s => s.Quiet true w ∧ s.find_existing (env.find_dylib file) = none) ?_ fun _ => ?_
    · exact Triple.modify.weaken fun s h =>
        ⟨⟨rfl, h.1.loads, h.1.stray, h.1.waiting⟩, h.2⟩
    refine Triple.bind (Q := fun found s => s.Quiet true w ∧ found = none)
      (Triple.gets.weaken fun _ h => h) fun found => ?_
    cases found with
    | some p => exact fun s h => absurd h.2 (by simp)
    | none =>
      refine Triple.bind ((load_library_start_spec _ flags).weaken fun _ h => h.1) fun p => ?_
      cases p with
      | none =>
        refine unlock_spec.bind fun _ => ?_
        exact Triple.returns fun _ h => .inl h
      | some p =>
        refine .ite (fun _ => ?_) fun _ => .crash
        refine Triple.bind (Q := fun _ s => s.Started t w) ?_ fun _ =>
          Triple.returns fun _ h => .inr h
        exact Triple.modify.weaken fun s h =>
          ⟨h.lock, ⟨p, by rw [h.loads]; rfl⟩, h.stray, h.waiting⟩

omit [DecidableEq T] in
theorem lookUp_spec (p : Handle) :
    Triple (fun s => s.Quiet false w ∧ s.knows t p) (lookUp t env p)
      (fun _ => Linker.Quiet false w) E := by
  refine Triple.bind (Q := fun _ s => s.Quiet true w ∧ s.knows t p) ?_ fun _ => ?_
  · exact Triple.modify.weaken fun s h => by
      refine ⟨⟨rfl, h.1.loads, h.1.stray, h.1.waiting⟩, ?_⟩
      cases p with
      | default => rfl
      | next => exact h.2
      | dso d => exact h.2
  refine Triple.bind (Q := fun known s => s.Quiet true w ∧ known = true)
    (Triple.gets.weaken fun _ h => h) fun known => ?_
  refine Triple.bind (Q := fun _ => Linker.Quiet true w) ?_ fun _ => ?_
  · refine Triple.failIf.weaken fun s h => ?_
    rw [if_neg (not_not.mpr h.2)]
    exact h.1
  obtain ⟨res, i⟩ := env.symbol
  cases i with
  | none => exact unlock_spec.bind fun _ => .skip
  | some i =>
    refine (new_dlevent_spec _ _).bind fun _ => dlsync_threads_spec.bind fun _ => ?_
    exact unlock_spec.bind fun _ => .skip

omit [DecidableEq T] in
theorem dlsym_spec (p : Handle) :
    Triple (fun s => s.Quiet false w ∧ s.Returns t env (.dlsym p)) (dlsym t env p)
      (fun _ => Linker.Quiet false w) E := by
  refine Triple.bind
    (Q := fun refused s => s.Quiet false w ∧ (refused = true ∨ s.knows t p.resolve))
    (Triple.gets.weaken fun _ h => h) fun refused => ?_
  cases refused with
  | true => exact .ite (fun _ => Triple.returns fun _ h => h.1) fun h => absurd rfl h
  | false =>
    refine .ite (fun h => absurd h (by simp)) fun _ => ?_
    exact (lookUp_spec p.resolve).weaken fun _ h => ⟨h.1, h.2.resolve_left (by simp)⟩

theorem exec_spec (c : Call) :
    Triple (fun s => s.Quiet false w ∧ s.Returns t env c) (c.exec t env)
      (fun _ s => s.Quiet false w ∨ s.Started t w) fun _ _ => False := by
  cases c with
  | dlopen file flags =>
    refine Triple.bind ((dlopen_spec file flags).weaken fun _ h => h.1) fun _ => ?_
    exact Triple.returns fun _ h => .inl h
  | emscripten_dlopen file flags =>
    exact (emscripten_dlopen_spec file flags).bind fun _ => .skip
  | dlsym p =>
    refine (dlsym_spec p).bind fun _ => ?_
    exact Triple.returns fun _ h => .inl h

/-- Both callbacks of a load give the lock back. -/
theorem callback_spec (l : Load T) (success : Bool) :
    Triple (Linker.Quiet true w) (l.callback success env) (fun _ => Linker.Quiet false w)
      fun _ _ => False := by
  cases success with
  | true =>
    refine Triple.bind (Q := fun _ => Linker.Quiet false w) ?_ fun _ => .skip
    refine (loaded_spec l.dso).bind fun _ => (load_library_done_spec l.dso).bind fun _ => ?_
    exact unlock_spec.bind fun _ => .skip
  | false =>
    refine Triple.bind (Q := fun _ => Linker.Quiet false w) ?_ fun _ => .skip
    exact unlock_spec.bind fun _ => .skip

end

/-! ## Steps and the lock -/

omit [DecidableEq T] in
theorem Linker.run_of_triple {P Q : Linker T → Prop} {m : Code T Unit}
    (h : Triple P m (fun _ => Q) fun _ _ => False) (hP : P s) (hrun : s.run m = some s') :
    Q s' := by
  obtain ⟨⟨m', r⟩, hm, rfl⟩ := Option.map_eq_some_iff.mp hrun
  have hpost := h s hP m' r hm
  cases r with
  | ok _ => exact hpost
  | error e => exact hpost.elim

variable {c : Call} {a : Action T}

/-- A call that does not come to the lock changes nothing. -/
theorem run_of_unlocked (h : s.locks c = false) : s.run (c.exec t env) = some s := by
  cases c with
  | dlopen file flags =>
    cases file with
    | none => rfl
    | some file => cases h
  | emscripten_dlopen file flags =>
    cases file with
    | none => rfl
    | some file => cases h
  | dlsym p =>
    have hrefused : s.refuses p = true := by simpa [Linker.locks] using h
    have hcall : dlsym t env p s = some (s, .ok 0) := by
      refine (gets_bind_apply _ _ s).trans ?_
      rw [hrefused]
      rfl
    exact congrArg (Option.map Prod.fst) (bind_of_ok (k := fun _ => pure ()) hcall)

/-- What a call that runs leaves behind. -/
theorem Linker.Locked.run (h : s.Locked) (hlock : s.locks c → s.write_lock = false) (hc : s.Returns t env c)
    (hrun : s.run (c.exec t env) = some s') : s' = s ∨ s'.Quiet false s.waiting ∨ s'.Started t s.waiting := by
  cases hlocks : s.locks c with
  | false =>
    rw [run_of_unlocked hlocks] at hrun
    exact .inl (Option.some.inj hrun).symm
  | true => exact .inr (run_of_triple (exec_spec c) ⟨h.quiet (hlock hlocks), hc⟩ hrun)

/-- What a step does to the lock and to the threads that wait. -/
inductive Effect (s : Linker T) : Action T → Linker T → Prop
  | wait (t : T) (c : Call) (env : Env) (hlocks : s.locks c) (hlock : s.write_lock = true) :
      Effect s (.call t c env) { s with waiting := Function.update s.waiting t (some c) }
  | nothing (a : Action T) : Effect s a s
  | quiet (a : Action T) (s' : Linker T) (h : s'.Quiet false s'.waiting)
      (hwaiting : ∀ u, s.waiting u = none → s'.waiting u = none) : Effect s a s'
  | started (a : Action T) (t : T) (s' : Linker T) (h : s'.Started t s'.waiting)
      (hwaiting : s'.waiting t = none) : Effect s a s'
  | libraries (loadedLibs : T → DsoId → Bool) :
      Effect s (.libraries loadedLibs) { s with loadedLibs := loadedLibs }

theorem update_none {w : T → Option Call} (u : T) (h : w u = none) :
    Function.update w t none u = none := by
  by_cases hu : u = t
  · rw [hu, Function.update_self]
  · rw [Function.update_of_ne hu, h]

theorem effect_of_call (hi : s.Locked) (hc : CallsReturn s (.call t c env)) (hs : s.call t c env = some s') :
    Effect s (.call t c env) s' := by
  unfold Linker.call at hs
  split at hs
  · cases hs
  · next hidle =>
      rw [Option.not_isSome_iff_eq_none] at hidle
      split at hs
      · next hwait =>
          cases hs
          exact .wait t c env hwait.1 hwait.2
      · next hruns =>
          have hreturns := hc.resolve_left hruns
          have hfree : s.locks c → s.write_lock = false := fun hlocks =>
            Bool.eq_false_iff.mpr fun hlock => hruns ⟨hlocks, hlock⟩
          rcases hi.run hfree hreturns hs with rfl | h | h
          · exact .nothing _
          · have hwaiting := h.waiting
            exact .quiet _ _ ⟨h.lock, h.loads, h.stray, rfl⟩ fun u hu => by rw [hwaiting, hu]
          · refine .started _ t _ ⟨h.lock, h.loads, h.stray, rfl⟩ ?_
            rw [h.waiting, hidle]

omit [DecidableEq T] in
/-- The condition on a call does not look at the threads that wait. -/
theorem Linker.Returns.waiting (w : T → Option Call) (h : s.Returns t env c) :
    Linker.Returns { s with waiting := w } t env c := by
  cases c with
  | dlopen file flags => trivial
  | emscripten_dlopen file flags =>
    cases file with
    | none => trivial
    | some file => exact h
  | dlsym p => cases p <;> exact h

theorem effect_of_resume (hi : s.Locked) (hc : CallsReturn s (.resume t env))
    (hs : s.resume t env = some s') : Effect s (.resume t env) s' := by
  unfold Linker.resume at hs
  split at hs
  · cases hs
  · next c hwaits =>
      split at hs
      · cases hs
      · next hlock =>
          have hfree : s.write_lock = false := Bool.eq_false_iff.mpr hlock
          have hi' : Linker.Locked { s with waiting := Function.update s.waiting t none } :=
            ⟨hi.iff, hi.once, hi.stray⟩
          rcases hi'.run (fun _ => hfree) ((hc c hwaits).waiting _) hs with rfl | h | h
          · exact .quiet _ _ (hi'.quiet hfree) fun u hu => update_none u hu
          · have hwaiting := h.waiting
            refine .quiet _ _ ⟨h.lock, h.loads, h.stray, rfl⟩ fun u hu => ?_
            rw [hwaiting]
            exact update_none u hu
          · refine .started _ t _ ⟨h.lock, h.loads, h.stray, rfl⟩ ?_
            rw [h.waiting]
            exact Function.update_self ..

/-- The lock is given back by the load that has it. -/
theorem Linker.Locked.complete {i : Nat} {success : Bool} (hi : s.Locked)
    (hs : s.complete i success env = some s') : s'.Quiet false s.waiting := by
  unfold Linker.complete at hs
  split at hs
  · cases hs
  · next l hl =>
      split at hs
      · cases hs
      · obtain ⟨hloads, rfl⟩ := hi.load hl
        have hlocked : s.write_lock = true := hi.iff.mpr (by rw [hloads]; simp)
        have hheld : Linker.Quiet true s.waiting { s with loads := s.loads.eraseIdx 0 } :=
          ⟨hlocked, by rw [hloads]; rfl, hi.stray, rfl⟩
        exact Linker.run_of_triple (callback_spec l success) hheld hs

theorem effect_of_step (hi : s.Locked) (hc : CallsReturn s a) (hs : step s a = some s') : Effect s a s' := by
  cases a with
  | call t c env => exact effect_of_call hi hc hs
  | resume t env => exact effect_of_resume hi hc hs
  | complete i success env =>
    have h := hi.complete hs
    have hwaiting := h.waiting
    exact .quiet _ _ ⟨h.lock, h.loads, h.stray, rfl⟩ fun u hu => by rw [hwaiting, hu]
  | libraries loadedLibs =>
    cases hs
    exact .libraries loadedLibs

theorem Linker.Locked.step (hi : s.Locked) (hc : CallsReturn s a) (hs : step s a = some s') : s'.Locked := by
  cases effect_of_step hi hc hs with
  | wait t c env hlocks hlock => exact ⟨hi.iff, hi.once, hi.stray⟩
  | nothing => exact hi
  | quiet _ _ h => exact h.locked
  | started _ t _ h => exact h.locked
  | libraries loadedLibs => exact ⟨hi.iff, hi.once, hi.stray⟩

/-- The threads of the loads under way are free to run the callbacks. -/
def Linker.Responsive (s : Linker T) : Prop := ∀ l ∈ s.loads, s.waiting l.thread = none

theorem Linker.Responsive.step (hr : s.Responsive) (hi : s.Locked) (hc : CallsReturn s a)
    (hk : KeepsEventLoop s a) (hs : Dynlink.step s a = some s') : s'.Responsive := by
  cases effect_of_step hi hc hs with
  | wait t c env hlocks hlock =>
    intro l hl
    rw [← hr l hl]
    exact Function.update_of_ne (hk hlocks l hl) ..
  | nothing => exact hr
  | quiet _ _ h =>
    intro l hl
    rw [h.loads] at hl
    cases hl
  | started _ t _ h hwaiting =>
    intro l hl
    obtain ⟨p, hp⟩ := h.loads
    rw [hp] at hl
    cases List.mem_singleton.mp hl
    exact hwaiting
  | libraries loadedLibs => exact hr

/-- The callbacks of a load run to their end. -/
theorem callback_runs (l : Load T) (success : Bool) (henv : env.dleventAllocates) :
    ∃ s', s.run (l.callback success env) = some s' := by
  cases success with
  | false => exact ⟨_, rfl⟩
  | true =>
    have hevent : (new_dlevent env (some l.dso) none : Code T Unit) = modify _ := if_pos henv
    simp only [Load.callback, dlopen_onsuccess, load_library_done, hevent]
    exact ⟨_, rfl⟩

/-- Where no thread is kept from its event loop, either callback can run next, and then
the lock is free. -/
theorem Linker.Responsive.completes (hr : s.Responsive) (hi : s.Locked)
    (hlock : s.write_lock = true) (success : Bool) (henv : env.dleventAllocates) :
    ∃ s', Dynlink.step s (.complete 0 success env) = some s' ∧ s'.write_lock = false := by
  obtain ⟨l, hl⟩ : ∃ l, s.loads[0]? = some l := by
    cases hloads : s.loads with
    | nil => exact absurd hloads (hi.iff.mp hlock)
    | cons l rest => exact ⟨l, rfl⟩
  have hidle := hr l (List.mem_of_getElem? hl)
  obtain ⟨s', hrun⟩ :=
    callback_runs (s := { s with loads := s.loads.eraseIdx 0 }) l success henv
  have hs : s.complete 0 success env = some s' := by
    unfold Linker.complete
    rw [hl]
    simpa [hidle] using hrun
  exact ⟨s', hs, (hi.complete hs).lock⟩

/-! ## Runs -/

omit [DecidableEq T] in
theorem start_locked : (Linker.start : Linker T).Locked := ⟨by simp [Linker.start], by simp [Linker.start], rfl⟩

/-- Everything is found and loads. -/
def Env.plain : Env where
  find_dylib := id
  file := fun _ => none
  dsoAllocates := true
  dleventAllocates := true
  asyncDataAllocates := true
  loads := true
  symbol := (0, none)

def openTwice : List (Action Unit) :=
  [.call () (.dlopen (some "lib".toList) RTLD_NOW) .plain,
    .call () (.emscripten_dlopen (some "lib".toList) RTLD_NOW) .plain]

def loadOnce : List (Action Unit) :=
  [.call () (.emscripten_dlopen (some "lib".toList) RTLD_NOW) .plain]

end Dynlink
