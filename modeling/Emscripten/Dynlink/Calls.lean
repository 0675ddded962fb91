-- SUMMARY: The dynamic linker's calls: dlopen, emscripten_dlopen with its two callbacks, and dlsym, under the write lock.
import Mathlib.Logic.Function.Basic
import Emscripten.Lib.Prog

/-!
# The calls of the dynamic linker

The linker keeps a list of events, one for each library that was opened and one for each
symbol that was given a table slot. A call works on it under the write lock. It runs to
its end once it has the lock, so a call is one program; only `emscripten_dlopen` goes on
later, in one of the callbacks `dlopen_onsuccess` and `dlopen_onerror`.

A JavaScript exception leaves a call where it stands, so it is the failure of a program.
A write through a null pointer, which is what a failed `calloc` leads to, crashes.
-/

namespace Dynlink

open Prog

/-! ## State -/

abbrev Name := List Char
abbrev DsoId := Nat

/-- `main_dso`, the first of the list. -/
def mainDso : DsoId := 0

def RTLD_LAZY : Nat := 1
def RTLD_NOW : Nat := 2

/-- What `dlsym` takes for a library. -/
inductive Handle
  | default
  | next
  | dso (d : DsoId)
deriving DecidableEq, Repr

structure Dso where
  name : Name
  flags : Nat
  /-- `file_data`, where the file was there to be read. -/
  file_data : Option (List UInt8)
  /-- The last event that names the library, by its place in the list. -/
  event : Option Nat
deriving DecidableEq, Repr

/-- `struct dlevent`. A `sym_index` of −1 is `none`, and `RTLD_DEFAULT` is no library. -/
structure DlEvent where
  sym_index : Option Nat
  dso : Option DsoId
deriving DecidableEq, Repr

/-- A load that `emscripten_dlopen` has started, and its `async_data`. -/
structure Load (T : Type) where
  thread : T
  dso : DsoId
deriving DecidableEq, Repr

inductive Call
  | dlopen (file : Option Name) (flags : Nat)
  | emscripten_dlopen (file : Option Name) (flags : Nat)
  | dlsym (p : Handle)
deriving DecidableEq, Repr

/-- What an asynchronous load tells its caller. -/
inductive Report
  | onsuccess (d : DsoId)
  | onerror
deriving DecidableEq, Repr

structure Linker (T : Type) where
  /-- The events from `head` to `tail`. -/
  events : List DlEvent
  dso : DsoId → Dso
  nextDso : DsoId
  write_lock : Bool
  /-- The loads that have reported neither success nor failure. -/
  loads : List (Load T)
  /-- `LDSO.loadedLibsByHandle` of each thread. -/
  loadedLibs : T → DsoId → Bool
  /-- The call in which a thread waits for the write lock. -/
  waiting : T → Option Call
  /-- Ghost: how often the write lock was released when nobody held it. -/
  strayReleases : Nat

/-- What the world answers in a call: where a library is found, what its file holds,
which allocations succeed, whether the library loads, and what `_dlsym_js` returns. -/
structure Env where
  find_dylib : Name → Name
  file : Name → Option (List UInt8)
  dsoAllocates : Bool
  dleventAllocates : Bool
  asyncDataAllocates : Bool
  loads : Bool
  symbol : Nat × Option Nat

/-- An exception of the JavaScript side. -/
inductive Thrown
  | typeError
deriving DecidableEq, Repr

variable {T : Type} [DecidableEq T]

abbrev Code (T α : Type) := Prog (Linker T) Thrown α

/-- The linker when the program starts. -/
def Linker.start : Linker T where
  events := [⟨none, some mainDso⟩]
  dso := fun _ => ⟨"__main__".toList, 0, none, none⟩
  nextDso := mainDso + 1
  write_lock := false
  loads := []
  loadedLibs := fun _ _ => false
  waiting := fun _ => none
  strayReleases := 0

/-! ## The write lock -/

/-- `do_write_lock` once the lock is free. -/
def do_write_lock : Code T Unit := modify fun s => { s with write_lock := true }

def do_write_unlock : Code T Unit := modify fun s =>
  { s with
    write_lock := false
    strayReleases := if s.write_lock then s.strayReleases else s.strayReleases + 1 }

/-! ## Events -/

/-- `__dl_invalid_handle` of a library. -/
def Linker.invalidHandle (s : Linker T) (d : DsoId) : Bool :=
  ! s.events.any fun e => e.sym_index = none ∧ e.dso = some d

/-- The first open library of the name. -/
def Linker.find_existing (s : Linker T) (file : Name) : Option DsoId :=
  s.events.findSome? fun e =>
    match e.sym_index, e.dso with
    | none, some d => if (s.dso d).name = file then some d else none
    | _, _ => none

def new_dlevent (env : Env) (p : Option DsoId) (sym_index : Option Nat) : Code T Unit :=
  if env.dleventAllocates then
    modify fun s =>
      let place := s.events.length
      { s with
        events := s.events ++ [⟨sym_index, p⟩]
        dso := match p with
          | none => s.dso
          | some d => Function.update s.dso d { s.dso d with event := some place } }
  else crash

/-- `_emscripten_dlsync_threads`: every thread has loaded what the list names. -/
def dlsync_threads : Code T Unit := modify fun s =>
  { s with loadedLibs := fun t d => s.loadedLibs t d || ! s.invalidHandle d }

def load_library_done (env : Env) (p : DsoId) : Code T Unit := do
  new_dlevent env (some p) none
  dlsync_threads

/-- `load_library_start`. Without `RTLD_LAZY` and `RTLD_NOW` nothing is loaded. -/
def load_library_start (env : Env) (name : Name) (flags : Nat) : Code T (Option DsoId) :=
  if flags &&& (RTLD_LAZY ||| RTLD_NOW) = 0 then pure none
  else if env.dsoAllocates then do
    let p ← gets Linker.nextDso
    modify fun s =>
      { s with
        dso := Function.update s.dso p ⟨name, flags, env.file name, none⟩
        nextDso := p + 1 }
    pure (some p)
  else crash

/-- The thread has loaded the library. -/
def loaded (t : T) (p : DsoId) : Code T Unit := modify fun s =>
  { s with loadedLibs := Function.update s.loadedLibs t (Function.update (s.loadedLibs t) p true) }

/-! ## Calls -/

/-- What `_dlopen` does with a library that is not open. -/
def loadNow (t : T) (env : Env) (file : Name) (flags : Nat) : Code T (Option DsoId) := do
  match ← load_library_start env file flags with
  | none => pure none
  | some p =>
    -- `_dlopen_js` catches what is thrown in it.
    if env.loads then do
      loaded t p
      load_library_done env p
      pure (some p)
    else pure none

/-- The part of `_dlopen` under the lock. -/
def openLibrary (t : T) (env : Env) (file : Name) (flags : Nat) : Code T (Option DsoId) := do
  match ← gets fun s => s.find_existing file with
  | some p => pure (some p)
  | none => loadNow t env file flags

def dlopen (t : T) (env : Env) (file : Option Name) (flags : Nat) : Code T (Option DsoId) :=
  match file with
  | none => pure (some mainDso)
  | some file => do
    do_write_lock
    let p ← openLibrary t env (env.find_dylib file) flags
    do_write_unlock
    pure p

/-- What has been reported when `emscripten_dlopen` returns. -/
def emscripten_dlopen (t : T) (env : Env) (filename : Option Name) (flags : Nat) :
    Code T (Option Report) :=
  match filename with
  | none => pure (some (.onsuccess mainDso))
  | some filename => do
    do_write_lock
    match ← gets fun s => s.find_existing (env.find_dylib filename) with
    -- The callback is called, and the function returns with the lock.
    | some p => pure (some (.onsuccess p))
    | none =>
      match ← load_library_start env (env.find_dylib filename) flags with
      | none => do
        do_write_unlock
        pure (some .onerror)
      | some p =>
        if env.asyncDataAllocates then do
          modify fun s => { s with loads := s.loads ++ [⟨t, p⟩] }
          pure none
        else crash

/-- `dlopen_onsuccess`. -/
def dlopen_onsuccess (t : T) (env : Env) (p : DsoId) : Code T Report := do
  loaded t p
  load_library_done env p
  do_write_unlock
  pure (.onsuccess p)

def dlopen_onerror : Code T Report := do
  do_write_unlock
  pure .onerror

/-- Whether `_dlsym_js` finds the library in the thread's table. `RTLD_NEXT` is never in
one. -/
def Linker.knows (s : Linker T) (t : T) : Handle → Bool
  | .default => true
  | .next => false
  | .dso d => s.loadedLibs t d

/-- The part of `__dlsym` under the lock. -/
def lookUp (t : T) (env : Env) (p : Handle) : Code T Nat := do
  do_write_lock
  -- `lib.exports` of a library that is not there.
  failIf (¬ (← gets fun s => s.knows t p)) .typeError
  match env.symbol with
  | (res, none) => do
    do_write_unlock
    pure res
  | (res, some i) => do
    new_dlevent env (match p with | .dso d => some d | _ => none) (some i)
    dlsync_threads
    do_write_unlock
    pure res

/-- `__dlsym` of a handle that is valid, where the first library stands for all. -/
def Handle.resolve : Handle → Handle
  | .dso d => if d = mainDso then .default else .dso d
  | p => p

/-- Whether `__dlsym` returns before it takes the lock. -/
def Linker.refuses (s : Linker T) : Handle → Bool
  | .dso d => s.invalidHandle d
  | _ => false

def dlsym (t : T) (env : Env) (p : Handle) : Code T Nat := do
  if ← gets fun s => s.refuses p then pure 0
  else lookUp t env p.resolve

end Dynlink
