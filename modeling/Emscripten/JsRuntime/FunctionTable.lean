-- SUMMARY: The function table as JavaScript sees it: entries, mirror, free indexes, and `addFunction` and `removeFunction`.
import Emscripten.Lib.Machine
import Mathlib.Data.List.Basic

/-!
# The function table

`addFunction` puts a function into the WebAssembly table and remembers its index in a map;
`removeFunction` takes it out again. A JavaScript function goes into the table under a wrapper, and some
builds show an entry under a wrapper of their own.
-/

namespace FunctionTable

/-! ## Functions -/

/-- Function objects. The wrappers are told apart by the number they are made under. -/
inductive Func
  | exported (id : Nat)
  | plain (id : Nat)
  /-- An export of the small module that imports `f`. -/
  | converted (id : Nat) (f : Func)
  | abortWrapper (id : Nat) (f : Func)
  | abortWrapperOfNull (id : Nat)
  | promising (id : Nat) (f : Func)
  deriving DecidableEq

/-- Only these can be put into a table. -/
def Func.isWasm : Func → Bool
  | .exported _ => true
  | .converted .. => true
  | _ => false

/-- The function that a call ends in, behind the wrappers. -/
def Func.invoked : Func → Option Func
  | .exported id => some (.exported id)
  | .plain id => some (.plain id)
  | .converted _ f => f.invoked
  | .abortWrapper _ f => f.invoked
  | .abortWrapperOfNull _ => none
  | .promising _ f => f.invoked

structure Build where
  /-- `WASM2JS && WASM != 2`: the table takes JavaScript functions as they are. -/
  WASM2JS : Bool
  /-- `SHRINK_LEVEL == 0 || ASYNCIFY == 2`. -/
  mirrored : Bool
  ABORT_ON_WASM_EXCEPTIONS : Bool
  /-- With `ASYNCIFY == 2`, the exports that `isAsyncExport` knows; no function in other builds. -/
  isAsyncExport : Func → Bool
  /-- The table does not grow beyond this. -/
  maximum : Nat

/-! ## State -/

structure State where
  wasmTable : List (Option Func)
  /-- What `wasmTable.get` gave last, and for which function. -/
  wrapperCache : Nat → Option (Option Func × Func)
  wasmTableMirror : Nat → Option Func
  /-- The top of the stack first. -/
  freeTableIndexes : List Nat
  /-- `undefined` until the first use. -/
  functionsInTableMap : Option (Func → Option Nat)
  /-- The number of the next wrapper. -/
  fresh : Nat

section

variable (b : Build)

def makeAbortWrapper (id : Nat) : Option Func → Func
  | some f => .abortWrapper id f
  | none => .abortWrapperOfNull id

/-- `wasmTable.get`, which some builds override. -/
def get (i : Nat) (s : State) : Option Func × State :=
  let func := s.wasmTable.getD i none
  if b.ABORT_ON_WASM_EXCEPTIONS then
    match s.wrapperCache i with
    | some (f, wrapper) =>
      if f = func then (some wrapper, s)
      else
        let wrapper := makeAbortWrapper s.fresh func
        (some wrapper, { s with
          wrapperCache := Function.update s.wrapperCache i (some (func, wrapper)), fresh := s.fresh + 1 })
    | none =>
      let wrapper := makeAbortWrapper s.fresh func
      (some wrapper, { s with
        wrapperCache := Function.update s.wrapperCache i (some (func, wrapper)), fresh := s.fresh + 1 })
  else (func, s)

def setWasmTableEntry (idx : Nat) (func : Option Func) (s : State) : State :=
  let s := { s with wasmTable := s.wasmTable.set idx func }
  if b.mirrored then
    let (entry, s) := get b idx s
    { s with wasmTableMirror := Function.update s.wasmTableMirror idx entry }
  else s

/-- `wasmTable.set` throws a `TypeError` for a JavaScript function. -/
def accepts (func : Func) : Bool := b.WASM2JS || func.isWasm

def getWasmTableEntry (funcPtr : Nat) (s : State) : Option Func × State :=
  if b.mirrored then
    match s.wasmTableMirror funcPtr with
    | some func => (some func, s)
    | none =>
      let (func, s) := get b funcPtr s
      match func with
      | none => (none, s)
      | some f =>
        if b.isAsyncExport f then
          (some (.promising s.fresh f), { s with
            wasmTableMirror := Function.update s.wasmTableMirror funcPtr (some (.promising s.fresh f))
            fresh := s.fresh + 1 })
        else (some f, { s with wasmTableMirror := Function.update s.wasmTableMirror funcPtr (some f) })
  else get b funcPtr s

/-! ## Adding and removing -/

def mapSet (item : Func) (i : Nat) (s : State) : State :=
  { s with functionsInTableMap := s.functionsInTableMap.map fun m => Function.update m item (some i) }

def mapDelete (item : Option Func) (s : State) : State :=
  match item with
  | none => s
  | some f => { s with functionsInTableMap := s.functionsInTableMap.map fun m => Function.update m f none }

/-- The entries from `offset` on, `count` of them. -/
def updateTableMap (offset : Nat) : Nat → State → State
  | 0, s => s
  | count + 1, s =>
    let (item, s) := getWasmTableEntry b offset s
    let s := match item with
      | some f => mapSet f offset s
      | none => s
    updateTableMap (offset + 1) count s

def getFunctionAddress (func : Func) (s : State) : Nat × State :=
  let s := match s.functionsInTableMap with
    | some _ => s
    | none => updateTableMap b 0 s.wasmTable.length { s with functionsInTableMap := some fun _ => none }
  ((s.functionsInTableMap.bind fun m => m func).getD 0, s)

/-- No slot where the table cannot grow. -/
def getEmptyTableSlot (s : State) : Option Nat × State :=
  match s.freeTableIndexes with
  | i :: rest => (some i, { s with freeTableIndexes := rest })
  | [] =>
    if s.wasmTable.length < b.maximum then
      (some s.wasmTable.length, { s with wasmTable := s.wasmTable ++ [none] })
    else (none, s)

/-- No index where it throws. A JavaScript function comes with a signature. -/
def addFunction (func : Func) (s : State) : Option Nat × State :=
  let (rtn, s) := getFunctionAddress b func s
  if rtn ≠ 0 then (some rtn, s)
  else
    match getEmptyTableSlot b s with
    | (none, s) => (none, s)
    | (some ret, s) =>
      let s := if accepts b func then setWasmTableEntry b ret (some func) s
        else setWasmTableEntry b ret (some (.converted s.fresh func)) { s with fresh := s.fresh + 1 }
      (some ret, mapSet func ret s)

def removeFunction (index : Nat) (s : State) : State :=
  let (entry, s) := getWasmTableEntry b index s
  let s := setWasmTableEntry b index none (mapDelete entry s)
  { s with freeTableIndexes := index :: s.freeTableIndexes }

end

/-! ## Programs -/

/-- The table, with what a program knows of its calls. -/
structure World where
  state : State
  /-- Functions with the indexes that `addFunction` returned for them, where these were not removed since. -/
  given : List (Func × Nat)
  /-- The indexes that `addFunction` allocated, where these were not removed since. -/
  allocated : List (Func × Nat)
  /-- Functions that were removed while their entry showed a wrapper. -/
  left : List Func

inductive Action
  | addFunction (func : Func)
  | removeFunction (index : Nat)
  /-- The entry is looked up, to be called. -/
  | getWasmTableEntry (index : Nat)

def step (b : Build) (w : World) : Action → Option World
  | .addFunction func =>
    match addFunction b func w.state with
    | (none, s) => some { w with state := s }
    | (some i, s) => some { w with
        state := s
        given := (func, i) :: w.given
        allocated :=
          if (getFunctionAddress b func w.state).1 = 0 then (func, i) :: w.allocated else w.allocated }
  -- only what was allocated may be removed
  | .removeFunction index =>
    match w.allocated.find? fun p => p.2 == index with
    | none => none
    | some p => some {
        state := removeFunction b index w.state
        given := w.given.filter fun q => q.2 != index
        allocated := w.allocated.filter fun q => q.2 != index
        left := if (getWasmTableEntry b index w.state).1 = some p.1 then w.left else p.1 :: w.left }
  | .getWasmTableEntry index =>
    if index < w.state.wasmTable.length then some { w with state := (getWasmTableEntry b index w.state).2 }
    else none

/-- A module with its table, before any call. -/
def start (table : List (Option Func)) : World where
  state := ⟨table, fun _ => none, fun _ => none, [], none, 0⟩
  given := []
  allocated := []
  left := []

/-- A call of the entry, from either side, ends in the function. -/
def Invokes (b : Build) (s : State) (i : Nat) (f : Func) : Prop :=
  (∃ g, s.wasmTable[i]? = some (some g) ∧ g.invoked = f.invoked) ∧
    ∃ g, (getWasmTableEntry b i s).1 = some g ∧ g.invoked = f.invoked

structure Consistent (b : Build) (w : World) : Prop where
  invokes : ∀ p ∈ w.given, Invokes b w.state p.2 p.1
  distinct : ∀ p ∈ w.given, ∀ q ∈ w.given, p.2 = q.2 → p.1 = q.1

/-- The map does not have an index that was left behind for the function, which is not the wrapper that
stands for an empty entry either. -/
def Clean (w : World) (f : Func) : Prop := f ∉ w.left ∧ f.invoked ≠ none

/-- Only such functions are added. -/
def Adds (w : World) : Action → Prop
  | .addFunction f => Clean w f
  | _ => True

end FunctionTable
