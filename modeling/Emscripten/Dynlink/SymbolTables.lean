-- SUMMARY: The two symbol tables of the dynamic linker: what mergeLibSymbols puts into wasmImports and updateGOT into the GOT.
import Mathlib.Data.List.Basic
import Emscripten.Lib.Machine

/-!
# Symbol tables

A direct call finds a symbol in `wasmImports`, a function pointer gets its address from the global
offset table. `mergeLibSymbols` fills the one when a library becomes global, `updateGOT` the other
when it is instantiated, and each keeps what it takes for defined already.

Loads may be nested and may overlap, so a library is registered, instantiated and stored in steps of
their own.
-/

namespace SymbolTables

variable {L : Type}

abbrev Name := List Char

/-! ## Definitions -/

/-- Who provides a definition: a JavaScript library, the main module or a side module. -/
inductive Owner (L : Type)
  | js
  | main
  | lib (l : L)
deriving DecidableEq, Repr

structure Def (L : Type) where
  owner : Owner L
  id : Name
deriving DecidableEq, Repr

/-- The type of an export, as far as the linker asks for it. -/
inductive Kind
  | function
  /-- a global of pointer type, or a number -/
  | address
  | other
deriving DecidableEq, Repr

/-- An export and the definition it stands for: `orig$f` stands for that of `f`. -/
structure Export where
  name : Name
  kind : Kind
  id : Name
deriving DecidableEq, Repr

/-- What an object refers to. Asyncify wraps the stubs of the main module; a wrapper calls what
`asyncifyStubs` has for its name. -/
inductive Ref (L : Type)
  | direct (d : Def L)
  | stub (name : Name)
deriving DecidableEq, Repr

/-! ## Programs and states -/

inductive MainImport
  /-- from a JavaScript library -/
  | js (kind : Kind)
  /-- undefined at link time -/
  | stub
  /-- the same, wrapped by `instrumentWasmImports` -/
  | wrapper
deriving DecidableEq, Repr

structure Program (L : Type) where
  /-- `wasmImports` before the main module is instantiated -/
  imports : List (Name × MainImport)
  unique : (imports.map Prod.fst).Nodup
  mainExports : List Export
  /-- `GOT.mem` and `GOT.func`: the names, and whether the import is weak. -/
  mainGot : List (Name × Bool)
  exports : L → List Export
  tlsExports : L → List Export
  got : L → List (Name × Bool)
  ASYNCIFY : Bool
  WASM_BIGINT : Bool
  SPLIT_MODULE : Bool
  /-- `DISABLE_EXCEPTION_CATCHING` is off, or `SUPPORT_LONGJMP` is `emscripten`. -/
  invokes : Bool
  /-- `DISABLE_EXCEPTION_CATCHING` is off. -/
  catches : Bool

inductive Import (L : Type)
  | stub
  | object (kind : Kind) (ref : Ref L)
deriving DecidableEq, Repr

inductive GotValue (L : Type)
  /-- `UNDEFINED_ADDR` -/
  | undefined
  | null
  | address (ref : Ref L)
deriving DecidableEq, Repr

structure GotEntry (L : Type) where
  value : GotValue L
  required : Bool
deriving DecidableEq, Repr

/-- How far a library is: `dso.exports` is `'loading'` but in the last stage. -/
inductive Stage
  | loading
  | instantiated
  | loaded
deriving DecidableEq, Repr

structure Dso where
  stage : Stage
  global : Bool
deriving DecidableEq, Repr

structure State (L : Type) where
  wasmImports : Name → Option (Import L)
  asyncifyStubs : Name → Option (Option (Def L))
  GOT : Name → Option (GotEntry L)
  /-- The keys of `GOT`, in the order they were added. -/
  gotNames : List Name
  dsos : L → Option Dso
  /-- The main module is there. -/
  started : Bool
  /-- The definitions that became global, in this order. -/
  published : List (Name × Def L)

def MainImport.toImport (name : Name) : MainImport → Import L
  | .js kind => .object kind (.direct ⟨.js, name⟩)
  | .stub => .stub
  | .wrapper => .object .function (.stub name)

def Program.start (P : Program L) : State L where
  wasmImports name := (P.imports.lookup name).map (MainImport.toImport name)
  asyncifyStubs name := match P.imports.lookup name with
    | some .stub => if P.ASYNCIFY then some none else none
    | some .wrapper => some none
    | _ => none
  GOT _ := none
  gotNames := []
  dsos _ := none
  started := false
  published := P.imports.filterMap fun x => match x.2 with
    | .js _ => some (x.1, ⟨.js, x.1⟩)
    | _ => none

variable (P : Program L)

/-! ## The global symbols -/

def isSymbolDefined (s : State L) (symName : Name) : Bool :=
  match s.wasmImports symName with
  | none | some .stub => false
  | some (.object _ _) => match s.asyncifyStubs symName with
    | some none => false
    | _ => true

/-- A stub that Asyncify wraps gets the definition. -/
def setStub (target : Name) (d : Def L) (s : State L) : State L := { s with
  asyncifyStubs := match s.asyncifyStubs target with
    | none => s.asyncifyStubs
    | some _ => Function.update s.asyncifyStubs target (some (some d)) }

def setImport (target : Name) (kind : Kind) (d : Def L) (s : State L) : State L :=
  let s := setStub target d { s with published := s.published ++ [(target, d)] }
  if isSymbolDefined s target then s
  else { s with
    wasmImports := Function.update s.wasmImports target (some (.object kind (.direct d))) }

def mainName : Name := "main".toList
def mainAlias : Name := "__main_argc_argv".toList

/-- `hasExportedSymbol('main')` -/
def Program.hasMain : Bool := P.mainExports.any (·.name = mainName)

/-- The names that an export defines: `main` acts as a definition of `__main_argc_argv` and vice
versa. -/
def Program.targets (sym : Name) : List Name :=
  sym :: (if P.hasMain then [] else if sym = mainName then [mainAlias]
    else if sym = mainAlias then [mainName] else [])

def mergeLibSymbols (owner : Owner L) (exports : List Export) (s : State L) : State L :=
  exports.foldl (fun s e =>
    (P.targets e.name).foldl (fun s target => setImport target e.kind ⟨owner, e.id⟩ s) s) s

/-! ## The global offset table -/

def Program.isInternalSym (symName : Name) : Bool :=
  ["memory", "__memory_base", "__table_base", "__stack_pointer", "__indirect_function_table",
    "__cpp_exception", "__c_longjmp", "__wasm_apply_data_relocs", "__dso_handle", "__tls_size",
    "__tls_align", "__set_stack_limits", "_emscripten_tls_init", "__wasm_init_tls",
    "__wasm_call_ctors", "__start_em_asm", "__stop_em_asm", "__start_em_js", "__stop_em_js"].any
    (fun n => n.toList = symName) || "__em_js__".toList.isPrefixOf symName ||
    P.SPLIT_MODULE && symName.head? = some '%'

/-- `orig$f` is `f` without the legalization of 64-bit integers. -/
def Program.original (symName : Name) : Option Name :=
  if !P.WASM_BIGINT && "orig$".toList.isPrefixOf symName then
    some ((symName.drop 5).takeWhile (· ≠ '$'))
  else none

/-- The entry is there, and its value is not `UNDEFINED_ADDR`. -/
def existingEntry (s : State L) (symName : Name) : Bool :=
  match s.GOT symName with
  | none | some ⟨.undefined, _⟩ => false
  | some _ => true

def setGot (symName : Name) (entry : GotEntry L) (s : State L) : State L := { s with
  GOT := Function.update s.GOT symName (some entry)
  gotNames := if s.GOT symName = none then s.gotNames ++ [symName] else s.gotNames }

def storeGot (symName : Name) (v : GotValue L) (s : State L) : State L :=
  setGot symName ⟨v, (s.GOT symName).any GotEntry.required⟩ s

/-- The name under which an export goes into the table, and whether it replaces what is there from
now on. -/
def Program.gotName (replace : Bool) (e : Export) : Name × Bool :=
  match P.original e.name with
  | some symName => (symName, true)
  | none => (e.name, replace)

/-- One export in the loop of `updateGOT`, with `replace` as the earlier ones left it. -/
def updateEntry (owner : Owner L) (x : State L × Bool) (e : Export) : State L × Bool :=
  if P.isInternalSym e.name then x else
  let (symName, replace) := P.gotName x.2 e
  if (replace || !existingEntry x.1 symName) && e.kind ≠ .other then
    (storeGot symName (.address (.direct ⟨owner, e.id⟩)) x.1, replace)
  else (x.1, replace)

def updateGOT (owner : Owner L) (exports : List Export) (replace : Bool) (s : State L) : State L :=
  (exports.foldl (updateEntry P owner) (s, replace)).1

/-- `GOTHandler.get` for an import: an entry that is there for it, and that is required unless it is a
weak import. -/
def gotHandlerGet (s : State L) (x : Name × Bool) : State L :=
  let rtn := (s.GOT x.1).getD ⟨.undefined, false⟩
  setGot x.1 { rtn with required := rtn.required || !x.2 } s

/-- The functions that `resolveGlobalSymbol` makes on demand. -/
def Program.generated (symName : Name) : Bool :=
  P.invokes && "invoke_".toList.isPrefixOf symName ||
    P.catches && "__cxa_find_matching_catch_".toList.isPrefixOf symName

def origName (symName : Name) : Name := "orig$".toList ++ symName

/-- The name that `resolveGlobalSymbol` looks up. -/
def Program.lookedUp (s : State L) (symName : Name) (direct : Bool) : Name :=
  if !P.WASM_BIGINT && direct && s.wasmImports (origName symName) ≠ none then origName symName
  else symName

def resolveGlobalSymbol (symName : Name) (direct : Bool) (s : State L) :
    State L × Option (Kind × Ref L) :=
  let symName := P.lookedUp s symName direct
  if isSymbolDefined s symName then
    match s.wasmImports symName with
    | some (.object kind ref) => (s, some (kind, ref))
    | _ => (s, none)
  else if P.generated symName then
    ({ s with
      wasmImports := Function.update s.wasmImports symName
        (some (.object .function (.direct ⟨.js, symName⟩)))
      published := s.published ++ [(symName, ⟨.js, symName⟩)] },
      some (.function, .direct ⟨.js, symName⟩))
  else (s, none)

/-- One entry in the loop of `reportUndefinedSymbols`, and whether the loop goes on. -/
def reportEntry (symName : Name) (s : State L) : State L × Bool :=
  match s.GOT symName with
  | some ⟨.undefined, required⟩ => match resolveGlobalSymbol P symName true s with
    | (s, none) => if required then (s, false) else (storeGot symName .null s, true)
    | (s, some (.other, _)) => (s, false)
    | (s, some (_, ref)) => (storeGot symName (.address ref) s, true)
  | _ => (s, true)

def reportEntries : List Name → State L → State L
  | [], s => s
  | n :: ns, s => match reportEntry P n s with
    | (s, true) => reportEntries ns s
    | (s, false) => s

/-- The loop ends early where it throws. -/
def reportUndefinedSymbols (s : State L) : State L := reportEntries P s.gotNames s

/-! ## Steps -/

def isEmJs (e : Export) : Bool := "__em_js__".toList.isPrefixOf e.name

/-- The exports of a module after `addEmJs`: the functions of `EM_JS` have taken the place of their
texts. -/
def addEmJs (exports : List Export) : List Export :=
  let added := (exports.filter isEmJs).map fun e => ⟨e.name.drop 9, .function, e.name⟩
  exports.filter (fun e => !isEmJs e && added.all (·.name ≠ e.name)) ++ added

/-- `Object.entries('loading')` -/
def loadingEntries : List Export :=
  [['0'], ['1'], ['2'], ['3'], ['4'], ['5'], ['6']].map fun n => ⟨n, .other, n⟩

/-- What `mergeLibSymbols` gets when a library is promoted. -/
def Program.entries (l : L) (dso : Dso) : Owner L × List Export :=
  if dso.stage = .loaded then (.lib l, addEmJs (P.exports l)) else (.js, loadingEntries)

inductive Action (L : Type)
  /-- The main module is instantiated. -/
  | startup
  /-- `loadDynamicLibrary` with `flags.global` or without, up to where it waits -/
  | request (l : L) (global : Bool)
  /-- `postInstantiation` up to `updateGOT` -/
  | instantiate (l : L)
  /-- `reportUndefinedSymbols` -/
  | report
  /-- `tlsInitWrapper` of the library -/
  | tlsInit (l : L)
  /-- `moduleLoaded` -/
  | moduleLoaded (l : L)
  /-- A symbol is looked up when a stub is called. -/
  | resolve (symName : Name) (direct : Bool)
deriving DecidableEq, Repr

variable [DecidableEq L]

def setDso (l : L) (dso : Dso) (s : State L) : State L :=
  { s with dsos := Function.update s.dsos l (some dso) }

def startup (s : State L) : State L :=
  let s := P.mainGot.foldl gotHandlerGet { s with started := true }
  updateGOT P .main P.mainExports false (mergeLibSymbols P .main P.mainExports s)

def request (l : L) (global : Bool) (s : State L) : State L :=
  match s.dsos l with
  | none => setDso l ⟨.loading, global⟩ s
  | some dso =>
    if global && !dso.global then
      let s := setDso l { dso with global := true } s
      mergeLibSymbols P (P.entries l dso).1 (P.entries l dso).2 s
    else s

def instantiate (l : L) (dso : Dso) (s : State L) : State L :=
  let s := (P.got l).foldl gotHandlerGet s
  updateGOT P (.lib l) (P.exports l) false (setDso l { dso with stage := .instantiated } s)

def moduleLoaded (l : L) (dso : Dso) (s : State L) : State L :=
  let s := setDso l { dso with stage := .loaded } s
  if dso.global then mergeLibSymbols P (.lib l) (addEmJs (P.exports l)) s else s

def step (s : State L) : Action L → Option (State L)
  | .startup => if s.started then none else some (startup P s)
  | .request l global => if s.started then some (request P l global s) else none
  | .instantiate l => match s.dsos l with
    | some dso => if dso.stage = .loading then some (instantiate P l dso s) else none
    | none => none
  | .report => if s.started then some (reportUndefinedSymbols P s) else none
  | .tlsInit l => match s.dsos l with
    | some dso => if dso.stage = .loading then none
        else some (updateGOT P (.lib l) (P.tlsExports l) true s)
    | none => none
  | .moduleLoaded l => match s.dsos l with
    | some dso => if dso.stage = .instantiated then some (moduleLoaded P l dso s) else none
    | none => none
  | .resolve symName direct =>
    if s.started then some (resolveGlobalSymbol P symName direct s).1 else none

/-! ## What the tables are for -/

def State.denotes (s : State L) : Ref L → Option (Def L)
  | .direct d => some d
  | .stub name => (s.asyncifyStubs name).join

/-- The definition that `wasmImports` holds. -/
def State.imported (s : State L) (sym : Name) : Option (Def L) :=
  match s.wasmImports sym with
  | some (.object _ ref) => s.denotes ref
  | _ => none

/-- The definition that the GOT holds. -/
def State.addressed (s : State L) (sym : Name) : Option (Def L) :=
  match s.GOT sym with
  | some ⟨.address ref, _⟩ => s.denotes ref
  | _ => none

/-- The first definition that was made global. -/
def State.first (s : State L) (sym : Name) : Option (Def L) := s.published.lookup sym

/-- The library was asked for with `flags.global`. -/
def State.Global (s : State L) (l : L) : Prop := ∃ dso, s.dsos l = some dso ∧ dso.global

/-- The two tables agree with each other and with the order of the global loads, and libraries that
were loaded only locally are in neither. -/
structure Sound (s : State L) : Prop where
  agree : ∀ sym d d', s.imported sym = some d → s.addressed sym = some d' →
    d = d' ∧ s.first sym = some d
  hidden : ∀ l, ¬ s.Global l → ∀ sym id,
    s.imported sym ≠ some ⟨.lib l, id⟩ ∧ s.addressed sym ≠ some ⟨.lib l, id⟩

/-! ## Careful steps -/

/-- The definitions that `mergeLibSymbols` makes global. -/
def Program.definitions (owner : Owner L) (exports : List Export) : List (Name × Def L) :=
  exports.flatMap fun e => (P.targets e.name).map fun t => (t, ⟨owner, e.id⟩)

/-- The first global definition, when these have joined. -/
def State.firstWith (s : State L) (defs : List (Name × Def L)) (sym : Name) : Option (Def L) :=
  (s.published ++ defs).lookup sym

/-- None of these definitions goes behind the wrapper of a stub that has another, and a symbol that
they define first is not in the GOT with another definition. -/
def PublishOk (s : State L) (defs : List (Name × Def L)) : Prop :=
  ∀ x ∈ defs, (∀ kind name, s.wasmImports x.1 = some (.object kind (.stub name)) →
      s.firstWith defs x.1 = some x.2) ∧
    (isSymbolDefined s x.1 = false → ∀ d, s.addressed x.1 = some d → s.firstWith defs x.1 = some d)

/-- The exports that the GOT takes: addresses that are not internal and that it does not have yet, or
has to replace. -/
def Program.taken (P : Program L) (s : State L) : Bool → List Export → List (Name × Name)
  | _, [] => []
  | replace, e :: es =>
    if P.isInternalSym e.name then P.taken s replace es else
    let (symName, replace) := P.gotName replace e
    if (replace || !existingEntry s symName) && e.kind ≠ .other then
      (symName, e.id) :: P.taken s replace es
    else P.taken s replace es

/-- What the GOT takes is first among the global definitions `first`, or these have none. -/
def TakeOk (s : State L) (first : Name → Option (Def L)) (owner : Owner L) (exports : List Export)
    (replace : Bool) : Prop :=
  ∀ x ∈ P.taken s replace exports, ∀ d, first x.1 = some d → d = ⟨owner, x.2⟩

/-- No step gives a symbol a definition in one table while the other has, or will first get, another;
and the GOT takes nothing from a library that is loaded only locally. -/
def Careful (s : State L) : Action L → Prop
  | .startup => PublishOk s (P.definitions .main P.mainExports) ∧
      TakeOk P s (s.firstWith (P.definitions .main P.mainExports)) .main P.mainExports false
  | .request l global => ∀ dso, s.dsos l = some dso → global → dso.global = false →
      PublishOk s (P.definitions (P.entries l dso).1 (P.entries l dso).2)
  | .instantiate l => TakeOk P s s.first (.lib l) (P.exports l) false ∧
      (P.taken s false (P.exports l) ≠ [] → s.Global l)
  | .report => P.WASM_BIGINT = false → ∀ sym, s.wasmImports (origName sym) ≠ none →
      s.GOT sym ≠ none → existingEntry s sym = false → s.first (origName sym) = s.first sym
  | .tlsInit l => TakeOk P s s.first (.lib l) (P.tlsExports l) true ∧
      (P.taken s true (P.tlsExports l) ≠ [] → s.Global l)
  | .moduleLoaded l => ∀ dso, s.dsos l = some dso → dso.global →
      PublishOk s (P.definitions (.lib l) (addEmJs (P.exports l)))
  | .resolve symName direct => isSymbolDefined s (P.lookedUp s symName direct) = false →
      P.generated (P.lookedUp s symName direct) →
      ∀ d, s.addressed (P.lookedUp s symName direct) = some d →
        d = ⟨.js, P.lookedUp s symName direct⟩

end SymbolTables
