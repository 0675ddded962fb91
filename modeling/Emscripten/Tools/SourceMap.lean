-- SUMMARY: Source maps of wasm files: build_sourcemap writes one from line entries and function ranges, WasmSourceMap reads it.
import Mathlib.Data.List.Sort
import Mathlib.Data.String.Basic

/-!
# Source maps

The writer keeps the last address, source, line, column and function and writes the differences, each
as a base-64 number of variable length; where no function covers an address that difference is left
out. The reader adds the differences up again. A table from addresses to locations and the sorted list
of the addresses are what a lookup needs.
-/

namespace SourceMap

/-! ## Numbers -/

def VLQ_CHARS : List Char :=
  "ABCDEFGHIJKLMNOPQRSTUVWXYZabcdefghijklmnopqrstuvwxyz0123456789+/".toList

/-- The loop of `encode_vlq`: five bits at a time, the lowest first. -/
def encodeDigits (x : Nat) : List Char :=
  if x > 31 then VLQ_CHARS.getD (32 + x % 32) 'A' :: encodeDigits (x / 32)
  else [VLQ_CHARS.getD x 'A']

def encode_vlq (n : Int) : List Char :=
  encodeDigits (if n ≥ 0 then n.toNat * 2 else (-n).toNat * 2 + 1)

/-- `vlq_map` of the reader. -/
def vlq_map (c : Char) : Option Nat :=
  let chars := VLQ_CHARS ++ ['=']
  if c ∈ chars then some (chars.idxOf c) else none

def signed (value : Nat) : Int :=
  if value % 2 = 1 then -((value / 2 : Nat) : Int) else ((value / 2 : Nat) : Int)

/-- The loop of `decodeVLQ`; a character that is not in the table is an error. -/
def decodeFrom (value shift : Nat) : List Char → Option (List Int)
  | [] => some []
  | c :: cs => (vlq_map c).bind fun integer =>
    let value := value + integer % 32 * 2 ^ shift
    if integer / 32 % 2 = 1 then decodeFrom value (shift + 5) cs
    else (signed value :: ·) <$> decodeFrom 0 0 cs

def decodeVLQ (string : List Char) : Option (List Int) := decodeFrom 0 0 string

/-! ## Writing -/

variable (a : Int)

section Writer

variable {F S : Type}

/-- An entry of the line table. The end of a sequence may be one before its first address. -/
structure LineEntry (F : Type) where
  address : Int
  line : Nat
  column : Nat
  file : F
  valid : -1 ≤ address

structure FuncRange where
  name : String
  low_pc : Int
  high_pc : Int
deriving DecidableEq, Repr

/-- The order in which `extract_func_ranges` sorts: by the start, and the longer one first. -/
def FuncRange.le (r r' : FuncRange) : Prop :=
  r.low_pc < r'.low_pc ∨ r.low_pc = r'.low_pc ∧ r'.high_pc ≤ r.high_pc

instance : DecidableRel FuncRange.le := fun r r' => by unfold FuncRange.le; infer_instance

def sortRanges (ranges : List FuncRange) : List FuncRange := ranges.insertionSort FuncRange.le

def FuncRange.shift (offset : Int) (r : FuncRange) : FuncRange :=
  { r with low_pc := r.low_pc + offset, high_pc := r.high_pc + offset }

/-- `sorted({item.name for item in func_ranges})` -/
def functionNames (ranges : List FuncRange) : List String :=
  (ranges.map FuncRange.name).dedup.insertionSort (· ≤ ·)

/-- The variables of `build_sourcemap`. The ranges that have not begun are those from
`next_func_range_id` on. -/
structure Builder (S : Type) where
  sources : List S
  last_address : Int
  last_source_id : Int
  last_line : Int
  last_column : Int
  last_func_id : Int
  active_funcs : List FuncRange
  pending : List FuncRange

/-- `get_function_id` up to its result: the ranges that cover the address. -/
def advance (address : Int) (b : Builder S) : Builder S := { b with
  active_funcs := (b.active_funcs ++ b.pending.takeWhile fun r => r.low_pc ≤ address).filter
    fun r => r.high_pc > address
  pending := b.pending.dropWhile fun r => r.low_pc ≤ address }

variable (b : Builder S)

@[simp] theorem advance_last_address : (advance a b).last_address = b.last_address := rfl

@[simp] theorem advance_last_source_id : (advance a b).last_source_id = b.last_source_id := rfl

@[simp] theorem advance_last_line : (advance a b).last_line = b.last_line := rfl

@[simp] theorem advance_last_column : (advance a b).last_column = b.last_column := rfl

@[simp] theorem advance_last_func_id : (advance a b).last_func_id = b.last_func_id := rfl

@[simp] theorem advance_sources : (advance a b).sources = b.sources := rfl

/-- `name_to_id` of the innermost of them. -/
def functionId (names : List String) (b : Builder S) : Option Nat :=
  b.active_funcs.getLast?.map fun r => names.idxOf r.name

variable [DecidableEq S]

/-- The turn of the loop for an entry that has a line, and the mapping that it adds. -/
def addEntry (resolve : F → S) (names : List String) (code_section_offset : Int) (e : LineEntry F)
    (b : Builder S) : Builder S × List Char :=
  let column := if e.column = 0 then 1 else e.column
  let address := e.address + code_section_offset
  let source_name := resolve e.file
  let sources := if source_name ∈ b.sources then b.sources else b.sources ++ [source_name]
  let source_id := sources.idxOf source_name
  let b := advance address b
  let mapping := encode_vlq (address - b.last_address) ++ encode_vlq (source_id - b.last_source_id) ++
    encode_vlq (e.line - b.last_line) ++ encode_vlq (column - b.last_column)
  let b := { b with
    sources, last_address := address, last_source_id := source_id, last_line := e.line
    last_column := column }
  match functionId names b with
  | none => (b, mapping)
  | some func_id => ({ b with last_func_id := func_id },
      mapping ++ encode_vlq (func_id - b.last_func_id))

/-- The loop over the entries: the mappings, and the sources in the end. -/
def addEntries (resolve : F → S) (names : List String) (code_section_offset : Int) :
    Builder S → List (LineEntry F) → List (List Char) × List S
  | b, [] => ([], b.sources)
  | b, e :: es =>
    -- entries with line 0 are ignored
    if e.line = 0 then addEntries resolve names code_section_offset b es
    else
      let x := addEntry resolve names code_section_offset e b
      let y := addEntries resolve names code_section_offset x.1 es
      (x.2 :: y.1, y.2)

/-- `','.join(mappings)` -/
def joinMappings : List (List Char) → List Char
  | [] => []
  | [m] => m
  | m :: ms => m ++ ',' :: joinMappings ms

structure SourceMapJson (S : Type) where
  sources : List S
  names : List String
  mappings : List Char

def build_sourcemap (resolve : F → S) (entries : List (LineEntry F)) (func_ranges : List FuncRange)
    (code_section_offset : Int) : SourceMapJson S :=
  let ranges := func_ranges.map (FuncRange.shift code_section_offset)
  let names := functionNames ranges
  let x := addEntries resolve names code_section_offset ⟨[], 0, 0, 1, 1, 0, [], ranges⟩ entries
  ⟨x.2, names, joinMappings x.1⟩

end Writer

/-! ## The code section -/

/-- `read_var_uint` at the front of what is left: the number, how long it was and the rest. It fails
at the end of the file. -/
def read_var_uint : List UInt8 → Option (Nat × Nat × List UInt8)
  | [] => none
  | b :: bs =>
    if b < 128 then some (b.toNat, 1, bs)
    else (read_var_uint bs).map fun x => (b.toNat - 128 + x.1 * 128, x.2.1 + 1, x.2.2)

/-- The loop over the sections, for at most so many of them. -/
def findCodeSection : Nat → Nat → List UInt8 → Option Nat
  | 0, _, _ => none
  | fuel + 1, pos, wasm => match wasm with
    | [] => none
    | section_id :: wasm => (read_var_uint (section_id :: wasm)).bind fun x =>
      (read_var_uint x.2.2).bind fun y =>
        let pos := pos + x.2.1 + y.2.1
        if x.1 = 10 then some pos else findCodeSection fuel (pos + y.1) (y.2.2.drop y.1)

def get_code_section_offset (wasm : List UInt8) : Option Nat :=
  findCodeSection wasm.length 8 (wasm.drop 8)

/-! ## Reading -/

section Reader

variable {S : Type}

structure Location where
  source : Option Int
  line : Int
  column : Int
  func : Option Int
deriving DecidableEq, Repr

/-- The variables of the loop of `parse`, and `self.mappings` and `self.offsets`. -/
structure Parser where
  offset : Int
  src : Int
  line : Int
  col : Int
  func : Int
  mappings : Int → Option Location
  offsets : List Int

/-- The turn of the loop for the numbers of one segment; the first of them has to be there. -/
def addSegment (data : List Int) (p : Parser) : Option Parser :=
  data[0]?.map fun d =>
    let offset := p.offset + d
    let src := data[1]?.map (p.src + ·)
    let line := data[2]?.map (p.line + ·)
    let col := data[3]?.map (p.col + ·)
    let func := if data.length = 5 then data[4]?.map (p.func + ·) else none
    { offset, src := src.getD p.src, line := line.getD p.line, col := col.getD p.col
      func := func.getD p.func
      mappings := Function.update p.mappings offset (some ⟨src, line.getD 0, col.getD 0, func⟩)
      offsets := p.offsets ++ [offset] }

def addSegments : Parser → List (List Char) → Option Parser
  | p, [] => some p
  | p, segment :: segments => (decodeVLQ segment).bind fun data =>
    (addSegment data p).bind fun p => addSegments p segments

/-- `mappings.split(',')` -/
def splitMappings : List Char → List (List Char)
  | [] => [[]]
  | c :: cs =>
    if c = ',' then [] :: splitMappings cs
    else match splitMappings cs with
      | [] => [[c]]
      | m :: ms => (c :: m) :: ms

structure WasmSourceMap (S : Type) where
  sources : List S
  funcs : List String
  mappings : Int → Option Location
  offsets : List Int

def parse (json : SourceMapJson S) : Option (WasmSourceMap S) :=
  (addSegments ⟨0, 0, 1, 1, 0, fun _ => none, []⟩ (splitMappings json.mappings)).map fun p =>
    ⟨json.sources, json.names, p.mappings, p.offsets.insertionSort (· ≤ ·)⟩

/-- The loop of `find_offset`. -/
def bisect (offsets : List Int) (offset : Int) (lo hi : Nat) : Nat :=
  if lo < hi then
    let mid := (lo + hi) / 2
    if offsets.getD mid 0 > offset then bisect offsets offset lo mid
    else bisect offsets offset (mid + 1) hi
  else lo
termination_by hi - lo

/-- `find_offset`; a lower bound of 0 is none. -/
def find_offset (offsets : List Int) (offset : Int) (lower_bound : Option Int) : Option Int :=
  let lo := bisect offsets offset 0 offsets.length
  if lo = 0 then none
  else
    let found := offsets.getD (lo - 1) 0
    match lower_bound with
    | none => some found
    | some b => if b = 0 ∨ found ≥ b then some found else none

/-- Indexing as in Python: from the end where the index is negative. -/
def index {γ : Type} (l : List γ) (i : Int) : Option γ :=
  if 0 ≤ i then l[i.toNat]? else if -i ≤ l.length then l[l.length - (-i).toNat]? else none

structure LocationInfo (S : Type) where
  source : Option S
  line : Int
  column : Int
  func : Option String
deriving DecidableEq, Repr

/-- `LocationInfo` of a location; the names it uses have to be there. -/
def info (sm : WasmSourceMap S) (loc : Location) : Option (LocationInfo S) := do
  let source ← match loc.source with
    | none => some none
    | some i => (index sm.sources i).map some
  let func ← match loc.func with
    | none => some none
    | some i => (index sm.funcs i).map some
  return ⟨source, loc.line, loc.column, func⟩

/-- `lookup`: none where there is no entry, also for an entry at offset 0; or an error. -/
def lookup (sm : WasmSourceMap S) (offset : Int) (lower_bound : Option Int) :
    Option (Option (LocationInfo S)) :=
  match find_offset sm.offsets offset lower_bound with
  | none => some none
  | some nearest =>
    if nearest = 0 then some none
    else (sm.mappings nearest).bind fun loc => (info sm loc).map some

end Reader

/-! ## What a map is for -/

section Meaning

variable {F S : Type}

def FuncRange.Covers (r : FuncRange) (a : Int) : Prop := r.low_pc ≤ a ∧ a < r.high_pc

def FuncRange.Inside (r r' : FuncRange) : Prop := r'.low_pc ≤ r.low_pc ∧ r.high_pc ≤ r'.high_pc

/-- Any two ranges are nested or disjoint. -/
def Laminar (ranges : List FuncRange) : Prop :=
  ∀ r ∈ ranges, ∀ r' ∈ ranges, r.Inside r' ∨ r'.Inside r ∨ r.high_pc ≤ r'.low_pc ∨
    r'.high_pc ≤ r.low_pc

/-- The function of an address: that of a range inside all the ranges that cover it. -/
def InnermostFunction (ranges : List FuncRange) (a : Int) : Option String → Prop
  | none => ∀ r ∈ ranges, ¬ r.Covers a
  | some name => ∃ r ∈ ranges, r.name = name ∧ r.Covers a ∧
      ∀ r' ∈ ranges, r'.Covers a → r.Inside r'

/-- The entries that have a line. -/
def kept (entries : List (LineEntry F)) : List (LineEntry F) := entries.filter (·.line ≠ 0)

/-- The last entry of an address. -/
def entryAt (entries : List (LineEntry F)) (a : Int) : Option (LineEntry F) :=
  ((kept entries).filter (·.address = a)).getLast?

/-- What is shown for an entry. -/
def Shows (resolve : F → S) (ranges : List FuncRange) (e : LineEntry F) (x : LocationInfo S) : Prop :=
  x.source = some (resolve e.file) ∧ x.line = e.line ∧ x.column = max e.column 1 ∧
    InnermostFunction ranges e.address x.func

/-- The map gives back every entry, at its own address and, in a lookup, up to the next one. -/
structure Faithful (resolve : F → S) (entries : List (LineEntry F)) (ranges : List FuncRange)
    (code_section_offset : Int) (sm : WasmSourceMap S) : Prop where
  absent : ∀ a, entryAt entries a = none → sm.mappings (a + code_section_offset) = none
  present : ∀ a e, entryAt entries a = some e → ∃ loc x,
    sm.mappings (a + code_section_offset) = some loc ∧ info sm loc = some x ∧ Shows resolve ranges e x
  none_below : ∀ a, (∀ e ∈ kept entries, a < e.address) →
    lookup sm (a + code_section_offset) none = some none
  nearest : ∀ a, ∀ e ∈ kept entries, e.address ≤ a →
    (∀ e' ∈ kept entries, e'.address ≤ a → e'.address ≤ e.address) →
    entryAt entries e.address = some e →
    ∃ x, lookup sm (a + code_section_offset) none = some (some x) ∧ Shows resolve ranges e x

end Meaning

end SourceMap
