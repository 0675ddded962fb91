-- SUMMARY: The littleEndianHeap pass: JavaScript programs with heap accesses, their meaning on hosts of both byte orders, and their rewriting.
import Mathlib.Algebra.Ring.Int.Defs
import Mathlib.Algebra.Ring.Nat
import Emscripten.Lib.Prog

/-!
# Little-endian heaps

A typed array reads and writes the elements of the heap in the byte order of the host. The pass
`littleEndianHeap` replaces the accesses by calls of helpers, which go through a `DataView` and ask
for little-endian order.

The programs are expressions, statements and functions over the values of JavaScript, which are a
parameter: the model knows of them what the accesses use. Memory is the buffer and the part of it
that the views cover; `growMemViews` renews the views.
-/

namespace LittleEndian

/-! ## Heaps and helpers -/

inductive HeapName
  | HEAP8 | HEAPU8 | HEAP16 | HEAPU16 | HEAP32 | HEAPU32 | HEAP64 | HEAPU64 | HEAPF32 | HEAPF64
deriving DecidableEq, Repr

/-- The element types of typed arrays and of the methods of `DataView`. -/
inductive ElementType
  | i8 | u8 | i16 | u16 | i32 | u32 | i64 | u64 | f32 | f64
deriving DecidableEq, Repr

def ElementType.width : ElementType → Nat
  | .i8 | .u8 => 1
  | .i16 | .u16 => 2
  | .i32 | .u32 | .f32 => 4
  | .i64 | .u64 | .f64 => 8

/-- The typed array that `updateMemoryViews` makes. -/
def HeapName.element : HeapName → ElementType
  | .HEAP8 => .i8
  | .HEAPU8 => .u8
  | .HEAP16 => .i16
  | .HEAPU16 => .u16
  | .HEAP32 => .i32
  | .HEAPU32 => .u32
  | .HEAP64 => .i64
  | .HEAPU64 => .u64
  | .HEAPF32 => .f32
  | .HEAPF64 => .f64

/-- What a call names. The helpers `LE_HEAP_LOAD_…` and `LE_HEAP_STORE_…` are known by the type of
the `DataView` method they call. -/
inductive Callee
  | user (name : String)
  | growMemViews
  | LE_HEAP_LOAD (t : ElementType)
  | LE_HEAP_STORE (t : ElementType)
deriving DecidableEq, Repr

structure Helper where
  width : Nat
  load : Callee
  store : Callee
deriving DecidableEq, Repr

/-- The table `littleEndianHelper`. Accesses to single bytes have no helper. -/
def littleEndianHelper : HeapName → Option Helper
  | .HEAP8 | .HEAPU8 => none
  | .HEAP16 => some ⟨2, .LE_HEAP_LOAD .i16, .LE_HEAP_STORE .i16⟩
  | .HEAPU16 => some ⟨2, .LE_HEAP_LOAD .u16, .LE_HEAP_STORE .u16⟩
  | .HEAP32 => some ⟨4, .LE_HEAP_LOAD .i32, .LE_HEAP_STORE .i32⟩
  | .HEAPU32 => some ⟨4, .LE_HEAP_LOAD .u32, .LE_HEAP_STORE .u32⟩
  | .HEAP64 => some ⟨8, .LE_HEAP_LOAD .i64, .LE_HEAP_STORE .i64⟩
  | .HEAPU64 => some ⟨8, .LE_HEAP_LOAD .u64, .LE_HEAP_STORE .u64⟩
  | .HEAPF32 => some ⟨4, .LE_HEAP_LOAD .f32, .LE_HEAP_STORE .f32⟩
  | .HEAPF64 => some ⟨8, .LE_HEAP_LOAD .f64, .LE_HEAP_STORE .f64⟩

/-! ## Programs -/

inductive BinaryOp
  | mul
  | other (name : String)
deriving DecidableEq, Repr

inductive LogicalOp
  | and | or | nullish
deriving DecidableEq, Repr

inductive UpdateOp
  | increment | decrement
deriving DecidableEq, Repr

inductive AssignOp
  | assign
  | compound (op : BinaryOp)
  | logical (op : LogicalOp)
deriving DecidableEq, Repr

/-- The expressions over the values `V`. A heap access is `HEAPxx[index]`, or
`(growMemViews(), HEAPxx)[index]` when it is grown. -/
inductive Expr (V : Type)
  | literal (v : V)
  | ident (x : String)
  | access (heap : HeapName) (grown : Bool) (index : Expr V)
  | assign (x : String) (op : AssignOp) (value : Expr V)
  | store (heap : HeapName) (grown : Bool) (index : Expr V) (op : AssignOp) (value : Expr V)
  | update (x : String) (op : UpdateOp) (pre : Bool)
  | updateHeap (heap : HeapName) (grown : Bool) (index : Expr V) (op : UpdateOp) (pre : Bool)
  /-- The update of something that is no reference. -/
  | updateValue (e : Expr V) (op : UpdateOp) (pre : Bool)
  | binary (op : BinaryOp) (left right : Expr V)
  | logical (op : LogicalOp) (left right : Expr V)
  | conditional (test consequent alternate : Expr V)
  | sequence (first second : Expr V)
  | call (callee : Callee) (args : List (Expr V))

inductive Stmt (V : Type)
  | expression (e : Expr V)
  | declare (x : String) (init : Option (Expr V))
  | ite (test : Expr V) (consequent alternate : Stmt V)
  | while (test : Expr V) (body : Stmt V)
  | block (first second : Stmt V)
  | empty
  | tryCatch (body handler : Stmt V)
  | ret (e : Expr V)

/-- A function declaration. A parameter may have a default. -/
structure Function (V : Type) where
  name : String
  params : List (String × Option (Expr V))
  body : Stmt V

abbrev Program (V : Type) := List (Function V)

/-! ## The pass -/

section Pass

variable {V : Type} (number : Nat → V)

/-- `multiply(value, by)`. -/
def multiply (value : Expr V) (factor : Nat) : Expr V := .binary .mul value (.literal (number factor))

/-- The first argument of a helper: the byte offset, behind a call of `growMemViews` when the access
was grown. -/
def byteOffset (grown : Bool) (index : Expr V) (width : Nat) : Expr V :=
  if grown then .sequence (.call .growMemViews []) (multiply number index width)
  else multiply number index width

mutual

/-- `littleEndianHeap` on expressions. -/
def rewrite : Expr V → Expr V
  | .literal v => .literal v
  | .ident x => .ident x
  | .access heap grown index =>
    let index := rewrite index
    match littleEndianHelper heap with
    | some helper => .call helper.load [byteOffset number grown index helper.width]
    | none => .access heap grown index
  | .assign x op value => .assign x op (rewrite value)
  | .store heap grown index op value =>
    let value := rewrite value
    match littleEndianHelper heap with
    -- the index is not visited, and the operator is not looked at
    | some helper => .call helper.store [byteOffset number grown index helper.width, value]
    | none => .store heap grown index op value
  | .update x op pre => .update x op pre
  | .updateHeap heap grown index op pre =>
    let index := rewrite index
    match littleEndianHelper heap with
    -- the argument is visited as if it were read
    | some helper => .updateValue (.call helper.load [byteOffset number grown index helper.width]) op pre
    | none => .updateHeap heap grown index op pre
  | .updateValue e op pre => .updateValue (rewrite e) op pre
  | .binary op left right => .binary op (rewrite left) (rewrite right)
  | .logical op left right => .logical op (rewrite left) (rewrite right)
  | .conditional test consequent alternate =>
    .conditional (rewrite test) (rewrite consequent) (rewrite alternate)
  | .sequence first second => .sequence (rewrite first) (rewrite second)
  | .call callee args => .call callee (rewriteArgs args)

def rewriteArgs : List (Expr V) → List (Expr V)
  | [] => []
  | e :: es => rewrite e :: rewriteArgs es

end

/-- `node.id.name.startsWith('LE_ATOMICS_')`. -/
def isAtomicsName (name : String) : Bool := "LE_ATOMICS_".toList.isPrefixOf name.toList

/-- The names of the helpers, whose functions are left as they are. -/
def isHelperName (name : String) : Bool :=
  "LE_HEAP".toList.isPrefixOf name.toList || isAtomicsName name

def rewriteStmt : Stmt V → Stmt V
  | .expression e => .expression (rewrite number e)
  | .declare x init =>
    if isAtomicsName x then .declare x init else .declare x (init.map (rewrite number))
  | .ite test consequent alternate =>
    .ite (rewrite number test) (rewriteStmt consequent) (rewriteStmt alternate)
  | .while test body => .while (rewrite number test) (rewriteStmt body)
  | .block first second => .block (rewriteStmt first) (rewriteStmt second)
  | .empty => .empty
  | .tryCatch body handler => .tryCatch (rewriteStmt body) (rewriteStmt handler)
  | .ret e => .ret (rewrite number e)

/-- The handler of function declarations visits the body only. -/
def rewriteFunction (f : Function V) : Function V :=
  if isHelperName f.name then f else { f with body := rewriteStmt number f.body }

def littleEndianHeap (p : Program V) : Program V := p.map (rewriteFunction number)

end Pass

/-! ## Values and memory -/

inductive JsError
  | TypeError | RangeError | ReferenceError
deriving DecidableEq, Repr

/-- What the accesses use of the values of JavaScript. -/
structure Js where
  Value : Type
  undefined : Value
  isUndefined : Value → Bool
  number : Nat → Value
  isNumber : Value → Bool
  /-- The element of a typed array that a value names as a property key. -/
  element : Value → Option Nat
  /-- `ToIndex` on the argument of a `DataView` method. -/
  toIndex : Value → Except JsError Nat
  binary : BinaryOp → Value → Value → Except JsError Value
  /-- The numeric value of the operand, and the updated value. -/
  update : UpdateOp → Value → Except JsError (Value × Value)
  truthy : Value → Bool
  /-- The left operand decides. -/
  decides : LogicalOp → Value → Bool
  /-- The element that a value is converted to, and the value of an element, in little-endian order. -/
  encode : ElementType → Value → Except JsError (List UInt8)
  decode : ElementType → List UInt8 → Value

/-- What the language says of integral numbers and of elements. -/
structure Js.Lawful (J : Js) : Prop where
  encode_length : ∀ t v bytes, J.encode t v = .ok bytes → bytes.length = t.width
  scale : ∀ v i w, J.isNumber v = true → J.element v = some i → i * w < 2 ^ 53 →
    ∃ p, J.binary .mul v (J.number w) = .ok p ∧ J.toIndex p = .ok (i * w)

/-- The buffer, and how much of it the views cover. -/
structure Memory where
  bytes : List UInt8
  views : Nat
  views_le : views ≤ bytes.length
  length_le : bytes.length ≤ 2 ^ 53

namespace Memory

def read (m : Memory) (offset width : Nat) : List UInt8 := (m.bytes.drop offset).take width

def write (m : Memory) (offset : Nat) (new : List UInt8) : Memory where
  bytes := m.bytes.mapIdx fun j b => if offset ≤ j then new.getD (j - offset) b else b
  views := m.views
  views_le := by
    rw [List.length_mapIdx]
    exact m.views_le
  length_le := by
    rw [List.length_mapIdx]
    exact m.length_le

/-- `growMemViews`, after another thread may have made the buffer longer. -/
def refresh (m : Memory) : Memory where
  bytes := m.bytes
  views := m.bytes.length
  views_le := Nat.le_refl _
  length_le := m.length_le

end Memory

inductive Endian
  | little | big
deriving DecidableEq, Repr

/-- The bytes of an element in the order of the host. -/
def Endian.order (host : Endian) (bytes : List UInt8) : List UInt8 :=
  match host with
  | .little => bytes
  | .big => bytes.reverse

structure State (J : Js) where
  memory : Memory
  globals : String → J.Value
  locals : String → Option J.Value
  /-- Ghost: an index was not the number of an element in its view. -/
  strayed : Bool

/-- Programs run in `Prog`: a crash stands for the fuel that has run out. -/
abbrev Run (J : Js) := Prog (State J) JsError

/-! ## Meaning -/

section Meaning

variable {J : Js}

def readVar (x : String) : Run J J.Value := Prog.gets fun s => (s.locals x).getD (s.globals x)

def writeVar (x : String) (v : J.Value) : Run J Unit := Prog.modify fun s =>
  match s.locals x with
  | some _ => { s with locals := fun y => if y = x then some v else s.locals y }
  | none => { s with globals := fun y => if y = x then v else s.globals y }

def declareVar (x : String) (v : J.Value) : Run J Unit := Prog.modify fun s =>
  { s with locals := fun y => if y = x then some v else s.locals y }

def refreshViews : Run J Unit := Prog.modify fun s => { s with memory := s.memory.refresh }

/-- The element that `key` names in a view of the given length. -/
def inView (view : Nat) (t : ElementType) (key : J.Value) : Option Nat :=
  (J.element key).filter fun i => (i + 1) * t.width ≤ view

/-- The object of an access: the view is looked up before the index is evaluated. -/
def lookView (grown : Bool) : Run J Nat := do
  if grown then refreshViews
  Prog.gets fun s => s.memory.views

def stray : Run J Unit := Prog.modify fun s => { s with strayed := true }

/-- Ghost: note it when the index is not the number of an element in the view. -/
def watch (view : Nat) (t : ElementType) (key : J.Value) : Run J Unit :=
  if J.isNumber key = true ∧ (inView view t key).isSome = true then pure () else stray

def loadElement (host : Endian) (view : Nat) (t : ElementType) (key : J.Value) : Run J J.Value :=
  match inView view t key with
  | none => pure J.undefined
  | some i => Prog.gets fun s => J.decode t (host.order (s.memory.read (i * t.width) t.width))

/-- The value is converted first; out of the view nothing is stored. -/
def storeElement (host : Endian) (view : Nat) (t : ElementType) (key value : J.Value) : Run J Unit := do
  let bytes ← Prog.ofExcept (J.encode t value)
  match inView view t key with
  | none => pure ()
  | some i => Prog.modify fun s => { s with memory := s.memory.write (i * t.width) (host.order bytes) }

/-- `HEAP_DATA_VIEW.get…(byteOffset, true)`. -/
def dataViewGet (t : ElementType) (byteOffset : J.Value) : Run J J.Value := do
  let offset ← Prog.ofExcept (J.toIndex byteOffset)
  let views ← Prog.gets fun s => s.memory.views
  Prog.failIf (views < offset + t.width) .RangeError
  Prog.gets fun s => J.decode t (s.memory.read offset t.width)

/-- `HEAP_DATA_VIEW.set…(byteOffset, value, true)`, which returns nothing. -/
def dataViewSet (t : ElementType) (byteOffset value : J.Value) : Run J J.Value := do
  let offset ← Prog.ofExcept (J.toIndex byteOffset)
  let bytes ← Prog.ofExcept (J.encode t value)
  let views ← Prog.gets fun s => s.memory.views
  Prog.failIf (views < offset + t.width) .RangeError
  Prog.modify fun s => { s with memory := s.memory.write offset bytes }
  pure J.undefined

def applyCallee (callUser : String → List J.Value → Run J J.Value) (callee : Callee)
    (args : List J.Value) : Run J J.Value :=
  match callee with
  | .user name => callUser name args
  | .growMemViews => do
    refreshViews
    pure J.undefined
  | .LE_HEAP_LOAD t => dataViewGet t (args.getD 0 J.undefined)
  | .LE_HEAP_STORE t => dataViewSet t (args.getD 0 J.undefined) (args.getD 1 J.undefined)

/-- An assignment to a reference that is read and written like this. -/
def assignTo (op : AssignOp) (read : Run J J.Value) (write : J.Value → Run J Unit)
    (value : Run J J.Value) : Run J J.Value :=
  match op with
  | .assign => do
    let v ← value
    write v
    pure v
  | .compound op => do
    let old ← read
    let v ← value
    let new ← Prog.ofExcept (J.binary op old v)
    write new
    pure new
  | .logical op => do
    let old ← read
    if J.decides op old then pure old
    else
      let v ← value
      write v
      pure v

def updateOf (op : UpdateOp) (pre : Bool) (read : Run J J.Value) (write : J.Value → Run J Unit) :
    Run J J.Value := do
  let (old, new) ← Prog.ofExcept (J.update op (← read))
  write new
  pure (if pre then new else old)

variable (host : Endian) (callUser : String → List J.Value → Run J J.Value)

mutual

def eval : Expr J.Value → Run J J.Value
  | .literal v => pure v
  | .ident x => readVar x
  | .access heap grown index => do
    let view ← lookView grown
    let key ← eval index
    watch view heap.element key
    loadElement host view heap.element key
  | .assign x op value => assignTo op (readVar x) (writeVar x) (eval value)
  | .store heap grown index op value => do
    let view ← lookView grown
    let key ← eval index
    watch view heap.element key
    assignTo op (loadElement host view heap.element key)
      (fun v => storeElement host view heap.element key v) (eval value)
  | .update x op pre => updateOf op pre (readVar x) (writeVar x)
  | .updateHeap heap grown index op pre => do
    let view ← lookView grown
    let key ← eval index
    watch view heap.element key
    updateOf op pre (loadElement host view heap.element key)
      (fun v => storeElement host view heap.element key v)
  | .updateValue e _ _ => do
    let _ ← eval e
    Prog.fail .ReferenceError
  | .binary op left right => do
    let a ← eval left
    let b ← eval right
    Prog.ofExcept (J.binary op a b)
  | .logical op left right => do
    let a ← eval left
    if J.decides op a then pure a else eval right
  | .conditional test consequent alternate => do
    let c ← eval test
    if J.truthy c then eval consequent else eval alternate
  | .sequence first second => do
    let _ ← eval first
    eval second
  | .call callee args => do
    let vs ← evalArgs args
    applyCallee callUser callee vs

def evalArgs : List (Expr J.Value) → Run J (List J.Value)
  | [] => pure []
  | e :: es => do
    let v ← eval e
    let vs ← evalArgs es
    pure (v :: vs)

end

/-- The rounds of a loop. -/
def loop (fuel : Nat) (test : Run J J.Value) (body : Run J (Option J.Value)) : Run J (Option J.Value) :=
  match fuel with
  | 0 => Prog.crash
  | fuel + 1 => do
    let c ← test
    if J.truthy c then
      match ← body with
      | some v => pure (some v)
      | none => loop fuel test body
    else pure none

/-- A statement may return a value. -/
def exec (fuel : Nat) : Stmt J.Value → Run J (Option J.Value)
  | .expression e => do
    let _ ← eval host callUser e
    pure none
  | .declare x init => do
    let v ← match init with
      | none => pure J.undefined
      | some e => eval host callUser e
    declareVar x v
    pure none
  | .ite test consequent alternate => do
    let c ← eval host callUser test
    if J.truthy c then exec fuel consequent else exec fuel alternate
  | .while test body => loop fuel (eval host callUser test) (exec fuel body)
  | .block first second => do
    match ← exec fuel first with
    | some v => pure (some v)
    | none => exec fuel second
  | .empty => pure none
  | .tryCatch body handler => Prog.attempt (exec fuel body) fun
    | .ok v => pure v
    | .error _ => exec fuel handler
  | .ret e => do
    let v ← eval host callUser e
    pure (some v)

/-- Bind the parameters in order; a default stands for an argument that is missing. -/
def bindParams : List (String × Option (Expr J.Value)) → List J.Value → Run J Unit
  | [], _ => pure ()
  | (x, init) :: params, args => do
    let arg := args.getD 0 J.undefined
    let v ← match init with
      | some e => if J.isUndefined arg then eval host callUser e else pure arg
      | none => pure arg
    declareVar x v
    bindParams params args.tail

end Meaning

/-- The call of a function of the program, with fuel for its loops and for the calls in it. -/
def Program.call {J : Js} (p : Program J.Value) (host : Endian) : Nat → String → List J.Value → Run J J.Value
  | 0, _, _ => Prog.crash
  | fuel + 1, name, args => do
    match p.find? (·.name = name) with
    | none => Prog.fail .ReferenceError
    | some f =>
      let saved ← Prog.gets fun s => s.locals
      Prog.modify fun s => { s with locals := fun _ => none }
      let body : Run J (Option J.Value) := do
        bindParams host (p.call host fuel) f.params args
        exec host (p.call host fuel) fuel f.body
      Prog.attempt body fun r => do
        Prog.modify fun s => { s with locals := saved }
        match r with
        | .ok v => pure (v.getD J.undefined)
        | .error e => Prog.fail e

end LittleEndian
