-- SUMMARY: The renaming of imports and exports in the JavaScript of a program, on its syntax tree.
import Mathlib.Logic.Basic

/-!
# Changes of import and export names

`applyImportAndExportNameChanges` walks over the whole tree, the children of a node before the node. A use of an export
is renamed when the walk comes to it, and once more when it comes to the assignment or the call around it.
-/

namespace AcornOptimizer

/-! ## Trees -/

/-- The value of a literal, or a field `name`. `inherited` is the property of `Object.prototype` under a name. -/
inductive Value
  | str (s : String)
  | inherited (name : String)
  | other (raw : String)
deriving DecidableEq, Repr

mutual

/-- The types of nodes that the pass looks at, and the fields it reads. `absent` is the missing `init` of a declarator. -/
inductive Node
  | absent
  | identifier (name : Value)
  | literal (value : Value)
  | member (object property : Node)
  | assignment (left right : Node)
  | call (callee : Node) (args : Nodes)
  | declaration (declarations : Nodes)
  | declarator (id init : Node)
  | object (properties : Nodes)
  | property (computed : Bool) (key value : Node)
  | other (type : String) (children : Nodes)

inductive Nodes
  | nil
  | cons (node : Node) (rest : Nodes)

end

mutual

/-- The walk `fullWalk(node, c)`; `none` is an exception that `c` throws. -/
def Node.fullWalk (c : Node → Option Node) : Node → Option Node
  | .absent => some .absent
  | .identifier name => c (.identifier name)
  | .literal value => c (.literal value)
  | .member obj prop => do
    let obj ← obj.fullWalk c
    let prop ← prop.fullWalk c
    c (.member obj prop)
  | .assignment left right => do
    let left ← left.fullWalk c
    let right ← right.fullWalk c
    c (.assignment left right)
  | .call callee args => do
    let callee ← callee.fullWalk c
    let args ← args.fullWalk c
    c (.call callee args)
  | .declaration declarations => do
    let declarations ← declarations.fullWalk c
    c (.declaration declarations)
  | .declarator id init => do
    let id ← id.fullWalk c
    let init ← init.fullWalk c
    c (.declarator id init)
  | .object properties => do
    let properties ← properties.fullWalk c
    c (.object properties)
  | .property computed key value => do
    let key ← key.fullWalk c
    let value ← value.fullWalk c
    c (.property computed key value)
  | .other type children => do
    let children ← children.fullWalk c
    c (.other type children)

def Nodes.fullWalk (c : Node → Option Node) : Nodes → Option Nodes
  | .nil => some .nil
  | .cons node rest => do
    let node ← node.fullWalk c
    let rest ← rest.fullWalk c
    some (.cons node rest)

end

def Node.isNamed (name : String) : Node → Bool
  | .identifier (.str n) => n == name
  | _ => false

/-- The properties that `getWasmImportsValue` finds, if the node is `wasmImports = {…}` or `var wasmImports = {…}`. -/
def Node.wasmImports? : Node → Option Nodes
  | .assignment left (.object properties) => if left.isNamed "wasmImports" then some properties else none
  | .declaration (.cons (.declarator id (.object properties)) .nil) =>
    if id.isNamed "wasmImports" then some properties else none
  | _ => none

/-- The node with other properties there. -/
def Node.setImports (properties : Nodes) : Node → Node
  | .assignment left _ => .assignment left (.object properties)
  | .declaration (.cons (.declarator id _) rest) => .declaration (.cons (.declarator id (.object properties)) rest)
  | node => node

/-- The name `x`, if the node is `wasmExports['x']`. -/
def Node.isExportUse : Node → Option String
  | .member obj (.literal (.str name)) => if obj.isNamed "wasmExports" then some name else none
  | _ => none

/-- The node with another value of its property. -/
def Node.setLiteralValue (value : Value) : Node → Node
  | .member obj _ => .member obj (.literal value)
  | node => node

/-! ## The pass -/

/-- The properties that every object inherits. They all count as true. -/
def objectPrototype : List String :=
  ["constructor", "__defineGetter__", "__defineSetter__", "hasOwnProperty", "__lookupGetter__", "__lookupSetter__",
    "isPrototypeOf", "propertyIsEnumerable", "toString", "valueOf", "__proto__", "toLocaleString"]

/-- The new names; a name is mapped at most once. -/
abbrev Mapping := String → Option String

/-- The name that `if (mapping[name]) name = mapping[name]` leaves. -/
def Mapping.replace (mapping : Mapping) (name : String) : Value :=
  match mapping name with
  | some new => if new = "" then .str name else .str new
  | none => if name ∈ objectPrototype then .inherited name else .str name

/-- The replacement in a node, where it is the use of an export. -/
def Mapping.setUse (mapping : Mapping) (node : Node) : Node :=
  match node.isExportUse with
  | some name => node.setLiteralValue (mapping.replace name)
  | none => node

/-- The replacement of `item.key.name`, which literals do not have. -/
def Mapping.setName (mapping : Mapping) : Node → Node
  | .identifier (.str name) => .identifier (mapping.replace name)
  | key => key

/-- `...x` has no key. -/
def Mapping.setKey (mapping : Mapping) : Node → Option Node
  | .property computed key value => some (.property computed (mapping.setName key) value)
  | _ => none

def Mapping.setKeys (mapping : Mapping) : Nodes → Option Nodes
  | .nil => some .nil
  | .cons item rest => do
    let item ← mapping.setKey item
    let rest ← mapping.setKeys rest
    some (.cons item rest)

/-- What the pass does at one node, behind its children. -/
def Mapping.change (mapping : Mapping) (node : Node) : Option Node :=
  match node.wasmImports?, node with
  | some properties, node => do
    let properties ← mapping.setKeys properties
    some (node.setImports properties)
  | none, .assignment left value => some (.assignment left (mapping.setUse value))
  | none, .call callee args => some (.call (mapping.setUse callee) args)
  | none, node => some (mapping.setUse node)

def applyImportAndExportNameChanges (mapping : Mapping) (ast : Node) : Option Node :=
  ast.fullWalk mapping.change

/-! ## What it is to do -/

/-- The new name of a mapped name; another name stays. -/
def Mapping.want (mapping : Mapping) (name : String) : String := (mapping name).getD name

def Mapping.renameUse (mapping : Mapping) (node : Node) : Node :=
  match node.isExportUse with
  | some name => node.setLiteralValue (.str (mapping.want name))
  | none => node

/-- A key is a name or a string; `[x]: …` computes another. -/
def Mapping.renameName (mapping : Mapping) : (computed : Bool) → Node → Node
  | false, .identifier (.str name) => .identifier (.str (mapping.want name))
  | _, .literal (.str name) => .literal (.str (mapping.want name))
  | _, key => key

def Mapping.renameKey (mapping : Mapping) : Node → Node
  | .property computed key value => .property computed (mapping.renameName computed key) value
  | item => item

def Mapping.renameKeys (mapping : Mapping) : Nodes → Nodes
  | .nil => .nil
  | .cons item rest => .cons (mapping.renameKey item) (mapping.renameKeys rest)

def Mapping.renameImports (mapping : Mapping) (node : Node) : Node :=
  match node.wasmImports? with
  | some properties => node.setImports (mapping.renameKeys properties)
  | none => node

mutual

/-- The tree in which each use and each key has its new name. -/
def Node.renamed (mapping : Mapping) : Node → Node
  | .absent => .absent
  | .identifier name => .identifier name
  | .literal value => .literal value
  | .member obj prop => mapping.renameUse (.member (obj.renamed mapping) (prop.renamed mapping))
  | .assignment left right => mapping.renameImports (.assignment (left.renamed mapping) (right.renamed mapping))
  | .call callee args => .call (callee.renamed mapping) (args.renamed mapping)
  | .declaration declarations => mapping.renameImports (.declaration (declarations.renamed mapping))
  | .declarator id init => .declarator (id.renamed mapping) (init.renamed mapping)
  | .object properties => .object (properties.renamed mapping)
  | .property computed key value => .property computed (key.renamed mapping) (value.renamed mapping)
  | .other type children => .other type (children.renamed mapping)

def Nodes.renamed (mapping : Mapping) : Nodes → Nodes
  | .nil => .nil
  | .cons node rest => .cons (node.renamed mapping) (rest.renamed mapping)

end

/-! ## Where it does that -/

variable {n n' : Node} {ps ds : Nodes} {key : Node}

section

variable (mapping : Mapping)

/-- A new name is not empty, unless the old one is; a name without a new one is no property of every object. -/
def Mapping.Sound (name : String) : Prop :=
  (mapping name = some "" → name = "") ∧ (mapping name = none → name ∉ objectPrototype)

/-- A further lookup leaves the name as it is. -/
def Mapping.Final (name : String) : Prop :=
  (mapping name = none → name ∉ objectPrototype) ∧ ∀ new, mapping name = some new → new = name ∨ new = ""

def Mapping.SoundName : (computed : Bool) → Node → Prop
  | false, .identifier (.str name) => mapping.Sound name
  | true, .identifier (.str name) => mapping.Final name
  | _, .literal (.str name) => mapping.want name = name
  | _, _ => True

def Mapping.SoundKey : Node → Prop
  | .property computed key _ => mapping.SoundName computed key
  | _ => False

def Mapping.SoundKeys : Nodes → Prop
  | .nil => True
  | .cons item rest => mapping.SoundKey item ∧ SoundKeys rest

mutual

def Node.Sound : Node → Prop
  | .absent | .identifier _ | .literal _ => True
  | .member obj prop =>
    obj.Sound ∧ prop.Sound ∧ ∀ name, (Node.member obj prop).isExportUse = some name → mapping.Sound name
  | .assignment left right =>
    left.Sound ∧ right.Sound ∧ (∀ name, right.isExportUse = some name → mapping.Final (mapping.want name)) ∧
      ∀ properties, (Node.assignment left right).wasmImports? = some properties → mapping.SoundKeys properties
  | .call callee args =>
    callee.Sound ∧ args.Sound ∧ ∀ name, callee.isExportUse = some name → mapping.Final (mapping.want name)
  | .declaration declarations =>
    declarations.Sound ∧
      ∀ properties, (Node.declaration declarations).wasmImports? = some properties → mapping.SoundKeys properties
  | .declarator id init => id.Sound ∧ init.Sound
  | .object properties => properties.Sound
  | .property _ key value => key.Sound ∧ value.Sound
  | .other _ children => children.Sound

def Nodes.Sound : Nodes → Prop
  | .nil => True
  | .cons node rest => node.Sound ∧ rest.Sound

end

/-! ## Lookups -/

theorem Mapping.replace_eq_want {name : String} :
    mapping.replace name = .str (mapping.want name) ↔ mapping.Sound name := by
  unfold Mapping.replace Mapping.want Mapping.Sound
  cases h : mapping name with
  | none => by_cases hp : name ∈ objectPrototype <;> simp [hp]
  | some new => by_cases hn : new = "" <;> simp [hn]

theorem Mapping.replace_eq_self {name : String} : mapping.replace name = .str name ↔ mapping.Final name := by
  unfold Mapping.replace Mapping.Final
  cases h : mapping name with
  | none => by_cases hp : name ∈ objectPrototype <;> simp [hp]
  | some new => by_cases hn : new = "" <;> simp [hn]

theorem Node.isNamed_iff {name : String} : n.isNamed name = true ↔ n = .identifier (.str name) := by
  cases n with
  | identifier v => cases v <;> simp [isNamed]
  | _ => simp [isNamed]

/-- The use of an export. -/
def use (name : Value) : Node := .member (.identifier (.str "wasmExports")) (.literal name)

theorem Node.isExportUse_eq {name : String} : n.isExportUse = some name ↔ n = use (.str name) := by
  constructor
  · intro h
    unfold isExportUse at h
    split at h
    · next obj x =>
      obtain ⟨hobj, h⟩ := Option.ite_none_right_eq_some.1 h
      obtain rfl := Option.some.inj h
      rw [isNamed_iff.1 hobj]
      rfl
    · cases h
  · rintro rfl
    rfl

theorem Mapping.setUse_use (name : String) : mapping.setUse (use (.str name)) = use (mapping.replace name) := rfl

theorem Mapping.setUse_eq (h : n.isExportUse = none) : mapping.setUse n = n := by
  unfold Mapping.setUse
  rw [h]

theorem Mapping.renameUse_eq (h : n.isExportUse = none) : mapping.renameUse n = n := by
  unfold Mapping.renameUse
  rw [h]

theorem Mapping.renameImports_eq (h : n.wasmImports? = none) : mapping.renameImports n = n := by
  unfold Mapping.renameImports
  rw [h]

/-! ## Kinds of nodes -/

theorem Mapping.change_assignment {l r : Node} (h : (Node.assignment l r).wasmImports? = none) :
    mapping.change (.assignment l r) = some (.assignment l (mapping.setUse r)) := by
  unfold Mapping.change
  rw [h]

theorem Mapping.change_declaration (h : (Node.declaration ds).wasmImports? = none) :
    mapping.change (.declaration ds) = some (.declaration ds) := by
  unfold Mapping.change
  rw [h]
  rfl

theorem Mapping.change_member (obj prop : Node) :
    mapping.change (.member obj prop) = some (mapping.setUse (.member obj prop)) := rfl

theorem Mapping.change_call (f : Node) (args : Nodes) :
    mapping.change (.call f args) = some (.call (mapping.setUse f) args) := rfl

theorem Node.setLiteralValue_ctorIdx (v : Value) (n : Node) : (n.setLiteralValue v).ctorIdx = n.ctorIdx := by
  unfold setLiteralValue
  split <;> rfl

theorem Node.setImports_ctorIdx (ps : Nodes) (n : Node) : (n.setImports ps).ctorIdx = n.ctorIdx := by
  unfold setImports
  split <;> rfl

theorem Mapping.change_ctorIdx (h : mapping.change n = some n') : n'.ctorIdx = n.ctorIdx := by
  unfold Mapping.change at h
  split at h
  · obtain ⟨ps, -, h⟩ := Option.bind_eq_some_iff.1 h
    obtain rfl := Option.some.inj h
    exact Node.setImports_ctorIdx ps _
  · obtain rfl := Option.some.inj h
    rfl
  · obtain rfl := Option.some.inj h
    rfl
  · obtain rfl := Option.some.inj h
    unfold Mapping.setUse
    split
    · exact Node.setLiteralValue_ctorIdx _ _
    · rfl

theorem Node.fullWalk_ctorIdx (h : n.fullWalk mapping.change = some n') : n'.ctorIdx = n.ctorIdx := by
  cases n with
  | absent =>
    obtain rfl := Option.some.inj h
    rfl
  | identifier | literal => exact mapping.change_ctorIdx h
  | member | assignment | call | declarator | property =>
    obtain ⟨_, -, h⟩ := Option.bind_eq_some_iff.1 h
    obtain ⟨_, -, h⟩ := Option.bind_eq_some_iff.1 h
    exact (mapping.change_ctorIdx h).trans rfl
  | declaration | object | other =>
    obtain ⟨_, -, h⟩ := Option.bind_eq_some_iff.1 h
    exact (mapping.change_ctorIdx h).trans rfl

theorem Node.renamed_ctorIdx (n : Node) : (n.renamed mapping).ctorIdx = n.ctorIdx := by
  cases n with
  | member =>
    unfold renamed Mapping.renameUse
    split
    · exact setLiteralValue_ctorIdx _ _
    · rfl
  | assignment | declaration =>
    unfold renamed Mapping.renameImports
    split
    · exact (setImports_ctorIdx _ _).trans rfl
    · rfl
  | _ => rfl

mutual

/-- What a change of `n` to `n'` leaves of it, for the node around it to see. -/
def Node.Similar (n : Node) : Node → Prop
  | .identifier v => n = .identifier v
  | .literal v => n = .literal v
  | .object _ => ∃ ps, n = .object ps
  | .declarator id' init' => ∃ id init, n = .declarator id init ∧ id.Similar id' ∧ init.Similar init'
  | _ => True

def Nodes.Similar (ns : Nodes) : Nodes → Prop
  | .nil => ns = .nil
  | .cons n' rest' => ∃ n rest, ns = .cons n rest ∧ n.Similar n' ∧ rest.Similar rest'

end

mutual

theorem Node.similar_fullWalk (n : Node) {n' : Node} (h : n.fullWalk mapping.change = some n') : n.Similar n' := by
  have hkind := Node.fullWalk_ctorIdx mapping h
  cases n with
  | absent | identifier | literal =>
    obtain rfl := Option.some.inj h
    first | exact trivial | exact rfl
  | object ps =>
    obtain ⟨ps', -, h⟩ := Option.bind_eq_some_iff.1 h
    obtain rfl := Option.some.inj h
    exact ⟨ps, rfl⟩
  | declarator id init =>
    obtain ⟨id', hid, h⟩ := Option.bind_eq_some_iff.1 h
    obtain ⟨init', hinit, h⟩ := Option.bind_eq_some_iff.1 h
    obtain rfl := Option.some.inj h
    exact ⟨id, init, rfl, id.similar_fullWalk hid, init.similar_fullWalk hinit⟩
  | _ => cases n' <;> first | exact trivial | cases hkind

theorem Nodes.similar_fullWalk : (ns : Nodes) → ∀ {ns'}, ns.fullWalk mapping.change = some ns' → ns.Similar ns'
  | .nil, ns', h => by
    obtain rfl := Option.some.inj h
    exact rfl
  | .cons n rest, ns', h => by
    obtain ⟨n', hn, h⟩ := Option.bind_eq_some_iff.1 h
    obtain ⟨rest', hrest, h⟩ := Option.bind_eq_some_iff.1 h
    obtain rfl := Option.some.inj h
    exact ⟨n, rest, rfl, n.similar_fullWalk hn, rest.similar_fullWalk hrest⟩

end

mutual

theorem Node.similar_renamed (n : Node) : n.Similar (n.renamed mapping) := by
  have hkind := Node.renamed_ctorIdx mapping n
  cases n with
  | absent | identifier | literal => first | exact trivial | exact rfl
  | object ps => exact ⟨ps, rfl⟩
  | declarator id init => exact ⟨id, init, rfl, id.similar_renamed, init.similar_renamed⟩
  | _ =>
    revert hkind
    generalize Node.renamed mapping _ = n'
    intro hkind
    cases n' <;> first | exact trivial | cases hkind

theorem Nodes.similar_renamed : (ns : Nodes) → ns.Similar (ns.renamed mapping)
  | .nil => rfl
  | .cons n rest => ⟨n, rest, rfl, n.similar_renamed, rest.similar_renamed⟩

end

theorem Node.wasmImports_assignment {l r : Node} :
    (Node.assignment l r).wasmImports? = some ps ↔ l = .identifier (.str "wasmImports") ∧ r = .object ps := by
  constructor
  · intro h
    unfold wasmImports? at h
    split at h
    · next heq =>
      obtain ⟨rfl, rfl⟩ := Node.assignment.inj heq
      obtain ⟨hl, h⟩ := Option.ite_none_right_eq_some.1 h
      exact ⟨isNamed_iff.1 hl, congrArg _ (Option.some.inj h)⟩
    · next heq => cases heq
    · cases h
  · rintro ⟨rfl, rfl⟩
    rfl

theorem Node.wasmImports_declaration :
    (Node.declaration ds).wasmImports? = some ps ↔
      ds = .cons (.declarator (.identifier (.str "wasmImports")) (.object ps)) .nil := by
  constructor
  · intro h
    unfold wasmImports? at h
    split at h
    · next heq => cases heq
    · next heq =>
      obtain rfl := Node.declaration.inj heq
      obtain ⟨hid, h⟩ := Option.ite_none_right_eq_some.1 h
      rw [isNamed_iff.1 hid, Option.some.inj h]
    · cases h
  · rintro rfl
    rfl

theorem Node.Similar.use_none {o p o' p' : Node} (ho : o.Similar o') (hp : p.Similar p')
    (h : (Node.member o p).isExportUse = none) : (Node.member o' p').isExportUse = none := by
  apply Option.eq_none_iff_forall_ne_some.2
  intro name hname
  obtain ⟨rfl, rfl⟩ := Node.member.inj (Node.isExportUse_eq.1 hname)
  obtain rfl : o = _ := ho
  obtain rfl : p = _ := hp
  cases h

theorem Node.Similar.imports_none {l r l' r' : Node} (hl : l.Similar l') (hr : r.Similar r')
    (h : (Node.assignment l r).wasmImports? = none) : (Node.assignment l' r').wasmImports? = none := by
  apply Option.eq_none_iff_forall_ne_some.2
  intro ps' hps
  obtain ⟨rfl, rfl⟩ := Node.wasmImports_assignment.1 hps
  obtain rfl : l = _ := hl
  obtain ⟨ps, rfl⟩ := hr
  cases h

theorem Nodes.Similar.imports_none {ds' : Nodes} (hds : ds.Similar ds')
    (h : (Node.declaration ds).wasmImports? = none) : (Node.declaration ds').wasmImports? = none := by
  apply Option.eq_none_iff_forall_ne_some.2
  intro ps' hps
  obtain rfl := Node.wasmImports_declaration.1 hps
  obtain ⟨_, _, rfl, ⟨id, init, rfl, hid, hinit⟩, hnil⟩ := hds
  obtain rfl : id = _ := hid
  obtain ⟨ps, rfl⟩ := hinit
  obtain rfl : _ = Nodes.nil := hnil
  cases h

/-- The walk of a node that is no use leaves none. -/
theorem Node.fullWalk_use_none (h : n.fullWalk mapping.change = some n') (hnone : n.isExportUse = none) :
    n'.isExportUse = none := by
  have hkind := fullWalk_ctorIdx mapping h
  cases n with
  | member o p =>
    obtain ⟨o', ho, h⟩ := Option.bind_eq_some_iff.1 h
    obtain ⟨p', hp, h⟩ := Option.bind_eq_some_iff.1 h
    have hnone' := (similar_fullWalk mapping o ho).use_none (similar_fullWalk mapping p hp) hnone
    rw [mapping.change_member, mapping.setUse_eq hnone'] at h
    obtain rfl := Option.some.inj h
    exact hnone'
  | _ => cases n' <;> first | exact rfl | cases hkind

/-! ## Uses and keys -/

theorem bind_eq {α β : Type} {f : α → β} {x : Option α} {a : α} (hf : ∀ {a a'}, f a = f a' → a = a') :
    (do let a ← x; some (f a)) = some (f a) ↔ x = some a := by
  constructor
  · intro h
    obtain ⟨a', rfl, h⟩ := Option.bind_eq_some_iff.1 h
    rw [hf (Option.some.inj h)]
  · rintro rfl
    rfl

theorem bind_bind_eq {α β γ : Type} {f : α → β → γ} {x : Option α} {y : Option β} {a : α} {b : β}
    (hf : ∀ {a b a' b'}, f a b = f a' b' → a = a' ∧ b = b') :
    (do let a ← x; let b ← y; some (f a b)) = some (f a b) ↔ x = some a ∧ y = some b := by
  constructor
  · intro h
    obtain ⟨a', hx, h⟩ := Option.bind_eq_some_iff.1 h
    obtain ⟨b', hy, h⟩ := Option.bind_eq_some_iff.1 h
    obtain ⟨rfl, rfl⟩ := hf (Option.some.inj h)
    exact ⟨hx, hy⟩
  · rintro ⟨rfl, rfl⟩
    rfl

theorem fullWalk_use (name : String) :
    (use (.str name)).fullWalk mapping.change = some (use (mapping.replace name)) := rfl

theorem sound_use {name : String} : (use (.str name)).Sound mapping ↔ mapping.Sound name := by
  constructor
  · intro h
    exact h.2.2 name rfl
  · intro h
    refine ⟨trivial, trivial, fun x hx => ?_⟩
    obtain rfl := Option.some.inj hx
    exact h

/-- A use under an assignment or a call is looked up twice. -/
theorem setUse_replace {name : String} :
    mapping.setUse (use (mapping.replace name)) = use (.str (mapping.want name)) ↔
      mapping.Sound name ∧ mapping.Final (mapping.want name) := by
  by_cases hsound : mapping.Sound name
  · rw [mapping.replace_eq_want.2 hsound, mapping.setUse_use, ← mapping.replace_eq_self]
    constructor
    · intro h
      exact ⟨hsound, Node.literal.inj (Node.member.inj h).2⟩
    · intro h
      exact congrArg use h.2
  · apply iff_of_false _ (fun h => hsound h.1)
    unfold Mapping.Sound at hsound
    unfold Mapping.replace Mapping.want
    cases h : mapping name with
    | none =>
      have hin : name ∈ objectPrototype := by simpa [h] using hsound
      simp [hin, use, Mapping.setUse, Node.isExportUse]
    | some new =>
      obtain ⟨rfl, hne⟩ : new = "" ∧ name ≠ "" := by simpa [h] using hsound
      simp [h, use, Mapping.setUse, Mapping.replace, Node.isExportUse, Node.isNamed, Node.setLiteralValue, hne]

theorem setUse_eq_renamed (h : n.fullWalk mapping.change = some n')
    (ih : n.fullWalk mapping.change = some (n.renamed mapping) ↔ n.Sound mapping) :
    mapping.setUse n' = n.renamed mapping ↔
      n.Sound mapping ∧ ∀ name, n.isExportUse = some name → mapping.Final (mapping.want name) := by
  cases huse : n.isExportUse with
  | none =>
    rw [mapping.setUse_eq (Node.fullWalk_use_none mapping h huse), ← ih, h, Option.some_inj]
    exact (and_iff_left (fun _ hname => nomatch hname)).symm
  | some name =>
    obtain rfl := Node.isExportUse_eq.1 huse
    obtain rfl := Option.some.inj ((fullWalk_use mapping name).symm.trans h)
    refine (setUse_replace mapping).trans (and_congr (sound_use mapping).symm ?_)
    constructor
    · intro hfinal x hx
      obtain rfl := Option.some.inj hx
      exact hfinal
    · intro hfinal
      exact hfinal name rfl

theorem setName_of_ne (h : ∀ v, key ≠ .identifier v) : mapping.setName key = key := by
  cases key with
  | identifier v => exact absurd rfl (h v)
  | _ => rfl

theorem renameName_of_ne (computed : Bool) (h : ∀ v, key ≠ .identifier v) (h' : ∀ v, key ≠ .literal v) :
    mapping.renameName computed key = key := by
  cases key with
  | identifier v => exact absurd rfl (h v)
  | literal v => exact absurd rfl (h' v)
  | _ => cases computed <;> rfl

theorem soundName_of_ne (computed : Bool) (h : ∀ v, key ≠ .identifier v) (h' : ∀ v, key ≠ .literal v) :
    mapping.SoundName computed key := by
  cases key with
  | identifier v => exact absurd rfl (h v)
  | literal v => exact absurd rfl (h' v)
  | _ => cases computed <;> exact trivial

theorem setName_eq {key' : Node} (computed : Bool) (h : key.fullWalk mapping.change = some key') :
    mapping.setName key' = mapping.renameName computed (key.renamed mapping) ↔
      key' = key.renamed mapping ∧ mapping.SoundName computed key := by
  by_cases hident : ∃ v, key = .identifier v
  · obtain ⟨v, rfl⟩ := hident
    obtain rfl : key' = .identifier v := (Option.some.inj h).symm
    refine Iff.trans ?_ (and_iff_right rfl).symm
    cases v with
    | str name =>
      cases computed with
      | false => exact Node.identifier.injEq _ _ ▸ mapping.replace_eq_want
      | true => exact Node.identifier.injEq _ _ ▸ mapping.replace_eq_self
    | _ => cases computed <;> exact iff_of_true rfl trivial
  · by_cases hlit : ∃ v, key = .literal v
    · obtain ⟨v, rfl⟩ := hlit
      obtain rfl : key' = .literal v := (Option.some.inj h).symm
      refine Iff.trans ?_ (and_iff_right rfl).symm
      cases v with
      | str name =>
        cases computed <;> simp [Mapping.setName, Mapping.renameName, Mapping.SoundName, Node.renamed, eq_comm]
      | _ => cases computed <;> exact iff_of_true rfl trivial
    · -- other keys keep their kind, and both renamings leave them
      rw [not_exists] at hident hlit
      have hkey' : ∀ v, key' ≠ .identifier v := by
        rintro v rfl
        exact hident v (Node.similar_fullWalk mapping key h)
      have hsimilar := Node.similar_renamed mapping key
      have hident' : ∀ v, key.renamed mapping ≠ .identifier v := by
        intro v hv
        rw [hv] at hsimilar
        exact hident v hsimilar
      have hlit' : ∀ v, key.renamed mapping ≠ .literal v := by
        intro v hv
        rw [hv] at hsimilar
        exact hlit v hsimilar
      rw [setName_of_ne mapping hkey', renameName_of_ne mapping computed hident' hlit']
      exact (and_iff_left (soundName_of_ne mapping computed hident hlit)).symm

theorem setKey_eq {item item' : Node} (h : item.fullWalk mapping.change = some item') :
    mapping.setKey item' = some (mapping.renameKey (item.renamed mapping)) ↔
      item' = item.renamed mapping ∧ mapping.SoundKey item := by
  have hkind := Node.fullWalk_ctorIdx mapping h
  cases item with
  | property computed key value =>
    obtain ⟨key', hkey, h⟩ := Option.bind_eq_some_iff.1 h
    obtain ⟨value', hvalue, h⟩ := Option.bind_eq_some_iff.1 h
    obtain rfl : item' = .property computed key' value' := (Option.some.inj h).symm
    have hname := setName_eq mapping computed hkey
    simp only [Mapping.setKey, Mapping.renameKey, Node.renamed, Mapping.SoundKey, Option.some_inj, Node.property.injEq,
      hname, true_and]
    rw [and_right_comm]
  | _ =>
    have hnone : mapping.setKey item' = none := by
      cases item' <;> first | rfl | cases hkind
    rw [hnone]
    exact iff_of_false (fun h => nomatch h) (fun h => h.2)

theorem setKeys_eq : (ps : Nodes) → ∀ {ps'}, ps.fullWalk mapping.change = some ps' →
    (mapping.setKeys ps' = some (mapping.renameKeys (ps.renamed mapping)) ↔
      ps' = ps.renamed mapping ∧ mapping.SoundKeys ps)
  | .nil, ps', h => by
    obtain rfl : ps' = .nil := (Option.some.inj h).symm
    exact iff_of_true rfl ⟨rfl, trivial⟩
  | .cons item rest, ps', h => by
    obtain ⟨item', hitem, h⟩ := Option.bind_eq_some_iff.1 h
    obtain ⟨rest', hrest, h⟩ := Option.bind_eq_some_iff.1 h
    obtain rfl : ps' = .cons item' rest' := (Option.some.inj h).symm
    refine (bind_bind_eq Nodes.cons.inj).trans ?_
    rw [setKey_eq mapping hitem, setKeys_eq rest hrest]
    simp only [Nodes.renamed, Mapping.SoundKeys, Nodes.cons.injEq]
    exact and_and_and_comm

/-- The properties are walked over, and then their keys are renamed. -/
theorem bind_setKeys {f : Nodes → Node} (hf : ∀ {q q'}, f q = f q' → q = q')
    (ih : ps.fullWalk mapping.change = some (ps.renamed mapping) ↔ ps.Sound mapping) :
    (do
      let ps ← ps.fullWalk mapping.change
      let ps ← mapping.setKeys ps
      some (f ps)) = some (f (mapping.renameKeys (ps.renamed mapping))) ↔ ps.Sound mapping ∧ mapping.SoundKeys ps := by
  rw [← ih]
  constructor
  · intro h
    obtain ⟨ps', hwalk, h⟩ := Option.bind_eq_some_iff.1 h
    obtain ⟨rfl, hkeys⟩ := (setKeys_eq mapping ps hwalk).1 ((bind_eq hf).1 h)
    exact ⟨hwalk, hkeys⟩
  · rintro ⟨hwalk, hkeys⟩
    rw [hwalk]
    exact (bind_eq hf).2 ((setKeys_eq mapping ps hwalk).2 ⟨rfl, hkeys⟩)

/-! ## The whole tree -/

theorem fullWalk_member {obj prop : Node}
    (ho : obj.fullWalk mapping.change = some (obj.renamed mapping) ↔ obj.Sound mapping)
    (hp : prop.fullWalk mapping.change = some (prop.renamed mapping) ↔ prop.Sound mapping) :
    (Node.member obj prop).fullWalk mapping.change = some ((Node.member obj prop).renamed mapping) ↔
      (Node.member obj prop).Sound mapping := by
  cases huse : (Node.member obj prop).isExportUse with
  | some name =>
    obtain ⟨rfl, rfl⟩ := Node.member.inj (Node.isExportUse_eq.1 huse)
    apply Iff.trans _ (sound_use mapping).symm
    apply Iff.trans _ mapping.replace_eq_want
    constructor
    · intro h
      exact Node.literal.inj (Node.member.inj (Option.some.inj h)).2
    · intro h
      exact congrArg (fun v => some (use v)) h
  | none =>
    have hrenamed := (obj.similar_renamed mapping).use_none (prop.similar_renamed mapping) huse
    have hsound : (Node.member obj prop).Sound mapping ↔ obj.Sound mapping ∧ prop.Sound mapping := by
      rw [Node.Sound, huse]
      exact and_congr_right fun _ => and_iff_left (fun _ hname => nomatch hname)
    rw [hsound, ← ho, ← hp, Node.fullWalk, Node.renamed, mapping.renameUse_eq hrenamed]
    constructor
    · intro h
      obtain ⟨obj', hobj, h⟩ := Option.bind_eq_some_iff.1 h
      obtain ⟨prop', hprop, h⟩ := Option.bind_eq_some_iff.1 h
      have hnone := (obj.similar_fullWalk mapping hobj).use_none (prop.similar_fullWalk mapping hprop) huse
      rw [mapping.change_member, mapping.setUse_eq hnone] at h
      obtain ⟨rfl, rfl⟩ := Node.member.inj (Option.some.inj h)
      exact ⟨hobj, hprop⟩
    · rintro ⟨hobj, hprop⟩
      rw [hobj, hprop]
      exact congrArg some (mapping.setUse_eq hrenamed)

theorem fullWalk_assignment {l r : Node}
    (hl : l.fullWalk mapping.change = some (l.renamed mapping) ↔ l.Sound mapping)
    (hr : r.fullWalk mapping.change = some (r.renamed mapping) ↔ r.Sound mapping)
    (himp : (Node.assignment l r).wasmImports? = none) :
    (Node.assignment l r).fullWalk mapping.change = some ((Node.assignment l r).renamed mapping) ↔
      (Node.assignment l r).Sound mapping := by
  have hsound : (Node.assignment l r).Sound mapping ↔ l.Sound mapping ∧ r.Sound mapping ∧
      ∀ name, r.isExportUse = some name → mapping.Final (mapping.want name) := by
    rw [Node.Sound, himp]
    exact and_congr_right fun _ => and_congr_right fun _ => and_iff_left (fun _ hname => nomatch hname)
  have hrenamed := (l.similar_renamed mapping).imports_none (r.similar_renamed mapping) himp
  rw [hsound, Node.fullWalk, Node.renamed, mapping.renameImports_eq hrenamed]
  constructor
  · intro h
    obtain ⟨l', hleft, h⟩ := Option.bind_eq_some_iff.1 h
    obtain ⟨r', hright, h⟩ := Option.bind_eq_some_iff.1 h
    have hnone := (l.similar_fullWalk mapping hleft).imports_none (r.similar_fullWalk mapping hright) himp
    rw [mapping.change_assignment hnone] at h
    obtain ⟨rfl, hset⟩ := Node.assignment.inj (Option.some.inj h)
    exact ⟨hl.1 hleft, (setUse_eq_renamed mapping hright hr).1 hset⟩
  · rintro ⟨hleft, hright, hfinal⟩
    have hset := (setUse_eq_renamed mapping (hr.2 hright) hr).2 ⟨hright, hfinal⟩
    rw [hl.2 hleft, hr.2 hright]
    apply (mapping.change_assignment hrenamed).trans
    rw [hset]

theorem fullWalk_call {f : Node} {args : Nodes}
    (hf : f.fullWalk mapping.change = some (f.renamed mapping) ↔ f.Sound mapping)
    (hargs : args.fullWalk mapping.change = some (args.renamed mapping) ↔ args.Sound mapping) :
    (Node.call f args).fullWalk mapping.change = some ((Node.call f args).renamed mapping) ↔
      (Node.call f args).Sound mapping := by
  rw [Node.fullWalk, Node.renamed, Node.Sound]
  constructor
  · intro h
    obtain ⟨f', hcallee, h⟩ := Option.bind_eq_some_iff.1 h
    obtain ⟨args', hwalk, h⟩ := Option.bind_eq_some_iff.1 h
    obtain ⟨hset, rfl⟩ := Node.call.inj (Option.some.inj h)
    obtain ⟨hsound, hfinal⟩ := (setUse_eq_renamed mapping hcallee hf).1 hset
    exact ⟨hsound, hargs.1 hwalk, hfinal⟩
  · rintro ⟨hsound, hwalk, hfinal⟩
    have hset := (setUse_eq_renamed mapping (hf.2 hsound) hf).2 ⟨hsound, hfinal⟩
    rw [hf.2 hsound, hargs.2 hwalk]
    apply (mapping.change_call _ _).trans
    rw [hset]

theorem fullWalk_declaration (hds : ds.fullWalk mapping.change = some (ds.renamed mapping) ↔ ds.Sound mapping)
    (himp : (Node.declaration ds).wasmImports? = none) :
    (Node.declaration ds).fullWalk mapping.change = some ((Node.declaration ds).renamed mapping) ↔
      (Node.declaration ds).Sound mapping := by
  have hsound : (Node.declaration ds).Sound mapping ↔ ds.Sound mapping := by
    rw [Node.Sound, himp]
    exact and_iff_left (fun _ hname => nomatch hname)
  have hrenamed := (ds.similar_renamed mapping).imports_none himp
  rw [hsound, Node.fullWalk, Node.renamed, mapping.renameImports_eq hrenamed, ← hds]
  constructor
  · intro h
    obtain ⟨ds', hwalk, h⟩ := Option.bind_eq_some_iff.1 h
    rw [mapping.change_declaration ((ds.similar_fullWalk mapping hwalk).imports_none himp)] at h
    obtain rfl := Node.declaration.inj (Option.some.inj h)
    exact hwalk
  · intro hwalk
    rw [hwalk]
    exact mapping.change_declaration hrenamed

/-- The two forms of an assignment to `wasmImports`. -/
theorem fullWalk_imports (himp : n.wasmImports? = some ps)
    (hps : ps.fullWalk mapping.change = some (ps.renamed mapping) ↔ ps.Sound mapping) :
    n.fullWalk mapping.change = some (n.renamed mapping) ↔ n.Sound mapping := by
  cases n with
  | assignment l r =>
    obtain ⟨rfl, rfl⟩ := Node.wasmImports_assignment.1 himp
    have hsound : (Node.assignment (.identifier (.str "wasmImports")) (.object ps)).Sound mapping ↔
        ps.Sound mapping ∧ mapping.SoundKeys ps := by
      constructor
      · intro h
        exact ⟨h.2.1, h.2.2.2 ps rfl⟩
      · intro h
        refine ⟨trivial, h.1, fun _ hname => ?_, fun ps' hps' => ?_⟩
        · cases hname
        obtain rfl := Option.some.inj hps'
        exact h.2
    rw [hsound, ← bind_setKeys mapping (fun h => Node.object.inj (Node.assignment.inj h).2) hps]
    simp only [Node.fullWalk]
    cases ps.fullWalk mapping.change <;> exact Iff.rfl
  | declaration ds =>
    obtain rfl := Node.wasmImports_declaration.1 himp
    have hsound : (Node.declaration (.cons (.declarator (.identifier (.str "wasmImports")) (.object ps)) .nil)).Sound
        mapping ↔ ps.Sound mapping ∧ mapping.SoundKeys ps := by
      constructor
      · intro h
        exact ⟨h.1.1.2, h.2 ps rfl⟩
      · intro h
        refine ⟨⟨⟨trivial, h.1⟩, trivial⟩, fun ps' hps' => ?_⟩
        obtain rfl := Option.some.inj hps'
        exact h.2
    rw [hsound, ← bind_setKeys mapping
      (fun h => Node.object.inj (Node.declarator.inj (Nodes.cons.inj (Node.declaration.inj h)).1).2) hps]
    simp only [Node.fullWalk, Nodes.fullWalk]
    cases ps.fullWalk mapping.change <;> exact Iff.rfl
  | _ => cases himp

theorem fullWalk_properties (himp : (Node.declaration ds).wasmImports? = some ps)
    (hds : ds.fullWalk mapping.change = some (ds.renamed mapping) ↔ ds.Sound mapping) :
    ps.fullWalk mapping.change = some (ps.renamed mapping) ↔ ps.Sound mapping := by
  obtain rfl := Node.wasmImports_declaration.1 himp
  refine Iff.trans ?_ (hds.trans ⟨fun h => h.1.2, fun h => ⟨⟨trivial, h⟩, trivial⟩⟩)
  constructor
  · intro h
    simp only [Nodes.fullWalk, Node.fullWalk]
    rw [h]
    rfl
  · intro h
    have hd := ((bind_bind_eq Nodes.cons.inj).1 h).1
    have hobject := ((bind_bind_eq Node.declarator.inj).1 hd).2
    exact (bind_eq Node.object.inj).1 hobject

mutual

theorem Node.fullWalk_eq (n : Node) : n.fullWalk mapping.change = some (n.renamed mapping) ↔ n.Sound mapping := by
  cases n with
  | absent | identifier | literal => exact iff_of_true rfl trivial
  | member obj prop => exact fullWalk_member mapping obj.fullWalk_eq prop.fullWalk_eq
  | assignment l r =>
    cases himp : (Node.assignment l r).wasmImports? with
    | some ps =>
      obtain ⟨rfl, rfl⟩ := Node.wasmImports_assignment.1 himp
      exact fullWalk_imports mapping himp ps.fullWalk_eq
    | none => exact fullWalk_assignment mapping l.fullWalk_eq r.fullWalk_eq himp
  | call f args => exact fullWalk_call mapping f.fullWalk_eq args.fullWalk_eq
  | declaration ds =>
    cases himp : (Node.declaration ds).wasmImports? with
    | some ps => exact fullWalk_imports mapping himp (fullWalk_properties mapping himp ds.fullWalk_eq)
    | none => exact fullWalk_declaration mapping ds.fullWalk_eq himp
  | declarator id init => exact (bind_bind_eq Node.declarator.inj).trans (and_congr id.fullWalk_eq init.fullWalk_eq)
  | property computed key value =>
    refine (bind_bind_eq fun h => (Node.property.inj h).2).trans (and_congr key.fullWalk_eq value.fullWalk_eq)
  | object ps => exact (bind_eq Node.object.inj).trans ps.fullWalk_eq
  | other t ns => exact (bind_eq fun h => (Node.other.inj h).2).trans ns.fullWalk_eq

theorem Nodes.fullWalk_eq (ns : Nodes) : ns.fullWalk mapping.change = some (ns.renamed mapping) ↔ ns.Sound mapping := by
  cases ns with
  | nil => exact iff_of_true rfl trivial
  | cons n rest => exact (bind_bind_eq Nodes.cons.inj).trans (and_congr n.fullWalk_eq rest.fullWalk_eq)

end

end

/-- A use that is assigned or called has its new name looked up once more, a literal key is never looked up, and an
identifier that computes a key is; a lookup also finds the properties of every object. -/
theorem applyImportAndExportNameChanges_iff (mapping : Mapping) (ast : Node) :
    applyImportAndExportNameChanges mapping ast = some (ast.renamed mapping) ↔ ast.Sound mapping :=
  ast.fullWalk_eq mapping

/-- The new name `b` of `a` is the old name of another export. -/
def chain : Mapping := fun name => if name = "a" then some "b" else if name = "b" then some "c" else none

theorem applyImportAndExportNameChanges_chain :
    (∀ x y new, chain x = some new → chain y = some new → x = y) ∧
      applyImportAndExportNameChanges chain (.call (use (.str "a")) .nil) = some (.call (use (.str "c")) .nil) ∧
      (Node.call (use (.str "a")) .nil).renamed chain = .call (use (.str "b")) .nil := by
  refine ⟨?_, rfl, rfl⟩
  intro x y new hx hy
  unfold chain at hx hy
  grind

end AcornOptimizer
