-- SUMMARY: The programs that littleEndianHeap rewrites correctly, and the runs of what it makes of them.
import Emscripten.Lib.Follows
import Emscripten.Tools.LittleEndian

/-!
# What littleEndianHeap preserves

The pass does not visit every position, and it forgets the operator of an assignment to the heap.
`Program.handled` says of a program that it has no access where the pass does not see it, and no
operator that the pass drops. The output of the pass on such a program, on any host, follows the
program on a little-endian host, as long as every index is the number of an element of its view:
a typed array gives `undefined` for other indices, where a `DataView` throws.
-/

namespace LittleEndian

open Prog

/-! ## Programs that the pass handles -/

def HeapName.narrow (heap : HeapName) : Bool := (littleEndianHelper heap).isNone

theorem narrow_cases (heap : HeapName) :
    (heap.narrow = true ∧ littleEndianHelper heap = none ∧ heap.element.width = 1) ∨
      (heap.narrow = false ∧ littleEndianHelper heap =
        some ⟨heap.element.width, .LE_HEAP_LOAD heap.element, .LE_HEAP_STORE heap.element⟩) := by
  cases heap <;> decide

section Conditions

variable {V : Type}

mutual

/-- Nothing in the expression has to be rewritten. -/
def Expr.narrow : Expr V → Bool
  | .literal _ => true
  | .ident _ => true
  | .access heap _ index => heap.narrow && index.narrow
  | .assign _ _ value => value.narrow
  | .store heap _ index _ value => heap.narrow && index.narrow && value.narrow
  | .update _ _ _ => true
  | .updateHeap heap _ index _ _ => heap.narrow && index.narrow
  | .updateValue e _ _ => e.narrow
  | .binary _ left right => left.narrow && right.narrow
  | .logical _ left right => left.narrow && right.narrow
  | .conditional test consequent alternate => test.narrow && consequent.narrow && alternate.narrow
  | .sequence first second => first.narrow && second.narrow
  | .call _ args => argsNarrow args

def argsNarrow : List (Expr V) → Bool
  | [] => true
  | e :: es => e.narrow && argsNarrow es

end

/-- A store becomes a call that gives nothing: it has to be a plain assignment whose value is not used. -/
def AssignOp.storable (heap : HeapName) (used : Bool) : AssignOp → Bool
  | .assign => heap.narrow || !used
  | _ => heap.narrow

mutual

/-- The pass rewrites the expression correctly, whose value may be `used`. -/
def Expr.handled (used : Bool) : Expr V → Bool
  | .literal _ => true
  | .ident _ => true
  | .access _ _ index => index.handled true
  | .assign _ _ value => value.handled true
  | .store heap _ index op value => index.narrow && value.handled true && op.storable heap used
  | .update _ _ _ => true
  | .updateHeap heap _ index _ _ => heap.narrow && index.handled true
  | .updateValue e _ _ => e.handled false
  | .binary _ left right => left.handled true && right.handled true
  | .logical _ left right => left.handled true && right.handled used
  | .conditional test consequent alternate =>
    test.handled true && consequent.handled used && alternate.handled used
  | .sequence first second => first.handled false && second.handled used
  | .call _ args => argsHandled args

def argsHandled : List (Expr V) → Bool
  | [] => true
  | e :: es => e.handled true && argsHandled es

end

/-- Nothing in the statement has to be rewritten. -/
def Stmt.narrow : Stmt V → Bool
  | .expression e => e.narrow
  | .declare _ init => init.all Expr.narrow
  | .ite test consequent alternate => test.narrow && consequent.narrow && alternate.narrow
  | .while test body => test.narrow && body.narrow
  | .block first second => first.narrow && second.narrow
  | .empty => true
  | .tryCatch body handler => body.narrow && handler.narrow
  | .ret e => e.narrow

def Stmt.handled : Stmt V → Bool
  | .expression e => e.handled false
  | .declare x init => init.all fun e => if isAtomicsName x then e.narrow else e.handled true
  | .ite test consequent alternate => test.handled true && consequent.handled && alternate.handled
  | .while test body => test.handled true && body.handled
  | .block first second => first.handled && second.handled
  | .empty => true
  | .tryCatch body handler => body.handled && handler.handled
  | .ret e => e.handled true

/-- The defaults of parameters are not visited, and neither are the helpers. -/
def Function.handled (f : Function V) : Bool :=
  f.params.all (fun param => param.2.all Expr.narrow) &&
    if isHelperName f.name then f.body.narrow else f.body.handled

def Program.handled (p : Program V) : Bool := p.all Function.handled

/-! ## What is narrow stays as it is -/

mutual

theorem Expr.narrow_handled (e : Expr V) (used : Bool) (h : e.narrow = true) : e.handled used = true := by
  cases e with
  | literal v => rfl
  | ident x => rfl
  | access heap grown index =>
    simp only [Expr.narrow, Bool.and_eq_true] at h
    simp only [Expr.handled]
    exact index.narrow_handled true h.2
  | assign x op value =>
    simp only [Expr.narrow] at h
    simp only [Expr.handled]
    exact value.narrow_handled true h
  | store heap grown index op value =>
    simp only [Expr.narrow, Bool.and_eq_true] at h
    obtain ⟨⟨hheap, hindex⟩, hvalue⟩ := h
    have hop : op.storable heap used = true := by cases op <;> simp [AssignOp.storable, hheap]
    simp only [Expr.handled, hindex, hop, value.narrow_handled true hvalue, Bool.and_self]
  | update x op pre => rfl
  | updateHeap heap grown index op pre =>
    simp only [Expr.narrow, Bool.and_eq_true] at h
    simp only [Expr.handled, h.1, index.narrow_handled true h.2, Bool.and_self]
  | updateValue e op pre =>
    simp only [Expr.narrow] at h
    simp only [Expr.handled]
    exact e.narrow_handled false h
  | binary op left right =>
    simp only [Expr.narrow, Bool.and_eq_true] at h
    simp only [Expr.handled, left.narrow_handled true h.1, right.narrow_handled true h.2, Bool.and_self]
  | logical op left right =>
    simp only [Expr.narrow, Bool.and_eq_true] at h
    simp only [Expr.handled, left.narrow_handled true h.1, right.narrow_handled used h.2, Bool.and_self]
  | conditional test consequent alternate =>
    simp only [Expr.narrow, Bool.and_eq_true] at h
    simp only [Expr.handled, test.narrow_handled true h.1.1, consequent.narrow_handled used h.1.2,
      alternate.narrow_handled used h.2, Bool.and_self]
  | sequence first second =>
    simp only [Expr.narrow, Bool.and_eq_true] at h
    simp only [Expr.handled, first.narrow_handled false h.1, second.narrow_handled used h.2, Bool.and_self]
  | call callee args =>
    simp only [Expr.narrow] at h
    simp only [Expr.handled]
    exact argsNarrow_handled args h

theorem argsNarrow_handled (es : List (Expr V)) (h : argsNarrow es = true) : argsHandled es = true := by
  cases es with
  | nil => rfl
  | cons e es =>
    simp only [argsNarrow, Bool.and_eq_true] at h
    simp only [argsHandled, e.narrow_handled true h.1, argsNarrow_handled es h.2, Bool.and_self]

end

theorem Stmt.narrow_handled (c : Stmt V) (h : c.narrow = true) : c.handled = true := by
  induction c with
  | expression e => exact e.narrow_handled false h
  | declare x init =>
    cases init with
    | none => rfl
    | some e =>
      simp only [Stmt.narrow, Option.all_some] at h
      simp only [Stmt.handled, Option.all_some, h, e.narrow_handled true h, ite_self]
  | ite test consequent alternate ihc iha =>
    simp only [Stmt.narrow, Bool.and_eq_true] at h
    simp only [Stmt.handled, test.narrow_handled true h.1.1, ihc h.1.2, iha h.2, Bool.and_self]
  | «while» test body ih =>
    simp only [Stmt.narrow, Bool.and_eq_true] at h
    simp only [Stmt.handled, test.narrow_handled true h.1, ih h.2, Bool.and_self]
  | block first second ihf ihs =>
    simp only [Stmt.narrow, Bool.and_eq_true] at h
    simp only [Stmt.handled, ihf h.1, ihs h.2, Bool.and_self]
  | empty => rfl
  | tryCatch body handler ihb ihh =>
    simp only [Stmt.narrow, Bool.and_eq_true] at h
    simp only [Stmt.handled, ihb h.1, ihh h.2, Bool.and_self]
  | ret e => exact e.narrow_handled true h

variable (number : Nat → V)

mutual

theorem rewrite_narrow (e : Expr V) (h : e.narrow = true) : rewrite number e = e := by
  cases e with
  | literal v => rfl
  | ident x => rfl
  | access heap grown index =>
    simp only [Expr.narrow, Bool.and_eq_true] at h
    obtain ⟨-, hhelper, -⟩ | ⟨hheap, -⟩ := narrow_cases heap
    · simp only [rewrite, hhelper, rewrite_narrow index h.2]
    · exact absurd h.1 (by simp [hheap])
  | assign x op value =>
    simp only [Expr.narrow] at h
    simp only [rewrite, rewrite_narrow value h]
  | store heap grown index op value =>
    simp only [Expr.narrow, Bool.and_eq_true] at h
    obtain ⟨-, hhelper, -⟩ | ⟨hheap, -⟩ := narrow_cases heap
    · simp only [rewrite, hhelper, rewrite_narrow value h.2]
    · exact absurd h.1.1 (by simp [hheap])
  | update x op pre => rfl
  | updateHeap heap grown index op pre =>
    simp only [Expr.narrow, Bool.and_eq_true] at h
    obtain ⟨-, hhelper, -⟩ | ⟨hheap, -⟩ := narrow_cases heap
    · simp only [rewrite, hhelper, rewrite_narrow index h.2]
    · exact absurd h.1 (by simp [hheap])
  | updateValue e op pre =>
    simp only [Expr.narrow] at h
    simp only [rewrite, rewrite_narrow e h]
  | binary op left right =>
    simp only [Expr.narrow, Bool.and_eq_true] at h
    simp only [rewrite, rewrite_narrow left h.1, rewrite_narrow right h.2]
  | logical op left right =>
    simp only [Expr.narrow, Bool.and_eq_true] at h
    simp only [rewrite, rewrite_narrow left h.1, rewrite_narrow right h.2]
  | conditional test consequent alternate =>
    simp only [Expr.narrow, Bool.and_eq_true] at h
    simp only [rewrite, rewrite_narrow test h.1.1, rewrite_narrow consequent h.1.2,
      rewrite_narrow alternate h.2]
  | sequence first second =>
    simp only [Expr.narrow, Bool.and_eq_true] at h
    simp only [rewrite, rewrite_narrow first h.1, rewrite_narrow second h.2]
  | call callee args =>
    simp only [Expr.narrow] at h
    simp only [rewrite, rewriteArgs_narrow args h]

theorem rewriteArgs_narrow (es : List (Expr V)) (h : argsNarrow es = true) : rewriteArgs number es = es := by
  cases es with
  | nil => rfl
  | cons e es =>
    simp only [argsNarrow, Bool.and_eq_true] at h
    simp only [rewriteArgs, rewrite_narrow e h.1, rewriteArgs_narrow es h.2]

end

theorem rewriteStmt_narrow (c : Stmt V) (h : c.narrow = true) : rewriteStmt number c = c := by
  induction c with
  | expression e => simp only [rewriteStmt, rewrite_narrow number e h]
  | declare x init =>
    cases init with
    | none => simp [rewriteStmt]
    | some e =>
      simp only [Stmt.narrow, Option.all_some] at h
      simp only [rewriteStmt, Option.map_some, rewrite_narrow number e h, ite_self]
  | ite test consequent alternate ihc iha =>
    simp only [Stmt.narrow, Bool.and_eq_true] at h
    simp only [rewriteStmt, rewrite_narrow number test h.1.1, ihc h.1.2, iha h.2]
  | «while» test body ih =>
    simp only [Stmt.narrow, Bool.and_eq_true] at h
    simp only [rewriteStmt, rewrite_narrow number test h.1, ih h.2]
  | block first second ihf ihs =>
    simp only [Stmt.narrow, Bool.and_eq_true] at h
    simp only [rewriteStmt, ihf h.1, ihs h.2]
  | empty => rfl
  | tryCatch body handler ihb ihh =>
    simp only [Stmt.narrow, Bool.and_eq_true] at h
    simp only [rewriteStmt, ihb h.1, ihh h.2]
  | ret e => simp only [rewriteStmt, rewrite_narrow number e h]

end Conditions

/-! ## Following a program on a little-endian host -/

/-- Views only grow, and a run that has strayed stays so. -/
def outlook (J : Js) : Outlook (State J) where
  le s s' := s.memory.views ≤ s'.memory.views ∧ (s.strayed = true → s'.strayed = true)
  inSight _ := True
  astray s := s.strayed = true
  refl _ := ⟨Nat.le_refl _, id⟩
  trans _ _ _ h h' := ⟨Nat.le_trans h.1 h'.1, h'.2 ∘ h.2⟩
  keeps _ _ _ _ := trivial
  stays _ _ h := h.2

variable {t : ElementType} {i : Nat}

section Following

variable {J : Js}

/-- The outlook once a view of the given length has been looked up. -/
abbrev outlookFrom (J : Js) (view : Nat) : Outlook (State J) :=
  (outlook J).restrict (fun s => view ≤ s.memory.views) fun _ _ hle h => Nat.le_trans h hle.1

theorem refreshViews_follows :
    Follows (outlook J) Eq (refreshViews : Run J Unit) refreshViews :=
  Follows.modify fun s => ⟨s.memory.views_le, id⟩

theorem readVar_follows (O : Outlook (State J)) (x : String) :
    Follows O Eq (readVar x : Run J J.Value) (readVar x) := Follows.gets

theorem writeVar_memory (x : String) (v : J.Value) (s s₁ : State J) (r : Except JsError Unit)
    (h : writeVar x v s = some (s₁, r)) : s₁.memory = s.memory ∧ s₁.strayed = s.strayed := by
  simp only [writeVar, modify_apply, Option.some.injEq, Prod.mk.injEq] at h
  obtain ⟨rfl, -⟩ := h
  split <;> exact ⟨rfl, rfl⟩

theorem writeVar_follows (x : String) (v : J.Value) :
    Follows (outlook J) Eq (writeVar x v : Run J Unit) (writeVar x v) := by
  refine Follows.modify fun s => ?_
  obtain ⟨hmemory, hstrayed⟩ := writeVar_memory x v s _ _ rfl
  exact ⟨Nat.le_of_eq (congrArg Memory.views hmemory.symm), fun hs => hstrayed.trans hs⟩

theorem declareVar_follows (x : String) (v : J.Value) :
    Follows (outlook J) Eq (declareVar x v : Run J Unit) (declareVar x v) :=
  Follows.modify fun _ => ⟨Nat.le_refl _, id⟩

theorem watch_follows (view : Nat) (t : ElementType) (key : J.Value) :
    Follows (outlook J) Eq (watch view t key : Run J Unit) (watch view t key) :=
  Follows.ite (Follows.pure rfl) (Follows.modify fun _ => ⟨Nat.le_refl _, fun _ => rfl⟩)

variable {key : J.Value}

/-- What is watched may rely on its index, if it follows anything at all. -/
theorem watch_left {α β γ : Type} {rel : α → β → Prop} {rel' : α → γ → Prop} {m : Run J α} {m' : Run J β}
    {m₁ : Run J γ} {view : Nat} (hm : Follows (outlookFrom J view) rel' m m₁)
    (h : J.isNumber key = true → ∀ i, inView view t key = some i → Follows (outlookFrom J view) rel m m') :
    Follows (outlookFrom J view) rel (watch view t key >>= fun _ => m) m' := by
  unfold watch
  split
  · next hkey =>
      obtain ⟨i, hi⟩ := Option.isSome_iff_exists.mp hkey.2
      exact h hkey.1 i hi
  · exact Follows.lost (fun s => ⟨_, rfl, ⟨Nat.le_refl _, fun _ => rfl⟩, rfl⟩) hm

/-! ### Accesses of single bytes -/

theorem order_short (host : Endian) {bytes : List UInt8} (h : bytes.length ≤ 1) : host.order bytes = bytes := by
  cases host with
  | little => rfl
  | big =>
    match bytes, h with
    | [], _ => rfl
    | [_], _ => rfl

theorem loadElement_follows (ht : t.width = 1) (host : Endian) (view : Nat) (key : J.Value) :
    Follows (outlook J) Eq (loadElement .little view t key : Run J J.Value) (loadElement host view t key) := by
  have hshort : ∀ (m : Memory) (offset : Nat), (m.read offset t.width).length ≤ 1 := by
    intro m offset
    rw [← ht]
    exact List.length_take_le _ _
  unfold loadElement
  split
  · exact Follows.pure rfl
  · simp only [order_short _ (hshort _ _)]
    exact Follows.gets

theorem storeElement_follows (hJ : J.Lawful) (ht : t.width = 1) (host : Endian) (view : Nat)
    (key value : J.Value) : Follows (outlook J) Eq (storeElement .little view t key value : Run J Unit)
      (storeElement host view t key value) := by
  unfold storeElement
  cases hbytes : J.encode t value with
  | error e => exact Follows.fail
  | ok bytes =>
    have hshort : bytes.length ≤ 1 := Nat.le_of_eq ((hJ.encode_length t value bytes hbytes).trans ht)
    split
    · exact Follows.pure rfl
    · next i hi =>
        change Follows (outlook J) Eq (Prog.modify _) (Prog.modify _)
        rw [order_short host hshort]
        exact Follows.modify fun _ => ⟨Nat.le_refl _, id⟩

/-! ### Assignments and updates -/

theorem assignTo_follows {op : AssignOp} {read read' value value' : Run J J.Value}
    {write write' : J.Value → Run J Unit} (hread : Follows (outlook J) Eq read read')
    (hwrite : ∀ v, Follows (outlook J) Eq (write v) (write' v))
    (hvalue : Follows (outlook J) Eq value value') :
    Follows (outlook J) Eq (assignTo op read write value) (assignTo op read' write' value') := by
  cases op with
  | assign => exact hvalue.bind_eq fun v => (hwrite v).bind_eq fun _ => Follows.pure rfl
  | compound op =>
    refine hread.bind_eq fun old => hvalue.bind_eq fun v => Follows.bind_eq Follows.ofExcept fun new => ?_
    exact (hwrite new).bind_eq fun _ => Follows.pure rfl
  | logical op =>
    refine hread.bind_eq fun old => Follows.ite (Follows.pure rfl) ?_
    exact hvalue.bind_eq fun v => (hwrite v).bind_eq fun _ => Follows.pure rfl

theorem updateOf_follows {op : UpdateOp} {pre : Bool} {read read' : Run J J.Value}
    {write write' : J.Value → Run J Unit} (hread : Follows (outlook J) Eq read read')
    (hwrite : ∀ v, Follows (outlook J) Eq (write v) (write' v)) :
    Follows (outlook J) Eq (updateOf op pre read write) (updateOf op pre read' write') := by
  refine hread.bind_eq fun v => Follows.bind_eq Follows.ofExcept fun values => ?_
  exact (hwrite values.2).bind_eq fun _ => Follows.pure rfl

/-! ### Accesses through a DataView -/

theorem inView_some {view : Nat} (h : inView view t key = some i) :
    J.element key = some i ∧ (i + 1) * t.width ≤ view := by
  obtain ⟨helement, hle⟩ := Option.filter_eq_some_iff.mp h
  exact ⟨helement, of_decide_eq_true hle⟩

/-- The offset that a helper computes for a watched index is that of its element. -/
theorem offset_of_inView (hJ : J.Lawful) {view : Nat} (hnumber : J.isNumber key = true)
    (hi : inView view t key = some i) (hview : view ≤ 2 ^ 53) :
    ∃ p, J.binary .mul key (J.number t.width) = .ok p ∧ J.toIndex p = .ok (i * t.width) := by
  obtain ⟨helement, hle⟩ := inView_some hi
  have hwidth : 0 < t.width := by cases t <;> decide
  rw [Nat.succ_mul] at hle
  exact hJ.scale key i t.width hnumber helement (by omega)

theorem inView_inside {view : Nat} {m : Memory} (hi : inView view t key = some i) (hview : view ≤ m.views) :
    ¬ m.views < i * t.width + t.width := by
  have hle : (i + 1) * t.width ≤ view := (inView_some hi).2
  rw [Nat.succ_mul] at hle
  exact Nat.not_lt.mpr (Nat.le_trans hle hview)

theorem view_le_of_inSight {view : Nat} (h : ∃ s, (outlookFrom J view).inSight s) : view ≤ 2 ^ 53 := by
  obtain ⟨s, -, hview⟩ := h
  exact Nat.le_trans hview (Nat.le_trans s.memory.views_le s.memory.length_le)

theorem dataViewGet_apply {p : J.Value} {offset : Nat} {s : State J} (hindex : J.toIndex p = .ok offset)
    (hin : ¬ s.memory.views < offset + t.width) :
    dataViewGet t p s = some (s, .ok (J.decode t (s.memory.read offset t.width))) := by
  have h := failIf_bind_apply (ε := JsError) (e := .RangeError) (c := s.memory.views < offset + t.width)
    (k := fun _ => Prog.gets fun s => J.decode t (s.memory.read offset t.width)) s
  unfold dataViewGet
  rw [hindex]
  exact h.trans (if_neg hin)

theorem dataViewSet_apply {p v : J.Value} {offset : Nat} {bytes : List UInt8} {s : State J}
    (hindex : J.toIndex p = .ok offset) (hbytes : J.encode t v = .ok bytes)
    (hin : ¬ s.memory.views < offset + t.width) :
    dataViewSet t p v s =
      some ({ s with memory := s.memory.write offset bytes }, .ok J.undefined) := by
  unfold dataViewSet
  rw [hindex, hbytes]
  exact (failIf_bind_apply s).trans (if_neg hin)

/-- A watched read from a typed array is followed by the helper's. -/
theorem loadElement_dataViewGet (hJ : J.Lawful) {view : Nat} :
    Follows (outlookFrom J view) Eq (watch view t key >>= fun _ => loadElement .little view t key)
      (Prog.ofExcept (J.binary .mul key (J.number t.width)) >>= dataViewGet t) := by
  have hself : Follows (outlookFrom J view) Eq (loadElement .little view t key : Run J J.Value)
      (loadElement .little view t key) := by
    unfold loadElement
    split
    · exact Follows.pure rfl
    · exact Follows.gets
  refine watch_left hself fun hnumber i hi => Follows.of_inSight fun hsight => ?_
  obtain ⟨p, hp, hindex⟩ := offset_of_inView hJ hnumber hi (view_le_of_inSight hsight)
  have hload : (loadElement .little view t key : Run J J.Value) =
      Prog.gets fun s => J.decode t (s.memory.read (i * t.width) t.width) := by
    simp [loadElement, hi, Endian.order]
  rw [hload, hp]
  constructor
  · intro s s₁ r _ hr
    cases hr
    exact ⟨Nat.le_refl _, id⟩
  · intro s s₁ r hs hr _
    cases hr
    exact ⟨.ok _, dataViewGet_apply hindex (inView_inside hi hs.2), rfl⟩

/-- A store of a value to an element that is in view is followed by the helper's, up to the value. -/
theorem storeElement_dataViewSet {view : Nat} {p v : J.Value} (hi : inView view t key = some i)
    (hindex : J.toIndex p = .ok (i * t.width)) :
    Follows (outlookFrom J view) (fun _ _ => True)
      (storeElement .little view t key v >>= fun _ => pure v) (dataViewSet t p v) := by
  have hstore : storeElement .little view t key v =
      (Prog.ofExcept (J.encode t v) >>= fun bytes =>
        Prog.modify fun s => { s with memory := s.memory.write (i * t.width) bytes }) := by
    simp [storeElement, hi, Endian.order]
  rw [hstore]
  cases hbytes : J.encode t v with
  | error e =>
    have hset : dataViewSet t p v = Prog.fail e := by
      simp only [dataViewSet, hindex, hbytes]
      rfl
    rw [hset]
    exact Follows.fail
  | ok bytes =>
    constructor
    · intro s s₁ r _ hr
      cases hr
      exact ⟨Nat.le_refl _, id⟩
    · intro s s₁ r hs hr _
      cases hr
      exact ⟨.ok _, dataViewSet_apply hindex hbytes (inView_inside hi hs.2), trivial⟩

/-- A watched plain assignment to a typed array is followed by the call of a helper, up to the value. -/
theorem assign_dataViewSet (hJ : J.Lawful) {view : Nat} {read value value' : Run J J.Value}
    {rel : J.Value → J.Value → Prop} (hrel : ∀ v v', rel v v') (hvalue : Follows (outlook J) Eq value value') :
    Follows (outlookFrom J view) rel
      (watch view t key >>= fun _ => assignTo .assign read (fun v => storeElement .little view t key v) value)
      (Prog.ofExcept (J.binary .mul key (J.number t.width)) >>= fun p =>
        value' >>= fun v => dataViewSet t p v) := by
  have hself : Follows (outlook J) Eq
      (assignTo .assign read (fun v => storeElement .little view t key v) value)
      (value' >>= fun v => storeElement .little view t key v >>= fun _ => pure v) := by
    refine hvalue.bind_eq fun v => Follows.bind_eq ?_ fun _ => Follows.pure rfl
    unfold storeElement
    refine Follows.bind_eq Follows.ofExcept fun bytes => ?_
    split
    · exact Follows.pure rfl
    · exact Follows.modify fun _ => ⟨Nat.le_refl _, id⟩
  refine watch_left (hself.restrict _) fun hnumber i hi => Follows.of_inSight fun hsight => ?_
  obtain ⟨p, hp, hindex⟩ := offset_of_inView hJ hnumber hi (view_le_of_inSight hsight)
  rw [hp]
  refine (hvalue.restrict _).bind_eq fun v => ?_
  exact (storeElement_dataViewSet hi hindex).mono_rel fun v v' _ => hrel v v'

/-! ### Expressions -/

variable {host : Endian} {callUser callUser' : String → List J.Value → Run J J.Value}

def renew (grown : Bool) : Run J Unit := if grown then refreshViews else pure ()

theorem renew_follows (grown : Bool) : Follows (outlook J) Eq (renew grown : Run J Unit) (renew grown) :=
  Follows.ite refreshViews_follows (Follows.pure rfl)

theorem lookView_eq (grown : Bool) :
    (lookView grown : Run J Nat) = renew grown >>= fun _ => Prog.gets fun s => s.memory.views := by
  cases grown <;> rfl

theorem lookView_follows (grown : Bool) : Follows (outlook J) Eq (lookView grown : Run J Nat) (lookView grown) := by
  rw [lookView_eq]
  exact (renew_follows grown).bind_eq fun _ => Follows.gets

theorem eval_byteOffset (grown : Bool) (index : Expr J.Value) (width : Nat) :
    eval host callUser (byteOffset J.number grown index width) =
      renew grown >>= fun _ => eval host callUser index >>= fun key =>
        Prog.ofExcept (J.binary .mul key (J.number width)) := by
  cases grown
  · rfl
  · rfl

theorem eval_load (t : ElementType) (grown : Bool) (index : Expr J.Value) :
    eval host callUser (.call (.LE_HEAP_LOAD t) [byteOffset J.number grown index t.width]) =
      renew grown >>= fun _ => eval host callUser index >>= fun key =>
        Prog.ofExcept (J.binary .mul key (J.number t.width)) >>= dataViewGet t := by
  simp only [eval, evalArgs, eval_byteOffset, bind_assoc, pure_bind]
  rfl

theorem eval_store (t : ElementType) (grown : Bool) (index value : Expr J.Value) :
    eval host callUser (.call (.LE_HEAP_STORE t) [byteOffset J.number grown index t.width, value]) =
      renew grown >>= fun _ => eval host callUser index >>= fun key =>
        Prog.ofExcept (J.binary .mul key (J.number t.width)) >>= fun p =>
          eval host callUser value >>= fun v => dataViewSet t p v := by
  simp only [eval, evalArgs, eval_byteOffset, bind_assoc, pure_bind]
  rfl

/-- An access on the left, whose view has been looked up when its index is evaluated. -/
theorem access_follows {α β : Type} {rel : α → β → Prop} {grown : Bool} {index index' : Run J J.Value}
    {k : Nat → J.Value → Run J α} {k' : J.Value → Run J β} (hindex : Follows (outlook J) Eq index index')
    (hk : ∀ view key, Follows (outlookFrom J view) rel (k view key) (k' key)) :
    Follows (outlook J) rel (lookView grown >>= fun view => index >>= fun key => k view key)
      (renew grown >>= fun _ => index' >>= k') := by
  rw [lookView_eq, bind_assoc]
  refine (renew_follows grown).bind_eq fun _ => ?_
  refine Follows.gets_left (fun view s => view ≤ s.memory.views) (fun view s s' hle h => Nat.le_trans h hle.1)
    (fun s => Nat.le_refl _) fun view => ?_
  exact (hindex.restrict _).bind_eq fun key => hk view key

theorem applyCallee_follows (hcall : ∀ name args, Follows (outlook J) Eq (callUser name args) (callUser' name args))
    (callee : Callee) (args : List J.Value) :
    Follows (outlook J) Eq (applyCallee callUser callee args) (applyCallee callUser' callee args) := by
  cases callee with
  | user name => exact hcall name args
  | growMemViews => exact refreshViews_follows.bind_eq fun _ => Follows.pure rfl
  | LE_HEAP_LOAD t =>
    simp only [applyCallee, dataViewGet, failIf]
    refine Follows.bind_eq Follows.ofExcept fun _ => Follows.gets.bind_eq fun _ => ?_
    exact (Follows.ite Follows.fail (Follows.pure rfl)).bind_eq fun _ => Follows.gets
  | LE_HEAP_STORE t =>
    simp only [applyCallee, dataViewSet, failIf]
    refine Follows.bind_eq Follows.ofExcept fun _ => Follows.bind_eq Follows.ofExcept fun _ =>
      Follows.gets.bind_eq fun _ => ?_
    refine (Follows.ite Follows.fail (Follows.pure rfl)).bind_eq fun _ => ?_
    exact Follows.bind_eq (Follows.modify fun s => ⟨Nat.le_refl _, id⟩) fun _ => Follows.pure rfl

/-- Values that agree when they are used. -/
def SameIf (used : Bool) (v v' : J.Value) : Prop := used = true → v = v'

theorem whenUsed {used : Bool} {m m' : Run J J.Value} (h : Follows (outlook J) Eq m m') :
    Follows (outlook J) (SameIf used) m m' :=
  h.mono_rel fun _ _ hv _ => hv

theorem followsUsed {m m' : Run J J.Value} (h : Follows (outlook J) (SameIf true) m m') :
    Follows (outlook J) Eq m m' :=
  h.mono_rel fun _ _ hv => hv rfl

mutual

theorem eval_follows (hJ : J.Lawful)
    (hcall : ∀ name args, Follows (outlook J) Eq (callUser name args) (callUser' name args)) (e : Expr J.Value) (used : Bool) (h : e.handled used = true) :
    Follows (outlook J) (SameIf used) (eval .little callUser e) (eval host callUser' (rewrite J.number e)) := by
  cases e with
  | literal v => exact Follows.pure fun _ => rfl
  | ident x => exact whenUsed (readVar_follows _ x)
  | access heap grown index =>
    simp only [Expr.handled] at h
    have hindex := (followsUsed (eval_follows hJ hcall index true h))
    apply whenUsed
    obtain ⟨-, hhelper, hwidth⟩ | ⟨-, hhelper⟩ := narrow_cases heap
    · simp only [rewrite, hhelper, eval]
      refine (lookView_follows grown).bind_eq fun view => hindex.bind_eq fun key => ?_
      exact (watch_follows view _ key).bind_eq fun _ => loadElement_follows hwidth host view key
    · simp only [rewrite, hhelper, eval_load]
      simp only [eval]
      exact access_follows hindex fun view key => loadElement_dataViewGet hJ
  | assign x op value =>
    simp only [Expr.handled] at h
    exact whenUsed (assignTo_follows (readVar_follows _ x) (writeVar_follows x)
      (followsUsed (eval_follows hJ hcall value true h)))
  | store heap grown index op value =>
    simp only [Expr.handled, Bool.and_eq_true] at h
    obtain ⟨⟨hindex, hvalue⟩, hop⟩ := h
    have hindex' := followsUsed (eval_follows hJ hcall index true (index.narrow_handled true hindex))
    rw [rewrite_narrow J.number index hindex] at hindex'
    have hvalue' := (followsUsed (eval_follows hJ hcall value true hvalue))
    obtain ⟨-, hhelper, hwidth⟩ | ⟨hheap, hhelper⟩ := narrow_cases heap
    · simp only [rewrite, hhelper, eval]
      refine whenUsed ((lookView_follows grown).bind_eq fun view => hindex'.bind_eq fun key => ?_)
      refine (watch_follows view _ key).bind_eq fun _ => ?_
      exact assignTo_follows (loadElement_follows hwidth host view key)
        (storeElement_follows hJ hwidth host view key) hvalue'
    · -- only plain assignments whose value is not used are stores of the helper
      obtain ⟨rfl, rfl⟩ : op = .assign ∧ used = false := by
        cases op <;> simp_all [AssignOp.storable]
      simp only [rewrite, hhelper, eval_store]
      simp only [eval]
      have hrel : ∀ v v' : J.Value, SameIf false v v' := fun _ _ hused => absurd hused Bool.false_ne_true
      exact access_follows hindex' fun view key => assign_dataViewSet hJ hrel hvalue'
  | update x op pre => exact whenUsed (updateOf_follows (readVar_follows _ x) (writeVar_follows x))
  | updateHeap heap grown index op pre =>
    simp only [Expr.handled, Bool.and_eq_true] at h
    have hindex := (followsUsed (eval_follows hJ hcall index true h.2))
    obtain ⟨-, hhelper, hwidth⟩ | ⟨hheap, -⟩ := narrow_cases heap
    · simp only [rewrite, hhelper, eval]
      refine whenUsed ((lookView_follows grown).bind_eq fun view => hindex.bind_eq fun key => ?_)
      refine (watch_follows view _ key).bind_eq fun _ => ?_
      exact updateOf_follows (loadElement_follows hwidth host view key)
        (storeElement_follows hJ hwidth host view key)
    · exact absurd h.1 (by simp [hheap])
  | updateValue e op pre =>
    simp only [Expr.handled] at h
    simp only [rewrite, eval]
    exact (eval_follows hJ hcall e false h).bind (fun v => ⟨v, fun _ => rfl⟩) fun _ _ _ => Follows.fail
  | binary op left right =>
    simp only [Expr.handled, Bool.and_eq_true] at h
    simp only [rewrite, eval]
    refine whenUsed ((followsUsed (eval_follows hJ hcall left true h.1)).bind_eq fun a => ?_)
    exact (followsUsed (eval_follows hJ hcall right true h.2)).bind_eq fun b => Follows.ofExcept
  | logical op left right =>
    simp only [Expr.handled, Bool.and_eq_true] at h
    simp only [rewrite, eval]
    refine (followsUsed (eval_follows hJ hcall left true h.1)).bind_eq fun a => ?_
    exact Follows.ite (Follows.pure fun _ => rfl) (eval_follows hJ hcall right used h.2)
  | conditional test consequent alternate =>
    simp only [Expr.handled, Bool.and_eq_true] at h
    simp only [rewrite, eval]
    refine (followsUsed (eval_follows hJ hcall test true h.1.1)).bind_eq fun c => ?_
    exact Follows.ite (eval_follows hJ hcall consequent used h.1.2) (eval_follows hJ hcall alternate used h.2)
  | sequence first second =>
    simp only [Expr.handled, Bool.and_eq_true] at h
    simp only [rewrite, eval]
    exact (eval_follows hJ hcall first false h.1).bind (fun v => ⟨v, fun _ => rfl⟩)
      fun _ _ _ => eval_follows hJ hcall second used h.2
  | call callee args =>
    simp only [Expr.handled] at h
    simp only [rewrite, eval]
    exact whenUsed ((evalArgs_follows hJ hcall args h).bind_eq (applyCallee_follows hcall callee))

theorem evalArgs_follows (hJ : J.Lawful)
    (hcall : ∀ name args, Follows (outlook J) Eq (callUser name args) (callUser' name args)) (es : List (Expr J.Value)) (h : argsHandled es = true) :
    Follows (outlook J) Eq (evalArgs .little callUser es) (evalArgs host callUser' (rewriteArgs J.number es)) := by
  cases es with
  | nil => exact Follows.pure rfl
  | cons e es =>
    simp only [argsHandled, Bool.and_eq_true] at h
    simp only [rewriteArgs, evalArgs]
    refine (followsUsed (eval_follows hJ hcall e true h.1)).bind_eq fun v => ?_
    exact (evalArgs_follows hJ hcall es h.2).bind_eq fun vs => Follows.pure rfl

end

/-- What the pass does not visit is followed by itself when it is narrow. -/
theorem narrow_follows (hJ : J.Lawful)
    (hcall : ∀ name args, Follows (outlook J) Eq (callUser name args) (callUser' name args)) (e : Expr J.Value)
    (h : e.narrow = true) : Follows (outlook J) Eq (eval .little callUser e) (eval host callUser' e) := by
  have he := followsUsed (@eval_follows J host callUser callUser' hJ hcall e true (e.narrow_handled true h))
  rw [rewrite_narrow J.number e h] at he
  exact he

/-! ### Statements and functions -/

theorem loop_follows {test test' : Run J J.Value} {body body' : Run J (Option J.Value)}
    (htest : Follows (outlook J) Eq test test') (hbody : Follows (outlook J) Eq body body') (fuel : Nat) :
    Follows (outlook J) Eq (loop fuel test body) (loop fuel test' body') := by
  induction fuel with
  | zero => exact Follows.crash
  | succ fuel ih =>
    simp only [loop]
    refine htest.bind_eq fun c => Follows.ite (hbody.bind_eq fun r => ?_) (Follows.pure rfl)
    cases r with
    | some v => exact Follows.pure rfl
    | none => exact ih

theorem exec_follows (hJ : J.Lawful)
    (hcall : ∀ name args, Follows (outlook J) Eq (callUser name args) (callUser' name args)) (fuel : Nat)
    (c : Stmt J.Value) (h : c.handled = true) :
    Follows (outlook J) Eq (exec .little callUser fuel c)
      (exec host callUser' fuel (rewriteStmt J.number c)) := by
  induction c with
  | expression e =>
    exact (eval_follows hJ hcall e false h).bind (fun v => ⟨v, fun _ => rfl⟩) fun _ _ _ => Follows.pure rfl
  | declare x init =>
    cases init with
    | none =>
      simp only [rewriteStmt, Option.map_none, ite_self]
      exact (declareVar_follows x J.undefined).bind_eq fun _ => Follows.pure rfl
    | some e =>
      simp only [Stmt.handled, Option.all_some] at h
      have he : Follows (outlook J) Eq (eval .little callUser e)
          (eval host callUser' (if isAtomicsName x then e else rewrite J.number e)) := by
        cases hx : isAtomicsName x with
        | true =>
          simp only [hx, if_true] at h ⊢
          exact narrow_follows hJ hcall e h
        | false =>
          simp only [hx] at h ⊢
          exact followsUsed (eval_follows hJ hcall e true h)
      have hdeclare : rewriteStmt J.number (.declare x (some e)) =
          .declare x (some (if isAtomicsName x then e else rewrite J.number e)) := by
        cases hx : isAtomicsName x <;> simp [rewriteStmt, hx]
      rw [hdeclare]
      exact he.bind_eq fun v => (declareVar_follows x v).bind_eq fun _ => Follows.pure rfl
  | ite test consequent alternate ihc iha =>
    simp only [Stmt.handled, Bool.and_eq_true] at h
    refine (followsUsed (eval_follows hJ hcall test true h.1.1)).bind_eq fun v => ?_
    exact Follows.ite (ihc h.1.2) (iha h.2)
  | «while» test body ih =>
    simp only [Stmt.handled, Bool.and_eq_true] at h
    exact loop_follows (followsUsed (eval_follows hJ hcall test true h.1)) (ih h.2) fuel
  | block first second ihf ihs =>
    simp only [Stmt.handled, Bool.and_eq_true] at h
    refine (ihf h.1).bind_eq fun r => ?_
    cases r with
    | some v => exact Follows.pure rfl
    | none => exact ihs h.2
  | empty => exact Follows.pure rfl
  | tryCatch body handler ihb ihh =>
    simp only [Stmt.handled, Bool.and_eq_true] at h
    refine (ihb h.1).attempt fun r => ?_
    cases r with
    | ok v => exact Follows.pure rfl
    | error e => exact ihh h.2
  | ret e =>
    exact (followsUsed (eval_follows hJ hcall e true h)).bind_eq fun v => Follows.pure rfl

theorem bindParams_follows (hJ : J.Lawful)
    (hcall : ∀ name args, Follows (outlook J) Eq (callUser name args) (callUser' name args))
    (params : List (String × Option (Expr J.Value)))
    (h : params.all (fun param => param.2.all Expr.narrow) = true) (args : List J.Value) :
    Follows (outlook J) Eq (bindParams .little callUser params args) (bindParams host callUser' params args) := by
  induction params generalizing args with
  | nil => exact Follows.pure rfl
  | cons param params ih =>
    obtain ⟨x, init⟩ := param
    simp only [List.all_cons, Bool.and_eq_true] at h
    have hbind : ∀ v, Follows (outlook J) Eq
        (declareVar x v >>= fun _ => bindParams .little callUser params args.tail)
        (declareVar x v >>= fun _ => bindParams host callUser' params args.tail) :=
      fun v => (declareVar_follows x v).bind_eq fun _ => ih h.2 args.tail
    cases init with
    | none => exact hbind _
    | some e => exact Follows.ite ((narrow_follows hJ hcall e h.1).bind_eq hbind) (hbind _)

/-- The pass keeps the name and the parameters of a function, and its body is followed. -/
theorem rewriteFunction_follows (hJ : J.Lawful)
    (hcall : ∀ name args, Follows (outlook J) Eq (callUser name args) (callUser' name args)) (fuel : Nat)
    (f : Function J.Value) (h : f.handled = true) (args : List J.Value) :
    Follows (outlook J) Eq
      (bindParams .little callUser f.params args >>= fun _ => exec .little callUser fuel f.body)
      (bindParams host callUser' (rewriteFunction J.number f).params args >>= fun _ =>
        exec host callUser' fuel (rewriteFunction J.number f).body) := by
  simp only [Function.handled, Bool.and_eq_true] at h
  cases hname : isHelperName f.name with
  | true =>
    simp only [hname, if_true] at h
    have hbody := @exec_follows J host callUser callUser' hJ hcall fuel f.body (f.body.narrow_handled h.2)
    rw [rewriteStmt_narrow J.number f.body h.2] at hbody
    simp only [rewriteFunction, hname, if_true]
    exact (bindParams_follows hJ hcall f.params h.1 args).bind_eq fun _ => hbody
  | false =>
    simp only [hname] at h
    simp only [rewriteFunction, hname]
    exact (bindParams_follows hJ hcall f.params h.1 args).bind_eq fun _ => exec_follows hJ hcall fuel f.body h.2

theorem rewriteFunction_name (number : Nat → J.Value) (f : Function J.Value) :
    (rewriteFunction number f).name = f.name := by
  unfold rewriteFunction
  split
  · rfl
  · rfl

theorem find?_littleEndianHeap (p : Program J.Value) (name : String) :
    (littleEndianHeap J.number p).find? (·.name = name) =
      (p.find? (·.name = name)).map (rewriteFunction J.number) := by
  simp only [littleEndianHeap, List.find?_map]
  congr 2
  funext f
  simp [rewriteFunction_name]

/-- Every call of the output follows the same call of the program on a little-endian host. -/
theorem call_follows (hJ : J.Lawful) (p : Program J.Value) (hp : p.handled = true) (host : Endian) (fuel : Nat)
    (name : String) (args : List J.Value) :
    Follows (outlook J) Eq (p.call .little fuel name args)
      ((littleEndianHeap J.number p).call host fuel name args) := by
  induction fuel generalizing name args with
  | zero => exact Follows.crash
  | succ fuel ih =>
    simp only [Program.call, find?_littleEndianHeap]
    cases hf : p.find? (·.name = name) with
    | none => exact Follows.fail
    | some f =>
      have hhandled : f.handled = true := List.all_eq_true.mp hp f (List.mem_of_find?_eq_some hf)
      refine Follows.gets.bind_eq fun saved => ?_
      refine Follows.bind_eq (Follows.modify fun _ => ⟨Nat.le_refl _, id⟩) fun _ => ?_
      refine (rewriteFunction_follows hJ ih fuel f hhandled args).attempt fun r => ?_
      refine Follows.bind_eq (Follows.modify fun _ => ⟨Nat.le_refl _, id⟩) fun _ => ?_
      cases r with
      | ok v => exact Follows.pure rfl
      | error e => exact Follows.fail

/-- What the output of the pass has to do on every host: whatever the program does on a little-endian
host, whose indices are numbers of elements of their views. -/
def Preserved (p : Program J.Value) : Prop :=
  ∀ (host : Endian) (fuel : Nat) (name : String) (args : List J.Value) (s s₁ : State J)
    (r : Except JsError J.Value), p.call .little fuel name args s = some (s₁, r) → s₁.strayed = false →
    (littleEndianHeap J.number p).call host fuel name args s = some (s₁, r)

end Following

/-! ## Programs over the integers -/

inductive IntValue
  | undefined
  | integer (n : Int)
deriving DecidableEq, Repr

/-- The numbers of JavaScript that are integers. Elements of 64 bits and floats are left out. -/
def intJs : Js where
  Value := IntValue
  undefined := .undefined
  isUndefined v := v = .undefined
  number n := .integer n
  isNumber v := v ≠ .undefined
  element
    | .integer (.ofNat i) => some i
    | _ => none
  toIndex
    | .integer n => if 0 ≤ n ∧ n < 2 ^ 53 then .ok n.toNat else .error .RangeError
    | .undefined => .ok 0
  binary
    | .mul, .integer a, .integer b => .ok (.integer (a * b))
    | .other "+", .integer a, .integer b => .ok (.integer (a + b))
    | _, _, _ => .ok .undefined
  update
    | .increment, .integer n => .ok (.integer n, .integer (n + 1))
    | .decrement, .integer n => .ok (.integer n, .integer (n - 1))
    | _, .undefined => .ok (.undefined, .undefined)
  truthy v := v ≠ .undefined ∧ v ≠ .integer 0
  decides
    | .and, v => v = .undefined ∨ v = .integer 0
    | .or, v => v ≠ .undefined ∧ v ≠ .integer 0
    | .nullish, v => v ≠ .undefined
  encode
    | .i64, _ | .u64, _ | .f32, _ | .f64, _ => .error .TypeError
    | t, .integer n => .ok ((List.range t.width).map fun k =>
      UInt8.ofNat ((n % 256 ^ t.width).toNat / 256 ^ k % 256))
    | t, .undefined => .ok (List.replicate t.width 0)
  decode t bytes :=
    let n : Int := bytes.foldr (fun b n => (b.toNat + 256 * n : Int)) 0
    match t with
    | .u8 | .u16 | .u32 => .integer n
    | .i8 | .i16 | .i32 => .integer (if n < 256 ^ t.width / 2 then n else n - 256 ^ t.width)
    | .i64 | .u64 | .f32 | .f64 => .undefined

theorem intJs_lawful : intJs.Lawful where
  encode_length t v bytes h := by
    cases v with
    | undefined => cases t <;> cases h <;> rfl
    | integer n => cases t <;> cases h <;> rfl
  scale v i w hv hi hlt := by
    match v, hi with
    | .integer (.ofNat j), hi =>
      obtain rfl : j = i := Option.some.inj hi
      refine ⟨.integer ((j * w : Nat) : Int), congrArg Except.ok (congrArg IntValue.integer ?_), ?_⟩
      · exact (Int.natCast_mul j w).symm
      · have hlt' : ((j * w : Nat) : Int) < 2 ^ 53 := by omega
        simp only [intJs, hlt', Int.natCast_nonneg, and_self, if_true, Int.toNat_natCast]

/-! ## What the pass does to programs that it does not handle -/

/-- The four bytes of the integer 1, and a view over them. -/
def oneState : State intJs where
  memory := ⟨[1, 0, 0, 0], 4, by decide, by decide⟩
  globals _ := .undefined
  locals _ := none
  strayed := false

/-- The memory after a run, what the run gives if it does not throw, and whether it has strayed. -/
def outcome (run : Option (State intJs × Except JsError IntValue)) :
    Option (List UInt8 × Option IntValue × Bool) :=
  run.map fun (s, r) => (s.memory.bytes, r.toOption, s.strayed)

theorem outcome_strayed {run : Option (State intJs × Except JsError IntValue)} {bytes : List UInt8}
    {v : Option IntValue} (h : outcome run = some (bytes, v, false)) :
    ∃ s₁ r, run = some (s₁, r) ∧ s₁.strayed = false := by
  obtain ⟨⟨s₁, r⟩, hrun, hout⟩ := Option.map_eq_some_iff.mp h
  exact ⟨s₁, r, hrun, congrArg (fun out => out.2.2) hout⟩

/-- A program with one function, with a default for its parameter and a body. -/
def single (default : Option (Expr IntValue)) (body : Stmt IntValue) : Program intJs.Value :=
  [⟨"run", [("x", default)], body⟩]

def runOn (host : Endian) (p : Program intJs.Value) : Option (List UInt8 × Option IntValue × Bool) :=
  outcome (p.call host 2 "run" [] oneState)

/-- A program is not preserved when its output does something else on some host. -/
theorem not_preserved {p : Program intJs.Value} {b : List UInt8} {v : Option IntValue} (host : Endian)
    (hrun : runOn .little p = some (b, v, false))
    (hrun' : runOn host (littleEndianHeap intJs.number p) ≠ some (b, v, false)) : ¬ Preserved p := by
  intro hp
  obtain ⟨s₁, r, hcall, hs₁⟩ := outcome_strayed hrun
  have hcall' := hp host 2 "run" [] oneState s₁ r hcall hs₁
  exact hrun' ((congrArg outcome (hcall'.trans hcall.symm)).trans hrun)

def zero : Expr IntValue := .literal (.integer 0)

def heap32 : Expr IntValue := .access .HEAP32 false zero

/-- `HEAP32[0] += 1` stores 1. -/
def compound : Program intJs.Value :=
  single none (.expression (.store .HEAP32 false zero (.compound (.other "+")) (.literal (.integer 1))))

/-- `HEAP32[0] ||= 7` stores 7. -/
def orAssign : Program intJs.Value :=
  single none (.expression (.store .HEAP32 false zero (.logical .or) (.literal (.integer 7))))

/-- `HEAP32[0]++` becomes the update of a call. -/
def increment : Program intJs.Value := single none (.expression (.updateHeap .HEAP32 false zero .increment false))

/-- The inner access of `HEAP8[HEAP32[0]] = 7` is not rewritten. -/
def nested : Program intJs.Value :=
  single none (.expression (.store .HEAP8 false heap32 .assign (.literal (.integer 7))))

/-- `return HEAP32[0] = 7` returns nothing. -/
def usedStore : Program intJs.Value :=
  single none (.ret (.store .HEAP32 false zero .assign (.literal (.integer 7))))

/-- The default of `function run(x = HEAP32[0]) { return x }` is not rewritten. -/
def defaulted : Program intJs.Value := single (some heap32) (.ret (.ident "x"))

/-- `HEAP32[0] = HEAP32[0] + HEAPU8[0]; return HEAP32[0]` -/
def addition : Program intJs.Value :=
  single none (.block
    (.expression (.store .HEAP32 false zero .assign
      (.binary (.other "+") heap32 (.access .HEAPU8 true zero)))) (.ret heap32))

end LittleEndian
