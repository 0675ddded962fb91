-- SUMMARY: Symbol tables over whole runs: when a symbol has one definition in both, the first that was loaded globally.
import Emscripten.Dynlink.SymbolTables

/-!
# Runs of the dynamic linker

What `wasmImports` holds is what was published first, what the GOT holds agrees with it, and both
hold definitions of the program and of global libraries only. Each loop of the linker is a fold, so
one lemma says what one turn of it keeps.
-/

namespace SymbolTables

open Machine

variable {L : Type} {P : Program L} {s s' : State L} {sym target : Name} {d : Def L} {kind : Kind}

/-! ## The invariant -/

/-- The program itself, or a library that is global. -/
def State.Visible (s : State L) (d : Def L) : Prop := ∀ l, d.owner = .lib l → s.Global l

structure Inv (s : State L) : Prop where
  first : ∀ sym, s.imported sym = s.first sym
  wrapped : ∀ sym kind name, s.wasmImports sym = some (.object kind (.stub name)) →
    name = sym ∧ s.asyncifyStubs sym ≠ none
  gotWrapped : ∀ sym name b, s.GOT sym = some ⟨.address (.stub name), b⟩ →
    (∃ kind, s.wasmImports name = some (.object kind (.stub name))) ∧
      ∃ d, s.asyncifyStubs name = some (some d)
  /-- Only a function made on demand stands before a stub that has no definition. -/
  unset : ∀ sym kind d, s.wasmImports sym = some (.object kind (.direct d)) →
    s.asyncifyStubs sym = some none → d = ⟨.js, sym⟩
  agree : ∀ sym d d', s.imported sym = some d → s.addressed sym = some d' → d = d'
  imports : ∀ sym d, s.imported sym = some d → s.Visible d
  addresses : ∀ sym d, s.addressed sym = some d → s.Visible d

theorem Inv.sound (h : Inv s) : Sound s where
  agree := fun sym d d' hi ha => ⟨h.agree sym d d' hi ha, (h.first sym).symm.trans hi⟩
  hidden := fun l hl sym _ =>
    ⟨fun hi => hl (h.imports sym _ hi l rfl), fun ha => hl (h.addresses sym _ ha l rfl)⟩

/-- What is defined is held, and the other way round but for a function made for a stub. -/
theorem Inv.defined (h : Inv s) (hd : isSymbolDefined s sym = true) : ∃ kind ref,
    s.wasmImports sym = some (.object kind ref) ∧ ∃ d, s.denotes ref = some d := by
  unfold isSymbolDefined at hd
  split at hd
  next => cases hd
  next => cases hd
  next kind ref hw =>
    refine ⟨kind, ref, hw, ?_⟩
    cases ref with
    | direct d => exact ⟨d, rfl⟩
    | stub name =>
      obtain ⟨rfl, hstub⟩ := h.wrapped sym kind name hw
      split at hd
      next => cases hd
      next hne =>
        cases hs : s.asyncifyStubs name with
        | none => exact absurd hs hstub
        | some o =>
          cases o with
          | none => exact absurd hs hne
          | some d => exact ⟨d, by simp [State.denotes, hs]⟩

/-! ## Publishing -/

theorem lookup_append (l l' : List (Name × Def L)) (n : Name) :
    (l ++ l').lookup n = (l.lookup n).or (l'.lookup n) := by
  induction l with
  | nil => simp
  | cons x l ih =>
    obtain ⟨m, d⟩ := x
    by_cases h : n = m
    · simp [h]
    · have hb : (n == m) = false := by simpa using h
      simp [List.lookup_cons, hb, ih]

/-- What the stubs become when `target` gets a definition. -/
def stubsWith (s : State L) (target : Name) (d : Def L) : Name → Option (Option (Def L)) :=
  (setStub target d s).asyncifyStubs

variable {defs : List (Name × Def L)} {n : Name} (owner : Owner L) {k : Kind}

theorem stubsWith_of_ne (h : n ≠ target) : stubsWith s target d n = s.asyncifyStubs n := by
  cases hs : s.asyncifyStubs target with
  | none => simp [stubsWith, setStub, hs]
  | some o => simp [stubsWith, setStub, hs, h]

theorem stubsWith_self (h : s.asyncifyStubs target ≠ none) :
    stubsWith s target d target = some (some d) := by
  cases hs : s.asyncifyStubs target with
  | none => exact absurd hs h
  | some o => simp [stubsWith, setStub, hs]

theorem stubsWith_ne (h : s.asyncifyStubs target = none) : stubsWith s target d target = none := by
  simp [stubsWith, setStub, h]

/-- A symbol that has an object keeps it. -/
theorem setImport_object {ref : Ref L} (h : s.wasmImports target = some (.object k ref)) :
    setImport target kind d s = { s with
      asyncifyStubs := stubsWith s target d
      published := s.published ++ [(target, d)] } := by
  have hd : isSymbolDefined (setStub target d { s with published := s.published ++ [(target, d)] })
      target = true := by
    simp only [isSymbolDefined, setStub, h]
    cases hst : s.asyncifyStubs target <;> simp [hst]
  simp only [setImport, hd, if_true]
  rfl

/-- A symbol without one gets it. -/
theorem setImport_new (h : s.wasmImports target = none ∨ s.wasmImports target = some .stub) :
    setImport target kind d s = { s with
      wasmImports := Function.update s.wasmImports target (some (.object kind (.direct d)))
      asyncifyStubs := stubsWith s target d
      published := s.published ++ [(target, d)] } := by
  have hd : isSymbolDefined (setStub target d { s with published := s.published ++ [(target, d)] })
      target = false := by
    obtain h | h := h <;> simp [isSymbolDefined, setStub, h]
  simp only [setImport, hd]
  rfl

/-- The definition may become global now. -/
def SetOk (s : State L) (target : Name) (d : Def L) : Prop :=
  (∀ kind name, s.wasmImports target = some (.object kind (.stub name)) →
      ∀ e, s.first target = some e → e = d) ∧
    (isSymbolDefined s target = false → ∀ e, s.addressed target = some e →
      (s.first target).getD d = e)

theorem first_publish {published : List (Name × Def L)} (h : s.published = published ++ [(target, d)])
    (n : Name) : s.first n = (published.lookup n).or (if n = target then some d else none) := by
  rw [State.first, h, lookup_append]
  by_cases hn : n = target
  · simp [hn]
  · have hb : (n == target) = false := by simpa using hn
    simp [List.lookup_cons, hb, hn]

/-- The tables after a symbol became global, whichever way it went. -/
theorem setImport_cases (P : State L → Prop)
    (hobject : ∀ k ref, s.wasmImports target = some (.object k ref) → P { s with
      asyncifyStubs := stubsWith s target d
      published := s.published ++ [(target, d)] })
    (hnew : s.wasmImports target = none ∨ s.wasmImports target = some .stub → P { s with
      wasmImports := Function.update s.wasmImports target (some (.object kind (.direct d)))
      asyncifyStubs := stubsWith s target d
      published := s.published ++ [(target, d)] }) : P (setImport target kind d s) := by
  cases hw : s.wasmImports target with
  | none => exact setImport_new (.inl hw) ▸ hnew (.inl hw)
  | some i =>
    cases i with
    | stub => exact setImport_new (.inr hw) ▸ hnew (.inr hw)
    | object k ref => exact setImport_object hw ▸ hobject k ref hw

theorem setImport_stubs : (setImport target kind d s).asyncifyStubs = stubsWith s target d :=
  setImport_cases (fun t => t.asyncifyStubs = stubsWith s target d) (fun _ _ _ => rfl) fun _ => rfl

@[simp] theorem setImport_published :
    (setImport target kind d s).published = s.published ++ [(target, d)] :=
  setImport_cases (fun t => t.published = s.published ++ [(target, d)]) (fun _ _ _ => rfl)
    fun _ => rfl

@[simp] theorem setImport_GOT : (setImport target kind d s).GOT = s.GOT :=
  setImport_cases (fun t => t.GOT = s.GOT) (fun _ _ _ => rfl) fun _ => rfl

@[simp] theorem setImport_dsos : (setImport target kind d s).dsos = s.dsos :=
  setImport_cases (fun t => t.dsos = s.dsos) (fun _ _ _ => rfl) fun _ => rfl

theorem setImport_wasmImports_ne (h : n ≠ target) :
    (setImport target kind d s).wasmImports n = s.wasmImports n :=
  setImport_cases (fun t => t.wasmImports n = s.wasmImports n) (fun _ _ _ => rfl)
    fun _ => Function.update_of_ne h _ _

/-- A wrapper stays where it is. -/
theorem setImport_wrapper {name : Name} (h : s.wasmImports n = some (.object k (.stub name))) :
    (setImport target kind d s).wasmImports n = some (.object k (.stub name)) := by
  by_cases hn : n = target
  · subst hn
    rw [setImport_object h]
    exact h
  · rw [setImport_wasmImports_ne hn, h]

theorem first_setImport (n : Name) : (setImport target kind d s).first n =
    if n = target then some ((s.first target).getD d) else s.first n := by
  rw [first_publish setImport_published]
  by_cases hn : n = target
  · subst hn
    change (s.first n).or _ = _
    cases s.first n <;> simp
  · simp [hn, State.first]

theorem Inv.addressed_setImport (h : Inv s) (hok : SetOk s target d) (n : Name) :
    (setImport target kind d s).addressed n = s.addressed n := by
  unfold State.addressed
  rw [setImport_GOT]
  cases hg : s.GOT n with
  | none => rfl
  | some e =>
    obtain ⟨v, b⟩ := e
    cases v with
    | undefined | null => rfl
    | address ref =>
      cases ref with
      | direct d' => rfl
      | stub name =>
        obtain ⟨⟨k, hk⟩, e, he⟩ := h.gotWrapped n name b hg
        simp only [State.denotes, setImport_stubs]
        by_cases hn : name = target
        · subst hn
          -- the wrapper has a definition, and it is this one
          have hfirst : s.first name = some e := by
            rw [← h.first]
            simp [State.imported, hk, State.denotes, he]
          obtain rfl := hok.1 k name hk e hfirst
          simp [stubsWith_self, he]
        · simp [stubsWith_of_ne hn]

theorem Inv.imported_setImport_ne (h : Inv s) (hn : n ≠ target) :
    (setImport target kind d s).imported n = s.imported n := by
  unfold State.imported
  rw [setImport_wasmImports_ne hn]
  cases hw : s.wasmImports n with
  | none => rfl
  | some i =>
    cases i with
    | stub => rfl
    | object k ref =>
      cases ref with
      | direct d' => rfl
      | stub name =>
        obtain ⟨rfl, -⟩ := h.wrapped n k name hw
        simp [State.denotes, setImport_stubs, stubsWith_of_ne hn]

theorem Inv.imported_setImport (h : Inv s) (hok : SetOk s target d) :
    (setImport target kind d s).imported target = some ((s.first target).getD d) := by
  have hfirst := h.first target
  cases hw : s.wasmImports target with
  | none =>
    rw [setImport_new (.inl hw)]
    simp only [State.imported, hw] at hfirst
    simp [State.imported, State.denotes, ← hfirst]
  | some i =>
    cases i with
    | stub =>
      rw [setImport_new (.inr hw)]
      simp only [State.imported, hw] at hfirst
      simp [State.imported, State.denotes, ← hfirst]
    | object k ref =>
      rw [setImport_object hw]
      cases ref with
      | direct d' =>
        simp only [State.imported, hw, State.denotes] at hfirst
        simp [State.imported, hw, State.denotes, ← hfirst]
      | stub name =>
        obtain ⟨rfl, hstub⟩ := h.wrapped target k name hw
        have hd : (s.first name).getD d = d := by
          cases hf : s.first name with
          | none => rfl
          | some e => exact hok.1 k name hw e hf
        simp [State.imported, hw, State.denotes, stubsWith_self hstub, hd]

/-- One definition becomes global. -/
theorem Inv.publish (h : Inv s) (hok : SetOk s target d) (hv : s.Visible d) :
    Inv (setImport target kind d s) := by
  have hglobal (e : Def L) : (setImport target kind d s).Visible e ↔ s.Visible e := by
    simp [State.Visible, State.Global]
  constructor
  · intro n
    rw [first_setImport]
    by_cases hn : n = target
    · subst hn
      simp [h.imported_setImport hok]
    · simp [hn, h.imported_setImport_ne hn, h.first]
  · intro n k name hw
    by_cases hn : n = target
    · subst hn
      cases ho : s.wasmImports n with
      | none => simp [setImport_new (.inl ho)] at hw
      | some i =>
        cases i with
        | stub => simp [setImport_new (.inr ho)] at hw
        | object k' ref =>
          rw [setImport_object ho] at hw
          obtain ⟨rfl, hstub⟩ := h.wrapped n k name hw
          exact ⟨rfl, by simp [setImport_stubs, stubsWith_self hstub]⟩
    · rw [setImport_wasmImports_ne hn] at hw
      rw [setImport_stubs, stubsWith_of_ne hn]
      exact h.wrapped n k name hw
  · intro n name b hg
    rw [setImport_GOT] at hg
    obtain ⟨⟨k, hk⟩, e, he⟩ := h.gotWrapped n name b hg
    refine ⟨⟨k, setImport_wrapper hk⟩, ?_⟩
    rw [setImport_stubs]
    by_cases hn : name = target
    · subst hn
      exact ⟨d, stubsWith_self (by simp [he])⟩
    · exact ⟨e, by rw [stubsWith_of_ne hn, he]⟩
  · intro n k e hw hs
    rw [setImport_stubs] at hs
    by_cases hn : n = target
    · subst hn
      cases ho : s.asyncifyStubs n with
      | none => simp [stubsWith_ne ho] at hs
      | some o => simp [stubsWith_self, ho] at hs
    · rw [setImport_wasmImports_ne hn] at hw
      rw [stubsWith_of_ne hn] at hs
      exact h.unset n k e hw hs
  · intro n e e' hi ha
    rw [h.addressed_setImport hok] at ha
    by_cases hn : n = target
    · subst hn
      rw [h.imported_setImport hok, Option.some.injEq] at hi
      cases hf : s.first n with
      | none =>
        have hnone : s.imported n = none := (h.first n).trans hf
        have hundef : isSymbolDefined s n = false := by
          by_contra hd
          obtain ⟨k, ref, hw, e, he⟩ := h.defined (by simpa using hd)
          simp [State.imported, hw, he] at hnone
        exact hi.symm.trans (hok.2 hundef e' ha)
      | some f =>
        have hf' : s.imported n = some f := (h.first n).trans hf
        rw [hf, Option.getD_some] at hi
        exact hi ▸ h.agree n f e' hf' ha
    · rw [h.imported_setImport_ne hn] at hi
      exact h.agree n e e' hi ha
  · intro n e hi
    rw [hglobal]
    by_cases hn : n = target
    · subst hn
      rw [h.imported_setImport hok, Option.some.injEq] at hi
      cases hf : s.first n with
      | none =>
        rw [hf, Option.getD_none] at hi
        exact hi ▸ hv
      | some f =>
        rw [hf, Option.getD_some] at hi
        exact hi ▸ h.imports n f ((h.first n).trans hf)
    · rw [h.imported_setImport_ne hn] at hi
      exact h.imports n e hi
  · intro n e ha
    rw [hglobal]
    rw [h.addressed_setImport hok] at ha
    exact h.addresses n e ha

theorem isSymbolDefined_setImport_self :
    isSymbolDefined (setImport target kind d s) target = true := by
  have hstub : stubsWith s target d target ≠ some none := by
    cases hs : s.asyncifyStubs target with
    | none => simp [stubsWith_ne hs]
    | some o => simp [stubsWith_self, hs]
  refine setImport_cases (fun t => isSymbolDefined t target = true) (fun k ref hw => ?_) fun hw => ?_
  · simp only [isSymbolDefined, hw]
  · simp only [isSymbolDefined, Function.update_self]

theorem isSymbolDefined_setImport_ne (h : n ≠ target) :
    isSymbolDefined (setImport target kind d s) n = isSymbolDefined s n := by
  simp [isSymbolDefined, setImport_wasmImports_ne h, setImport_stubs, stubsWith_of_ne h]

/-- No wrapper is made. -/
theorem setImport_not_wrapper {name : Name}
    (h : (setImport target kind d s).wasmImports n = some (.object k (.stub name))) :
    s.wasmImports n = some (.object k (.stub name)) := by
  by_cases hn : n = target
  · subst hn
    refine setImport_cases (fun t => t.wasmImports n = some (.object k (.stub name)) →
      s.wasmImports n = some (.object k (.stub name))) (fun _ _ _ h => h) (fun _ h => ?_) h
    simp at h
  · rwa [setImport_wasmImports_ne hn] at h

theorem firstWith_eq (defs : List (Name × Def L)) (n : Name) :
    s.firstWith defs n = (s.first n).or (defs.lookup n) := lookup_append ..

theorem firstWith_setImport (defs : List (Name × Def L)) (n : Name) :
    (setImport target kind d s).firstWith defs n = s.firstWith ((target, d) :: defs) n := by
  simp [State.firstWith]

theorem PublishOk.head (h : PublishOk s ((target, d) :: defs)) : SetOk s target d := by
  obtain ⟨hwrap, haddr⟩ := h (target, d) (by simp)
  constructor
  · intro k name hw e he
    have := hwrap k name hw
    simpa [firstWith_eq, he] using this
  · intro hd e he
    have := haddr hd e he
    rw [firstWith_eq] at this
    cases hf : s.first target with
    | none => simpa [hf] using this
    | some f => simpa [hf] using this

theorem PublishOk.tail (hI : Inv s) (h : PublishOk s ((target, d) :: defs)) :
    PublishOk (setImport target kind d s) defs := by
  intro x hx
  obtain ⟨hwrap, haddr⟩ := h x (by simp [hx])
  refine ⟨fun k name hw => ?_, fun hd e he => ?_⟩
  · rw [firstWith_setImport]
    exact hwrap k name (setImport_not_wrapper hw)
  · rw [firstWith_setImport]
    by_cases hn : x.1 = target
    · rw [hn, isSymbolDefined_setImport_self] at hd
      cases hd
    · rw [isSymbolDefined_setImport_ne hn] at hd
      rw [hI.addressed_setImport h.head] at he
      exact haddr hd e he

/-- The loop of `mergeLibSymbols`, for a list of definitions. -/
theorem Inv.publishAll {defs : List (Name × Kind × Def L)} (hI : Inv s)
    (hok : PublishOk s (defs.map fun x => (x.1, x.2.2))) (hv : ∀ x ∈ defs, s.Visible x.2.2) :
    Inv (defs.foldl (fun s x => setImport x.1 x.2.1 x.2.2 s) s) := by
  induction defs generalizing s with
  | nil => exact hI
  | cons x defs ih =>
    obtain ⟨t, k, d⟩ := x
    refine ih (hI.publish hok.head (hv _ (by simp))) (hok.tail hI) fun y hy => ?_
    simpa [State.Visible, State.Global] using hv y (by simp [hy])

theorem mergeLibSymbols_eq (exports : List Export) :
    mergeLibSymbols P owner exports s =
      (exports.flatMap fun e => (P.targets e.name).map fun t => (t, e.kind, Def.mk owner e.id)).foldl
        (fun s x => setImport x.1 x.2.1 x.2.2 s) s := by
  simp [mergeLibSymbols, List.foldl_flatMap, List.foldl_map]

theorem definitions_eq (exports : List Export) :
    (exports.flatMap fun e => (P.targets e.name).map fun t => (t, e.kind, Def.mk owner e.id)).map
      (fun x => (x.1, x.2.2)) = P.definitions owner exports := by
  simp [Program.definitions, List.map_flatMap, Function.comp_def]

theorem foldl_setImport {β : Type} (f : State L → β) (defs : List (Name × Kind × Def L))
    (h : ∀ (t : State L) (x : Name × Kind × Def L), f (setImport x.1 x.2.1 x.2.2 t) = f t) :
    f (defs.foldl (fun s x => setImport x.1 x.2.1 x.2.2 s) s) = f s := by
  induction defs generalizing s with
  | nil => rfl
  | cons x defs ih => exact ih.trans (h s x)

theorem mergeLibSymbols_GOT (exports : List Export) : (mergeLibSymbols P owner exports s).GOT = s.GOT := by
  rw [mergeLibSymbols_eq]
  exact foldl_setImport State.GOT _ fun _ _ => setImport_GOT

theorem mergeLibSymbols_published (exports : List Export) :
    (mergeLibSymbols P owner exports s).published = s.published ++ P.definitions owner exports := by
  rw [mergeLibSymbols_eq, ← definitions_eq]
  generalize (exports.flatMap _ : List (Name × Kind × Def L)) = defs
  induction defs generalizing s with
  | nil => simp
  | cons x defs ih => simp [ih]

theorem Inv.merge {owner : Owner L} {exports : List Export} (hI : Inv s)
    (hok : PublishOk s (P.definitions owner exports))
    (hv : ∀ l, owner = .lib l → s.Global l) : Inv (mergeLibSymbols P owner exports s) := by
  rw [mergeLibSymbols_eq]
  refine hI.publishAll (definitions_eq (P := P) owner exports ▸ hok) fun x hx => ?_
  obtain ⟨e, -, hx⟩ := List.mem_flatMap.mp hx
  obtain ⟨t, -, rfl⟩ := List.mem_map.mp hx
  exact hv

/-! ## The global offset table -/

theorem addressed_setGot (n sym : Name) (e : GotEntry L) :
    (setGot sym e s).addressed n = if n = sym then
      (match e.value with | .address ref => s.denotes ref | _ => none) else s.addressed n := by
  unfold State.addressed setGot
  by_cases hn : n = sym
  · subst hn
    obtain ⟨v, b⟩ := e
    cases v <;> simp [State.denotes]
  · simp [hn, State.denotes]

/-- An entry changes, and what it holds agrees with the global symbols. -/
theorem Inv.setGot (hI : Inv s) {e : GotEntry L}
    (hwrap : ∀ name, e.value = .address (.stub name) →
      (∃ kind, s.wasmImports name = some (.object kind (.stub name))) ∧
        ∃ d, s.asyncifyStubs name = some (some d))
    (hval : ∀ ref d, e.value = .address ref → s.denotes ref = some d →
      s.Visible d ∧ ∀ d', s.imported sym = some d' → d' = d) : Inv (setGot sym e s) := by
  have hheld (d : Def L) (hd : (SymbolTables.setGot sym e s).addressed sym = some d) :
      ∃ ref, e.value = .address ref ∧ s.denotes ref = some d := by
    rw [addressed_setGot, if_pos rfl] at hd
    split at hd
    next ref hv => exact ⟨ref, hv, hd⟩
    next => cases hd
  refine ⟨hI.first, hI.wrapped, ?_, hI.unset, ?_, hI.imports, ?_⟩
  · intro n name b hg
    by_cases hn : n = sym
    · subst hn
      simp only [SymbolTables.setGot, Function.update_self, Option.some.injEq] at hg
      exact hwrap name (by simp [hg])
    · simp only [SymbolTables.setGot, Function.update_of_ne hn] at hg
      exact hI.gotWrapped n name b hg
  · intro n d d' hi ha
    by_cases hn : n = sym
    · subst hn
      obtain ⟨ref, hv, hd⟩ := hheld d' ha
      exact (hval ref d' hv hd).2 d hi
    · rw [addressed_setGot, if_neg hn] at ha
      exact hI.agree n d d' hi ha
  · intro n d ha
    by_cases hn : n = sym
    · subst hn
      obtain ⟨ref, hv, hd⟩ := hheld d ha
      exact (hval ref d hv hd).1
    · rw [addressed_setGot, if_neg hn] at ha
      exact hI.addresses n d ha

/-- An import makes an entry, and its value stays. -/
theorem Inv.gotHandlerGet (hI : Inv s) (x : Name × Bool) : Inv (gotHandlerGet s x) := by
  unfold SymbolTables.gotHandlerGet
  cases hg : s.GOT x.1 with
  | none => exact hI.setGot nofun nofun
  | some e =>
    obtain ⟨v, b⟩ := e
    refine hI.setGot (fun name hv => ?_) fun ref d hv hd => ?_
    · simp only [Option.getD_some] at hv
      exact hI.gotWrapped x.1 name b (by simpa [hv] using hg)
    · simp only [Option.getD_some] at hv
      subst hv
      have ha : s.addressed x.1 = some d := by simp [State.addressed, hg, hd]
      exact ⟨hI.addresses _ d ha, fun d' hi => hI.agree _ d' d hi ha⟩

theorem existingEntry_gotHandlerGet (x : Name × Bool) (n : Name) :
    existingEntry (gotHandlerGet s x) n = existingEntry s n := by
  unfold existingEntry gotHandlerGet SymbolTables.setGot
  by_cases hn : n = x.1
  · subst hn
    cases hg : s.GOT x.1 with
    | none => simp
    | some e =>
      obtain ⟨v, b⟩ := e
      cases v <;> simp
  · simp [hn]

theorem addressed_gotHandlerGet (x : Name × Bool) (n : Name) :
    (gotHandlerGet s x).addressed n = s.addressed n := by
  unfold SymbolTables.gotHandlerGet
  rw [addressed_setGot]
  split
  next hn =>
    rw [hn]
    unfold State.addressed
    cases hg : s.GOT x.1 with
    | none => simp
    | some e =>
      obtain ⟨v, b⟩ := e
      cases v <;> simp
  next => rfl

/-- The imports of a module as a whole. -/
structure SameTables (s s' : State L) : Prop where
  published : s'.published = s.published
  dsos : s'.dsos = s.dsos
  wasmImports : s'.wasmImports = s.wasmImports
  asyncifyStubs : s'.asyncifyStubs = s.asyncifyStubs
  existing : ∀ n, existingEntry s' n = existingEntry s n
  addressed : ∀ n, s'.addressed n = s.addressed n

theorem gotImports (l : List (Name × Bool)) (s : State L) :
    SameTables s (l.foldl gotHandlerGet s) ∧ (Inv s → Inv (l.foldl gotHandlerGet s)) := by
  induction l generalizing s with
  | nil => exact ⟨⟨rfl, rfl, rfl, rfl, fun _ => rfl, fun _ => rfl⟩, id⟩
  | cons x l ih =>
    obtain ⟨h, hI⟩ := ih (gotHandlerGet s x)
    refine ⟨⟨h.published, h.dsos, h.wasmImports, h.asyncifyStubs, fun n => ?_, fun n => ?_⟩, ?_⟩
    · exact (h.existing n).trans (existingEntry_gotHandlerGet x n)
    · exact (h.addressed n).trans (addressed_gotHandlerGet x n)
    · exact fun h' => hI (h'.gotHandlerGet x)

/-! ## `updateGOT` -/

theorem existingEntry_setGot {e : GotEntry L} (n : Name) (h : existingEntry s n = true)
    (he : e.value ≠ .undefined) : existingEntry (setGot sym e s) n = true := by
  unfold existingEntry setGot
  by_cases hn : n = sym
  · obtain ⟨v, b⟩ := e
    subst hn
    cases v with
    | undefined => exact absurd rfl he
    | null | address => simp
  · simp only [Function.update_of_ne hn]
    exact h

/-- The loop of `updateGOT`, from a state that has all the entries of the one it began in. -/
theorem updateGOT_inv {owner : Owner L} {exports : List Export} {replace : Bool} (s₀ : State L)
    {first : Name → Option (Def L)} (hI : Inv s) (hfirst : ∀ n, s.first n = first n)
    (hold : ∀ n, existingEntry s₀ n = true → existingEntry s n = true)
    (hok : TakeOk P s₀ first owner exports replace)
    (hv : P.taken s₀ replace exports ≠ [] → ∀ l, owner = .lib l → s.Global l) :
    Inv (updateGOT P owner exports replace s) := by
  unfold updateGOT
  induction exports generalizing s replace with
  | nil => exact hI
  | cons e exports ih =>
    rw [List.foldl_cons, updateEntry]
    by_cases hint : P.isInternalSym e.name
    · simp only [hint, if_true]
      refine ih hI hfirst hold ?_ ?_
      · simpa [TakeOk, Program.taken, hint] using hok
      · simpa [Program.taken, hint] using hv
    · rcases hn : P.gotName replace e with ⟨n, r⟩
      simp only [TakeOk, Program.taken, hint, hn, Bool.false_eq_true, if_false] at hok hv ⊢
      by_cases hstore : ((r || !existingEntry s n) && e.kind ≠ .other) = true
      · -- what is stored now was not there in the beginning either
        have htaken : ((r || !existingEntry s₀ n) && e.kind ≠ .other) = true := by
          have := hold n
          cases h₀ : existingEntry s₀ n <;> simp_all
        rw [if_pos htaken] at hok hv
        rw [if_pos hstore]
        have howner := hv (by simp)
        refine ih ?_ hfirst (fun m hm => existingEntry_setGot m (hold m hm) nofun) ?_
          fun _ => howner
        · refine hI.setGot nofun fun ref d href hd => ?_
          cases href
          cases hd
          exact ⟨howner, fun d' hi => hok (n, e.id) (by simp) d' ((hfirst n).symm.trans
            ((hI.first n).symm.trans hi))⟩
        · exact fun x hx => hok x (List.mem_cons_of_mem _ hx)
      · rw [if_neg hstore]
        refine ih hI hfirst hold (fun x hx => hok x ?_) fun hne => hv ?_
        · split
          · exact List.mem_cons_of_mem _ hx
          · exact hx
        · split
          · simp
          · exact hne

/-! ## Functions made on demand -/

theorem not_generated_origName (n : Name) : P.generated (origName n) = false := by
  have hinv : "invoke_".toList.isPrefixOf (origName n) = false := rfl
  have hcatch : "__cxa_find_matching_catch_".toList.isPrefixOf (origName n) = false := rfl
  simp only [Program.generated, hinv, hcatch, Bool.and_false, Bool.or_false]

theorem lookedUp_eq (P : Program L) (s : State L) (sym : Name) (direct : Bool) :
    P.lookedUp s sym direct = sym ∨
    P.WASM_BIGINT = false ∧ s.wasmImports (origName sym) ≠ none ∧
      P.lookedUp s sym direct = origName sym := by
  unfold Program.lookedUp
  split
  next h =>
    simp only [Bool.and_eq_true, Bool.not_eq_true', decide_eq_true_eq] at h
    exact .inr ⟨h.1.1, h.2, rfl⟩
  next => exact .inl rfl

theorem lookedUp_of_generated {direct : Bool} (h : P.generated (P.lookedUp s sym direct)) :
    P.lookedUp s sym direct = sym := by
  obtain he | ⟨-, -, he⟩ := lookedUp_eq P s sym direct
  · exact he
  · rw [he, not_generated_origName] at h
    cases h

/-- The state after `resolveGlobalSymbol` made a function. -/
def made (n : Name) (s : State L) : State L := { s with
  wasmImports := Function.update s.wasmImports n (some (.object .function (.direct ⟨.js, n⟩)))
  published := s.published ++ [(n, ⟨.js, n⟩)] }

/-- What `resolveGlobalSymbol` does with the name it looks up. -/
inductive Resolved (P : Program L) (s : State L) (n : Name) :
    State L × Option (Kind × Ref L) → Prop
  | found (kind : Kind) (ref : Ref L) (hd : isSymbolDefined s n = true)
      (hw : s.wasmImports n = some (.object kind ref)) : Resolved P s n (s, some (kind, ref))
  | made (hd : isSymbolDefined s n = false) (hg : P.generated n) :
      Resolved P s n (made n s, some (.function, .direct ⟨.js, n⟩))
  | missing : Resolved P s n (s, none)

theorem resolveGlobalSymbol_resolved (P : Program L) (s : State L) (sym : Name) (direct : Bool) :
    Resolved P s (P.lookedUp s sym direct) (resolveGlobalSymbol P sym direct s) := by
  simp only [resolveGlobalSymbol]
  split
  next hd =>
    split
    next kind ref hw => exact .found kind ref hd hw
    next => exact .missing
  next hd =>
    split
    next hg => exact .made (by simpa using hd) hg
    next => exact .missing

theorem Inv.made (hI : Inv s) (hd : isSymbolDefined s n = false)
    (ha : ∀ d, s.addressed n = some d → d = ⟨.js, n⟩) : Inv (made n s) := by
  have hsame (m : Name) (hm : m ≠ n) : (SymbolTables.made n s).imported m = s.imported m := by
    simp [State.imported, SymbolTables.made, hm, State.denotes]
  have hself : (SymbolTables.made n s).imported n = some ⟨.js, n⟩ := by
    simp [State.imported, SymbolTables.made, State.denotes]
  have hpub (m : Name) := first_publish (s := SymbolTables.made n s) (d := ⟨.js, n⟩) rfl m
  -- what was held before is the same function
  have hbefore (d : Def L) (h : s.imported n = some d) : d = ⟨.js, n⟩ := by
    unfold isSymbolDefined at hd
    unfold State.imported at h
    split at h
    next k ref hw =>
      simp only [hw] at hd
      split at hd
      next hs =>
        cases ref with
        | direct e =>
          cases h
          exact hI.unset n k d hw hs
        | stub name =>
          obtain ⟨rfl, -⟩ := hI.wrapped n k name hw
          simp [State.denotes, hs] at h
      next => cases hd
    next => cases h
  constructor
  · intro m
    rw [hpub]
    change _ = (s.first m).or _
    by_cases hm : m = n
    · subst hm
      rw [hself]
      cases hf : s.first m with
      | none => simp
      | some e => simp [hbefore e ((hI.first m).trans hf)]
    · rw [hsame m hm, hI.first]
      simp [hm]
  · intro m k name hw
    by_cases hm : m = n
    · simp [SymbolTables.made, hm] at hw
    · simp only [SymbolTables.made, Function.update_of_ne hm] at hw
      exact hI.wrapped m k name hw
  · intro m name b hg
    obtain ⟨⟨k, hk⟩, e, he⟩ := hI.gotWrapped m name b hg
    have hne : name ≠ n := by
      rintro rfl
      simp [isSymbolDefined, hk, he] at hd
    exact ⟨⟨k, by simp [SymbolTables.made, hne, hk]⟩, e, he⟩
  · intro m k d hw hs
    by_cases hm : m = n
    · simp only [SymbolTables.made, hm, Function.update_self, Option.some.injEq, Import.object.injEq,
        Ref.direct.injEq] at hw
      exact hm ▸ hw.2.symm
    · simp only [SymbolTables.made, Function.update_of_ne hm] at hw
      exact hI.unset m k d hw hs
  · intro m d d' hi h
    by_cases hm : m = n
    · subst hm
      rw [hself] at hi
      cases hi
      exact (ha d' h).symm
    · exact hI.agree m d d' ((hsame m hm).symm.trans hi) h
  · intro m d hi
    by_cases hm : m = n
    · subst hm
      rw [hself] at hi
      cases hi
      exact nofun
    · exact hI.imports m d ((hsame m hm).symm.trans hi)
  · exact hI.addresses

/-! ## `reportUndefinedSymbols` -/

/-- A symbol that waits for a definition and has one without legalization has it from the same
library. -/
def ReportOk (P : Program L) (s : State L) : Prop :=
  P.WASM_BIGINT = false → ∀ sym, s.wasmImports (origName sym) ≠ none →
    s.GOT sym ≠ none → existingEntry s sym = false → s.first (origName sym) = s.first sym

theorem existingEntry_storeGot (v : GotValue L) (hv : v ≠ .undefined) :
    existingEntry (storeGot sym v s) sym = true := by
  cases v with
  | undefined => exact absurd rfl hv
  | null | address => simp [existingEntry, storeGot, setGot]

/-- An entry that is filled waits no longer. -/
theorem ReportOk.store (h : ReportOk P s) (v : GotValue L) (hv : v ≠ .undefined)
    (hg : s.GOT sym ≠ none) : ReportOk P (storeGot sym v s) := by
  intro hb n hw hn he
  by_cases hns : n = sym
  · subst hns
    rw [existingEntry_storeGot v hv] at he
    cases he
  · simp only [existingEntry, storeGot, setGot, Function.update_of_ne hns] at hn he
    exact h hb n hw hn he

theorem ReportOk.made (h : ReportOk P s) (hgen : P.generated n) (v : GotValue L) (hv : v ≠ .undefined) :
    ReportOk P (storeGot n v (made n s)) := by
  have horig (m : Name) : origName m ≠ n := by
    rintro rfl
    rw [not_generated_origName] at hgen
    cases hgen
  intro hb m hw hm he
  by_cases hmn : m = n
  · subst hmn
    rw [existingEntry_storeGot v hv] at he
    cases he
  · simp only [existingEntry, storeGot, setGot, SymbolTables.made, Function.update_of_ne hmn,
      Function.update_of_ne (horig m)] at hw hm he
    have hfirst (k : Name) (hk : k ≠ n) :
        (storeGot n v (SymbolTables.made n s)).first k = s.first k := by
      rw [first_publish (s := storeGot n v (SymbolTables.made n s)) (d := ⟨.js, n⟩) rfl]
      simp [hk, State.first]
    rw [hfirst _ (horig m), hfirst m hmn]
    exact h hb m hw hm he

/-- What `wasmImports` has for the name that is looked up is right for the symbol that waits. -/
theorem Inv.report_store (hI : Inv s) (hok : ReportOk P s) {kind : Kind} {ref : Ref L} {b : Bool}
    (hg : s.GOT sym = some ⟨.undefined, b⟩)
    (hd : isSymbolDefined s (P.lookedUp s sym true) = true)
    (hw : s.wasmImports (P.lookedUp s sym true) = some (.object kind ref)) :
    Inv (storeGot sym (.address ref) s) := by
  have hheld (d : Def L) (h : s.denotes ref = some d) :
      s.imported (P.lookedUp s sym true) = some d := by
    simp [State.imported, hw, h]
  refine hI.setGot (fun name hv => ?_) fun r d hv h => ?_
  · cases hv
    obtain ⟨rfl, -⟩ := hI.wrapped _ kind name hw
    obtain ⟨k, r, hw', d, h⟩ := hI.defined hd
    rw [hw] at hw'
    cases hw'
    refine ⟨⟨kind, hw⟩, d, ?_⟩
    simpa [State.denotes, Option.join_eq_some_iff] using h
  · cases hv
    refine ⟨hI.imports _ d (hheld d h), fun d' hi => ?_⟩
    obtain he | ⟨hb, hne, he⟩ := lookedUp_eq P s sym true
    · have := hheld d h
      rw [he, hi] at this
      exact Option.some.inj this
    · have hfirst := hok hb sym hne (by simp [hg]) (by simp [existingEntry, hg])
      have := hheld d h
      rw [he, hI.first, hfirst, ← hI.first, hi] at this
      exact Option.some.inj this

theorem Inv.reportEntry (hI : Inv s) (hok : ReportOk P s) (n : Name) :
    Inv (reportEntry P n s).1 ∧ ReportOk P (reportEntry P n s).1 := by
  unfold SymbolTables.reportEntry
  split
  next required hg =>
    have hres := resolveGlobalSymbol_resolved P s n true
    have hne : s.GOT n ≠ none := by simp [hg]
    generalize resolveGlobalSymbol P n true s = r at hres
    cases hres with
    | found kind ref hd hw =>
      cases kind with
      | other => exact ⟨hI, hok⟩
      | function | address =>
        exact ⟨hI.report_store hok hg hd hw, hok.store _ nofun hne⟩
    | made hd hgen =>
      have he := lookedUp_of_generated hgen
      rw [he] at hd hgen ⊢
      have hmade := hI.made hd (by simp [State.addressed, hg])
      refine ⟨hmade.setGot nofun fun ref d hv h => ?_, hok.made hgen _ nofun⟩
      cases hv
      cases h
      refine ⟨nofun, fun d' hi => ?_⟩
      simpa [State.imported, SymbolTables.made, State.denotes, eq_comm] using hi
    | missing =>
      simp only
      split
      · exact ⟨hI, hok⟩
      · exact ⟨hI.setGot nofun nofun, hok.store _ nofun hne⟩
  next => exact ⟨hI, hok⟩

theorem Inv.reportEntries (hI : Inv s) (hok : ReportOk P s) (names : List Name) :
    Inv (reportEntries P names s) := by
  induction names generalizing s with
  | nil => exact hI
  | cons n names ih =>
    obtain ⟨hI', hok'⟩ := hI.reportEntry hok n
    unfold SymbolTables.reportEntries
    split
    next s' h =>
      rw [h] at hI' hok'
      exact ih hI' hok'
    next s' h =>
      rw [h] at hI'
      exact hI'

/-! ## One step -/

/-- A library that is registered, or that gets further, stays as global as it was. -/
theorem Inv.setDso (hI : Inv s) [DecidableEq L] {l : L} {dso : Dso}
    (hkeep : s.Global l → dso.global) : Inv (setDso l dso s) := by
  have hglobal (k : L) (hk : s.Global k) : (SymbolTables.setDso l dso s).Global k := by
    by_cases hkl : k = l
    · subst hkl
      exact ⟨dso, by simp [SymbolTables.setDso], hkeep hk⟩
    · obtain ⟨e, he, hg⟩ := hk
      exact ⟨e, by simp [SymbolTables.setDso, hkl, he], hg⟩
  exact ⟨hI.first, hI.wrapped, hI.gotWrapped, hI.unset, hI.agree,
    fun n d hi k hk => hglobal k (hI.imports n d hi k hk),
    fun n d ha k hk => hglobal k (hI.addresses n d ha k hk)⟩

theorem global_setDso [DecidableEq L] {l : L} {dso : Dso} (h : dso.global) :
    (setDso l dso s).Global l := ⟨dso, by simp [setDso], h⟩

theorem publishOk_congr (h : PublishOk s defs) (hp : s'.published = s.published)
    (hw : s'.wasmImports = s.wasmImports) (hs : s'.asyncifyStubs = s.asyncifyStubs)
    (ha : ∀ n, s'.addressed n = s.addressed n) : PublishOk s' defs := by
  intro x hx
  have := h x hx
  simpa only [State.firstWith, isSymbolDefined, hp, hw, hs, ha] using this

/-- The tables before the main module is there. -/
theorem lookup_js (l : List (Name × MainImport)) (hl : (l.map Prod.fst).Nodup) (n : Name) :
    (l.filterMap fun x => match x.2 with
      | .js _ => some (x.1, Def.mk (L := L) .js x.1)
      | _ => none).lookup n = match l.lookup n with
      | some (.js _) => some ⟨.js, n⟩
      | _ => none := by
  induction l with
  | nil => rfl
  | cons x l ih =>
    obtain ⟨m, i⟩ := x
    rw [List.map_cons, List.nodup_cons] at hl
    have hnot (h : n = m) : l.lookup n = none := by
      subst h
      rw [List.lookup_eq_none_iff]
      intro y hy
      simp only [bne_iff_ne, ne_eq]
      exact fun he => hl.1 (List.mem_map.mpr ⟨y, hy, he.symm⟩)
    by_cases h : n = m
    · have hnone := ih hl.2
      rw [hnot h] at hnone
      subst h
      cases i with
      | js k => simp
      | stub | wrapper => simpa using hnone
    · have hb : (n == m) = false := by simpa using h
      have := ih hl.2
      cases i with
      | js k => simpa [List.lookup_cons, hb] using this
      | stub | wrapper => simpa [List.lookup_cons, hb] using this

theorem inv_start (P : Program L) : Inv P.start := by
  constructor
  · intro n
    refine Eq.trans ?_ (lookup_js P.imports P.unique n).symm
    simp only [State.imported, State.denotes, Program.start]
    cases h : P.imports.lookup n with
    | none => simp
    | some i => cases i <;> simp [MainImport.toImport, h]
  · intro n k name hw
    simp only [Program.start, Option.map_eq_some_iff] at hw
    obtain ⟨i, hi, hobj⟩ := hw
    cases i with
    | js k => cases hobj
    | stub => cases hobj
    | wrapper =>
      cases hobj
      exact ⟨rfl, by simp [Program.start, hi]⟩
  · exact nofun
  · intro n k d hw hs
    simp only [Program.start, Option.map_eq_some_iff] at hw
    obtain ⟨i, hi, hobj⟩ := hw
    cases i with
    | js k =>
      cases hobj
      rfl
    | stub | wrapper => cases hobj
  · exact nofun
  · intro n d hi l hl
    simp only [State.imported, Program.start] at hi
    cases h : P.imports.lookup n with
    | none => simp [h] at hi
    | some i =>
      cases i with
      | js k =>
        simp only [h, Option.map_some, MainImport.toImport, State.denotes,
          Option.some.injEq] at hi
        subst hi
        cases hl
      | stub => simp [h, MainImport.toImport] at hi
      | wrapper => simp [h, MainImport.toImport, State.denotes] at hi
  · exact nofun

theorem Inv.startup (hI : Inv s) (hcare : Careful P s (.startup : Action L)) :
    Inv (startup P s) := by
  obtain ⟨hpub, htake⟩ := hcare
  unfold SymbolTables.startup
  have hI₀ : Inv { s with started := true } :=
    ⟨hI.first, hI.wrapped, hI.gotWrapped, hI.unset, hI.agree, hI.imports, hI.addresses⟩
  obtain ⟨hsame, hI₁⟩ := gotImports P.mainGot { s with started := true }
  have hpub' := publishOk_congr hpub hsame.published hsame.wasmImports hsame.asyncifyStubs
    hsame.addressed
  refine updateGOT_inv s ((hI₁ hI₀).merge hpub' nofun) ?_ ?_ htake fun _ => nofun
  · intro n
    rw [State.first, State.firstWith, mergeLibSymbols_published, hsame.published]
  · intro n hn
    have := hsame.existing n
    unfold existingEntry at hn this ⊢
    rw [mergeLibSymbols_GOT, this]
    exact hn

theorem Inv.step [DecidableEq L] {a : Action L} (hI : Inv s) (hcare : Careful P s a)
    (hs : step P s a = some s') : Inv s' := by
  cases a with
  | startup =>
    simp only [SymbolTables.step, Option.ite_none_left_eq_some, Option.some.injEq] at hs
    exact hs.2 ▸ hI.startup hcare
  | request l global =>
    simp only [SymbolTables.step, Option.ite_none_right_eq_some, Option.some.injEq] at hs
    obtain ⟨-, rfl⟩ := hs
    unfold request
    split
    next hn => exact hI.setDso fun ⟨_, he, _⟩ => by simp [hn] at he
    next dso hd =>
      split
      next hg =>
        simp only [Bool.and_eq_true, Bool.not_eq_true'] at hg
        refine (hI.setDso fun _ => rfl).merge (hcare dso hd hg.1 hg.2) fun k hk => ?_
        unfold Program.entries at hk
        split at hk
        · cases hk
          exact global_setDso rfl
        · cases hk
      next => exact hI
  | instantiate l =>
    simp only [SymbolTables.step] at hs
    split at hs
    next dso hd =>
      simp only [Option.ite_none_right_eq_some, Option.some.injEq] at hs
      obtain ⟨-, rfl⟩ := hs
      obtain ⟨htake, hglobal⟩ := hcare
      obtain ⟨hsame, hI'⟩ := gotImports (P.got l) s
      unfold instantiate
      have hkeep : s.Global l → dso.global := fun ⟨e, he, hg⟩ => by
        rw [hd] at he
        cases he
        exact hg
      refine updateGOT_inv s ((hI' hI).setDso fun hg => ?_) (fun n => ?_) (fun n hn => ?_)
        htake fun hne k hk => ?_
      · simpa [State.Global, hsame.dsos] using hkeep (by simpa [State.Global, hsame.dsos] using hg)
      · exact congrArg (List.lookup n) hsame.published
      · exact (hsame.existing n).trans hn
      · cases hk
        exact global_setDso (hkeep (hglobal hne))
    next => cases hs
  | report =>
    simp only [SymbolTables.step, Option.ite_none_right_eq_some, Option.some.injEq] at hs
    exact hs.2 ▸ hI.reportEntries hcare s.gotNames
  | tlsInit l =>
    simp only [SymbolTables.step] at hs
    split at hs
    next dso hd =>
      simp only [Option.ite_none_left_eq_some, Option.some.injEq] at hs
      obtain ⟨-, rfl⟩ := hs
      refine updateGOT_inv _ hI (fun _ => rfl) (fun _ h => h) hcare.1 fun hne k hk => ?_
      cases hk
      exact hcare.2 hne
    next => cases hs
  | moduleLoaded l =>
    simp only [SymbolTables.step] at hs
    split at hs
    next dso hd =>
      simp only [Option.ite_none_right_eq_some, Option.some.injEq] at hs
      obtain ⟨-, rfl⟩ := hs
      have hkeep : s.Global l → dso.global := fun ⟨e, he, hg⟩ => by
        rw [hd] at he
        cases he
        exact hg
      have hI' : Inv (SymbolTables.setDso l { dso with stage := .loaded } s) := hI.setDso hkeep
      unfold moduleLoaded
      split
      next hg =>
        refine hI'.merge (hcare dso hd hg) fun k hk => ?_
        cases hk
        exact global_setDso hg
      next => exact hI'
    next => cases hs
  | resolve n direct =>
    simp only [SymbolTables.step, Option.ite_none_right_eq_some, Option.some.injEq] at hs
    obtain ⟨-, rfl⟩ := hs
    have hres := resolveGlobalSymbol_resolved P s n direct
    simp only [Careful] at hcare
    generalize resolveGlobalSymbol P n direct s = r at hres
    cases hres with
    | found => exact hI
    | made hd hgen => exact hI.made hd (hcare hd hgen)
    | missing => exact hI

/-! ## Main results -/

/-- In a run whose steps are careful, the two tables agree and show nothing that is local. -/
theorem tables_sound_of_careful [DecidableEq L] (P : Program L) (s : State L)
    (h : Reaches (step P) (Careful P) P.start s) : Sound s :=
  (h.invariant (inv_start P) fun _ _ _ hI hcare hs => hI.step hcare hs).sound

/-- Two side modules that both export `f`. -/
def twins : Program Bool where
  imports := [("f".toList, .stub)]
  unique := by decide
  mainExports := [⟨"main".toList, .function, "main".toList⟩]
  mainGot := [("f".toList, false)]
  exports _ := [⟨"f".toList, .function, "f".toList⟩]
  tlsExports _ := []
  got _ := []
  ASYNCIFY := false
  WASM_BIGINT := true
  SPLIT_MODULE := false
  invokes := true
  catches := true

/-- One library is loaded locally and the other globally: a call of `f` reaches the second, its
address is that of the first. -/
theorem local_load_unsound : ∃ s, Reaches (step twins) Any twins.start s ∧ ¬ Sound s := by
  have hrun : (exec (step twins) twins.start [.startup, .request false false, .instantiate false,
      .moduleLoaded false, .request true true, .instantiate true, .moduleLoaded true]).map
      (fun s => (s.imported "f".toList, s.addressed "f".toList)) =
      some (some ⟨.lib true, "f".toList⟩, some ⟨.lib false, "f".toList⟩) := by decide
  obtain ⟨s, hreach, hobs⟩ := reaches_of_map _ hrun
  obtain ⟨hi, ha⟩ := Prod.mk.inj hobs
  refine ⟨s, hreach, fun hsound => ?_⟩
  obtain ⟨heq, -⟩ := hsound.agree _ _ _ hi ha
  cases heq

/-! ## Steps that are checked to be careful -/

def publishCheck (s : State L) [DecidableEq L] (defs : List (Name × Def L)) : Bool :=
  defs.all fun x =>
    (match s.wasmImports x.1 with
      | some (.object _ (.stub _)) => s.firstWith defs x.1 = some x.2
      | _ => true) &&
    (isSymbolDefined s x.1 || (s.addressed x.1).all fun d => s.firstWith defs x.1 = some d)

theorem publishOk_of_check [DecidableEq L] (h : publishCheck s defs = true) : PublishOk s defs := by
  intro x hx
  obtain ⟨hwrap, haddr⟩ := Bool.and_eq_true_iff.mp (List.all_eq_true.mp h x hx)
  constructor
  · intro kind name hw
    simpa [hw] using hwrap
  · intro hd d ha
    simpa [hd, ha] using haddr

def takeCheck (P : Program L) [DecidableEq L] (s : State L) (first : Name → Option (Def L))
    (owner : Owner L) (exports : List Export) (replace : Bool) : Bool :=
  (P.taken s replace exports).all fun x => (first x.1).all fun d => d = ⟨owner, x.2⟩

theorem takeOk_of_check [DecidableEq L] {first : Name → Option (Def L)} {owner : Owner L}
    {exports : List Export} {replace : Bool}
    (h : takeCheck P s first owner exports replace = true) :
    TakeOk P s first owner exports replace := by
  intro x hx d hd
  have := List.all_eq_true.mp h x hx
  simpa [hd] using this

def globalCheck (s : State L) (l : L) : Bool := (s.dsos l).any Dso.global

theorem global_of_check {l : L} (h : globalCheck s l = true) : s.Global l := by
  cases hd : s.dsos l with
  | none => simp [globalCheck, hd] at h
  | some dso => exact ⟨dso, hd, by simpa [globalCheck, hd] using h⟩

/-- A sufficient check: legalized symbols and functions made on demand do not pass it. -/
def carefulCheck (P : Program L) [DecidableEq L] (s : State L) : Action L → Bool
  | .startup => publishCheck s (P.definitions .main P.mainExports) &&
      takeCheck P s (s.firstWith (P.definitions .main P.mainExports)) .main P.mainExports false
  | .request l global => (s.dsos l).all fun dso => !global || dso.global ||
      publishCheck s (P.definitions (P.entries l dso).1 (P.entries l dso).2)
  | .instantiate l => takeCheck P s s.first (.lib l) (P.exports l) false &&
      (P.taken s false (P.exports l) = [] || globalCheck s l)
  | .report => P.WASM_BIGINT
  | .tlsInit l => takeCheck P s s.first (.lib l) (P.tlsExports l) true &&
      (P.taken s true (P.tlsExports l) = [] || globalCheck s l)
  | .moduleLoaded l => (s.dsos l).all fun dso => !dso.global ||
      publishCheck s (P.definitions (.lib l) (addEmJs (P.exports l)))
  | .resolve n direct => isSymbolDefined s (P.lookedUp s n direct)

theorem careful_of_check [DecidableEq L] (s : State L) (a : Action L)
    (h : carefulCheck P s a = true) : Careful P s a := by
  have htaken {l : L} {exports : List Export} {replace : Bool}
      (h : (P.taken s replace exports = [] || globalCheck s l) = true)
      (hne : P.taken s replace exports ≠ []) : s.Global l := by
    obtain h | h := Bool.or_eq_true_iff.mp h
    · exact absurd (of_decide_eq_true h) hne
    · exact global_of_check h
  cases a with
  | startup =>
    obtain ⟨hp, ht⟩ := Bool.and_eq_true_iff.mp h
    exact ⟨publishOk_of_check hp, takeOk_of_check ht⟩
  | request l global =>
    intro dso hd hg hl
    exact publishOk_of_check (by simpa [carefulCheck, hd, hg, hl] using h)
  | instantiate l | tlsInit l =>
    obtain ⟨ht, hg⟩ := Bool.and_eq_true_iff.mp h
    exact ⟨takeOk_of_check ht, htaken hg⟩
  | report =>
    intro hb
    simp [carefulCheck, hb] at h
  | moduleLoaded l =>
    intro dso hd hg
    exact publishOk_of_check (by simpa [carefulCheck, hd, hg] using h)
  | resolve n direct =>
    intro hd
    simp [carefulCheck, hd] at h

/-- Both are loaded globally: the first is what both tables hold. -/
theorem sound_twins : ∃ s, Reaches (step twins) (Careful twins) twins.start s ∧
    s.imported "f".toList = some ⟨.lib false, "f".toList⟩ ∧
      s.addressed "f".toList = some ⟨.lib false, "f".toList⟩ ∧ Sound s := by
  let as : List (Action Bool) := [.startup, .request false true, .instantiate false, .report,
    .moduleLoaded false, .request true true, .instantiate true, .moduleLoaded true]
  have hrun : (exec (step twins) twins.start as).map
      (fun s => (s.imported "f".toList, s.addressed "f".toList)) =
      some (some ⟨.lib false, "f".toList⟩, some ⟨.lib false, "f".toList⟩) := by decide
  obtain ⟨s, hs, hobs⟩ := Option.map_eq_some_iff.mp hrun
  have hreach : Reaches (step twins) (Careful twins) twins.start s :=
    reaches_of_exec as hs (meets_of_check careful_of_check as (by decide))
  obtain ⟨hi, ha⟩ := Prod.mk.inj hobs
  exact ⟨s, hreach, hi, ha, tables_sound_of_careful twins s hreach⟩

end SymbolTables
