-- SUMMARY: The name of the function at an address, from a symbol map.
import Mathlib.Data.List.Basic
import Mathlib.Data.List.Pairwise
import Mathlib.Order.Basic

/-!
# Looking addresses up in a symbol map

`symbolize_address_symbolmap` goes through the bodies of the defined functions to the first one behind the address, and
takes the name of the function before it. Imported functions come first in the numbering.
-/

namespace SymbolMap

inductive ExternType
  | FUNC | TABLE | MEMORY | GLOBAL | TAG
deriving DecidableEq, Repr

structure FunctionBody where
  offset : Nat
  size : Nat
deriving DecidableEq, Repr

/-- A body has a byte at least, the end of its code. -/
def FunctionBody.contains (f : FunctionBody) (address : Nat) : Prop :=
  f.offset ≤ address ∧ address < f.offset + f.size

/-- The kinds of the imports, and the bodies in the order of the code section: before each body is its size. -/
structure Module where
  imports : List ExternType
  functions : List FunctionBody
  ordered : functions.Pairwise fun f g => f.offset + f.size < g.offset

def Module.num_imported_funcs (m : Module) : Nat := m.imports.count .FUNC

def numbered (idx : Nat) : List FunctionBody → List (Nat × FunctionBody)
  | [] => []
  | f :: fs => (idx, f) :: numbered (idx + 1) fs

/-- The bodies with their index. -/
def Module.iter_functions_by_index (m : Module) : List (Nat × FunctionBody) :=
  numbered m.num_imported_funcs m.functions

variable {m : Module}

section

variable {Name : Type}

/-- The lines of the file, an index and a name each; of lines with one index the last counts. -/
def func_names (lines : List (Int × Name)) (i : Int) : Option Name :=
  (lines.reverse.find? fun line => line.1 = i).map (·.2)

inductive Answer (Name : Type)
  | found (func : Name)
  | before
  | keyError
deriving DecidableEq, Repr

def Answer.ofName : Option Name → Answer Name
  | some func => .found func
  | none => .keyError

/-- `func_index` is -1 where the loop goes to its end. -/
def search (names : Int → Option Name) (address : Nat) : List (Nat × FunctionBody) → Answer Name
  | [] => .ofName (names (-1))
  | (i, func) :: rest =>
    if func.offset > address then
      if i > 0 then .ofName (names (i - 1)) else .before
    else search names address rest

def symbolize_address_symbolmap (m : Module) (lines : List (Int × Name)) (address : Nat) : Answer Name :=
  search (func_names lines) address m.iter_functions_by_index

/-- A name for each function, and for nothing else. -/
def Complete (m : Module) (lines : List (Int × Name)) : Prop :=
  ∀ i : Int, (func_names lines i).isSome ↔ 0 ≤ i ∧ i < (m.num_imported_funcs + m.functions.length : Nat)

/-- The name of the function whose body contains the address, and none before the first body. -/
structure Right (m : Module) (lines : List (Int × Name)) (address : Nat) : Prop where
  inside : ∀ k f, m.functions[k]? = some f → f.contains address → ∃ name,
    func_names lines (m.num_imported_funcs + k : Nat) = some name ∧
      symbolize_address_symbolmap m lines address = .found name
  before : ∀ f, m.functions[0]? = some f → address < f.offset → symbolize_address_symbolmap m lines address = .before

/-! ## The search -/

/-- Bodies that start at the address or before it are passed. -/
theorem search_append (names : Int → Option Name) (address : Nat) (rest : List FunctionBody) (front : List FunctionBody) :
    ∀ idx, (∀ g ∈ front, g.offset ≤ address) →
      search names address (numbered idx (front ++ rest)) = search names address (numbered (idx + front.length) rest) := by
  induction front with
  | nil => exact fun _ _ => rfl
  | cons g front ih =>
    intro idx h
    obtain ⟨hg, hfront⟩ := List.forall_mem_cons.1 h
    rw [List.cons_append, numbered, search, if_neg (Nat.not_lt.2 hg), ih (idx + 1) hfront, List.length_cons,
      Nat.add_right_comm, Nat.add_assoc]

/-- What is found in a body: the function itself where another body follows, and nothing in the last. -/
theorem symbolize_inside {lines : List (Int × Name)} {address k : Nat} {f : FunctionBody}
    (hk : m.functions[k]? = some f) (hin : f.contains address) :
    symbolize_address_symbolmap m lines address =
      .ofName (func_names lines (if k + 1 < m.functions.length then (m.num_imported_funcs + k : Nat) else -1)) := by
  obtain ⟨hlt, hf⟩ := List.getElem?_eq_some_iff.1 hk
  have hsplit := List.take_append_drop (k + 1) m.functions
  have horder := List.pairwise_iff_getElem.1 m.ordered
  have hpassed : ∀ g ∈ m.functions.take (k + 1), g.offset ≤ address := by
    intro g hg
    obtain ⟨j, hj, rfl⟩ := List.mem_iff_getElem.1 hg
    rw [List.length_take] at hj
    rw [List.getElem_take]
    cases Nat.lt_or_eq_of_le (Nat.le_of_lt_succ (Nat.lt_of_lt_of_le hj (Nat.min_le_left ..))) with
    | inl hjk =>
      have hbehind := horder j k (Nat.lt_trans hjk hlt) hlt hjk
      have hstart := hin.1
      rw [hf] at hbehind
      omega
    | inr hjk =>
      subst hjk
      rw [hf]
      exact hin.1
  have hlength : (m.functions.take (k + 1)).length = k + 1 := by
    rw [List.length_take]
    exact Nat.min_eq_left hlt
  unfold symbolize_address_symbolmap Module.iter_functions_by_index
  rw [← hsplit, search_append _ _ _ _ _ hpassed, hsplit, hlength]
  split
  · next hnext =>
    have hgap := horder k (k + 1) hlt hnext (Nat.lt_succ_self k)
    have hend := hin.2
    rw [hf] at hgap
    rw [List.drop_eq_getElem_cons hnext, numbered, search, if_pos (by omega), if_pos (by omega)]
    congr 2
    omega
  · next hnext =>
    rw [List.drop_of_length_le (Nat.not_lt.1 hnext)]
    rfl

theorem symbolize_before {lines : List (Int × Name)} {address : Nat} {f : FunctionBody}
    (h0 : m.functions[0]? = some f) (hlt : address < f.offset) :
    symbolize_address_symbolmap m lines address =
      if m.num_imported_funcs > 0 then .ofName (func_names lines (m.num_imported_funcs - 1)) else .before := by
  unfold symbolize_address_symbolmap Module.iter_functions_by_index
  cases hfs : m.functions with
  | nil =>
    rw [hfs] at h0
    cases h0
  | cons g fs =>
    rw [hfs] at h0
    obtain rfl := Option.some.inj h0
    rw [numbered, search, if_pos hlt]

theorem Complete.some_of_lt {lines : List (Int × Name)} (h : Complete m lines) {k : Nat}
    (hk : k < m.functions.length) : ∃ name, func_names lines (m.num_imported_funcs + k : Nat) = some name :=
  Option.isSome_iff_exists.1 ((h _).2 ⟨Int.natCast_nonneg _, Int.ofNat_lt.2 (Nat.add_lt_add_left hk _)⟩)

theorem Complete.none_of_neg {lines : List (Int × Name)} (h : Complete m lines) :
    func_names lines (-1) = none := by
  apply Option.not_isSome_iff_eq_none.1
  intro hsome
  exact absurd ((h _).1 hsome).1 (by decide)

/-- The name is right where the address is not in the last body, and not before the first one of a module that imports
functions. -/
theorem symbolize_address_symbolmap_iff (m : Module) (lines : List (Int × Name)) (address : Nat)
    (hlines : Complete m lines) : Right m lines address ↔
      (∀ f, m.functions.getLast? = some f → ¬ f.contains address) ∧
      (m.num_imported_funcs > 0 → ∀ f, m.functions[0]? = some f → f.offset ≤ address) := by
  constructor
  · intro h
    constructor
    · intro f hlast hin
      rw [List.getLast?_eq_getElem?] at hlast
      obtain ⟨name, -, hfound⟩ := h.inside _ f hlast hin
      rw [symbolize_inside hlast hin, if_neg (by omega), hlines.none_of_neg] at hfound
      cases hfound
    · intro hpos f h0
      by_contra hnot
      have hbefore := h.before f h0 (Nat.not_le.1 hnot)
      rw [symbolize_before h0 (Nat.not_le.1 hnot), if_pos hpos] at hbefore
      cases hname : func_names lines (m.num_imported_funcs - 1) <;> rw [hname] at hbefore <;> cases hbefore
  · rintro ⟨hlast, hfirst⟩
    constructor
    · intro k f hk hin
      obtain ⟨hlt, -⟩ := List.getElem?_eq_some_iff.1 hk
      have hnext : k + 1 < m.functions.length := by
        by_contra hnot
        apply hlast f _ hin
        rw [List.getLast?_eq_getElem?, ← hk]
        congr 1
        omega
      obtain ⟨name, hname⟩ := hlines.some_of_lt hlt
      refine ⟨name, hname, ?_⟩
      rw [symbolize_inside hk hin, if_pos hnext, hname]
      rfl
    · intro f h0 hbefore
      have hzero : ¬ m.num_imported_funcs > 0 := fun hpos => absurd hbefore (Nat.not_lt.2 (hfirst hpos f h0))
      rw [symbolize_before h0 hbefore, if_neg hzero]

end

/-- Two functions, and none is imported. -/
def twoFunctions : Module := ⟨[], [⟨10, 4⟩, ⟨15, 2⟩], by decide⟩

def twoNames : List (Int × Nat) := [(0, 100), (1, 101)]

theorem twoNames_complete : Complete twoFunctions twoNames := by
  intro i
  have hbound : (twoFunctions.num_imported_funcs + twoFunctions.functions.length : Nat) = 2 := rfl
  rw [hbound]
  unfold func_names twoNames
  by_cases h1 : i = 1
  · subst h1
    decide
  · by_cases h0 : i = 0
    · subst h0
      decide
    · have hnone : ([(0, 100), (1, 101)] : List (Int × Nat)).reverse.find? (fun line => line.1 = i) = none := by
        rw [List.find?_eq_none]
        simp only [List.mem_reverse, List.mem_cons, List.not_mem_nil, or_false, decide_eq_true_eq]
        rintro x (rfl | rfl)
        · exact fun h => h0 h.symm
        · exact fun h => h1 h.symm
      rw [hnone]
      constructor
      · exact fun h => nomatch h
      · rintro ⟨hge, hlt⟩
        omega

theorem symbolize_address_symbolmap_first : Right twoFunctions twoNames 12 := by
  apply (symbolize_address_symbolmap_iff twoFunctions twoNames 12 twoNames_complete).2
  constructor
  · intro f hlast hin
    obtain rfl : (⟨15, 2⟩ : FunctionBody) = f := Option.some.inj hlast
    exact absurd hin.1 (by decide)
  · exact fun h => absurd h (by decide)

/-- In the last function no name is found. -/
theorem symbolize_address_symbolmap_last :
    Complete twoFunctions twoNames ∧ (⟨15, 2⟩ : FunctionBody).contains 16 ∧
      symbolize_address_symbolmap twoFunctions twoNames 16 = .keyError ∧ ¬ Right twoFunctions twoNames 16 := by
  have hin : (⟨15, 2⟩ : FunctionBody).contains 16 := ⟨by decide, by decide⟩
  refine ⟨twoNames_complete, hin, by decide, fun h => ?_⟩
  obtain ⟨name, -, hfound⟩ := h.inside 1 ⟨15, 2⟩ rfl hin
  have herror : symbolize_address_symbolmap twoFunctions twoNames 16 = .keyError := by decide
  rw [herror] at hfound
  cases hfound

end SymbolMap
