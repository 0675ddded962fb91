-- SUMMARY: Errors and objects of the OPFS backend.
import Mathlib.Algebra.Ring.Int.Defs

/-!
# The OPFS backend

Errors are the negative numbers of the source, so that an identifier and an error can
share a variable as they do there.
-/

namespace Opfs

def EBUSY : Int := 10
def EINVAL : Int := 28
def EIO : Int := 29
def ESHUTDOWN : Int := 140

/-- An object of the browser, known apart from every other one. -/
abbrev Handle := Nat

end Opfs

/-- A growing vector of slots, of which the released ones are free. -/
structure SlotTable (α : Type) where
  slots : List (Option α)
  free : List Nat

def SlotTable.empty : SlotTable α := ⟨[none], []⟩
