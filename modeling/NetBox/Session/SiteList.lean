import Mathlib.Data.List.Lex
import NetBox.Base.Text
import NetBox.Lib.SortedSearch

/-! # The order of stored sites

Stored sites are kept in the order of their names, those with a hidden name in front. Names
are compared by the system, numbers in them by their values, and where it finds no difference
by their characters.
-/
namespace NetBox.Session

open Base.Text Lib.SortedSearch

/-! ## Names -/

def hiddenPrefix : UnicodeString := wstr "_!_"

def isHidden (name : UnicodeString) : Bool :=
  name != [] && name.take hiddenPrefix.length == hiddenPrefix

/-- The functions of the system that compare texts. The first one compares digits
as numbers and ignores case. -/
structure CompareApi where
  strCmpLogicalW : UnicodeString → UnicodeString → Int
  lstrcmp : UnicodeString → UnicodeString → Int
  logical : IsComparison strCmpLogicalW
  exact : IsComparison lstrcmp

/-- Texts by their code units. -/
def ordinalApi : CompareApi where
  strCmpLogicalW _ _ := 0
  lstrcmp := compareKeys fun name => name.map UInt16.toNat
  logical := ⟨fun _ _ => Iff.rfl, fun _ _ _ _ _ => Int.le_refl 0⟩
  exact := .ofKey _

namespace CompareApi

variable (api : CompareApi)

/-- `CompareLogicalText` with numbers in their natural order. -/
def compareLogicalText (s1 s2 : UnicodeString) : Int :=
  let result := api.strCmpLogicalW s1 s2
  if result = 0 then api.lstrcmp s1 s2 else result

/-- `TNamedObject::Compare`. -/
def compare (name other : UnicodeString) : Int :=
  if isHidden name && !isHidden other then -1
  else if !isHidden name && isHidden other then 1
  else api.compareLogicalText name other

theorem compare_isComparison : IsComparison api.compare := by
  have h := (IsComparison.ofMark isHidden).thenBy (api.logical.thenBy api.exact)
  have heq : api.compare = fun a b =>
      if (if isHidden a && !isHidden b then (-1 : Int) else if !isHidden a && isHidden b then 1
        else 0) = 0 then api.compareLogicalText a b
      else if isHidden a && !isHidden b then (-1 : Int)
      else if !isHidden a && isHidden b then 1 else 0 := by
    funext a b
    rw [compare]
    cases isHidden a <;> cases isHidden b <;> rfl
  rw [heq]
  exact h

end CompareApi

end NetBox.Session
