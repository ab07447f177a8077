import Codemod.Unicode.Alphabetic
import Codemod.Unicode.Numeric
import Codemod.Unicode.WhiteSpace

/-!
# Character classes
-/

namespace Codemod.Unicode

/-- Letters and numbers of every script. -/
def isAlphanumeric (c : Char) : Bool :=
  alphabetic.contains c.toNat || numeric.contains c.toNat

theorem isAlphanumeric_iff {c : Char} : isAlphanumeric c = true ↔
    ∃ range ∈ alphabetic ++ numeric, range.1 ≤ c.toNat ∧ c.toNat ≤ range.2 := by
  have letters : RangeTable.isIncreasingFrom 0 alphabetic := by decide +kernel
  have numbers : RangeTable.isIncreasingFrom 0 numeric := by decide +kernel
  rw [isAlphanumeric, Bool.or_eq_true, RangeTable.contains_iff_of_sorted letters,
    RangeTable.contains_iff_of_sorted numbers]
  simp only [List.mem_append, or_and_right, exists_or]

def isWhiteSpace (c : Char) : Bool :=
  whiteSpace.contains c.toNat

theorem isWhiteSpace_iff {c : Char} : isWhiteSpace c = true ↔
    ∃ range ∈ whiteSpace, range.1 ≤ c.toNat ∧ c.toNat ≤ range.2 := by
  have blanks : RangeTable.isIncreasingFrom 0 whiteSpace := by decide +kernel
  rw [isWhiteSpace, RangeTable.contains_iff_of_sorted blanks]

end Codemod.Unicode
