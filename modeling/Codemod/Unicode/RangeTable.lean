/-!
# Range tables

A character class is a list of inclusive code point ranges in increasing order.
-/

namespace Codemod.Unicode

abbrev RangeTable := List (Nat × Nat)

namespace RangeTable

/-- Looks a code point up in an increasing table; the search ends at the first range above it. -/
def contains : RangeTable → Nat → Bool
  | [], _ => false
  | (first, last) :: rest, n => first ≤ n && (n ≤ last || contains rest n)

/-- Every range is non-empty and lies above the ranges before it. -/
def isIncreasingFrom : Nat → RangeTable → Bool
  | _, [] => true
  | bound, (first, last) :: rest =>
    bound ≤ first && first ≤ last && isIncreasingFrom (last + 1) rest

private theorem contains_eq_false_of_lt {table : RangeTable} {bound n : Nat}
    (sorted : isIncreasingFrom bound table) (below : n < bound) : contains table n = false := by
  cases table with
  | nil => rfl
  | cons range rest =>
    have : bound ≤ range.1 := by
      simp only [isIncreasingFrom, Bool.and_eq_true, decide_eq_true_eq] at sorted
      exact sorted.1.1
    simp [contains]
    omega

theorem contains_iff_of_sorted {table : RangeTable} {bound n : Nat}
    (sorted : isIncreasingFrom bound table) :
    contains table n = true ↔ ∃ range ∈ table, range.1 ≤ n ∧ n ≤ range.2 := by
  induction table generalizing bound with
  | nil => simp [contains]
  | cons range rest ih =>
    simp only [isIncreasingFrom, Bool.and_eq_true, decide_eq_true_eq] at sorted
    have later := ih sorted.2
    simp only [contains, Bool.and_eq_true, Bool.or_eq_true, decide_eq_true_eq, List.mem_cons,
      exists_eq_or_imp, ← later]
    constructor
    · rintro ⟨above, within | inRest⟩
      · exact .inl ⟨above, within⟩
      · exact .inr inRest
    · rintro (⟨above, within⟩ | inRest)
      · exact ⟨above, .inl within⟩
      · refine ⟨?_, .inr inRest⟩
        by_cases high : n < range.2 + 1
        · have := contains_eq_false_of_lt sorted.2 high
          simp [inRest] at this
        · omega

end RangeTable

end Codemod.Unicode
