/-!
# Rounding

Quotients rounded to nearest, ties to even, both to integers and to the numbers that binary64 holds.
-/

namespace Codemod

/-- The integer nearest to a quotient. -/
def roundDiv (num den : Nat) : Nat :=
  let quotient := num / den
  let remainder := num % den
  if 2 * remainder < den ∨ (2 * remainder = den ∧ quotient % 2 = 0) then quotient else quotient + 1

/-- A non-negative rational number. -/
structure Ratio where
  num : Nat
  den : Nat
deriving DecidableEq, Repr

namespace Ratio

def add (a b : Ratio) : Ratio :=
  ⟨a.num * b.den + b.num * a.den, a.den * b.den⟩

/-- The exponent of the greatest power of two not above a positive ratio. -/
def log2 (ratio : Ratio) : Int :=
  let estimate : Int := ratio.num.log2 - ratio.den.log2
  let reaches :=
    if 0 ≤ estimate then ratio.den <<< estimate.toNat ≤ ratio.num
    else ratio.den ≤ ratio.num <<< (-estimate).toNat
  if reaches then estimate else estimate - 1

/-- The nearest number with 53 significant bits, which is the nearest binary64 number where that
format neither overflows nor loses precision. -/
def toBinary64 (ratio : Ratio) : Ratio :=
  if ratio.num = 0 then ⟨0, 1⟩
  else
    let shift := 52 - ratio.log2
    let up := shift.toNat
    let down := (-shift).toNat
    ⟨roundDiv (ratio.num <<< up) (ratio.den <<< down) <<< down, 1 <<< up⟩

end Ratio

end Codemod
