/-!
# Decimal numerals
-/

namespace Codemod.Text

/-- The value of a non-empty run of decimal digits. -/
def natural? (digits : List Char) : Option Nat :=
  if digits.isEmpty || !digits.all Char.isDigit then none
  else some (digits.foldl (fun value c => 10 * value + (c.toNat - '0'.toNat)) 0)

/-- How many numbers 32 bits can hold. -/
def wordCount : Nat := 4294967296

/-- One more than the greatest number that 64 bits hold with a sign. -/
def int64Bound : Int := 9223372036854775808

/-- Reads digits after an optional minus sign, refusing what 64 bits cannot hold. -/
def int64? (text : String) : Option Int :=
  let value := match text.toList with
    | '-' :: digits => (natural? digits).map fun n => -Int.ofNat n
    | digits => (natural? digits).map Int.ofNat
  value.filter fun n => -int64Bound ≤ n && n < int64Bound

/-- Reads digits after an optional plus sign, refusing what 32 bits cannot hold. -/
def uint32? (text : String) : Option Nat :=
  let value := match text.toList with
    | '+' :: digits => natural? digits
    | digits => natural? digits
  value.filter (· < wordCount)

end Codemod.Text
