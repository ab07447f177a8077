import Codemod.Rounding

/-!
# Durations in seconds
-/

namespace Codemod.Text

def nanosPerSecond : Nat := 1000000000

/-- A duration in seconds as a binary64 sum of the whole seconds and the rest. -/
def secondsOf (nanos : Nat) : Ratio :=
  let whole := Ratio.toBinary64 ⟨nanos / nanosPerSecond, 1⟩
  let rest := Ratio.toBinary64 ⟨nanos % nanosPerSecond, nanosPerSecond⟩
  (whole.add rest).toBinary64

/-- Seconds with three decimal places. -/
def seconds (nanos : Nat) : String :=
  let value := secondsOf nanos
  let millis := roundDiv (value.num * 1000) value.den
  let part := millis % 1000
  s!"{millis / 1000}.{part / 100}{part / 10 % 10}{part % 10}"

end Codemod.Text
