import Codemod.Assoc
import Codemod.Distinct
import Codemod.Text.Position
import Codemod.Text.Seconds

/-!
# Statistics

Counts and times of one or more runs by rule name. Times are in nanoseconds.

Sums are exact. Kept statistics are bounded: a counter has 64 bits and starts again at zero when it
is full, and a time has at most 64 bits of whole seconds, so that a sum of times can fail. Within
the bounds the kept sums are the exact ones.
-/

namespace Codemod

/-- Sums by name. -/
abbrev Tally := Assoc String Nat

namespace Tally

def add (tally : Tally) (name : String) (amount : Nat) : Tally :=
  tally.alter name fun sum => sum.getD 0 + amount

def union (tally other : Tally) : Tally :=
  other.entries.foldl (fun sums (name, amount) => add sums name amount) tally

def get (tally : Tally) (name : String) : Nat :=
  (tally.find? name).getD 0

/-- Whether every sum is below a limit. -/
def below (limit : Nat) (tally : Tally) : Bool :=
  tally.entries.all fun (_, sum) => sum < limit

/-- The remainders of the sums. -/
def wrap (modulus : Nat) (tally : Tally) : Tally :=
  ⟨tally.entries.map fun (name, sum) => (name, sum % modulus)⟩

private theorem wrap_eq_self_of_below {modulus : Nat} {tally : Tally}
    (h : tally.below modulus = true) : tally.wrap modulus = tally := by
  simp only [below, List.all_eq_true, decide_eq_true_eq] at h
  have same : tally.entries.map (fun (name, sum) => (name, sum % modulus)) =
      tally.entries.map id := by
    apply List.map_congr_left
    intro entry hentry
    exact Prod.ext rfl (Nat.mod_eq_of_lt (h entry hentry))
  simp only [wrap, same, List.map_id]

end Tally

/-- How many values a counter has. -/
def counterSize : Nat := 18446744073709551616

/-- The first time that is too long to be kept. -/
def timeLimit : Nat := counterSize * Text.nanosPerSecond

structure Statistics where
  /-- Whether any rule was applied. -/
  updated : Bool := false
  passes : Nat := 0
  searchTimes : Tally := .empty
  applyTimes : Tally := .empty
  matchCounts : Tally := .empty
  appliedCounts : Tally := .empty
deriving DecidableEq, Repr

namespace Statistics

/-- The statistics of two runs together. -/
def union (a b : Statistics) : Statistics where
  updated := a.updated || b.updated
  passes := a.passes + b.passes
  searchTimes := Tally.union a.searchTimes b.searchTimes
  applyTimes := Tally.union a.applyTimes b.applyTimes
  matchCounts := Tally.union a.matchCounts b.matchCounts
  appliedCounts := Tally.union a.appliedCounts b.appliedCounts

def timesFit (statistics : Statistics) : Bool :=
  statistics.searchTimes.below timeLimit && statistics.applyTimes.below timeLimit

def countsFit (statistics : Statistics) : Bool :=
  statistics.passes < counterSize && statistics.matchCounts.below counterSize &&
    statistics.appliedCounts.below counterSize

def wrapCounts (statistics : Statistics) : Statistics :=
  { statistics with
    passes := statistics.passes % counterSize
    matchCounts := statistics.matchCounts.wrap counterSize
    appliedCounts := statistics.appliedCounts.wrap counterSize }

/-- The statistics of two runs together, as they are kept. There are none when a time is too long to
be kept. -/
def unite? (a b : Statistics) : Option Statistics :=
  let exact := a.union b
  if exact.timesFit then some exact.wrapCounts else none

private theorem wrapCounts_eq_self {statistics : Statistics} (h : statistics.countsFit = true) :
    statistics.wrapCounts = statistics := by
  simp only [countsFit, Bool.and_eq_true, decide_eq_true_eq] at h
  obtain ⟨⟨passes, matched⟩, applied⟩ := h
  simp only [wrapCounts, Nat.mod_eq_of_lt passes, Tally.wrap_eq_self_of_below matched,
    Tally.wrap_eq_self_of_below applied]

theorem unite?_eq_some_union {a b : Statistics} (times : (a.union b).timesFit = true)
    (counts : (a.union b).countsFit = true) : a.unite? b = some (a.union b) := by
  simp only [unite?, times, wrapCounts_eq_self counts, if_true]

/-- The bytes of a rule name that a line shows. -/
def nameLimit : Nat := 80

/-- A rule name on one line and cut to the limit. There is no label when the cut would fall inside a
character. -/
def nameLabel? (name : String) : Option String :=
  let line := name.toList.map fun c => if c = '\n' then ' ' else c
  if Text.byteLength line ≤ nameLimit then some (String.ofList line)
  else
    let shown := Text.takeBytes line nameLimit
    if Text.byteLength shown = nameLimit then some s!"{String.ofList shown}..." else none

/-- The time a rule took. -/
def time (statistics : Statistics) (name : String) : Nat :=
  Tally.get statistics.searchTimes name + Tally.get statistics.applyTimes name

/-- The time a rule took, in whole milliseconds. -/
def millis (statistics : Statistics) (name : String) : Nat :=
  statistics.time name / 1000000

/-- Cheaper rules come first, ties by name. -/
def precedes (statistics : Statistics) (a b : String) : Bool :=
  if statistics.millis a = statistics.millis b then !(b < a)
  else statistics.millis a < statistics.millis b

/-- The timed rules, the most expensive last. -/
def timedNames (statistics : Statistics) : List String :=
  (distinct (statistics.searchTimes.keys ++ statistics.applyTimes.keys)).mergeSort
    statistics.precedes

/-- Whether the timed rules can be ordered. Rules are compared by the times they took, which must
not be too long for it; a single rule is not compared. -/
def comparable (statistics : Statistics) : Bool :=
  let names := statistics.timedNames
  names.length < 2 || names.all fun name => statistics.time name < timeLimit

def line? (statistics : Statistics) (name : String) : Option String := do
  let label ← nameLabel? name
  let search := Text.seconds (Tally.get statistics.searchTimes name)
  let apply := Text.seconds (Tally.get statistics.applyTimes name)
  let found := Tally.get statistics.matchCounts name
  let applied := Tally.get statistics.appliedCounts name
  some <| s!"Rule {label}: search {search}s, apply {apply}s, num matches {found}, " ++
    s!"num rewrites {applied}\n"

/-- The statistics as text, one line for each timed rule. There is no text when the rules cannot be
ordered or one of them has no label. -/
def render? (statistics : Statistics) : Option String := do
  guard statistics.comparable
  let lines ← statistics.timedNames.mapM statistics.line?
  some (String.join (s!"Passes: {statistics.passes}\n" :: lines))

end Statistics

end Codemod
