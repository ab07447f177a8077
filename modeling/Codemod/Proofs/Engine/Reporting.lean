import Codemod.Proofs.Catalog.Loaded
import Codemod.Proofs.Engine.Course
import Codemod.Proofs.Pass.Timings

/-!
# Printed reports

What is timed in a run is listed under the names of rules of its catalog, and so are the sums of any
number of runs. Such a sum is printed unless one of these names has a character across the place
where long names are cut.
-/

namespace Codemod

/-- Each name has one sum, and what is timed is a rule. -/
structure Statistics.TellsOf (statistics : Statistics) (rules : List Rule) : Prop where
  keyed : statistics.Keyed
  named : ∀ name, statistics.Timed name → ∃ rule ∈ rules, rule.name = name

private theorem Statistics.tellsOf_empty (rules : List Rule) : TellsOf {} rules :=
  ⟨keyed_empty, fun name timed => absurd timed (not_timed_empty name)⟩

private theorem Statistics.TellsOf.union {a b : Statistics} {rules : List Rule}
    (ahead : a.TellsOf rules) (behind : b.TellsOf rules) : (a.union b).TellsOf rules where
  keyed := ahead.keyed.union b
  named name timed := by
    rcases (timed_union a behind.keyed name).mp timed with first | second
    · exact ahead.named name first
    · exact behind.named name second

theorem Pass.tellsOf_run {pass : Pass} (sound : pass.Sound) (root : Tree) :
    (pass.run root).trace.statistics.TellsOf pass.catalog.rules :=
  ⟨Trace.keyed_statistics _, fun _ => exists_rule_of_timed sound⟩

/-- Statistics as the engine counts them but with the times of a clock. -/
structure Statistics.Clocks (clocked counted : Statistics) : Prop where
  updated : clocked.updated = counted.updated
  passes : clocked.passes = counted.passes
  searched : clocked.searchTimes.keys = counted.searchTimes.keys
  instantiated : clocked.applyTimes.keys = counted.applyTimes.keys
  matched : clocked.matchCounts = counted.matchCounts
  applied : clocked.appliedCounts = counted.appliedCounts

private theorem Statistics.Clocks.tellsOf {clocked counted : Statistics}
    (clocks : clocked.Clocks counted)
    {rules : List Rule} (tells : counted.TellsOf rules) : clocked.TellsOf rules where
  keyed :=
    { searchTimes := clocks.searched ▸ tells.keyed.searchTimes
      applyTimes := clocks.instantiated ▸ tells.keyed.applyTimes
      matchCounts := clocks.matched ▸ tells.keyed.matchCounts
      appliedCounts := clocks.applied ▸ tells.keyed.appliedCounts }
  named name timed := by
    rw [Timed, clocks.searched, clocks.instantiated] at timed
    exact tells.named name timed

/-- What a clock measured in some run with the rules of a catalog. -/
def Catalog.Measures (catalog : Catalog) (statistics : Statistics) : Prop :=
  ∃ (maxPasses : Nat) (unit : CompilationUnit) (stop : Nat → Bool),
    statistics.Clocks (({ catalog, maxPasses } : Engine).run unit stop).report.statistics

namespace Engine

variable {engine : Engine} {unit : CompilationUnit}

private theorem tellsOf_endOfPasses (sound : (engine.replacing unit).Sound) {progress : Progress}
    (tells : progress.statistics.TellsOf engine.catalog.rules) :
    (engine.endOfPasses unit progress).1.statistics.TellsOf engine.catalog.rules := by
  have surveyed := tells.union (Pass.tellsOf_run (sound_surveying sound) progress.root)
  unfold endOfPasses
  simp only
  split <;> exact surveyed

theorem tellsOf_continueRun (sound : (engine.replacing unit).Sound) (stop : Nat → Bool)
    (remaining : Nat) {progress : Progress}
    (tells : progress.statistics.TellsOf engine.catalog.rules) :
    (engine.continueRun unit stop remaining progress).1.statistics.TellsOf
      engine.catalog.rules := by
  induction remaining generalizing progress with
  | zero =>
    rw [continueRun]
    split
    · exact tells
    · exact tellsOf_endOfPasses sound tells
  | succ more ih =>
    have passed := tells.union (Pass.tellsOf_run sound progress.root)
    rw [continueRun]
    split
    · exact tells
    · simp only
      split
      · exact passed
      · exact ih passed

private theorem tellsOf_report (sound : (engine.replacing unit).Sound) (stop : Nat → Bool) :
    (engine.run unit stop).report.statistics.TellsOf engine.catalog.rules := by
  have start : ({ root := unit.root } : Progress).statistics.TellsOf engine.catalog.rules :=
    Statistics.tellsOf_empty engine.catalog.rules
  have tells := tellsOf_continueRun sound stop engine.maxPasses start
  exact ⟨{ tells.keyed with }, tells.named⟩

private theorem tellsOf_of_measures {language : Language} {calls : List Builder.Call}
    {statistics : Statistics} (measures : (Catalog.load language calls).Measures statistics) :
    statistics.TellsOf (Catalog.load language calls).rules := by
  obtain ⟨maxPasses, unit, stop, clocks⟩ := measures
  let engine : Engine := { catalog := .load language calls, maxPasses }
  have sound : (engine.replacing unit).Sound :=
    sound_replacing (Catalog.coherent_load language calls) rfl unit
  exact clocks.tellsOf (tellsOf_report sound stop)

open Statistics in
/-- However reports of runs are united, the result is kept if it fits, and what it times are rules.
Its text, with one line for each of them, is there unless one of their names is too long and has a
character across the limit. -/
theorem united_reports_print (loaded : List (Language × List Builder.Call))
    (bracketing : Bracketing)
    (measured : ∀ part ∈ bracketing.items, ∃ source ∈ loaded,
      (Catalog.load source.1 source.2).Measures part)
    (short : ∀ name, (total bracketing.items).time name < timeLimit)
    (counts : (total bracketing.items).countsFit = true) :
    ∃ kept, bracketing.kept? = some kept ∧ kept.Same (total bracketing.items) ∧
      (∀ name, kept.Timed name → ∃ source ∈ loaded,
        ∃ rule ∈ (Catalog.load source.1 source.2).rules, rule.name = name) ∧
      ((∃ text, kept.render? = some text) ↔ ∀ name, kept.Timed name →
        Text.byteLength (spaced name) ≤ nameLimit ∨ Text.Cuts (spaced name) nameLimit) ∧
      ∀ text, kept.render? = some text → ∃ rows, kept.Tabulates rows text := by
  have tells (part : Statistics) (member : part ∈ bracketing.items) : ∃ source ∈ loaded,
      part.TellsOf (Catalog.load source.1 source.2).rules := by
    obtain ⟨source, is_source, measures⟩ := measured part member
    exact ⟨source, is_source, tellsOf_of_measures measures⟩
  have keyed : ∀ part ∈ bracketing.items, part.Keyed := by
    intro part member
    obtain ⟨_, _, told⟩ := tells part member
    exact told.keyed
  obtain ⟨kept, is_kept, _, same⟩ := bracketing.exists_kept keyed
    (fits_of_time_lt (keyed_total _) short counts)
  refine ⟨kept, is_kept, same, ?_, ?_, fun text => exists_tabulates⟩
  · intro name timed
    obtain ⟨part, member, here⟩ :=
      (timed_total keyed name).mp ((same.timed_iff name).mp timed)
    obtain ⟨source, is_source, told⟩ := tells part member
    exact ⟨source, is_source, told.named name here⟩
  · rw [exists_render?_iff (same.time_eq ▸ short)]
    simp only [exists_nameLabel?_iff]

/-- A number that stands alone some times. -/
def ones (count : Nat) : CompilationUnit :=
  { name := "unit", root := .branch "list" (.replicate count (.leaf Tree.intKind "1")) }

/-- A name of 41 characters that takes up 81 bytes, the last two of them for one character. -/
def accentedName : String :=
  .ofList ('a' :: .replicate 40 'é')

def accentedText : Source :=
  ⟨0, none, s!"(rule {accentedName} 1 2)"⟩

theorem accented_report_unprinted :
    let engine : Engine := { catalog := .load ({} : Roles).language [.read accentedText] }
    let report := (engine.run (ones 1) fun _ => false).report
    engine.catalog.rules.map (·.name) = [accentedName] ∧ report.outcome = .fixedPoint ∧
      report.root.render = "(list 2)" ∧ report.statistics.render? = none := by
  intro engine report
  have ran : engine.catalog.rules.map (·.name) = [accentedName] ∧ report.outcome = .fixedPoint ∧
      report.root.render = "(list 2)" ∧ report.statistics =
        { updated := true
          passes := 2
          searchTimes := ⟨[(accentedName, 0)]⟩
          applyTimes := ⟨[(accentedName, 0)]⟩
          matchCounts := ⟨[(accentedName, 1)]⟩
          appliedCounts := ⟨[(accentedName, 1)]⟩ } := by decide +kernel
  obtain ⟨named, finished, replaced, counted⟩ := ran
  refine ⟨named, finished, replaced, ?_⟩
  have alone : report.statistics.timedNames = [accentedName] := by
    rw [counted]
    apply Statistics.timedNames_eq <;> decide +kernel
  rw [Statistics.render?, Statistics.comparable, alone, counted]
  decide +kernel

def wordyName : String :=
  "put-the-number-two-in-the-place-of-the-number-one-wherever-that-number-stands-on-its-own"

def wordyText : Source :=
  ⟨0, none, s!"(rule {wordyName} 1 2)"⟩

/-- What a clock measured in a run over a number that stands alone some times. -/
def wordyRun (searched applied count : Nat) : Statistics where
  updated := true
  passes := 2
  searchTimes := ⟨[(wordyName, searched)]⟩
  applyTimes := ⟨[(wordyName, applied)]⟩
  matchCounts := ⟨[(wordyName, count)]⟩
  appliedCounts := ⟨[(wordyName, count)]⟩

private theorem measures_wordyRun {count : Nat} (searched applied : Nat)
    (counted : (({ catalog := .load ({} : Roles).language [.read wordyText] } : Engine).run
      (ones count) fun _ => false).report.statistics = wordyRun 0 0 count) :
    (Catalog.load ({} : Roles).language [.read wordyText]).Measures
      (wordyRun searched applied count) := by
  refine ⟨16, ones count, fun _ => false, ?_⟩
  rw [counted]
  constructor <;> rfl

open Statistics in
theorem wordy_reports_print :
    let loaded : List (Language × List Builder.Call) :=
      [(({} : Roles).language, [.read wordyText])]
    let bracketing :=
      Bracketing.pair (.single (wordyRun 1200000 400000 2)) (.single (wordyRun 900000 100000 1))
    (∀ part ∈ bracketing.items, ∃ source ∈ loaded,
        (Catalog.load source.1 source.2).Measures part) ∧
      (∀ name, (total bracketing.items).time name < timeLimit) ∧
      (total bracketing.items).countsFit = true ∧
      nameLimit < Text.byteLength (spaced wordyName) ∧
      ∃ kept, bracketing.kept? = some kept ∧ kept.Timed wordyName ∧
        ∃ text rows, kept.render? = some text ∧ kept.Tabulates rows text := by
  intro loaded bracketing
  let engine : Engine := { catalog := .load ({} : Roles).language [.read wordyText] }
  have ran : engine.catalog.rules.map (·.name) = [wordyName] ∧
      (engine.run (ones 2) fun _ => false).report.statistics = wordyRun 0 0 2 ∧
      (engine.run (ones 1) fun _ => false).report.statistics = wordyRun 0 0 1 := by
    decide +kernel
  obtain ⟨one, twice, once⟩ := ran
  have measured : ∀ part ∈ bracketing.items, ∃ source ∈ loaded,
      (Catalog.load source.1 source.2).Measures part := by
    intro part member
    refine ⟨_, List.mem_singleton_self _, ?_⟩
    rcases List.mem_pair.mp member with rfl | rfl
    · exact measures_wordyRun _ _ twice
    · exact measures_wordyRun _ _ once
  have summed : total bracketing.items = { wordyRun 2100000 500000 3 with passes := 4 } := by
    decide +kernel
  have short : ∀ name, (total bracketing.items).time name < timeLimit := by
    intro name
    rw [summed]
    by_cases same : name = wordyName
    · rw [same]
      decide +kernel
    · simp [wordyRun, time, Tally.get, Assoc.find?, Assoc.findEntry, same, timeLimit, counterSize,
        Text.nanosPerSecond]
  have counts : (total bracketing.items).countsFit = true := by decide +kernel
  obtain ⟨kept, is_kept, same, named, prints, tabulated⟩ :=
    united_reports_print loaded bracketing measured short counts
  have timed : kept.Timed wordyName := by
    rw [same.timed_iff, summed]
    exact .inl (List.mem_singleton_self wordyName)
  have cut : Text.Cuts (spaced wordyName) nameLimit :=
    ⟨(spaced wordyName).take 80, (spaced wordyName).drop 80,
      (List.take_append_drop 80 _).symm, by decide +kernel⟩
  obtain ⟨text, printed⟩ := prints.mpr fun name here => by
    obtain ⟨source, is_source, rule, isRule, rfl⟩ := named name here
    obtain rfl := List.mem_singleton.mp is_source
    have is_wordy := one ▸ List.mem_map_of_mem isRule
    rw [List.mem_singleton.mp is_wordy]
    exact .inr cut
  obtain ⟨rows, table⟩ := tabulated text printed
  exact ⟨measured, short, counts, by decide +kernel, kept, is_kept, timed, text, rows, printed,
    table⟩

end Engine

end Codemod
