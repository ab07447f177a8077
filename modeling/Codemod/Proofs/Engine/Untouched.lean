import Codemod.Proofs.Engine.FixedPoint
import Codemod.Proofs.Pass.Visits

/-!
# Untouched code

What no application of a pass reaches comes out of the pass as it went in, metadata included.
-/

namespace Codemod.Engine

/-- In every pass of a run a visit returns its tree exactly where nothing is applied below it, and
all but the children where nothing is applied to the tree itself. -/
theorem untouched_returned_exactly (language : Language) (calls : List Builder.Call)
    (maxPasses : Nat) (unit : CompilationUnit) (stop : Nat → Bool) :
    let engine : Engine := { catalog := .load language calls, maxPasses }
    let report := (engine.run unit stop).report
    let pass := engine.replacing unit
    report.root = engine.passStart unit report.passes ∧
      report.applied = (List.range report.passes).flatMap (engine.passApplied unit) ∧
      ∀ count path tree visit, pass.Visits (engine.passStart unit count) path tree visit →
        ((∀ entry ∈ engine.passApplied unit count, ¬path <+: entry.location.path) →
          visit.value = tree) ∧
        ((∀ entry ∈ engine.passApplied unit count, ¬entry.location.At path) →
          visit.value = tree.withChildren visit.value.children ∧
          (language.isBlock tree.kind = false →
            visit.value.children.length = tree.children.length ∧
            ∀ index child, tree.children[index]? = some child →
              ∃ inner, pass.Visits (engine.passStart unit count) (path ++ [index]) child inner ∧
                visit.value.children[index]? = some inner.value)) := by
  intro engine report pass
  have sound : pass.Sound := sound_replacing (Catalog.coherent_load language calls) rfl unit
  have sameLanguage : pass.language = language := Catalog.language_load language calls
  have ⟨root, applied⟩ := report_eq_passes engine unit stop
  refine ⟨root, applied, fun count path tree visit visits => ⟨?_, fun spares => ?_⟩⟩
  · exact visits.value_eq rfl sound
  · obtain ⟨traverses, kept⟩ := visits.kept rfl sound spares
    rw [kept]
    refine ⟨rfl, fun noBlock => ?_⟩
    rw [← sameLanguage] at noBlock
    exact traverses.operands noBlock

/-- A call of which the second operand is renamed. -/
def calledUnit : CompilationUnit :=
  { name := "unit"
    root := .branch "call" [.leaf Tree.nameKind "g", .leaf Tree.nameKind "x"] }

theorem callee_untouched :
    let engine : Engine :=
      { catalog := .load ({} : Roles).language [.add renameDraft], maxPasses := 4 }
    let visit := (engine.replacing calledUnit).run calledUnit.root
    (∀ entry ∈ engine.passApplied calledUnit 0, ¬entry.location.At []) ∧
      (∀ entry ∈ engine.passApplied calledUnit 0, ¬[0] <+: entry.location.path) ∧
      engine.passApplied calledUnit 0 ≠ [] ∧
      visit.value.children[0]? = some (.leaf Tree.nameKind "g") := by
  intro engine visit
  have spares : ∀ entry ∈ engine.passApplied calledUnit 0, ¬entry.location.At [] := by
    unfold Location.At
    decide +kernel
  have untouched : ∀ entry ∈ engine.passApplied calledUnit 0, ¬[0] <+: entry.location.path := by
    decide +kernel
  obtain ⟨_, _, each⟩ := untouched_returned_exactly ({} : Roles).language [.add renameDraft] 4
    calledUnit fun _ => false
  have whole := (each 0 [] calledUnit.root visit .root).2 spares
  obtain ⟨_, operands⟩ := whole.2 (by decide +kernel)
  obtain ⟨inner, visits, there⟩ := operands 0 (.leaf Tree.nameKind "g") rfl
  rw [(each 0 [0] _ inner visits).1 untouched] at there
  exact ⟨spares, untouched, by decide +kernel, there⟩

end Codemod.Engine
