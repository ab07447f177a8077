import Codemod.Proofs.Pass.Simulation

/-!
# Relocated events

What a trace tells can be moved to other places: rules, refusals and errors stay, and each location
is replaced by its image. Two traces tell the same up to a relocation of each when the relocated
events are equal.
-/

namespace Codemod

def Applied.relocate (move : Location → Location) (entry : Applied) : Applied :=
  { entry with location := move entry.location }

def Diagnostic.relocate (move : Location → Location) (diagnostic : Diagnostic) : Diagnostic :=
  { diagnostic with location := move diagnostic.location }

def Event.relocate (move : Location → Location) : Event → Event
  | .refused rule location refusal => .refused rule (move location) refusal
  | .diagnosed diagnostic => .diagnosed (diagnostic.relocate move)
  | .failed rule location error => .failed rule (move location) error
  | .unchanged rule location => .unchanged rule (move location)
  | .applied rule location => .applied rule (move location)
  | event => event

namespace Trace

variable (move : Location → Location) (trace : Trace)

def relocate : Trace :=
  trace.map (Event.relocate move)

theorem applied_relocate :
    (trace.relocate move).applied = trace.applied.map (Applied.relocate move) := by
  rw [relocate, applied, applied, List.filterMap_map, List.map_filterMap]
  congr 1
  funext event
  cases event <;> rfl

theorem diagnostics_relocate :
    (trace.relocate move).diagnostics = trace.diagnostics.map (Diagnostic.relocate move) := by
  rw [relocate, diagnostics, diagnostics, List.filterMap_map, List.map_filterMap]
  congr 1
  funext event
  cases event <;> rfl

theorem flatMap_imports_relocate :
    (trace.relocate move).flatMap Event.imports = trace.flatMap Event.imports := by
  rw [relocate, List.flatMap_map]
  congr 1
  funext event
  cases event <;> rfl

private theorem requestsStop_relocate :
    (trace.relocate move).requestsStop = trace.requestsStop := by
  rw [relocate, requestsStop, requestsStop, List.any_map]
  congr 1
  funext event
  cases event <;> rfl

private theorem statistics_relocate : (trace.relocate move).statistics = trace.statistics := by
  rw [relocate, statistics, statistics, List.foldl_map]
  congr 1
  funext sums event
  cases event <;> rfl

end Trace

/-- The traces are equal once each is relocated. -/
def TraceRelation.relocated (move look : Location → Location) : TraceRelation where
  same first image := first.relocate move = image.relocate look
  nil := rfl
  append first second := by
    rw [Trace.relocate, Trace.relocate, List.map_append, List.map_append]
    exact congrArg₂ (· ++ ·) first second

namespace TraceRelation

variable {move look : Location → Location} {first image : Trace}

theorem applied_of_relocated (same : (relocated move look).same first image) :
    first.applied.map (Applied.relocate move) = image.applied.map (Applied.relocate look) := by
  rw [← Trace.applied_relocate, ← Trace.applied_relocate]
  exact congrArg Trace.applied same

theorem diagnostics_of_relocated (same : (relocated move look).same first image) :
    first.diagnostics.map (Diagnostic.relocate move) =
      image.diagnostics.map (Diagnostic.relocate look) := by
  rw [← Trace.diagnostics_relocate, ← Trace.diagnostics_relocate]
  exact congrArg Trace.diagnostics same

theorem imports_of_relocated (same : (relocated move look).same first image) :
    first.flatMap Event.imports = image.flatMap Event.imports := by
  have told := congrArg (List.flatMap Event.imports) same
  rwa [Trace.flatMap_imports_relocate, Trace.flatMap_imports_relocate] at told

theorem requestsStop_of_relocated (same : (relocated move look).same first image) :
    first.requestsStop = image.requestsStop := by
  have told := congrArg Trace.requestsStop same
  rwa [Trace.requestsStop_relocate, Trace.requestsStop_relocate] at told

theorem statistics_of_relocated (same : (relocated move look).same first image) :
    first.statistics = image.statistics := by
  have told := congrArg Trace.statistics same
  rwa [Trace.statistics_relocate, Trace.statistics_relocate] at told

end TraceRelation

end Codemod
