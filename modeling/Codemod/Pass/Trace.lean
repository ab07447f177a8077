import Codemod.Log
import Codemod.Rule.Basic
import Codemod.Statistics

/-!
# Traces

A traced value comes with the events of its computation in order. What a pass tells about itself is
read off its trace.
-/

namespace Codemod

inductive Event where
  /-- A rule was tried on a tree. -/
  | searched (rule : Rule)
  | matched (rule : Rule)
  /-- A custom guard asked the engine to stop. -/
  | stopRequested
  | refused (rule : Rule) (location : Location) (refusal : Refusal)
  | diagnosed (diagnostic : Diagnostic)
  /-- The template of a rule was filled, or failed to be. -/
  | instantiated (rule : Rule)
  | failed (rule : Rule) (location : Location) (error : FillError)
  /-- A replacement was equal to what it would replace. -/
  | unchanged (rule : Rule) (location : Location)
  | applied (rule : Rule) (location : Location)

abbrev Trace := List Event

structure Traced (α : Type) where
  value : α
  trace : Trace

namespace Traced

protected def pure (value : α) : Traced α := ⟨value, []⟩

protected def bind (first : Traced α) (next : α → Traced β) : Traced β :=
  let second := next first.value
  ⟨second.value, first.trace ++ second.trace⟩

instance : Monad Traced where
  pure := Traced.pure
  bind := Traced.bind

@[simp] theorem value_pure (value : α) : (pure value : Traced α).value = value := rfl

@[simp] theorem trace_pure (value : α) : (pure value : Traced α).trace = [] := rfl

@[simp] theorem value_bind (first : Traced α) (next : α → Traced β) :
    (first >>= next).value = (next first.value).value := rfl

@[simp] theorem trace_bind (first : Traced α) (next : α → Traced β) :
    (first >>= next).trace = first.trace ++ (next first.value).trace := rfl

@[simp] theorem value_map (f : α → β) (traced : Traced α) :
    (f <$> traced).value = f traced.value := rfl

@[simp] theorem trace_map (f : α → β) (traced : Traced α) :
    (f <$> traced).trace = traced.trace :=
  List.append_nil traced.trace

theorem eq_of_value_trace {a b : Traced α} (value : a.value = b.value)
    (trace : a.trace = b.trace) : a = b := by
  cases a
  cases b
  simp_all

instance : LawfulMonad Traced := LawfulMonad.mk' _
  (fun traced => by
    apply eq_of_value_trace
    · rfl
    · exact List.append_nil traced.trace)
  (fun value next => by
    apply eq_of_value_trace
    · rfl
    · exact List.nil_append (next value).trace)
  (fun first next last => by
    apply eq_of_value_trace
    · rfl
    · exact List.append_assoc _ _ _)

def emit (event : Event) : Traced Unit := ⟨(), [event]⟩

@[simp] theorem trace_emit (event : Event) : (emit event).trace = [event] := rfl

/-- Runs traced computations in order. -/
def all : List (Traced α) → Traced (List α)
  | [] => pure []
  | first :: rest => do
    let value ← first
    let values ← all rest
    pure (value :: values)

@[simp] theorem value_all (steps : List (Traced α)) :
    (all steps).value = steps.map Traced.value := by
  induction steps with
  | nil => rfl
  | cons first rest ih => simp [all, ih]

@[simp] theorem trace_all (steps : List (Traced α)) :
    (all steps).trace = steps.flatMap Traced.trace := by
  induction steps with
  | nil => rfl
  | cons first rest ih => simp [all, ih]

/-- Runs a computation on each item and joins the results. -/
def collect (step : α → Traced (List β)) (items : List α) : Traced (List β) := do
  let results ← all (items.map step)
  pure results.flatten

@[simp] theorem value_collect (step : α → Traced (List β)) (items : List α) :
    (collect step items).value = items.flatMap fun item => (step item).value := by
  simp [collect, List.flatMap, Function.comp_def]

@[simp] theorem trace_collect (step : α → Traced (List β)) (items : List α) :
    (collect step items).trace = items.flatMap fun item => (step item).trace := by
  simp [collect, List.flatMap, Function.comp_def]

end Traced

/-- One application of a rule. -/
structure Applied where
  rule : Nat
  name : String
  location : Location
deriving DecidableEq, Repr

namespace Event

def applied? : Event → Option Applied
  | .applied rule location => some ⟨rule.id, rule.name, location⟩
  | _ => none

def diagnostic? : Event → Option Diagnostic
  | .diagnosed diagnostic => some diagnostic
  | _ => none

/-- The imports an event adds. -/
def imports : Event → List String
  | .applied rule _ => rule.template.imports
  | _ => []

def isStopRequest : Event → Bool
  | .stopRequested => true
  | _ => false

/-- Counts an event. The engine keeps no clock, so its times are zero. -/
def count (sums : Statistics) : Event → Statistics
  | .searched rule => { sums with searchTimes := Tally.add sums.searchTimes rule.name 0 }
  | .matched rule => { sums with matchCounts := Tally.add sums.matchCounts rule.name 1 }
  | .instantiated rule => { sums with applyTimes := Tally.add sums.applyTimes rule.name 0 }
  | .applied rule _ => { sums with appliedCounts := Tally.add sums.appliedCounts rule.name 1 }
  | _ => sums

def logRecord? : Event → Option LogRecord
  | .refused rule location refusal =>
    some ⟨.trace, s!"Rule {rule.name} rejected at {location.render}: {refusal.message}"⟩
  | .diagnosed diagnostic =>
    some ⟨.debug, s!"{diagnostic.kind.render} at {diagnostic.location.render}"⟩
  | .failed rule location error =>
    some ⟨.warn, s!"Rule {rule.name} could not rewrite {location.render}: {error.message}"⟩
  | .unchanged rule location =>
    some ⟨.trace, s!"Rule {rule.name} leaves {location.render} unchanged"⟩
  | .applied rule location => some ⟨.trace, s!"Rule {rule.name} rewrote {location.render}"⟩
  | _ => none

end Event

namespace Trace

def applied (trace : Trace) : List Applied :=
  trace.filterMap Event.applied?

def diagnostics (trace : Trace) : List Diagnostic :=
  trace.filterMap Event.diagnostic?

/-- The imports of the applied rules, in order and each once. -/
def imports (trace : Trace) : List String :=
  distinct (trace.flatMap Event.imports)

def statistics (trace : Trace) : Statistics :=
  trace.foldl Event.count {}

def requestsStop (trace : Trace) : Bool :=
  trace.any Event.isStopRequest

def log (trace : Trace) : List LogRecord :=
  trace.filterMap Event.logRecord?

end Trace

end Codemod
