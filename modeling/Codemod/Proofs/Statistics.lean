import Codemod.Pass.Trace
import Codemod.Proofs.Assoc

/-!
# What statistics count

Each name has one sum, so that the sums of two runs together are the sums of their sums. The counts
of a trace are those of its events.
-/

namespace Codemod

namespace Tally

variable {tally other : Tally}

private theorem find?_add (tally : Tally) (name listed : String) (amount : Nat) :
    (tally.add name amount).find? listed =
      if listed = name then some (tally.get name + amount) else tally.find? listed :=
  Assoc.find?_alter tally name listed _

private theorem get_add (tally : Tally) (name listed : String) (amount : Nat) :
    Tally.get (tally.add name amount) listed =
      tally.get listed + if name = listed then amount else 0 := by
  simp only [get, find?_add, eq_comm (a := listed)]
  split
  · rename_i same
    rw [← same, Option.getD_some]
  · rfl

theorem nodup_keys_add (unique : tally.keys.Nodup) (name : String) (amount : Nat) :
    (tally.add name amount).keys.Nodup := by
  rw [add, Assoc.keys_alter]
  exact nodup_addNew name unique

theorem find?_union (tally : Tally) (unique : other.keys.Nodup) (name : String) :
    (tally.union other).find? name =
      Option.merge (· + ·) (tally.find? name) (other.find? name) := by
  obtain ⟨entries⟩ := other
  rw [union]
  simp only [Assoc.keys] at unique ⊢
  induction entries generalizing tally with
  | nil => exact Option.merge_none_right.symm
  | cons entry rest ih =>
    obtain ⟨listed, amount⟩ := entry
    rw [List.map_cons, List.nodup_cons] at unique
    have later : Assoc.find? ⟨rest⟩ listed = none := Assoc.find?_eq_none_of_not_mem unique.1
    have here : Assoc.find? ⟨(listed, amount) :: rest⟩ name =
        if name = listed then some amount else Assoc.find? ⟨rest⟩ name := rfl
    rw [List.foldl_cons, ih _ unique.2, find?_add, here]
    split
    · rename_i same
      rw [same, later, Option.merge_none_right, get]
      cases tally.find? listed <;> simp [Option.merge]
    · rfl

theorem get_union (tally : Tally) (unique : other.keys.Nodup) (name : String) :
    Tally.get (tally.union other) name = tally.get name + other.get name := by
  simp only [get, find?_union tally unique]
  cases tally.find? name <;> cases other.find? name <;> simp [Option.merge]

end Tally

/-- Each name has one sum. -/
structure Statistics.Keyed (statistics : Statistics) : Prop where
  searchTimes : statistics.searchTimes.keys.Nodup
  applyTimes : statistics.applyTimes.keys.Nodup
  matchCounts : statistics.matchCounts.keys.Nodup
  appliedCounts : statistics.appliedCounts.keys.Nodup

theorem Statistics.keyed_empty : Statistics.Keyed {} := by
  constructor <;> exact List.nodup_nil

private theorem Statistics.Keyed.count {sums : Statistics} (keyed : sums.Keyed) (event : Event) :
    (event.count sums).Keyed := by
  cases event with
  | searched rule =>
    exact { keyed with searchTimes := Tally.nodup_keys_add keyed.searchTimes rule.name 0 }
  | matched rule =>
    exact { keyed with matchCounts := Tally.nodup_keys_add keyed.matchCounts rule.name 1 }
  | instantiated rule =>
    exact { keyed with applyTimes := Tally.nodup_keys_add keyed.applyTimes rule.name 0 }
  | applied rule location =>
    exact { keyed with appliedCounts := Tally.nodup_keys_add keyed.appliedCounts rule.name 1 }
  | _ => exact keyed

namespace Event

def matchedRule? : Event → Option Rule
  | .matched rule => some rule
  | _ => none

def appliedRule? : Event → Option Rule
  | .applied rule _ => some rule
  | _ => none

end Event

namespace Trace

/-- The rules that matched, in order and each as often as it did. -/
def matchedRules (trace : Trace) : List Rule :=
  trace.filterMap Event.matchedRule?

/-- The rules that were applied, in order and each as often as it was. -/
def appliedRules (trace : Trace) : List Rule :=
  trace.filterMap Event.appliedRule?

theorem keyed_statistics (trace : Trace) : trace.statistics.Keyed := by
  have folded (sums : Statistics) (keyed : sums.Keyed) : (trace.foldl Event.count sums).Keyed := by
    induction trace generalizing sums with
    | nil => exact keyed
    | cons event rest ih => exact ih _ (keyed.count event)
  exact folded {} Statistics.keyed_empty

private theorem sum_foldl (sum : Statistics → Nat) (rule? : Event → Option Rule) (name : String)
    (step : ∀ event sums, sum (Event.count sums event) =
      sum sums + ((rule? event).toList.map (·.name)).count name) (trace : Trace)
    (sums : Statistics) : sum (trace.foldl Event.count sums) =
      sum sums + ((trace.filterMap rule?).map (·.name)).count name := by
  induction trace generalizing sums with
  | nil => rfl
  | cons event rest ih =>
    rw [List.foldl_cons, ih, step, Nat.add_assoc, ← List.count_append, ← List.map_append]
    congr 3
    rw [List.filterMap_cons]
    cases rule? event <;> rfl

theorem get_matchCounts (trace : Trace) (name : String) :
    Tally.get trace.statistics.matchCounts name =
      (trace.matchedRules.map (·.name)).count name := by
  have folded := sum_foldl (fun sums => Tally.get sums.matchCounts name) Event.matchedRule? name
    ?_ trace {}
  · rw [statistics, folded]
    exact Nat.zero_add _
  · intro event sums
    cases event with
    | matched rule =>
      simp [Event.count, Event.matchedRule?, Tally.get_add, List.count_singleton]
    | _ => rfl

theorem get_appliedCounts (trace : Trace) (name : String) :
    Tally.get trace.statistics.appliedCounts name =
      (trace.appliedRules.map (·.name)).count name := by
  have folded := sum_foldl (fun sums => Tally.get sums.appliedCounts name) Event.appliedRule? name
    ?_ trace {}
  · rw [statistics, folded]
    exact Nat.zero_add _
  · intro event sums
    cases event with
    | applied rule location =>
      simp [Event.count, Event.appliedRule?, Tally.get_add, List.count_singleton]
    | _ => rfl

end Trace

end Codemod
