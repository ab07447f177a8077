import Codemod.Proofs.Match.Extension
import Codemod.Proofs.Match.Resemblance
import Codemod.Proofs.Match.Tables

/-!
# Goals of a match

Captures that are known to fit a tree are a goal for the match of that tree. As long as what is
bound so far agrees with the goal the match can go on, and what it captures differs from the goal
only where it took a shorter sequence.
-/

namespace Codemod

namespace Bindings

/-- What is bound, the goal binds as well and to the same up to spans and types. -/
def Agrees (bindings goal : Bindings) : Prop :=
  ∀ name capture, bindings.find? name = some capture →
    ∃ other, goal.find? name = some other ∧ capture.Resembles .structural other

/-- The lengths of what some names captured. -/
def lengths (bindings : Bindings) (names : List String) : List Nat :=
  names.map fun name => ((bindings.find? name).map (·.trees.length)).getD 0

variable {bindings goal extended : Bindings}

theorem agrees_empty (goal : Bindings) : Agrees .empty goal := by
  intro name capture found
  contradiction

theorem Agrees.insert (agrees : bindings.Agrees goal) {name : String} {capture other : Capture}
    (aim : goal.find? name = some other) (alike : capture.Resembles .structural other) :
    Agrees (Assoc.insert bindings name capture) goal := by
  intro key earlier found
  rw [Assoc.find?_insert] at found
  split at found
  · rename_i same
    cases found
    exact ⟨other, same ▸ aim, alike⟩
  · exact agrees key earlier found

theorem Agrees.exists_sequence (agrees : bindings.Agrees goal) {name : String}
    {earlier : List Tree} (found : bindings.find? name = some (.sequence earlier)) :
    ∃ images, goal.find? name = some (.sequence images) ∧ Tree.sameAll earlier images = true := by
  obtain ⟨_, aim, sequence⟩ := agrees name _ found
  cases sequence with
  | sequence alike => exact ⟨_, aim, Tree.sameAll_iff_forall₂.mpr alike⟩

theorem Agrees.lengths_eq (agrees : bindings.Agrees goal) (kept : extended.Extends bindings)
    {names : List String} (bound : ∀ name ∈ names, (bindings.find? name).isSome = true) :
    extended.lengths names = goal.lengths names := by
  refine List.map_congr_left fun name member => ?_
  obtain ⟨capture, found⟩ := Option.isSome_iff_exists.mp (bound name member)
  obtain ⟨other, aim, alike⟩ := agrees name capture found
  rw [kept name capture found, aim]
  exact alike.trees.length_eq

theorem lengths_lt_of_shorter {names more : List String} {name : String} {short long : List Tree}
    (equal : bindings.lengths names = goal.lengths names)
    (here : bindings.find? name = some (.sequence short))
    (aim : goal.find? name = some (.sequence long)) (shorter : short.length < long.length) :
    bindings.lengths (names ++ name :: more) < goal.lengths (names ++ name :: more) := by
  simp only [lengths, List.map_append, List.map_cons, here, aim] at equal ⊢
  rw [equal]
  exact List.append_left_lt (List.cons_lt_cons_iff.mpr (.inl shorter))

theorem resembles_of_agrees {language : Language} {captures : CaptureTable}
    (captured : Captured language captures bindings)
    (aimed : Captured language captures goal) (agrees : bindings.Agrees goal) :
    bindings.Resembles .structural goal := by
  intro name
  cases found : bindings.find? name with
  | none =>
    rw [(aimed.none_iff name).mp ((captured.none_iff name).mpr found)]
    exact .none
  | some capture =>
    obtain ⟨other, aim, alike⟩ := agrees name capture found
    rw [aim]
    exact .some alike

/-- How a match relates to a goal: it agrees with it, or it had a choice and took shorter
sequences. -/
def Reaches (bound goal : Bindings) (captures : CaptureTable) (choice : Prop) : Prop :=
  choice ∧ bound.lengths captures.sequences < goal.lengths captures.sequences ∨ bound.Agrees goal

theorem Reaches.mono {captures : CaptureTable} {choice other : Prop}
    (reaches : bindings.Reaches goal captures choice) (wider : choice → other) :
    bindings.Reaches goal captures other :=
  reaches.imp_left fun ⟨chosen, shorter⟩ => ⟨wider chosen, shorter⟩

theorem Reaches.agrees {captures : CaptureTable} {choice : Prop}
    (reaches : bindings.Reaches goal captures choice) (forced : ¬choice) :
    bindings.Agrees goal :=
  reaches.resolve_left fun ⟨chosen, _⟩ => forced chosen

end Bindings

theorem Captured.exists_fits {language : Language} {captures : CaptureTable} {bindings : Bindings}
    (captured : Captured language captures bindings) {name : String} {kind : HoleKind}
    (known : captures.find? name = some kind) (single : kind ≠ .sequence) :
    ∃ tree, bindings.find? name = some (.node tree) ∧ kind.fits language tree = true := by
  have here := captured name
  rw [known] at here
  cases kind with
  | sequence => contradiction
  | expression | statement | identifier => exact here

theorem Tree.exists_append_of_sameAll {first second trees : List Tree}
    (same : sameAll (first ++ second) trees = true) :
    ∃ here behind, trees = here ++ behind ∧ sameAll first here = true ∧
      sameAll second behind = true := by
  induction first generalizing trees with
  | nil => exact ⟨[], trees, rfl, rfl, same⟩
  | cons tree rest ih =>
    cases trees with
    | nil => contradiction
    | cons twin others =>
      rw [List.cons_append, sameAll_cons, Bool.and_eq_true] at same
      obtain ⟨here, behind, rfl, ahead, after⟩ := ih same.2
      exact ⟨twin :: here, behind, rfl, by rw [sameAll_cons, same.1, ahead]; rfl, after⟩

theorem exists_firstSome {α : Type} (attempt : Nat → Option α) {index bound : Nat}
    (below : index < bound) (succeeds : (attempt index).isSome = true) :
    ∃ first value, firstSome attempt bound = some value ∧ attempt first = some value ∧
      first ≤ index := by
  have found : (firstSome attempt bound).isSome = true :=
    List.findSome?_isSome_iff.mpr ⟨index, List.mem_range.mpr below, succeeds⟩
  obtain ⟨value, first_eq⟩ := Option.isSome_iff_exists.mp found
  obtain ⟨before, first, after, range, here, fails⟩ := List.findSome?_eq_some_iff.mp first_eq
  refine ⟨first, value, first_eq, here, ?_⟩
  have member : index ∈ before ++ first :: after := range ▸ List.mem_range.mpr below
  have ordered := range ▸ List.pairwise_lt_range (n := bound)
  rcases List.mem_append.mp member with early | late
  · rw [fails index early] at succeeds
    contradiction
  · rcases List.mem_cons.mp late with rfl | later
    · exact Nat.le_refl _
    · exact Nat.le_of_lt ((List.pairwise_cons.mp (List.pairwise_append.mp ordered).2.1).1 _ later)

end Codemod
