import Codemod.Proofs.Match.Captures

/-!
# Where a match stands

A compiled pattern starts with concrete syntax, so a match of it starts at a tree of its own: a
window covers at least the statement it is anchored at, and only what follows that statement decides
whether it matches.
-/

namespace Codemod.Pattern

variable {language : Language} {pattern : Pattern}

/-- The pattern came out of a compilation. -/
def Compiled (language : Language) (pattern : Pattern) : Prop :=
  compile language pattern.shape = .ok pattern

theorem compiled_of_compile {shape : Shape} (succeeded : compile language shape = .ok pattern) :
    pattern.Compiled language := by
  obtain ⟨captures, table, result⟩ := exists_of_bind_ok succeeded
  cases result
  exact succeeded

theorem Compiled.composite_of_isWindow (compiled : pattern.Compiled language)
    (window : pattern.isWindow = true) : pattern.composite = true := by
  obtain ⟨captures, _, result⟩ := exists_of_bind_ok compiled
  rw [← Except.ok.inj result]
  exact Bool.or_eq_true_iff.mpr (.inl window)

theorem Compiled.exists_root (compiled : pattern.Compiled language) :
    ∃ root captures, pattern.root? = some root ∧
      Term.check language .root root .empty = .ok captures := by
  obtain ⟨captures, table, _⟩ := exists_of_bind_ok compiled
  simp only [Shape.captureTable] at table
  rw [root?]
  split at table
  · rename_i term node
    rw [node]
    exact ⟨term, captures, rfl, table⟩
  · contradiction
  · rename_i first rest window
    rw [window]
    obtain ⟨middle, checked, _⟩ := exists_of_bind_ok table
    exact ⟨first, middle, rfl, checked⟩

private theorem check_of_root {root : Term} {captures extended : CaptureTable}
    (checked : Term.check language .root root captures = .ok extended) (site : Site) :
    Term.check language site root captures = .ok extended := by
  cases root with
  | leaf kind text => exact checked
  | branch kind children => exact checked
  | hole slot =>
    rw [Term.check] at checked
    exact absurd rfl (Hole.enter_cases checked).1

/-- The terms of a compiled pattern pass the check for statements one after the other, and its
capture table is the one they leave. -/
theorem Compiled.checkAll_captures (compiled : pattern.Compiled language) :
    Term.checkAll language .statement pattern.shape.terms .empty = .ok pattern.captures := by
  obtain ⟨captures, table, result⟩ := exists_of_bind_ok compiled
  rw [show pattern.captures = captures from (congrArg Pattern.captures (Except.ok.inj result)).symm]
  simp only [Shape.captureTable] at table
  split at table
  · rename_i term node
    rw [node, Shape.terms, Term.checkAll, check_of_root table]
    rfl
  · contradiction
  · rename_i first rest window
    obtain ⟨middle, checked, others⟩ := exists_of_bind_ok table
    rw [window, Shape.terms, Term.checkAll, check_of_root checked]
    exact others

theorem isSome_kind_of_check {root : Term} {captures : CaptureTable}
    (checked : Term.check language .root root .empty = .ok captures) :
    ∃ kind, root.kind? = some kind := by
  cases root with
  | leaf kind text => exact ⟨kind, rfl⟩
  | branch kind children => exact ⟨kind, rfl⟩
  | hole slot =>
    rw [Term.check] at checked
    exact absurd rfl (Hole.enter_cases checked).1

theorem matchNode_root {tree : Tree} {bindings : Bindings}
    (matched : pattern.matchNode language tree = some bindings) :
    ∃ root, pattern.root? = some root ∧ root.unify language tree .empty = some bindings := by
  rw [matchNode] at matched
  rw [root?]
  split at matched
  · rename_i term node
    rw [node]
    exact ⟨term, rfl, matched⟩
  · contradiction

/-- A window is anchored at the first statement it covers. -/
theorem matchWindow_root (compiled : pattern.Compiled language) {statements : List Tree}
    {start : Nat} {bindings : Bindings} {extent : Extent}
    (matched : pattern.matchWindow language statements start = some (bindings, extent)) :
    extent.start = start ∧ extent.Proper ∧ extent.stop ≤ statements.length ∧
      ∃ anchor root bound, statements[start]? = some anchor ∧ pattern.root? = some root ∧
        root.unify language anchor .empty = some bound := by
  obtain ⟨root, captures, isRoot, checked⟩ := compiled.exists_root
  obtain ⟨kind, spelled⟩ := isSome_kind_of_check checked
  rw [isRoot]
  rw [matchWindow] at matched
  rw [root?] at isRoot
  split at matched
  · contradiction
  · rename_i terms window
    rw [window] at isRoot
    split at matched
    · rename_i inside
      obtain ⟨⟨bound, used⟩, unified, result⟩ := Option.map_eq_some_iff.mp matched
      cases result
      cases terms with
      | nil => contradiction
      | cons first rest =>
        cases isRoot
        have short := Term.used_le_length unified
        rw [List.length_drop] at short
        rcases Term.unifyAll_cons_cases unified with ⟨slot, _, _, rfl, _⟩ | ⟨slot, _, _, rfl, _⟩ |
          ⟨anchor, others, next, more, _, rest_eq, here, _, rfl⟩
        · contradiction
        · contradiction
        · have anchored : statements[start]? = some anchor := by
            have head := congrArg List.head? rest_eq
            rwa [List.head?_drop] at head
          refine ⟨rfl, ?_, ?_, anchor, root, next, anchored, rfl, here⟩
          · simp only [Extent.Proper]
            omega
          · simp only
            omega
    · contradiction

/-- Only the statements from the start on decide whether a window matches. -/
theorem matchWindow_of_drop {statements others : List Tree} {start shifted : Nat}
    {bindings : Bindings} {extent : Extent}
    (matched : pattern.matchWindow language statements start = some (bindings, extent))
    (inside : shifted ≤ others.length) (same : others.drop shifted = statements.drop start) :
    pattern.matchWindow language others shifted =
      some (bindings, ⟨shifted, shifted + extent.length⟩) := by
  rw [matchWindow] at matched ⊢
  split at matched
  · contradiction
  · rename_i terms window
    split at matched
    · obtain ⟨⟨bound, used⟩, unified, result⟩ := Option.map_eq_some_iff.mp matched
      cases result
      simp only [inside, if_true, same, unified, Option.map_some, Extent.length,
        Nat.add_sub_cancel_left]
    · contradiction

end Codemod.Pattern
