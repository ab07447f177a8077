import Codemod.Proofs.Match.Captures

/-!
# Bindings that grow

A match keeps what was bound before it and adds what its own holes capture.
-/

namespace Codemod

namespace Bindings

/-- The captures of some bindings are kept. -/
def Extends (extended bindings : Bindings) : Prop :=
  ∀ name capture, bindings.find? name = some capture → extended.find? name = some capture

variable {bindings extended final : Bindings}

theorem Extends.refl (bindings : Bindings) : bindings.Extends bindings :=
  fun _ _ found => found

theorem Extends.trans (second : final.Extends extended) (first : extended.Extends bindings) :
    final.Extends bindings :=
  fun name capture found => second name capture (first name capture found)

theorem extends_insert {name : String} (unbound : bindings.find? name = none) (capture : Capture) :
    Extends (bindings.insert name capture) bindings := by
  intro other earlier found
  rw [Assoc.find?_insert]
  split
  · rename_i same
    rw [same, unbound] at found
    contradiction
  · exact found

theorem Extends.find?_insert {name : String} {capture : Capture}
    (kept : final.Extends (bindings.insert name capture)) : final.find? name = some capture :=
  kept name capture (by simp)

end Bindings

namespace Term

variable {language : Language}

private theorem extends_of_capture {hole : Hole} {tree : Tree} {bindings bound : Bindings}
    (matched : hole.capture language tree bindings = some bound) : bound.Extends bindings := by
  rcases Hole.capture_cases matched with ⟨_, _, _, rfl⟩ | ⟨_, _, unbound, rfl⟩
  · exact .refl _
  · exact Bindings.extends_insert unbound _

mutual

private theorem extends_of_unify : ∀ (term : Term) {site : Site} {captures extended : CaptureTable}
    {tree : Tree} {bindings bound : Bindings}, (∀ hole ∈ term.holes, hole.Plain) →
    check language site term captures = .ok extended → Captured language captures bindings →
    unify language term tree bindings = some bound → bound.Extends bindings
  | .leaf kind text, _, _, _, _, _, _, _, _, _, matched => by
    rw [unify] at matched
    split at matched
    · cases matched
      exact .refl _
    · contradiction
  | .branch kind children, _, _, _, _, _, _, plain, checked, captured, matched => by
    rw [check] at checked
    rw [unify] at matched
    split at matched
    · obtain ⟨⟨_, used⟩, all, rfl⟩ := Option.map_eq_some_iff.mp matched
      exact extends_of_unifyAll children plain checked captured all
    · contradiction
  | .hole slot, _, _, _, _, _, _, _, _, _, matched => by
    rw [unify] at matched
    exact extends_of_capture matched

theorem extends_of_unifyAll : ∀ (terms : List Term) {site : Site}
    {captures extended : CaptureTable} {trees : List Tree} {bindings bound : Bindings}
    {anchored : Bool} {used : Nat}, (∀ hole ∈ holesAll terms, hole.Plain) →
    checkAll language site terms captures = .ok extended → Captured language captures bindings →
    unifyAll language terms trees bindings anchored = some (bound, used) → bound.Extends bindings
  | [], _, _, _, _, _, _, _, _, _, _, _, matched => by
    rw [unifyAll] at matched
    split at matched
    · contradiction
    · cases matched
      exact .refl _
  | term :: rest, _, _, _, _, _, _, _, _, plain, checked, captured, matched => by
    obtain ⟨middle, first, others⟩ := checkAll_cons_ok checked
    obtain ⟨firstPlain, restPlain⟩ := List.forall_mem_append.mp plain
    rcases unifyAll_cons_cases matched with ⟨slot, earlier, more, rfl, found, _, after, _⟩ |
      ⟨slot, length, more, rfl, sequence, unbound, _, after, _⟩ |
      ⟨tree, followers, next, more, _, _, unified, after, _⟩
    · rw [check] at first
      obtain ⟨rfl, _⟩ := enter_of_repeating first captured found
      exact extends_of_unifyAll rest restPlain others captured after
    · rw [check] at first
      have slotPlain := firstPlain slot (List.mem_singleton_self slot)
      obtain ⟨absent, rfl, _⟩ := enter_of_fresh slotPlain first captured sequence unbound
      have kept := extends_of_unifyAll rest restPlain others
        (captured.insert_sequence slot.name _) after
      exact kept.trans (Bindings.extends_insert absent _)
    · have nextCaptured := captured_of_unify term firstPlain first captured unified
      have kept := extends_of_unifyAll rest restPlain others nextCaptured after
      exact kept.trans (extends_of_unify term firstPlain first captured unified)

end

end Term

end Codemod
