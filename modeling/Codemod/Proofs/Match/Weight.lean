import Codemod.Proofs.Match.Anchor
import Codemod.Proofs.Match.Extension
import Codemod.Proofs.Tree.Size
import Codemod.Template
import Mathlib.Algebra.GroupWithZero.Nat
import Mathlib.Algebra.Order.BigOperators.Group.List
import Mathlib.Algebra.Order.Group.Nat
import Mathlib.Data.List.Perm.Subperm

/-!
# The weight of a match

What a pattern matches is at least as large as the syntax it spells out and the captures of its
holes together, each counted as often as its name occurs. What a template is filled to has exactly
that size.
-/

namespace Codemod

namespace Term

mutual

/-- How many trees a term spells out. -/
def concrete : Term → Nat
  | .leaf _ _ => 1
  | .branch _ children => 1 + concreteAll children
  | .hole _ => 0

def concreteAll : List Term → Nat
  | [] => 0
  | term :: rest => concrete term + concreteAll rest

end

end Term

namespace Bindings

/-- The size of what a name captured. -/
def weight (bindings : Bindings) (name : String) : Nat :=
  match bindings.find? name with
  | some capture => Tree.sizeAll capture.trees
  | none => 0

/-- What the captures of holes weigh together. -/
def weigh (bindings : Bindings) (holes : List Hole) : Nat :=
  ((holes.map Hole.name).map bindings.weight).sum

variable {bindings final : Bindings}

private theorem weight_of_find? {name : String} {capture : Capture}
    (found : bindings.find? name = some capture) :
    bindings.weight name = Tree.sizeAll capture.trees := by
  rw [weight, found]

private theorem weight_of_insert {name : String} {capture : Capture}
    (kept : final.Extends (bindings.insert name capture)) :
    final.weight name = Tree.sizeAll capture.trees :=
  weight_of_find? kept.find?_insert

@[simp] theorem weigh_singleton (bindings : Bindings) (hole : Hole) :
    bindings.weigh [hole] = bindings.weight hole.name := rfl

@[simp] theorem weigh_append (bindings : Bindings) (first second : List Hole) :
    bindings.weigh (first ++ second) = bindings.weigh first + bindings.weigh second := by
  simp [weigh]

theorem weigh_le_of_count {few many : List Hole} (bindings : Bindings)
    (linear : ∀ name, (few.map Hole.name).count name ≤ (many.map Hole.name).count name) :
    bindings.weigh few ≤ bindings.weigh many := by
  obtain ⟨chosen, perm, sublist⟩ := List.subperm_iff_count.mpr linear
  calc bindings.weigh few = (chosen.map bindings.weight).sum := by
        rw [weigh, (perm.map bindings.weight).sum_eq]
    _ ≤ bindings.weigh many :=
        (sublist.map bindings.weight).sum_le_sum fun _ _ => Nat.zero_le _

end Bindings

namespace Term

variable {language : Language}

private theorem weight_of_capture {hole : Hole} {tree : Tree} {bindings bound final : Bindings}
    (matched : hole.capture language tree bindings = some bound) (kept : final.Extends bound) :
    final.weight hole.name = tree.size := by
  rcases Hole.capture_cases matched with ⟨earlier, found, same, rfl⟩ | ⟨_, _, unbound, rfl⟩
  · rw [Bindings.weight_of_find? (kept _ _ found), ← Tree.size_eq_of_same same]
    rfl
  · rw [Bindings.weight_of_insert kept]
    rfl

mutual

/-- The tree of a match weighs what the term spells out and captures. -/
theorem weigh_of_unify : ∀ (term : Term) {site : Site} {captures extended : CaptureTable}
    {tree : Tree} {bindings bound final : Bindings}, (∀ hole ∈ term.holes, hole.Plain) →
    check language site term captures = .ok extended → Captured language captures bindings →
    unify language term tree bindings = some bound → final.Extends bound →
      term.concrete + final.weigh term.holes ≤ tree.size
  | .leaf kind text, _, _, _, tree, _, _, _, _, _, _, matched, _ => by
    rw [unify] at matched
    split at matched
    · exact tree.one_le_size
    · contradiction
  | .branch kind children, _, _, _, tree, _, _, final, plain, checked, captured, matched, kept => by
    rw [check] at checked
    rw [unify] at matched
    split at matched
    · obtain ⟨⟨_, used⟩, all, rfl⟩ := Option.map_eq_some_iff.mp matched
      have weighs := weigh_of_unifyAll children plain checked captured all kept
      have inside := Nat.le_trans weighs (Tree.sizeAll_take_le tree.children used)
      rw [concrete, holes, tree.size_eq]
      omega
    · contradiction
  | .hole slot, _, _, _, tree, _, _, final, _, _, _, matched, kept => by
    rw [unify] at matched
    rw [concrete, holes, Bindings.weigh_singleton, weight_of_capture matched kept, Nat.zero_add]

theorem weigh_of_unifyAll : ∀ (terms : List Term) {site : Site}
    {captures extended : CaptureTable} {trees : List Tree} {bindings bound final : Bindings}
    {anchored : Bool} {used : Nat}, (∀ hole ∈ holesAll terms, hole.Plain) →
    checkAll language site terms captures = .ok extended → Captured language captures bindings →
    unifyAll language terms trees bindings anchored = some (bound, used) → final.Extends bound →
      concreteAll terms + final.weigh (holesAll terms) ≤ Tree.sizeAll (trees.take used)
  | [], _, _, _, _, _, _, _, _, _, _, _, _, _, _ => Nat.zero_le _
  | term :: rest, _, _, _, trees, _, _, final, _, _, plain, checked, captured, matched, kept => by
    obtain ⟨middle, first, others⟩ := checkAll_cons_ok checked
    obtain ⟨firstPlain, restPlain⟩ := List.forall_mem_append.mp plain
    rcases unifyAll_cons_cases matched with ⟨slot, earlier, more, rfl, found, same, after, rfl⟩ |
      ⟨slot, length, more, rfl, sequence, unbound, short, after, rfl⟩ |
      ⟨tree, followers, next, more, _, rfl, unified, after, rfl⟩
    · -- the run is equal to the one captured before, so it is of the same size
      rw [check] at first
      obtain ⟨rfl, _⟩ := enter_of_repeating first captured found
      have grown := extends_of_unifyAll rest restPlain others captured after
      have weight := Bindings.weight_of_find? ((kept.trans grown) _ _ found)
      have size := Tree.sizeAll_eq_of_sameAll same
      have behind := weigh_of_unifyAll rest restPlain others captured after kept
      rw [Capture.trees] at weight
      rw [concreteAll, concrete, holesAll, holes, Bindings.weigh_append, Bindings.weigh_singleton,
        Tree.sizeAll_take_add]
      omega
    · rw [check] at first
      have slotPlain := firstPlain slot (List.mem_singleton_self slot)
      obtain ⟨absent, rfl, _⟩ := enter_of_fresh slotPlain first captured sequence unbound
      have nextCaptured := captured.insert_sequence slot.name (trees.take length)
      have grown := extends_of_unifyAll rest restPlain others nextCaptured after
      have weight := Bindings.weight_of_insert (kept.trans grown)
      have behind := weigh_of_unifyAll rest restPlain others nextCaptured after kept
      rw [Capture.trees] at weight
      rw [concreteAll, concrete, holesAll, holes, Bindings.weigh_append, Bindings.weigh_singleton,
        Tree.sizeAll_take_add]
      omega
    · have nextCaptured := captured_of_unify term firstPlain first captured unified
      have grown := extends_of_unifyAll rest restPlain others nextCaptured after
      have here := weigh_of_unify term firstPlain first captured unified (kept.trans grown)
      have behind := weigh_of_unifyAll rest restPlain others nextCaptured after kept
      rw [concreteAll, holesAll, Bindings.weigh_append, List.take_succ_cons, Tree.sizeAll_cons]
      omega

end

mutual

private theorem size_of_fill (bindings : Bindings) (span : Span) :
    ∀ (term : Term) {trees : List Tree}, fill bindings span term = .ok trees →
      Tree.sizeAll trees = term.concrete + bindings.weigh term.holes
  | .leaf kind text, trees, filled => by
    rw [fill] at filled
    cases filled
    rfl
  | .branch kind children, trees, filled => by
    obtain ⟨inner, filledAll, result⟩ := exists_of_bind_ok filled
    cases result
    have size := size_of_fillAll bindings span children filledAll
    rw [concrete, holes]
    show 1 + Tree.sizeAll inner + 0 = _
    omega
  | .hole slot, trees, filled => by
    rw [fill] at filled
    split at filled
    · rename_i capture found
      cases filled
      rw [concrete, holes, Bindings.weigh_singleton, Bindings.weight_of_find? found, Nat.zero_add]
    · contradiction

theorem size_of_fillAll (bindings : Bindings) (span : Span) : ∀ (terms : List Term)
    {trees : List Tree}, fillAll bindings span terms = .ok trees →
      Tree.sizeAll trees = concreteAll terms + bindings.weigh (holesAll terms)
  | [], trees, filled => by
    rw [fillAll] at filled
    cases filled
    rfl
  | term :: rest, trees, filled => by
    obtain ⟨here, first, more⟩ := exists_of_bind_ok filled
    obtain ⟨others, behind, result⟩ := exists_of_bind_ok more
    cases result
    have size := size_of_fill bindings span term first
    have sizes := size_of_fillAll bindings span rest behind
    rw [concreteAll, holesAll, Bindings.weigh_append, Tree.sizeAll_append]
    omega

end

end Term

end Codemod
