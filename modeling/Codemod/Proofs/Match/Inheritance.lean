import Codemod.Match
import Codemod.Proofs.Match.Captures
import Codemod.Template

/-!
# What a replacement is made of

A match captures trees of what it matches and no others, and a template adds only the syntax it
spells out. A property that trees hand down to their children thus passes from the matched trees,
through the captures, to the replacement.
-/

namespace Codemod

/-- Trees hand the property down to their children. -/
def Tree.Hereditary (P : Tree → Prop) : Prop :=
  ∀ tree, P tree → ∀ child ∈ tree.children, P child

/-- Every captured tree has the property. -/
def Bindings.All (P : Tree → Prop) (bindings : Bindings) : Prop :=
  ∀ name capture, bindings.find? name = some capture → ∀ tree ∈ capture.trees, P tree

variable {P : Tree → Prop} {language : Language}

private theorem Bindings.all_empty : Bindings.All P .empty := by
  intro name capture found
  contradiction

private theorem Bindings.All.insert {bindings : Bindings} (all : bindings.All P) (name : String)
    {capture : Capture} (captured : ∀ tree ∈ capture.trees, P tree) :
    Bindings.All P (bindings.insert name capture) := by
  intro other earlier found
  rw [Assoc.find?_insert] at found
  split at found
  · cases found
    exact captured
  · exact all other earlier found

namespace Term

mutual

private theorem all_of_unify (hereditary : Tree.Hereditary P) : ∀ (term : Term) {tree : Tree}
    {bindings bound : Bindings}, P tree → bindings.All P →
    unify language term tree bindings = some bound → bound.All P
  | .leaf kind text, _, _, _, _, all, matched => by
    rw [unify] at matched
    split at matched
    · cases matched
      exact all
    · contradiction
  | .branch kind children, tree, _, _, holds, all, matched => by
    rw [unify] at matched
    split at matched
    · obtain ⟨⟨_, used⟩, inside, rfl⟩ := Option.map_eq_some_iff.mp matched
      exact all_of_unifyAll hereditary children (hereditary tree holds) all inside
    · contradiction
  | .hole slot, tree, _, _, holds, all, matched => by
    rw [unify] at matched
    rcases Hole.capture_cases matched with ⟨_, _, _, rfl⟩ | ⟨_, _, _, rfl⟩
    · exact all
    · exact all.insert slot.name (by simpa [Capture.trees] using holds)

private theorem all_of_unifyAll (hereditary : Tree.Hereditary P) : ∀ (terms : List Term)
    {trees : List Tree} {bindings bound : Bindings} {anchored : Bool} {used : Nat},
    (∀ tree ∈ trees, P tree) → bindings.All P →
    unifyAll language terms trees bindings anchored = some (bound, used) → bound.All P
  | [], _, _, _, _, _, _, all, matched => by
    rw [unifyAll] at matched
    split at matched
    · contradiction
    · cases matched
      exact all
  | term :: rest, trees, _, _, _, _, holds, all, matched => by
    rcases unifyAll_cons_cases matched with ⟨_, earlier, _, _, _, _, after, _⟩ |
      ⟨slot, length, _, _, _, _, _, after, _⟩ | ⟨tree, others, next, _, _, rfl, unified, after, _⟩
    · exact all_of_unifyAll hereditary rest
        (fun tree inside => holds tree (List.mem_of_mem_drop inside)) all after
    · have captured : ∀ tree ∈ (Capture.sequence (trees.take length)).trees, P tree :=
        fun tree inside => holds tree (List.mem_of_mem_take inside)
      exact all_of_unifyAll hereditary rest
        (fun tree inside => holds tree (List.mem_of_mem_drop inside))
        (all.insert slot.name captured) after
    · obtain ⟨here, later⟩ := List.forall_mem_cons.mp holds
      have next_all := all_of_unify hereditary term here all unified
      exact all_of_unifyAll hereditary rest later next_all after

end

end Term

namespace Pattern

variable {pattern : Pattern}

theorem all_of_matchNode (hereditary : Tree.Hereditary P) {tree : Tree} (holds : P tree)
    {bindings : Bindings} (matched : pattern.matchNode language tree = some bindings) :
    bindings.All P := by
  rw [matchNode] at matched
  split at matched
  · exact Term.all_of_unify hereditary _ holds Bindings.all_empty matched
  · contradiction

theorem all_of_matchWindow (hereditary : Tree.Hereditary P) {statements : List Tree}
    (holds : ∀ tree ∈ statements, P tree) {start : Nat} {bindings : Bindings} {extent : Extent}
    (matched : pattern.matchWindow language statements start = some (bindings, extent)) :
    bindings.All P := by
  rw [matchWindow] at matched
  split at matched
  · contradiction
  · split at matched
    · obtain ⟨⟨_, used⟩, unified, made⟩ := Option.map_eq_some_iff.mp matched
      cases made
      exact Term.all_of_unifyAll hereditary _
        (fun tree inside => holds tree (List.mem_of_mem_drop inside)) Bindings.all_empty unified
    · contradiction

end Pattern

namespace Term

/-- The trees a term spells out have the property if the trees in them do. -/
inductive Gives (P : Tree → Prop) : Term → Prop where
  | leaf {kind text : String} (holds : ∀ span, P ((Tree.leaf kind text).withSpan span)) :
      Gives P (.leaf kind text)
  | branch {kind : String} {children : List Term} (inside : ∀ child ∈ children, Gives P child)
      (holds : ∀ span trees, (∀ tree ∈ trees, P tree) → P ((Tree.branch kind trees).withSpan span)) :
      Gives P (.branch kind children)
  | hole (slot : Hole) : Gives P (.hole slot)

private theorem fillAll_of_fill {bindings : Bindings} {span : Span} {terms : List Term}
    (each : ∀ term ∈ terms, ∀ trees, fill bindings span term = .ok trees → ∀ tree ∈ trees, P tree)
    {trees : List Tree} (filled : fillAll bindings span terms = .ok trees) :
    ∀ tree ∈ trees, P tree := by
  induction terms generalizing trees with
  | nil =>
    cases filled
    exact List.forall_mem_nil P
  | cons term terms ih =>
    obtain ⟨here, later⟩ := List.forall_mem_cons.mp each
    obtain ⟨first, made, filled⟩ := exists_of_bind_ok filled
    obtain ⟨others, rest, filled⟩ := exists_of_bind_ok filled
    cases filled
    exact List.forall_mem_append.mpr ⟨here first made, ih later rest⟩

private theorem Gives.fill {bindings : Bindings} (all : bindings.All P) {span : Span} {term : Term}
    (gives : term.Gives P) :
    ∀ trees, Term.fill bindings span term = .ok trees → ∀ tree ∈ trees, P tree := by
  induction gives with
  | leaf holds =>
    intro trees filled
    cases filled
    exact List.forall_mem_singleton.mpr (holds span)
  | branch _ holds ih =>
    intro trees filled
    obtain ⟨children, inside, made⟩ := exists_of_bind_ok filled
    cases made
    exact List.forall_mem_singleton.mpr (holds span children (fillAll_of_fill ih inside))
  | hole slot =>
    intro trees filled
    rw [Term.fill] at filled
    split at filled
    · rename_i capture found
      cases filled
      exact all slot.name capture found
    · contradiction

end Term

namespace Template

variable {template : Template} {bindings : Bindings} {span : Span}

theorem instantiate_of_instantiateNode {new : Tree}
    (filled : template.instantiateNode bindings span = .ok new) :
    template.instantiate bindings span = .ok [new] := by
  rw [instantiateNode] at filled
  split at filled
  · contradiction
  · obtain ⟨trees, instantiated, single⟩ := exists_of_bind_ok filled
    split at single
    · cases single
      exact instantiated
    · contradiction

theorem all_of_instantiate (gives : ∀ term ∈ template.shape.terms, term.Gives P)
    (all : bindings.All P) {trees : List Tree}
    (filled : template.instantiate bindings span = .ok trees) : ∀ tree ∈ trees, P tree :=
  Term.fillAll_of_fill (fun term inside => (gives term inside).fill all) filled

end Template

end Codemod
