import Codemod.Proofs.Match.Soundness

/-!
# Which templates can be filled

Filling a template stops at its first hole without a capture. A match captures just the names of
its pattern's table, so it is known before any match whether a template can be filled and, if not,
at which name that stops.
-/

namespace Codemod

private theorem find?_distinct {α : Type} [DecidableEq α] (keep : α → Bool) (items : List α) :
    (distinct items).find? keep = items.find? keep := by
  have added (known : List α) : (addAllNew known items).find? keep =
      (known ++ items).find? keep := by
    induction items generalizing known with
    | nil => simp [addAllNew]
    | cons item rest ih =>
      show (addAllNew (addNew known item) rest).find? keep = _
      rw [ih, addNew]
      split
      · rename_i present
        -- an item that is found again has been found before
        rw [List.find?_append, List.find?_append, List.find?_cons]
        cases found : known.find? keep with
        | some first => rfl
        | none =>
          have dropped := List.find?_eq_none.mp found item present
          simp [dropped]
      · rw [List.append_assoc, List.singleton_append]
  exact added []

/-- Nothing is known for the name of the hole. -/
def Hole.isUnbound (bindings : Bindings) (hole : Hole) : Bool :=
  (bindings.find? hole.name).isNone

namespace Term

variable {bindings : Bindings} (span : Span)

mutual

private theorem exists_fill : ∀ term : Term, term.holes.find? (·.isUnbound bindings) = none →
    ∃ trees, fill bindings span term = .ok trees
  | .leaf _ _, _ => ⟨_, rfl⟩
  | .branch _ children, bound => by
    obtain ⟨trees, filled⟩ := exists_fillAll children bound
    exact ⟨_, fill_branch filled⟩
  | .hole slot, bound => by
    have here := List.find?_eq_none.mp bound slot (List.mem_singleton_self slot)
    rw [Hole.isUnbound, Bool.not_eq_true, Option.isNone_eq_false_iff,
      Option.isSome_iff_exists] at here
    obtain ⟨capture, found⟩ := here
    exact ⟨_, fill_hole span found⟩

private theorem exists_fillAll : ∀ terms : List Term,
    (holesAll terms).find? (·.isUnbound bindings) = none →
      ∃ trees, fillAll bindings span terms = .ok trees
  | [], _ => ⟨[], rfl⟩
  | term :: rest, bound => by
    rw [holesAll, List.find?_append, Option.or_eq_none_iff] at bound
    obtain ⟨here, first⟩ := exists_fill term bound.1
    obtain ⟨others, after⟩ := exists_fillAll rest bound.2
    exact ⟨_, fillAll_cons first after⟩

end

mutual

private theorem fill_eq_error : ∀ (term : Term) {slot : Hole},
    term.holes.find? (·.isUnbound bindings) = some slot →
      fill bindings span term = .error (.unboundName slot.name)
  | .leaf _ _, _, first => by contradiction
  | .branch _ children, _, first => by
    rw [fill, fillAll_eq_error children first]
    rfl
  | .hole other, _, first => by
    rw [holes, List.find?_cons] at first
    split at first
    · rename_i unbound
      cases first
      rw [Hole.isUnbound, Option.isNone_iff_eq_none] at unbound
      rw [fill, unbound]
    · contradiction

private theorem fillAll_eq_error : ∀ (terms : List Term) {slot : Hole},
    (holesAll terms).find? (·.isUnbound bindings) = some slot →
      fillAll bindings span terms = .error (.unboundName slot.name)
  | [], _, first => by contradiction
  | term :: rest, _, first => by
    rw [holesAll, List.find?_append, Option.or_eq_some_iff] at first
    rcases first with here | ⟨bound, later⟩
    · rw [fillAll, fill_eq_error term here]
      rfl
    · obtain ⟨trees, filled⟩ := exists_fill span term bound
      rw [fillAll, filled, fillAll_eq_error rest later]
      rfl

end

end Term

namespace Pattern

variable {language : Language} {pattern : Pattern} {bindings : Bindings}

/-- The captures are those of a match, at some tree or from some statement on. -/
def Binds (language : Language) (pattern : Pattern) (bindings : Bindings) : Prop :=
  (∃ tree, pattern.matchNode language tree = some bindings) ∨
    ∃ statements start extent,
      pattern.matchWindow language statements start = some (bindings, extent)

theorem Binds.captured (binds : pattern.Binds language bindings)
    (compiled : pattern.Compiled language) (plain : pattern.shape.Plain) :
    Captured language pattern.captures bindings := by
  rcases binds with ⟨_, matched⟩ | ⟨_, _, _, matched⟩
  · exact captured_of_matchNode compiled plain matched
  · exact captured_of_matchWindow compiled plain matched

end Pattern

namespace Template

variable {language : Language} {pattern : Pattern} {bindings : Bindings} {template : Template}

/-- The first name that a template uses and the pattern does not bind is that of the first hole
that no match gives a capture. -/
theorem head?_unboundIn (captured : Captured language pattern.captures bindings) :
    (template.unboundIn pattern).head? =
      ((Term.holesAll template.shape.terms).find? (·.isUnbound bindings)).map Hole.name := by
  rw [unboundIn, List.head?_filter, Shape.names, find?_distinct, List.find?_map]
  congr 2
  funext hole
  have alike := captured.none_iff hole.name
  simp only [Function.comp_apply, Hole.isUnbound, Assoc.contains]
  cases known : pattern.captures.find? hole.name with
  | none => simp [alike.mp known]
  | some kind =>
    cases bound : bindings.find? hole.name with
    | none => simp [alike.mpr bound] at known
    | some capture => rfl

theorem instantiate_eq_error (captured : Captured language pattern.captures bindings)
    {name : String} (first : (template.unboundIn pattern).head? = some name) (span : Span) :
    template.instantiate bindings span = .error (.unboundName name) := by
  rw [head?_unboundIn captured, Option.map_eq_some_iff] at first
  obtain ⟨slot, found, rfl⟩ := first
  exact Term.fillAll_eq_error span _ found

theorem exists_instantiate (captured : Captured language pattern.captures bindings)
    (bound : template.unboundIn pattern = []) (span : Span) :
    ∃ trees, template.instantiate bindings span = .ok trees := by
  have none_first : (template.unboundIn pattern).head? = _ := head?_unboundIn captured
  rw [bound, List.head?_nil, eq_comm, Option.map_eq_none_iff] at none_first
  exact Term.exists_fillAll span _ none_first

/-- The sequence that takes the place of a template which is a single hole. -/
def splice? (template : Template) (bindings : Bindings) : Option (List Tree) :=
  match template.shape with
  | .node (.hole slot) =>
    match bindings.find? slot.name with
    | some (.sequence trees) => some trees
    | _ => none
  | _ => none

/-- A template for one node makes one tree, unless it is a hole that captured a sequence. -/
theorem length_of_instantiate {span : Span} {trees : List Tree}
    (single : template.shape.isWindow = false)
    (filled : template.instantiate bindings span = .ok trees) :
    trees.length = match template.splice? bindings with
      | some sequence => sequence.length
      | none => 1 := by
  rw [instantiate] at filled
  rw [splice?]
  cases shaped : template.shape with
  | window terms =>
    rw [shaped] at single
    contradiction
  | node term =>
    rw [shaped, Shape.terms, Term.fillAll] at filled
    obtain ⟨here, first, filled⟩ := exists_of_bind_ok filled
    cases filled
    rw [List.append_nil]
    cases term with
    | leaf kind text =>
      cases first
      rfl
    | branch kind children =>
      obtain ⟨_, _, first⟩ := exists_of_bind_ok first
      cases first
      rfl
    | hole slot =>
      rw [Term.fill] at first
      simp only
      split at first
      · rename_i capture found
        cases first
        rw [found]
        cases capture <;> rfl
      · contradiction

end Template

end Codemod
