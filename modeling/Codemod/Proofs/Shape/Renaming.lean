import Codemod.Shape.Basic
import Mathlib.Data.List.Induction
import Mathlib.Data.Set.Function

/-!
# Renamings of holes

The canonical form of a shape names its holes by order of first appearance. That is a one-to-one
renaming, even when the shape has names which are numbers, and any other one-to-one renaming of the
shape has the same canonical form. So two shapes have one canonical form just when a one-to-one
renaming makes the one into the other.
-/

namespace Codemod

private theorem distinct_map {names : List String} {change : String → String}
    (apart : Set.InjOn change {name | name ∈ names}) :
    distinct (names.map change) = (distinct names).map change := by
  induction names using List.reverseRecOn with
  | nil => rfl
  | append_singleton names name ih =>
    have before : Set.InjOn change {name | name ∈ names} :=
      apart.mono fun _ => List.mem_append_left _
    have known : change name ∈ (distinct names).map change ↔ name ∈ distinct names := by
      rw [List.mem_map, mem_distinct]
      constructor
      · rintro ⟨other, listed, same⟩
        rw [mem_distinct] at listed
        have here := apart (List.mem_append_left _ listed)
          (List.mem_append_right _ (List.mem_singleton_self name)) same
        exact here ▸ listed
      · exact fun listed => ⟨name, (mem_distinct names name).mpr listed, rfl⟩
    have step (items : List String) (item : String) :
        distinct (items ++ [item]) = addNew (distinct items) item := by
      rw [distinct, addAllNew, List.foldl_append]
      rfl
    rw [List.map_append, List.map_singleton, step, step, ih before, addNew, addNew]
    simp only [known]
    split
    · rfl
    · rw [List.map_append, List.map_singleton]

/-- The same hole under another name. -/
def Hole.rename (change : String → String) (hole : Hole) : Hole :=
  { hole with name := change hole.name }

theorem Hole.effectiveKind_rename (change : String → String) (hole : Hole) :
    (hole.rename change).effectiveKind = hole.effectiveKind := rfl

namespace Term

variable {change other : String → String}

mutual

private theorem rename_congr :
    ∀ term : Term, (∀ hole ∈ term.holes, change hole.name = other hole.name) →
    term.rename change = term.rename other
  | .leaf kind text, _ => rfl
  | .branch kind children, agree => by
    rw [rename, rename, renameAll_congr children agree]
  | .hole slot, agree => by
    rw [rename, rename, agree slot (List.mem_singleton_self slot)]

private theorem renameAll_congr : ∀ terms : List Term,
    (∀ hole ∈ holesAll terms, change hole.name = other hole.name) →
    renameAll change terms = renameAll other terms
  | [], _ => rfl
  | term :: rest, agree => by
    obtain ⟨here, later⟩ := List.forall_mem_append.mp agree
    rw [renameAll, renameAll, rename_congr term here, renameAll_congr rest later]

end

mutual

private theorem rename_rename : ∀ term : Term,
    (term.rename change).rename other = term.rename (other ∘ change)
  | .leaf kind text => rfl
  | .branch kind children => by
    rw [rename, rename, rename, renameAll_renameAll children]
  | .hole slot => rfl

private theorem renameAll_renameAll : ∀ terms : List Term,
    renameAll other (renameAll change terms) = renameAll (other ∘ change) terms
  | [] => rfl
  | term :: rest => by
    rw [renameAll, renameAll, renameAll, rename_rename term, renameAll_renameAll rest]

end

mutual

private theorem rename_id : ∀ term : Term, term.rename id = term
  | .leaf kind text => rfl
  | .branch kind children => by rw [rename, renameAll_id children]
  | .hole slot => rfl

private theorem renameAll_id : ∀ terms : List Term, renameAll id terms = terms
  | [] => rfl
  | term :: rest => by rw [renameAll, rename_id term, renameAll_id rest]

end

mutual

private theorem holes_rename : ∀ term : Term,
    (term.rename change).holes = term.holes.map (Hole.rename change)
  | .leaf kind text => rfl
  | .branch kind children => by rw [rename, holes, holes, holesAll_renameAll children]
  | .hole slot => rfl

private theorem holesAll_renameAll : ∀ terms : List Term,
    holesAll (renameAll change terms) = (holesAll terms).map (Hole.rename change)
  | [] => rfl
  | term :: rest => by
    rw [renameAll, holesAll, holesAll, List.map_append, holes_rename term,
      holesAll_renameAll rest]

end

end Term

namespace Shape

variable {shape twin : Shape} {change other : String → String}

def nameSet (shape : Shape) : Set String :=
  {name | name ∈ shape.names}

/-- A change of names that keeps the names of a shape apart. -/
def KeepsApart (shape : Shape) (change : String → String) : Prop :=
  Set.InjOn change shape.nameSet

theorem name_mem_names {hole : Hole} (inside : hole ∈ Term.holesAll shape.terms) :
    hole.name ∈ shape.names :=
  (mem_distinct _ _).mpr (List.mem_map_of_mem inside)

@[simp] theorem terms_rename (shape : Shape) (change : String → String) :
    (shape.rename change).terms = Term.renameAll change shape.terms := by
  cases shape <;> rfl

@[simp] theorem isWindow_rename (shape : Shape) (change : String → String) :
    (shape.rename change).isWindow = shape.isWindow := by
  cases shape <;> rfl

private theorem rename_congr (agree : ∀ name ∈ shape.names, change name = other name) :
    shape.rename change = shape.rename other := by
  have each : ∀ hole ∈ Term.holesAll shape.terms, change hole.name = other hole.name :=
    fun _ inside => agree _ (name_mem_names inside)
  cases shape with
  | node term =>
    have here := Term.rename_congr term fun hole inside =>
      each hole (List.mem_append_left _ inside)
    rw [rename, rename, here]
  | window terms => rw [rename, rename, Term.renameAll_congr terms each]

private theorem rename_rename (shape : Shape) (change other : String → String) :
    (shape.rename change).rename other = shape.rename (other ∘ change) := by
  cases shape with
  | node term => exact congrArg Shape.node (Term.rename_rename term)
  | window terms => exact congrArg Shape.window (Term.renameAll_renameAll terms)

theorem rename_id (shape : Shape) : shape.rename id = shape := by
  cases shape with
  | node term => exact congrArg Shape.node (Term.rename_id term)
  | window terms => exact congrArg Shape.window (Term.renameAll_id terms)

private theorem names_rename (apart : shape.KeepsApart change) :
    (shape.rename change).names = shape.names.map change := by
  have listed : Set.InjOn change {name | name ∈ (Term.holesAll shape.terms).map Hole.name} :=
    apart.mono fun name => (mem_distinct _ name).mpr
  rw [names, names, terms_rename, Term.holesAll_renameAll, ← distinct_map listed, List.map_map,
    List.map_map]
  rfl

private theorem toString_injective : Function.Injective (toString : Nat → String) := by
  intro index place same
  have digits : Nat.toDigits 10 index = Nat.toDigits 10 place := String.ofList_inj.mp same
  have read (number : Nat) : Nat.ofDigitChars 10 (Nat.toDigits 10 number) 0 = number :=
    Nat.ofDigitChars_toDigits (by decide) (by decide)
  rw [← read index, digits, read]

private theorem ordinalName_eq {names : List String} {name : String} {index : Nat}
    (here : names.idxOf? name = some index) : ordinalName names name = toString index := by
  rw [ordinalName, here]

private theorem exists_idxOf? {names : List String} {name : String} (listed : name ∈ names) :
    ∃ index, names.idxOf? name = some index := by
  cases here : names.idxOf? name with
  | none => exact absurd listed (List.idxOf?_eq_none_iff.mp here)
  | some index => exact ⟨index, rfl⟩

/-- Distinct names have distinct ordinals. Only the names that are listed take one, so a name that
is itself a number is no exception. -/
theorem keepsApart_ordinalName (shape : Shape) : shape.KeepsApart (ordinalName shape.names) := by
  intro name listed other alsoListed same
  obtain ⟨index, here⟩ := exists_idxOf? listed
  obtain ⟨place, there⟩ := exists_idxOf? alsoListed
  rw [ordinalName_eq here, ordinalName_eq there] at same
  obtain rfl : index = place := toString_injective same
  obtain ⟨_, found, -⟩ := List.idxOf?_eq_some_iff.mp here
  obtain ⟨_, alsoFound, -⟩ := List.idxOf?_eq_some_iff.mp there
  exact found.symm.trans alsoFound

private theorem idxOf?_map {names : List String} {change : String → String}
    (apart : Set.InjOn change {name | name ∈ names}) {name : String} (listed : name ∈ names) :
    (names.map change).idxOf? (change name) = names.idxOf? name := by
  obtain ⟨index, here⟩ := exists_idxOf? listed
  obtain ⟨inside, found, first⟩ := List.idxOf?_eq_some_iff.mp here
  rw [here, List.idxOf?_eq_some_iff]
  refine ⟨by simpa using inside, by simp [found], fun earlier before => ?_⟩
  rw [List.getElem_map]
  intro same
  exact first earlier before (apart (List.getElem_mem _) listed same)

private theorem ordinalName_rename (apart : shape.KeepsApart change) {name : String}
    (listed : name ∈ shape.names) :
    ordinalName (shape.rename change).names (change name) = ordinalName shape.names name := by
  obtain ⟨index, here⟩ := exists_idxOf? listed
  rw [ordinalName_eq here, ordinalName_eq]
  rw [names_rename apart, idxOf?_map apart listed, here]

private theorem canonical_rename (apart : shape.KeepsApart change) :
    (shape.rename change).canonical = shape.canonical := by
  rw [canonical, canonical, rename_rename]
  exact rename_congr fun name listed => ordinalName_rename apart listed

theorem canonical_canonical (shape : Shape) : shape.canonical.canonical = shape.canonical :=
  canonical_rename shape.keepsApart_ordinalName

/-- Shapes that one-to-one renamings make the same are one-to-one renamings of each other. -/
theorem exists_rename_eq (apart : shape.KeepsApart change) (alsoApart : twin.KeepsApart other)
    (same : shape.rename change = twin.rename other) :
    ∃ direct, shape.KeepsApart direct ∧ shape.rename direct = twin := by
  have images : shape.names.map change = twin.names.map other := by
    rw [← names_rename apart, same, names_rename alsoApart]
  -- The names of the twin are read back from those that both have been given.
  let back := Function.invFunOn other twin.nameSet
  have inverse : Set.LeftInvOn back other twin.nameSet :=
    alsoApart.leftInvOn_invFunOn
  refine ⟨back ∘ change, ?_, ?_⟩
  · refine (Function.invFunOn_injOn_image other _).comp apart fun name listed => ?_
    have image : change name ∈ twin.names.map other := images ▸ List.mem_map_of_mem listed
    exact List.mem_map.mp image
  · calc shape.rename (back ∘ change)
      _ = (shape.rename change).rename back := (rename_rename ..).symm
      _ = twin.rename (back ∘ other) := by rw [same, rename_rename]
      _ = twin.rename id := rename_congr fun name listed => inverse listed
      _ = twin := twin.rename_id

theorem canonical_eq_canonical_iff : shape.canonical = twin.canonical ↔
    ∃ change, shape.KeepsApart change ∧ shape.rename change = twin := by
  constructor
  · exact exists_rename_eq shape.keepsApart_ordinalName twin.keepsApart_ordinalName
  · rintro ⟨change, apart, rfl⟩
    exact (canonical_rename apart).symm

end Shape

end Codemod
