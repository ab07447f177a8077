import Codemod.Language
import Codemod.Location

/-!
# Places in a tree

A path of child indices leads to a place. The version that is known at a place is the greatest
among the one known for the whole tree and those that the trees around the place declare; what a
tree declares counts below it only.
-/

namespace Codemod

namespace Tree

/-- The tree a path leads to. -/
def at? : Tree → List Nat → Option Tree
  | tree, [] => some tree
  | tree, index :: path =>
    match tree.children[index]? with
    | some child => at? child path
    | none => none

/-- The trees above the end of a path, outermost first. -/
def ancestors : Tree → List Nat → List Tree
  | _, [] => []
  | tree, index :: path =>
    tree :: match tree.children[index]? with
      | some child => ancestors child path
      | none => []

@[simp] theorem at?_nil (tree : Tree) : tree.at? [] = some tree := rfl

theorem at?_concat {root tree : Tree} {path : List Nat} (reached : root.at? path = some tree)
    (index : Nat) : root.at? (path ++ [index]) = tree.children[index]? := by
  induction path generalizing root with
  | nil =>
    cases reached
    simp only [List.nil_append, at?]
    split <;> simp_all
  | cons first path ih =>
    simp only [at?, List.cons_append] at reached ⊢
    split at reached
    · exact ih reached
    · contradiction

theorem exists_parent {root tree : Tree} {path : List Nat} {index : Nat}
    (reached : root.at? (path ++ [index]) = some tree) :
    ∃ parent, root.at? path = some parent ∧ parent.children[index]? = some tree := by
  induction path generalizing root with
  | nil =>
    refine ⟨root, rfl, ?_⟩
    rw [← at?_concat (at?_nil root) index]
    exact reached
  | cons first path ih =>
    simp only [at?, List.cons_append] at reached ⊢
    split at reached
    · exact ih reached
    · contradiction

theorem ancestors_concat {root tree : Tree} {path : List Nat} (reached : root.at? path = some tree)
    (index : Nat) : root.ancestors (path ++ [index]) = root.ancestors path ++ [tree] := by
  induction path generalizing root with
  | nil =>
    cases reached
    simp only [List.nil_append, ancestors]
    split <;> rfl
  | cons first path ih =>
    simp only [at?, ancestors, List.cons_append] at reached ⊢
    split at reached
    · rename_i child here
      simp only [ih reached]
    · contradiction

end Tree

private theorem max?_concat_toList (versions : List Nat) (version : Option Nat) :
    (versions ++ version.toList).max? = maxVersion versions.max? version := by
  cases version with
  | none =>
    rw [Option.toList_none, List.append_nil]
    cases versions.max? <;> rfl
  | some version =>
    cases versions with
    | nil => rfl
    | cons first rest =>
      simp only [Option.toList_some, List.cons_append, List.max?_cons', List.foldl_append,
        List.foldl_cons, List.foldl_nil, maxVersion]

namespace Language

/-- The greatest among a known version and those that some trees declare. -/
def versionAround (language : Language) (known : Option Nat) (around : List Tree) : Option Nat :=
  (known.toList ++ around.filterMap language.declaredVersion).max?

@[simp] theorem versionAround_nil (language : Language) (known : Option Nat) :
    language.versionAround known [] = known := by
  cases known <;> rfl

theorem versionAround_concat (language : Language) (known : Option Nat) (around : List Tree)
    (tree : Tree) :
    language.versionAround known (around ++ [tree]) =
      maxVersion (language.versionAround known around) (language.declaredVersion tree) := by
  have declared : [tree].filterMap language.declaredVersion =
      (language.declaredVersion tree).toList := by
    cases h : language.declaredVersion tree <;> simp [h]
  rw [versionAround, versionAround, List.filterMap_append, ← List.append_assoc, declared,
    max?_concat_toList]

/-- A version that holds is the known one or declared by one of the trees. -/
theorem exists_of_versionAround {language : Language} {known : Option Nat} {around : List Tree}
    {version : Nat} (holds : language.versionAround known around = some version) :
    known = some version ∨ ∃ tree ∈ around, language.declaredVersion tree = some version := by
  have member := List.max?_mem holds
  rcases List.mem_append.mp member with fromKnown | declared
  · exact .inl (Option.mem_toList.mp fromKnown)
  · exact .inr (List.mem_filterMap.mp declared)

end Language

/-- The trees around a place, outermost first. The statements of a window stand in their block. -/
def Location.around (location : Location) (root : Tree) : List Tree :=
  match location.statements with
  | none => root.ancestors location.path
  | some _ => root.ancestors location.path ++ (root.at? location.path).toList

end Codemod
