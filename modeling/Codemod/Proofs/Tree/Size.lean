import Codemod.Tree.Lemmas

/-!
# Sizes of trees

The size of a tree is one more than the sizes of its children together. Equal trees are of equal
size.
-/

namespace Codemod.Tree

@[simp] theorem sizeAll_nil : sizeAll [] = 0 := rfl

@[simp] theorem sizeAll_cons (tree : Tree) (rest : List Tree) :
    sizeAll (tree :: rest) = tree.size + sizeAll rest := rfl

theorem size_eq (tree : Tree) : tree.size = 1 + sizeAll tree.children := by
  cases tree
  rfl

@[simp] theorem size_withChildren (tree : Tree) (children : List Tree) :
    (tree.withChildren children).size = 1 + sizeAll children := rfl

theorem one_le_size (tree : Tree) : 1 ≤ tree.size := by
  rw [size_eq]
  omega

@[simp] theorem sizeAll_append (first second : List Tree) :
    sizeAll (first ++ second) = sizeAll first + sizeAll second := by
  induction first with
  | nil => simp
  | cons tree rest ih => simp [ih, Nat.add_assoc]

theorem sizeAll_take_add_drop (trees : List Tree) (length : Nat) :
    sizeAll (trees.take length) + sizeAll (trees.drop length) = sizeAll trees := by
  rw [← sizeAll_append, List.take_append_drop]

theorem sizeAll_take_le (trees : List Tree) (length : Nat) :
    sizeAll (trees.take length) ≤ sizeAll trees := by
  rw [← sizeAll_take_add_drop trees length]
  exact Nat.le_add_right _ _

theorem sizeAll_take_add (trees : List Tree) (first second : Nat) :
    sizeAll (trees.take (first + second)) =
      sizeAll (trees.take first) + sizeAll ((trees.drop first).take second) := by
  rw [List.take_add, sizeAll_append]

private theorem sizeAll_eq_of {as bs : List Tree} (each : ∀ a ∈ as, ∀ b, same a b → a.size = b.size)
    (equal : sameAll as bs) : sizeAll as = sizeAll bs := by
  induction as generalizing bs with
  | nil => cases bs with
    | nil => rfl
    | cons b bs => simp [sameAll] at equal
  | cons a as ih => cases bs with
    | nil => simp [sameAll] at equal
    | cons b bs =>
      simp only [sameAll_cons, Bool.and_eq_true] at equal
      rw [sizeAll_cons, sizeAll_cons, each a List.mem_cons_self b equal.1,
        ih (fun c member => each c (List.mem_cons_of_mem a member)) equal.2]

theorem size_eq_of_same {a b : Tree} (equal : same a b) : a.size = b.size := by
  induction a using induct generalizing b with
  | step kind text type span children each =>
    rw [same_iff] at equal
    rw [size_eq, size_eq b]
    exact congrArg (1 + ·) (sizeAll_eq_of (fun child member _ => each child member) equal.2.2)

theorem sizeAll_eq_of_sameAll {as bs : List Tree} (equal : sameAll as bs) :
    sizeAll as = sizeAll bs :=
  sizeAll_eq_of (fun _ _ _ => size_eq_of_same) equal

end Codemod.Tree
