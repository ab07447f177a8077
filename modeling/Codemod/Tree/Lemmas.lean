import Codemod.Tree.Basic

/-!
# Lemmas on trees

Induction over a tree assumes the claim for its children. Structural equality is an equivalence.
-/

namespace Codemod.Tree

mutual

theorem induct {motive : Tree → Prop}
    (step : ∀ kind text type span children, (∀ child ∈ children, motive child) →
      motive ⟨kind, text, type, span, children⟩) : ∀ tree, motive tree
  | ⟨kind, text, type, span, children⟩ =>
    step kind text type span children (inductAll step children)

theorem inductAll {motive : Tree → Prop}
    (step : ∀ kind text type span children, (∀ child ∈ children, motive child) →
      motive ⟨kind, text, type, span, children⟩) :
    ∀ children : List Tree, ∀ child ∈ children, motive child
  | [] => fun _ member => nomatch member
  | first :: rest => List.forall_mem_cons.mpr ⟨induct step first, inductAll step rest⟩

end

theorem preorder_eq (tree : Tree) : tree.preorder = tree :: preorderAll tree.children := by
  cases tree
  rfl

theorem mem_preorderAll {trees : List Tree} {inner : Tree} :
    inner ∈ preorderAll trees ↔ ∃ tree ∈ trees, inner ∈ tree.preorder := by
  induction trees with
  | nil => simp [preorderAll]
  | cons tree rest ih => simp [preorderAll, ih]

theorem mem_preorder {tree inner : Tree} :
    inner ∈ tree.preorder ↔ inner = tree ∨ ∃ child ∈ tree.children, inner ∈ child.preorder := by
  rw [preorder_eq, List.mem_cons, mem_preorderAll]

theorem same_iff (a b : Tree) :
    a.same b ↔ a.kind = b.kind ∧ a.text = b.text ∧ sameAll a.children b.children := by
  cases a
  cases b
  simp [same, and_assoc]

@[simp] theorem sameAll_nil : sameAll [] [] = true := rfl

@[simp] theorem sameAll_cons (a b : Tree) (as bs : List Tree) :
    sameAll (a :: as) (b :: bs) = (same a b && sameAll as bs) := rfl

theorem length_eq_of_sameAll {as bs : List Tree} (equal : sameAll as bs) :
    as.length = bs.length := by
  induction as generalizing bs with
  | nil => cases bs with
    | nil => rfl
    | cons b bs => simp [sameAll] at equal
  | cons a as ih => cases bs with
    | nil => simp [sameAll] at equal
    | cons b bs =>
      simp only [sameAll_cons, Bool.and_eq_true] at equal
      simp [ih equal.2]

private theorem sameAll_refl_of {as : List Tree} (each : ∀ a ∈ as, same a a) : sameAll as as := by
  induction as with
  | nil => rfl
  | cons a as ih =>
    rw [sameAll_cons, each a List.mem_cons_self, ih fun b member =>
      each b (List.mem_cons_of_mem a member)]
    rfl

theorem same_refl (tree : Tree) : same tree tree := by
  induction tree using induct with
  | step kind text type span children each =>
    rw [same_iff]
    exact ⟨rfl, rfl, sameAll_refl_of each⟩

theorem sameAll_refl (trees : List Tree) : sameAll trees trees :=
  sameAll_refl_of fun tree _ => same_refl tree

private theorem sameAll_symm_of {as bs : List Tree} (each : ∀ a ∈ as, ∀ b, same a b → same b a)
    (equal : sameAll as bs) : sameAll bs as := by
  induction as generalizing bs with
  | nil => cases bs with
    | nil => rfl
    | cons b bs => simp [sameAll] at equal
  | cons a as ih => cases bs with
    | nil => simp [sameAll] at equal
    | cons b bs =>
      simp only [sameAll_cons, Bool.and_eq_true] at equal ⊢
      exact ⟨each a List.mem_cons_self b equal.1,
        ih (fun c member => each c (List.mem_cons_of_mem a member)) equal.2⟩

theorem same_symm {a b : Tree} (equal : same a b) : same b a := by
  induction a using induct generalizing b with
  | step kind text type span children each =>
    rw [same_iff] at equal ⊢
    exact ⟨equal.1.symm, equal.2.1.symm,
      sameAll_symm_of (fun child member _ => each child member) equal.2.2⟩

private theorem sameAll_trans_of {as bs cs : List Tree}
    (each : ∀ a ∈ as, ∀ b c, same a b → same b c → same a c) (first : sameAll as bs)
    (second : sameAll bs cs) : sameAll as cs := by
  induction as generalizing bs cs with
  | nil => cases bs with
    | nil => exact second
    | cons b bs => simp [sameAll] at first
  | cons a as ih => cases bs with
    | nil => simp [sameAll] at first
    | cons b bs => cases cs with
      | nil => simp [sameAll] at second
      | cons c cs =>
        simp only [sameAll_cons, Bool.and_eq_true] at first second ⊢
        exact ⟨each a List.mem_cons_self b c first.1 second.1,
          ih (fun d member => each d (List.mem_cons_of_mem a member)) first.2 second.2⟩

theorem same_trans {a b c : Tree} (first : same a b) (second : same b c) : same a c := by
  induction a using induct generalizing b c with
  | step kind text type span children each =>
    rw [same_iff] at first second ⊢
    exact ⟨first.1.trans second.1, first.2.1.trans second.2.1,
      sameAll_trans_of (fun child member _ _ => each child member) first.2.2 second.2.2⟩

end Codemod.Tree
