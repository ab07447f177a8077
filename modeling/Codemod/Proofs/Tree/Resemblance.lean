import Codemod.Proofs.Related
import Codemod.Tree.Lemmas

/-!
# Trees that resemble each other

A resemblance is a relation that trees hand on to their children and their spans, and that is put
together again from those. Trees that resemble each other are structurally equal. The finest
resemblance is equality and the coarsest is structural equality.
-/

namespace Codemod

namespace Tree

theorem sameAll_iff_forall₂ {trees twins : List Tree} :
    sameAll trees twins = true ↔
      List.Forall₂ (fun tree twin => same tree twin = true) trees twins := by
  induction trees generalizing twins with
  | nil => cases twins <;> simp [sameAll]
  | cons tree rest ih =>
    cases twins with
    | nil => simp [sameAll]
    | cons twin others => simp [ih]

theorem same_congr {a b c d : Tree} (first : same a b) (second : same c d) :
    same a c = same b d := by
  rw [Bool.eq_iff_iff]
  constructor
  · intro equal
    exact same_trans (same_symm first) (same_trans equal second)
  · intro equal
    exact same_trans first (same_trans equal (same_symm second))

private theorem same_branch (as bs : List Tree) :
    same ⟨"", none, none, .generated, as⟩ ⟨"", none, none, .generated, bs⟩ = sameAll as bs := by
  simp [same]

theorem sameAll_congr {as bs cs ds : List Tree} (first : sameAll as bs) (second : sameAll cs ds) :
    sameAll as cs = sameAll bs ds := by
  rw [← same_branch, ← same_branch]
  exact same_congr ((same_branch as bs).trans first) ((same_branch cs ds).trans second)

private theorem forall₂_preorderAll {trees twins : List Tree}
    (each : ∀ tree ∈ trees, ∀ twin, same tree twin →
      List.Forall₂ (fun a b => same a b = true) tree.preorder twin.preorder)
    (equal : sameAll trees twins) :
    List.Forall₂ (fun a b => same a b = true) (preorderAll trees) (preorderAll twins) := by
  induction sameAll_iff_forall₂.mp equal with
  | nil => exact .nil
  | cons first rest ih =>
    refine List.rel_append (each _ List.mem_cons_self _ first) (ih ?_ ?_)
    · exact fun tree member => each tree (List.mem_cons_of_mem _ member)
    · exact sameAll_iff_forall₂.mpr rest

private theorem forall₂_preorder {tree twin : Tree} (equal : same tree twin) :
    List.Forall₂ (fun a b => same a b = true) tree.preorder twin.preorder := by
  induction tree using induct generalizing twin with
  | step kind text type span children each =>
    obtain ⟨_, _, _, _, others⟩ := twin
    have inner := (same_iff _ _).mp equal
    exact .cons equal (forall₂_preorderAll (fun child member _ => each child member) inner.2.2)

theorem contains_congr {tree twin needle other : Tree} (equal : same tree twin)
    (needles : same needle other) : tree.contains needle = twin.contains other := by
  exact any_eq_of_forall₂ (forall₂_preorder equal) fun _ _ here => same_congr here needles

end Tree

/-- A relation between trees, and between spans, that is kept when trees are taken apart and put
together. -/
structure Resemblance where
  trees : Tree → Tree → Prop
  spans : Span → Span → Prop
  same : ∀ {tree twin}, trees tree twin → tree.same twin = true
  children : ∀ {tree twin}, trees tree twin → List.Forall₂ trees tree.children twin.children
  span : ∀ {tree twin}, trees tree twin → spans tree.span twin.span
  spelled : ∀ {span twinSpan children twins} (kind : String) (text : Option String),
    spans span twinSpan → List.Forall₂ trees children twins →
    trees ⟨kind, text, none, span, children⟩ ⟨kind, text, none, twinSpan, twins⟩
  rebuilt : ∀ {tree twin children twins}, trees tree twin → List.Forall₂ trees children twins →
    trees (tree.withChildren children) (twin.withChildren twins)
  generated : spans .generated .generated
  merge : ∀ {first twinFirst second twinSecond}, spans first twinFirst → spans second twinSecond →
    spans (first.merge second) (twinFirst.merge twinSecond)

namespace Resemblance

/-- Only equal trees resemble each other. -/
def exact : Resemblance where
  trees := Eq
  spans := Eq
  same := by
    rintro tree _ rfl
    exact Tree.same_refl tree
  children := by
    rintro tree _ rfl
    exact List.forall₂_same.mpr fun child _ => rfl
  span := congrArg Tree.span
  spelled := by
    rintro span _ children twins kind text rfl same
    rw [forall₂_eq_iff.mp same]
  rebuilt := by
    rintro tree _ children twins rfl same
    rw [forall₂_eq_iff.mp same]
  generated := rfl
  merge := by
    rintro first _ second _ rfl rfl
    rfl

/-- Structurally equal trees resemble each other, whatever their spans. -/
def structural : Resemblance where
  trees tree twin := tree.same twin = true
  spans _ _ := True
  same equal := equal
  children equal := Tree.sameAll_iff_forall₂.mp ((Tree.same_iff _ _).mp equal).2.2
  span _ := trivial
  spelled kind text _ equal := by
    rw [Tree.same_iff]
    exact ⟨rfl, rfl, Tree.sameAll_iff_forall₂.mpr equal⟩
  rebuilt equal children := by
    rw [Tree.same_iff] at equal ⊢
    exact ⟨equal.1, equal.2.1, Tree.sameAll_iff_forall₂.mpr children⟩
  generated := trivial
  merge _ _ := trivial

variable (r : Resemblance) {tree twin : Tree} {trees twins : List Tree}

theorem kind_eq (alike : r.trees tree twin) : twin.kind = tree.kind :=
  ((Tree.same_iff _ _).mp (r.same alike)).1.symm

theorem text_eq (alike : r.trees tree twin) : twin.text = tree.text :=
  ((Tree.same_iff _ _).mp (r.same alike)).2.1.symm

theorem isLeaf_eq (alike : r.trees tree twin) : twin.isLeaf = tree.isLeaf := by
  rw [Tree.isLeaf, Tree.isLeaf, r.text_eq alike]

theorem sameAll (alike : List.Forall₂ r.trees trees twins) : Tree.sameAll trees twins = true :=
  Tree.sameAll_iff_forall₂.mpr (alike.imp fun _ _ => r.same)

end Resemblance

end Codemod
