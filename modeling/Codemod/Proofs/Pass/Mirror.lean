import Codemod.Proofs.Pass.Simulation
import Codemod.Proofs.Related

/-!
# Passes that mirror each other

Two passes over the same trees mirror each other when they decide every tree and every block alike
and tell the same about it. Then they do so for whole trees.
-/

namespace Codemod.Pass

/-- The awards cover the same statements, and the same comes of them. -/
structure SettlesAlike (relation : TraceRelation) (pass image : Pass) (path : List Nat)
    (statements : List Tree) (award other : Award Match) : Prop where
  extent_eq : other.extent = award.extent
  settled : Traced.Related relation Eq (pass.settleAward path statements award)
    (image.settleAward path statements other)

/-- The passes decide trees and blocks alike. -/
structure Mirrors (relation : TraceRelation) (pass image : Pass) : Prop where
  language_eq : image.language = pass.language
  platform_eq : image.platform = pass.platform
  tree : ∀ composite path scope tree, Traced.Related relation Eq
    (pass.decideTree composite path scope tree) (image.decideTree composite path scope tree)
  block : ∀ path scope statements, Traced.Related relation
    (fun claims others => List.Forall₂ (SettlesAlike relation pass image path statements)
      (Contest.resolve claims) (Contest.resolve others))
    (pass.blockClaims path scope statements) (image.blockClaims path scope statements)

/-- Only what is equal is alike. -/
def Likeness.exact (relation : TraceRelation) : Likeness :=
  ⟨relation, Eq, Eq, Eq⟩

variable {relation : TraceRelation} {pass image : Pass}

private theorem SettlesAlike.settlesLike {path : List Nat} {statements : List Tree}
    {award other : Award Match}
    (alike : SettlesAlike relation pass image path statements award other) :
    SettlesLike (.exact relation) pass image path path statements statements award other := by
  refine ⟨alike.extent_eq, alike.settled.mono ?_⟩
  rintro settled _ rfl
  exact rel_option_refl (fun trees => List.forall₂_same.mpr fun tree _ => rfl) settled

private theorem Mirrors.simulates (mirrors : Mirrors relation pass image) :
    Simulates (.exact relation) pass image where
  isBlock := by
    rintro tree _ rfl
    rw [mirrors.language_eq]
  children := by
    rintro tree _ rfl
    exact List.forall₂_same.mpr fun child _ => rfl
  rebuilt := by
    rintro tree _ children twins rfl same
    obtain rfl := forall₂_eq_iff.mp same
    rfl
  path := by
    rintro path _ rfl index
    rfl
  scope := by
    rintro scope _ tree _ rfl rfl
    simp only [Likeness.exact, innerScope, mirrors.language_eq]
  tree := by
    rintro path _ scope _ tree _ composite rfl rfl rfl
    apply (mirrors.tree composite path scope tree).mono
    rintro settled _ rfl
    exact rel_option_refl (fun _ => rfl) settled
  block := by
    rintro path _ scope _ statements twins rfl rfl same
    obtain rfl := forall₂_eq_iff.mp same
    apply (mirrors.block path scope statements).mono
    intro claims others alike
    exact alike.imp fun _ _ => SettlesAlike.settlesLike

/-- Passes that mirror each other lead to the same tree and tell the same. -/
theorem Mirrors.run (mirrors : Mirrors relation pass image) (root : Tree) :
    Traced.Related relation Eq (pass.run root) (image.run root) := by
  rw [Pass.run, Pass.run, mirrors.platform_eq]
  exact mirrors.simulates.visit rfl rfl rfl

end Codemod.Pass
