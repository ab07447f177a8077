import Codemod.Pattern
import Mathlib.Data.List.Basic

/-!
# Holes and the places they stand at

Whether a shape is fit for matching is a matter of its holes, read from left to right with the
places they stand at. A shape is well formed if and only if none of its holes offends against those
before it.
-/

namespace Codemod

/-- Where a term stands: as an element of a shape, or as a child of a branch of some kind. -/
inductive Standing where
  | element (index : Nat)
  | child (kind : String)
deriving DecidableEq

/-- A whole statement is expected there: in a block, or in a window after its first statement. -/
def Standing.IsStatement (language : Language) : Standing → Prop
  | .element index => index ≠ 0
  | .child kind => language.isBlock kind = true

structure Occurrence where
  hole : Hole
  standing : Standing

/-- The occurrence is one where the name captures something of the kind. -/
structure Occurrence.Captures (occurrence : Occurrence) (name : String) (kind : HoleKind) :
    Prop where
  capturing : occurrence.hole.backRef = false
  name_eq : occurrence.hole.name = name
  kind_eq : occurrence.hole.effectiveKind = kind

namespace Term

mutual

/-- The holes of a term from left to right, with their places. -/
def occurrences (standing : Standing) : Term → List Occurrence
  | .leaf _ _ => []
  | .branch kind children => occurrencesAll kind children
  | .hole slot => [⟨slot, standing⟩]

/-- The holes of the children of a branch. -/
def occurrencesAll (kind : String) : List Term → List Occurrence
  | [] => []
  | term :: rest => occurrences (.child kind) term ++ occurrencesAll kind rest

end

mutual

private theorem map_hole_occurrences (standing : Standing) : ∀ term : Term,
    (term.occurrences standing).map (·.hole) = term.holes
  | .leaf _ _ => rfl
  | .branch kind children => map_hole_occurrencesAll kind children
  | .hole _ => rfl

private theorem map_hole_occurrencesAll (kind : String) : ∀ terms : List Term,
    (occurrencesAll kind terms).map (·.hole) = holesAll terms
  | [] => rfl
  | term :: rest => by
    rw [occurrencesAll, List.map_append, map_hole_occurrences, map_hole_occurrencesAll, holesAll]

end

end Term

namespace Shape

/-- The holes of the terms of a list, which are elements from an index on. -/
def occurrencesFrom (index : Nat) (terms : List Term) : List Occurrence :=
  (terms.zipIdx index).flatMap fun (term, index) => term.occurrences (.element index)

/-- The holes of a shape from left to right, with their places. -/
def occurrences (shape : Shape) : List Occurrence :=
  occurrencesFrom 0 shape.terms

theorem occurrencesFrom_cons (index : Nat) (term : Term) (rest : List Term) :
    occurrencesFrom index (term :: rest) =
      term.occurrences (.element index) ++ occurrencesFrom (index + 1) rest := rfl

theorem names_eq (shape : Shape) :
    shape.names = distinct (shape.occurrences.map (·.hole.name)) := by
  have holes (index : Nat) (terms : List Term) :
      (occurrencesFrom index terms).map (·.hole) = Term.holesAll terms := by
    induction terms generalizing index with
    | nil => rfl
    | cons term rest ih =>
      rw [occurrencesFrom_cons, List.map_append, Term.map_hole_occurrences, ih, Term.holesAll]
  rw [names, ← holes 0, List.map_map]
  rfl

/-- What it takes for a shape to be fit for matching. -/
structure WellFormed (language : Language) (shape : Shape) : Prop where
  nonempty : shape ≠ .window []
  /-- The root is concrete syntax. -/
  root : ∀ occurrence ∈ shape.occurrences, occurrence.standing ≠ .element 0
  /-- Sequences are captured where whole statements are expected. -/
  sequences : ∀ occurrence ∈ shape.occurrences, ∀ name,
    occurrence.Captures name .sequence → occurrence.standing.IsStatement language
  /-- What a back-reference refers to is captured before it. -/
  bound : ∀ before occurrence, before ++ [occurrence] <+: shape.occurrences →
    occurrence.hole.backRef = true →
      ∃ capture ∈ before, ∃ kind, capture.Captures occurrence.hole.name kind
  /-- A sequence is referred to where whole statements are expected. -/
  references : ∀ before occurrence, before ++ [occurrence] <+: shape.occurrences →
    occurrence.hole.backRef = true →
      (∃ capture ∈ before, capture.Captures occurrence.hole.name .sequence) →
        occurrence.standing.IsStatement language
  /-- A name captures one kind. -/
  kinds : ∀ a ∈ shape.occurrences, ∀ b ∈ shape.occurrences, ∀ name first second,
    a.Captures name first → b.Captures name second → first = second

end Shape

/-- An occurrence offends against those before it. A hole at the root is nothing but that, and a
sequence out of place is not looked at further. -/
inductive Offends (language : Language) (before : List Occurrence) :
    Occurrence → PatternError → Prop where
  | root (hole : Hole) : Offends language before ⟨hole, .element 0⟩ .holeRoot
  | unbound {occurrence : Occurrence} (inner : occurrence.standing ≠ .element 0)
      (backRef : occurrence.hole.backRef = true)
      (absent : ∀ capture ∈ before, ∀ kind, ¬capture.Captures occurrence.hole.name kind) :
      Offends language before occurrence (.unboundBackReference occurrence.hole.name)
  | reference {occurrence capture : Occurrence} (inner : occurrence.standing ≠ .element 0)
      (backRef : occurrence.hole.backRef = true) (earlier : capture ∈ before)
      (sequence : capture.Captures occurrence.hole.name .sequence)
      (misplaced : ¬occurrence.standing.IsStatement language) :
      Offends language before occurrence (.misplacedSequence occurrence.hole.name)
  | misplaced {occurrence : Occurrence} {name : String}
      (inner : occurrence.standing ≠ .element 0) (sequence : occurrence.Captures name .sequence)
      (misplaced : ¬occurrence.standing.IsStatement language) :
      Offends language before occurrence (.misplacedSequence name)
  | incompatible {occurrence capture : Occurrence} {name : String} {first second : HoleKind}
      (inner : occurrence.standing ≠ .element 0) (captures : occurrence.Captures name second)
      (placed : second = .sequence → occurrence.standing.IsStatement language)
      (earlier : capture ∈ before) (captured : capture.Captures name first)
      (differ : first ≠ second) :
      Offends language before occurrence (.incompatibleKinds name first second)

/-- No occurrence offends. -/
def Spotless (language : Language) (occurrences : List Occurrence) : Prop :=
  ∀ before occurrence, before ++ [occurrence] <+: occurrences →
    ∀ error, ¬Offends language before occurrence error

/-- The first occurrence that offends does so with the error. -/
def FirstOffends (language : Language) (occurrences : List Occurrence) (error : PatternError) :
    Prop :=
  ∃ before occurrence, before ++ [occurrence] <+: occurrences ∧ Spotless language before ∧
    Offends language before occurrence error

variable {language : Language} {occurrences : List Occurrence} {last : Occurrence}

theorem spotless_nil : Spotless language [] := by
  intro before occurrence starts
  simp at starts

theorem spotless_concat : Spotless language (occurrences ++ [last]) ↔
    Spotless language occurrences ∧ ∀ error, ¬Offends language occurrences last error := by
  constructor
  · intro spotless
    refine ⟨fun before occurrence starts => ?_, spotless occurrences last (List.prefix_refl _)⟩
    exact spotless before occurrence (starts.trans (List.prefix_append occurrences [last]))
  · rintro ⟨spotless, fine⟩ before occurrence starts
    rcases List.prefix_concat_iff.mp starts with whole | earlier
    · obtain ⟨rfl, same⟩ := List.append_inj' whole rfl
      cases same
      exact fine
    · exact spotless before occurrence earlier

theorem firstOffends_concat {error : PatternError} :
    FirstOffends language (occurrences ++ [last]) error ↔
      FirstOffends language occurrences error ∨
        Spotless language occurrences ∧ Offends language occurrences last error := by
  constructor
  · rintro ⟨before, occurrence, starts, spotless, offends⟩
    rcases List.prefix_concat_iff.mp starts with whole | earlier
    · obtain ⟨rfl, same⟩ := List.append_inj' whole rfl
      cases same
      exact .inr ⟨spotless, offends⟩
    · exact .inl ⟨before, occurrence, earlier, spotless, offends⟩
  · rintro (⟨before, occurrence, starts, spotless, offends⟩ | ⟨spotless, offends⟩)
    · exact ⟨before, occurrence, starts.trans (List.prefix_append occurrences [last]), spotless,
        offends⟩
    · exact ⟨occurrences, last, List.prefix_refl _, spotless, offends⟩

private theorem exists_before {occurrence : Occurrence} (member : occurrence ∈ occurrences) :
    ∃ before, before ++ [occurrence] <+: occurrences := by
  obtain ⟨before, after, rfl⟩ := List.append_of_mem member
  exact ⟨before, after, by simp⟩

private theorem Shape.WellFormed.spotless {shape : Shape} (wellFormed : shape.WellFormed language) :
    Spotless language shape.occurrences := by
  intro before occurrence starts error offends
  have member : occurrence ∈ shape.occurrences := starts.subset (by simp)
  have among : before ⊆ shape.occurrences := fun other earlier =>
    starts.subset (List.mem_append_left _ earlier)
  cases offends with
  | root hole => exact wellFormed.root _ member rfl
  | unbound _ backRef absent =>
    obtain ⟨capture, earlier, kind, captures⟩ := wellFormed.bound before occurrence starts backRef
    exact absent capture earlier kind captures
  | reference _ backRef earlier sequence misplaced =>
    exact misplaced (wellFormed.references before occurrence starts backRef ⟨_, earlier, sequence⟩)
  | misplaced _ sequence misplaced =>
    exact misplaced (wellFormed.sequences occurrence member _ sequence)
  | incompatible _ captures _ earlier captured differ =>
    exact differ (wellFormed.kinds _ (among earlier) _ member _ _ _ captured captures)

section Spotless

variable {shape : Shape} (spotless : Spotless language shape.occurrences)
include spotless

private theorem inner_of_spotless {occurrence : Occurrence}
    (member : occurrence ∈ shape.occurrences) : occurrence.standing ≠ .element 0 := by
  intro atRoot
  obtain ⟨before, starts⟩ := exists_before member
  obtain ⟨hole, standing⟩ := occurrence
  cases atRoot
  exact spotless before _ starts _ (.root hole)

private theorem placed_of_spotless {occurrence : Occurrence}
    (member : occurrence ∈ shape.occurrences) {name : String}
    (sequence : occurrence.Captures name .sequence) :
    occurrence.standing.IsStatement language := by
  by_contra misplaced
  obtain ⟨before, starts⟩ := exists_before member
  exact spotless before occurrence starts _
    (.misplaced (inner_of_spotless spotless member) sequence misplaced)

private theorem kind_eq_of_spotless {before : List Occurrence} {a b : Occurrence}
    (starts : before ++ [b] <+: shape.occurrences) (earlier : a ∈ before) {name : String}
    {first second : HoleKind} (captured : a.Captures name first)
    (captures : b.Captures name second) : first = second := by
  have member : b ∈ shape.occurrences := starts.subset (by simp)
  by_contra differ
  refine spotless before b starts _ (.incompatible (inner_of_spotless spotless member) captures
    (fun sequence => ?_) earlier captured differ)
  exact placed_of_spotless spotless member (sequence ▸ captures)

end Spotless

/-- A shape is well formed if it has terms and none of its holes offends. -/
theorem Shape.wellFormed_iff {shape : Shape} : shape.WellFormed language ↔
    shape ≠ .window [] ∧ Spotless language shape.occurrences := by
  refine ⟨fun wellFormed => ⟨wellFormed.nonempty, wellFormed.spotless⟩, ?_⟩
  rintro ⟨nonempty, spotless⟩
  have member {before : List Occurrence} {occurrence : Occurrence}
      (starts : before ++ [occurrence] <+: shape.occurrences) : occurrence ∈ shape.occurrences :=
    starts.subset (by simp)
  refine ⟨nonempty, fun _ => inner_of_spotless spotless, fun _ listed _ =>
    placed_of_spotless spotless listed, ?_, ?_, ?_⟩
  · intro before occurrence starts backRef
    by_contra absent
    push Not at absent
    exact spotless before occurrence starts _
      (.unbound (inner_of_spotless spotless (member starts)) backRef absent)
  · rintro before occurrence starts backRef ⟨capture, earlier, sequence⟩
    by_contra misplaced
    exact spotless before occurrence starts _
      (.reference (inner_of_spotless spotless (member starts)) backRef earlier sequence misplaced)
  · intro a aMember b bMember name first second aCaptures bCaptures
    -- one of the two comes first, unless they are the same
    obtain ⟨before, after, split⟩ := List.append_of_mem bMember
    rw [split] at aMember
    have starts : before ++ [b] <+: shape.occurrences := ⟨after, by simp [split]⟩
    rcases List.mem_append.mp aMember with earlier | later
    · exact kind_eq_of_spotless spotless starts earlier aCaptures bCaptures
    · rcases List.mem_cons.mp later with rfl | later
      · exact aCaptures.kind_eq.symm.trans bCaptures.kind_eq
      · obtain ⟨middle, rest, rfl⟩ := List.append_of_mem later
        have onward : (before ++ b :: middle) ++ [a] <+: shape.occurrences :=
          ⟨rest, by simp [split]⟩
        exact (kind_eq_of_spotless spotless onward (by simp) bCaptures aCaptures).symm

end Codemod
