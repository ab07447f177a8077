import Codemod.Proofs.Except
import Codemod.Proofs.Match.Resemblance
import Mathlib.Logic.Equiv.Basic

/-!
# Matches of renamed shapes

A one-to-one renaming of the holes of a shape changes nothing but the names: the shapes are compiled
alike, to the same error but for the name in it, and their patterns match the same trees and
statements, with the same captures under the new names.
-/

namespace Codemod

namespace Assoc

variable {ν : Type} {names : Set String} {change : String → String} {map other : Assoc String ν}

/-- Each of the names has in the one map just what its new name has in the other, and nothing else is
in either of them. -/
abbrev Renamed (names : Set String) (change : String → String) (map other : Assoc String ν) :
    Prop :=
  map.Corresponds Eq names change other

private theorem find?_of_renamed (renamed : map.Renamed names change other) {name : String}
    (listed : name ∈ names) : other.find? (change name) = map.find? name := by
  have agree := renamed.agree name listed
  generalize map.find? name = found at agree ⊢
  generalize other.find? (change name) = twin at agree ⊢
  cases agree with
  | none => rfl
  | some same => exact congrArg some same.symm

end Assoc

/-- The error with the new name of the hole that it names. -/
def PatternError.rename (change : String → String) : PatternError → PatternError
  | .incompatibleKinds name first second => .incompatibleKinds (change name) first second
  | .misplacedSequence name => .misplacedSequence (change name)
  | .unboundBackReference name => .unboundBackReference (change name)
  | .holeRoot => .holeRoot
  | .emptyWindow => .emptyWindow
  | .windowTemplateForNode => .windowTemplateForNode

variable {names : Set String} {change : String → String} {language : Language}

private theorem Hole.rel_enter (apart : Set.InjOn change names) {hole : Hole}
    (listed : hole.name ∈ names) {captures others : CaptureTable}
    (renamed : captures.Renamed names change others) (site : Site) :
    ExceptRel (Assoc.Renamed names change)
      ((hole.enter site captures).mapError (PatternError.rename change))
      ((hole.rename change).enter site others) := by
  have found : Assoc.find? others (change hole.name) = captures.find? hole.name :=
    Assoc.find?_of_renamed renamed listed
  rw [enter, enter, hole.effectiveKind_rename, rename]
  simp only [found]
  -- Both tables give the same answer for the hole, so that both sides take the same case.
  split
  · exact .error _
  · split
    · split
      · split
        · exact .ok renamed
        · exact .error _
      · exact .ok renamed
      · exact .error _
    · split
      · exact .error _
      · split
        · split
          · exact .ok renamed
          · exact .error _
        · exact .ok (renamed.insert apart listed rfl)

namespace Term

mutual

private theorem rel_check (apart : Set.InjOn change names) (site : Site) :
    ∀ (term : Term) {captures others : CaptureTable}, (∀ hole ∈ term.holes, hole.name ∈ names) →
    captures.Renamed names change others →
    ExceptRel (Assoc.Renamed names change)
      ((check language site term captures).mapError (PatternError.rename change))
      (check language site (term.rename change) others)
  | .leaf kind text, _, _, _, renamed => by
    rw [check, rename, check]
    exact .ok renamed
  | .branch kind children, _, _, listed, renamed => by
    rw [check, rename, check]
    exact rel_checkAll apart _ children listed renamed
  | .hole slot, _, _, listed, renamed => by
    rw [check, rename, check]
    exact Hole.rel_enter apart (listed slot (List.mem_singleton_self slot)) renamed site

private theorem rel_checkAll (apart : Set.InjOn change names) (site : Site) :
    ∀ (terms : List Term) {captures others : CaptureTable},
    (∀ hole ∈ holesAll terms, hole.name ∈ names) → captures.Renamed names change others →
    ExceptRel (Assoc.Renamed names change)
      ((checkAll language site terms captures).mapError (PatternError.rename change))
      (checkAll language site (renameAll change terms) others)
  | [], _, _, _, renamed => by
    rw [checkAll, renameAll, checkAll]
    exact .ok renamed
  | term :: rest, _, _, listed, renamed => by
    obtain ⟨here, later⟩ := List.forall_mem_append.mp listed
    rw [checkAll, renameAll, checkAll, mapError_bind]
    exact (rel_check apart site term here renamed).bind fun _ _ extended =>
      rel_checkAll apart site rest later extended

end

mutual

private theorem holdsStatements_rename : ∀ term : Term,
    holdsStatements language (term.rename change) = holdsStatements language term
  | .leaf kind text => rfl
  | .branch kind children => by
    rw [rename, holdsStatements, holdsStatements, holdsStatementsAny_renameAll children]
  | .hole slot => rfl

private theorem holdsStatementsAny_renameAll : ∀ terms : List Term,
    holdsStatementsAny language (renameAll change terms) = holdsStatementsAny language terms
  | [] => rfl
  | term :: rest => by
    rw [renameAll, holdsStatementsAny, holdsStatementsAny, holdsStatements_rename term,
      holdsStatementsAny_renameAll rest]

end

end Term

namespace Shape

variable {shape : Shape}

private theorem rel_captureTable (apart : shape.KeepsApart change) :
    ExceptRel (Assoc.Renamed shape.nameSet change)
      ((shape.captureTable language).mapError (PatternError.rename change))
      ((shape.rename change).captureTable language) := by
  have listed : ∀ hole ∈ Term.holesAll shape.terms, hole.name ∈ shape.nameSet :=
    fun _ => name_mem_names
  rw [KeepsApart] at apart
  generalize shape.nameSet = names at apart listed
  cases shape with
  | node term =>
    rw [captureTable, rename, captureTable]
    exact Term.rel_check apart _ term (List.forall_mem_append.mp listed).1
      (Assoc.corresponds_empty ..)
  | window terms =>
    cases terms with
    | nil => exact .error _
    | cons first rest =>
      obtain ⟨here, later⟩ := List.forall_mem_append.mp listed
      rw [captureTable, rename, Term.renameAll, captureTable, mapError_bind]
      apply (Term.rel_check apart _ first here (Assoc.corresponds_empty ..)).bind
      exact fun _ _ extended => Term.rel_checkAll apart _ rest later extended

private theorem isComposite_rename (shape : Shape) (change : String → String) :
    (shape.rename change).isComposite language = shape.isComposite language := by
  rw [isComposite, isComposite, isWindow_rename, terms_rename, Term.holdsStatementsAny_renameAll]

end Shape

private theorem Capture.eq_of_resembles {capture other : Capture}
    (resembles : capture.Resembles .exact other) : capture = other := by
  cases resembles with
  | node same => exact congrArg Capture.node same
  | sequence same => exact congrArg Capture.sequence (forall₂_eq_iff.mp same)

private theorem Bindings.renamed_of_corresponds {bindings others : Bindings}
    (corresponds : bindings.Corresponds .exact names change others) :
    bindings.Renamed names change others :=
  Assoc.Corresponds.imp corresponds fun _ _ => Capture.eq_of_resembles

private theorem Language.overlooks_exact (language : Language) : language.Overlooks .exact where
  identifier := by
    rintro tree _ rfl
    rfl
  statement := by
    rintro tree _ rfl
    rfl

namespace Pattern

/-- Two patterns are alike but for the names of their holes: they match the same trees and the same
statements from the same places on, with the same captures under the new names. -/
structure MatchesAlike (language : Language) (change : String → String)
    (pattern twin : Pattern) : Prop where
  isWindow : twin.isWindow = pattern.isWindow
  composite : twin.composite = pattern.composite
  node : ∀ tree, Option.Rel (Assoc.Renamed pattern.shape.nameSet change)
    (pattern.matchNode language tree) (twin.matchNode language tree)
  window : ∀ statements start, Option.Rel
    (fun found other => found.1.Renamed pattern.shape.nameSet change other.1 ∧ found.2 = other.2)
    (pattern.matchWindow language statements start) (twin.matchWindow language statements start)

private theorem rel_compile {shape : Shape} (apart : shape.KeepsApart change) :
    ExceptRel (MatchesAlike language change)
      ((compile language shape).mapError (PatternError.rename change))
      (compile language (shape.rename change)) := by
  have overlooks := language.overlooks_exact
  rw [compile, compile, mapError_bind]
  apply (Shape.rel_captureTable apart).bind
  intro captures others _
  refine .ok ⟨shape.isWindow_rename change, shape.isComposite_rename change, fun tree => ?_,
    fun statements start => ?_⟩
  · exact rel_option_imp (rel_matchNode_renamed overlooks apart rfl rfl)
      fun _ _ => Bindings.renamed_of_corresponds
  · exact rel_option_imp
      (rel_matchWindow_renamed overlooks apart rfl (forall₂_eq_iff.mpr rfl) start)
      fun _ _ found => ⟨Bindings.renamed_of_corresponds found.1, found.2⟩

end Pattern

/-- Two shapes have one canonical form just when a one-to-one renaming of the holes makes the one
into the other, and a canonical form is its own. Such a renaming changes nothing but names: either
shape is compiled when the other is, with the same error otherwise, and the patterns match alike. -/
theorem Shape.canonical_identifies_renamings (shape twin : Shape) :
    (shape.canonical = twin.canonical ↔
      ∃ change, shape.KeepsApart change ∧ shape.rename change = twin) ∧
    shape.canonical.canonical = shape.canonical ∧
    ∀ change, shape.KeepsApart change → shape.rename change = twin → ∀ language,
      ExceptRel (Pattern.MatchesAlike language change)
        ((Pattern.compile language shape).mapError (PatternError.rename change))
        (Pattern.compile language twin) := by
  refine ⟨canonical_eq_canonical_iff, shape.canonical_canonical, ?_⟩
  rintro change apart rfl language
  exact Pattern.rel_compile apart

/-- Two holes, and the first of them again. -/
def recurringShape (first second : String) : Shape :=
  .node (.branch "list" [.hole (.capturing first .expression),
    .hole (.capturing second .expression), .hole (.referringTo first)])

/-- Names that are numbers in an order of their own are told apart from the ordinals: a shape and
the shape with the two names swapped are copies of each other that match alike. -/
theorem Shape.swapped_numbers_match_alike :
    let shape := recurringShape "1" "0"
    let twin := recurringShape "0" "1"
    let language := ({} : Roles).language
    shape.KeepsApart (Equiv.swap "0" "1") ∧ shape.rename (Equiv.swap "0" "1") = twin ∧
      shape.canonical = twin.canonical ∧
      ∃ pattern other, Pattern.compile language shape = .ok pattern ∧
        Pattern.compile language twin = .ok other ∧
        Pattern.MatchesAlike language (Equiv.swap "0" "1") pattern other := by
  intro shape twin language
  have apart : shape.KeepsApart (Equiv.swap "0" "1") := (Equiv.swap "0" "1").injective.injOn
  have renamed : shape.rename (Equiv.swap "0" "1") = twin := by decide
  obtain ⟨copies, -, alike⟩ := canonical_identifies_renamings shape twin
  refine ⟨apart, renamed, copies.mpr ⟨_, apart, renamed⟩, _, _, rfl, rfl, ?_⟩
  cases alike _ apart renamed language with
  | ok here => exact here

end Codemod
