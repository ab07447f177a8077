import Codemod.Match
import Codemod.Proofs.Shape.Renaming
import Codemod.Proofs.Tree.Resemblance
import Codemod.Template

/-!
# Matches of trees that resemble each other

A pattern matches trees that resemble each other alike: both or neither, and what it captures
resembles each other again. So does the pattern with its holes renamed, which captures the same under
the new names. What a template is filled to resembles each other as well.
-/

namespace Codemod

/-- Each of the names has in the one map what its new name has in the other, up to a relation, and
nothing else is in either of them. -/
structure Assoc.Corresponds {ν μ : Type} (related : ν → μ → Prop) (names : Set String)
    (change : String → String) (map : Assoc String ν) (other : Assoc String μ) : Prop where
  agree : ∀ name ∈ names, Option.Rel related (map.find? name) (other.find? (change name))
  before : ∀ name, name ∉ names → map.find? name = none
  after : ∀ name, name ∉ change '' names → other.find? name = none

namespace Assoc

variable {ν μ : Type} {related : ν → μ → Prop} {names : Set String} {change : String → String}
  {map : Assoc String ν} {other : Assoc String μ}

theorem corresponds_empty (related : ν → μ → Prop) (names : Set String)
    (change : String → String) : Corresponds related names change .empty .empty where
  agree _ _ := .none
  before _ _ := rfl
  after _ _ := rfl

theorem Corresponds.insert (corresponds : map.Corresponds related names change other)
    (apart : Set.InjOn change names) {name : String} (listed : name ∈ names) {value : ν} {twin : μ}
    (alike : related value twin) :
    (map.insert name value).Corresponds related names change (other.insert (change name) twin) where
  agree key alsoListed := by
    rw [find?_insert, find?_insert]
    simp only [apart.eq_iff alsoListed listed]
    split
    · exact .some alike
    · exact corresponds.agree key alsoListed
  before key unlisted := by
    have different : key ≠ name := fun same => unlisted (same ▸ listed)
    rw [find?_insert, if_neg different, corresponds.before key unlisted]
  after key unlisted := by
    have different : key ≠ change name :=
      fun same => unlisted (same ▸ Set.mem_image_of_mem change listed)
    rw [find?_insert, if_neg different, corresponds.after key unlisted]

theorem Corresponds.imp {relaxed : ν → μ → Prop}
    (corresponds : map.Corresponds related names change other)
    (imp : ∀ value twin, related value twin → relaxed value twin) :
    map.Corresponds relaxed names change other where
  agree name listed := rel_option_imp (corresponds.agree name listed) imp
  before := corresponds.before
  after := corresponds.after

end Assoc

variable {r : Resemblance}

inductive Capture.Resembles (r : Resemblance) : Capture → Capture → Prop where
  | node {tree twin : Tree} (alike : r.trees tree twin) : Resembles r (.node tree) (.node twin)
  | sequence {trees twins : List Tree} (alike : List.Forall₂ r.trees trees twins) :
      Resembles r (.sequence trees) (.sequence twins)

theorem Capture.Resembles.trees {capture other : Capture} (resembles : capture.Resembles r other) :
    List.Forall₂ r.trees capture.trees other.trees := by
  cases resembles with
  | node alike => exact .cons alike .nil
  | sequence alike => exact alike

namespace Bindings

/-- The same names are bound, to captures that resemble each other. -/
def Resembles (r : Resemblance) (bindings others : Bindings) : Prop :=
  ∀ name, Option.Rel (Capture.Resembles r) (bindings.find? name) (others.find? name)

/-- The new names are bound to captures that resemble those of the old ones. -/
abbrev Corresponds (r : Resemblance) (names : Set String) (change : String → String)
    (bindings others : Bindings) : Prop :=
  Assoc.Corresponds (Capture.Resembles r) names change bindings others

private theorem resembles_of_corresponds {names : Set String} {bindings others : Bindings}
    (corresponds : bindings.Corresponds r names id others) : bindings.Resembles r others := by
  intro name
  by_cases listed : name ∈ names
  · exact corresponds.agree name listed
  · rw [corresponds.before name listed, corresponds.after name (by simpa using listed)]
    exact .none

end Bindings

/-- The language treats trees that resemble each other alike. -/
structure Language.Overlooks (language : Language) (r : Resemblance) : Prop where
  identifier : ∀ {tree twin}, r.trees tree twin →
    language.isIdentifier twin = language.isIdentifier tree
  statement : ∀ {tree twin}, r.trees tree twin →
    language.isStatement twin = language.isStatement tree

theorem Roles.overlooks (roles : Roles) (r : Resemblance) : roles.language.Overlooks r where
  identifier alike := by
    simp only [language, r.kind_eq alike, r.isLeaf_eq alike]
  statement alike := by
    simp only [language, r.kind_eq alike]

variable {language : Language} {tree twin : Tree} {trees twins : List Tree}
  {names : Set String} {change : String → String} {bindings others : Bindings}

theorem HoleKind.fits_eq (overlooks : language.Overlooks r) (alike : r.trees tree twin)
    (kind : HoleKind) : kind.fits language twin = kind.fits language tree := by
  cases kind with
  | expression => rw [fits, fits, overlooks.statement alike]
  | statement => rfl
  | sequence => rfl
  | identifier => rw [fits, fits, overlooks.identifier alike]

private theorem Hole.rel_capture (overlooks : language.Overlooks r) (apart : Set.InjOn change names)
    {hole : Hole} (listed : hole.name ∈ names) (alike : r.trees tree twin)
    (corresponds : bindings.Corresponds r names change others) :
    Option.Rel (Bindings.Corresponds r names change) (hole.capture language tree bindings)
      ((hole.rename change).capture language twin others) := by
  have here := corresponds.agree _ listed
  rw [capture, capture, hole.effectiveKind_rename, HoleKind.fits_eq overlooks alike, rename]
  simp only
  split
  · generalize Assoc.find? bindings hole.name = found at here ⊢
    generalize Assoc.find? others (change hole.name) = other at here ⊢
    cases here with
    | none =>
      simp only
      split
      · exact .none
      · exact .some (corresponds.insert apart listed (.node alike))
    | some capture =>
      cases capture with
      | sequence earlier => exact .none
      | node earlier =>
        simp only [Tree.same_congr (r.same earlier) (r.same alike)]
        split
        · exact .some corresponds
        · exact .none
  · exact .none

namespace Term

/-- As many statements are asked for, by a name that is renamed or by trees that resemble each
other. -/
inductive Stretch.Resembles (r : Resemblance) (names : Set String) (change : String → String) :
    Stretch → Stretch → Prop where
  | repeating {trees twins : List Tree} (alike : List.Forall₂ r.trees trees twins) :
      Resembles r names change (.repeating trees) (.repeating twins)
  | fresh {name : String} (listed : name ∈ names) :
      Resembles r names change (.fresh name) (.fresh (change name))
  | single : Resembles r names change .single .single

private theorem stretch_resembles (corresponds : bindings.Corresponds r names change others)
    {term : Term} (listed : ∀ hole ∈ term.holes, hole.name ∈ names) :
    (stretch bindings term).Resembles r names change (stretch others (term.rename change)) := by
  cases term with
  | leaf kind text => exact .single
  | branch kind children => exact .single
  | hole slot =>
    have known := listed slot (List.mem_singleton_self slot)
    have here := corresponds.agree _ known
    simp only [stretch, rename]
    generalize Assoc.find? bindings slot.name = found at here ⊢
    generalize Assoc.find? others (change slot.name) = other at here ⊢
    cases here with
    | none =>
      simp only
      split
      · exact .fresh known
      · exact .single
    | some capture =>
      cases capture with
      | sequence earlier => exact .repeating earlier
      | node earlier =>
        simp only
        split
        · exact .fresh known
        · exact .single

/-- As many trees are used for bindings that correspond to each other. -/
def Uses (r : Resemblance) (names : Set String) (change : String → String)
    (first second : Bindings × Nat) : Prop :=
  first.1.Corresponds r names change second.1 ∧ first.2 = second.2

mutual

private theorem rel_unify (overlooks : language.Overlooks r) (apart : Set.InjOn change names) :
    ∀ (term : Term) {tree twin : Tree} {bindings others : Bindings},
    (∀ hole ∈ term.holes, hole.name ∈ names) → r.trees tree twin →
    bindings.Corresponds r names change others →
    Option.Rel (Bindings.Corresponds r names change) (unify language term tree bindings)
      (unify language (term.rename change) twin others)
  | .leaf kind text, tree, twin, _, _, _, alike, corresponds => by
    rw [unify, rename, unify, r.kind_eq alike, r.text_eq alike]
    split
    · exact .some corresponds
    · exact .none
  | .branch kind children, tree, twin, _, _, listed, alike, corresponds => by
    rw [unify, rename, unify, r.kind_eq alike, r.isLeaf_eq alike]
    split
    · exact rel_option_map
        (rel_unifyAll overlooks apart children true listed (r.children alike) corresponds)
        fun _ _ uses => uses.1
    · exact .none
  | .hole slot, _, _, _, _, listed, alike, corresponds => by
    rw [unify, rename, unify]
    exact Hole.rel_capture overlooks apart (listed slot (List.mem_singleton_self slot)) alike
      corresponds

private theorem rel_unifyAll (overlooks : language.Overlooks r) (apart : Set.InjOn change names) :
    ∀ (terms : List Term) (anchored : Bool) {trees twins : List Tree} {bindings others : Bindings},
    (∀ hole ∈ holesAll terms, hole.name ∈ names) → List.Forall₂ r.trees trees twins →
    bindings.Corresponds r names change others →
    Option.Rel (Uses r names change) (unifyAll language terms trees bindings anchored)
      (unifyAll language (renameAll change terms) twins others anchored)
  | [], anchored, trees, twins, _, _, _, alike, corresponds => by
    have empty : twins.isEmpty = trees.isEmpty := by cases alike <;> rfl
    rw [unifyAll, renameAll, unifyAll, empty]
    split
    · exact .none
    · exact .some ⟨corresponds, rfl⟩
  | term :: rest, anchored, trees, twins, bindings, others, listed, alike, corresponds => by
    obtain ⟨here, later⟩ := List.forall_mem_append.mp listed
    rw [renameAll, unifyAll.eq_def, unifyAll.eq_def language (term.rename change :: _)]
    simp only
    have kind := stretch_resembles corresponds here
    generalize stretch bindings term = first at kind ⊢
    generalize stretch others (term.rename change) = second at kind ⊢
    cases kind with
    | @repeating earlier repeated same =>
      have length := same.length_eq
      have equal := Tree.sameAll_congr (r.sameAll same)
        (r.sameAll (List.forall₂_take earlier.length alike))
      simp only [equal, ← length]
      split
      · apply rel_option_map (rel_unifyAll overlooks apart rest anchored later
          (List.forall₂_drop earlier.length alike) corresponds)
        rintro ⟨_, _⟩ ⟨_, _⟩ ⟨extended, rfl⟩
        exact ⟨extended, rfl⟩
      · exact .none
    | fresh known =>
      simp only [← alike.length_eq]
      apply rel_findSome?
      intro length
      apply rel_option_map (rel_unifyAll overlooks apart rest anchored later
        (List.forall₂_drop length alike)
        (corresponds.insert apart known (.sequence (List.forall₂_take length alike))))
      rintro ⟨_, _⟩ ⟨_, _⟩ ⟨extended, rfl⟩
      exact ⟨extended, rfl⟩
    | single =>
      cases alike with
      | nil => exact .none
      | @cons tree twin followers followed first after =>
        have unified := rel_unify overlooks apart term here first corresponds
        simp only
        generalize unify language term tree bindings = bound at unified ⊢
        generalize unify language (term.rename change) twin others = other at unified ⊢
        cases unified with
        | none => exact .none
        | some next =>
          apply rel_option_map (rel_unifyAll overlooks apart rest anchored later after next)
          rintro ⟨_, _⟩ ⟨_, _⟩ ⟨extended, rfl⟩
          exact ⟨extended, rfl⟩

end

end Term

namespace Pattern

variable {pattern other : Pattern}

theorem rel_matchNode_renamed (overlooks : language.Overlooks r)
    (apart : pattern.shape.KeepsApart change) (renamed : other.shape = pattern.shape.rename change)
    (alike : r.trees tree twin) :
    Option.Rel (Bindings.Corresponds r pattern.shape.nameSet change)
      (pattern.matchNode language tree) (other.matchNode language twin) := by
  have listed : ∀ hole ∈ Term.holesAll pattern.shape.terms, hole.name ∈ pattern.shape.nameSet :=
    fun _ => Shape.name_mem_names
  rw [Shape.KeepsApart] at apart
  generalize pattern.shape.nameSet = names at apart listed
  rw [matchNode, matchNode, renamed]
  cases shaped : pattern.shape with
  | window terms => exact .none
  | node term =>
    rw [shaped] at listed
    have inside := (List.forall_mem_append.mp listed).1
    exact Term.rel_unify overlooks apart term inside alike (Assoc.corresponds_empty ..)

theorem rel_matchWindow_renamed (overlooks : language.Overlooks r)
    (apart : pattern.shape.KeepsApart change) (renamed : other.shape = pattern.shape.rename change)
    (alike : List.Forall₂ r.trees trees twins) (start : Nat) :
    Option.Rel
      (fun first second =>
        first.1.Corresponds r pattern.shape.nameSet change second.1 ∧ first.2 = second.2)
      (pattern.matchWindow language trees start) (other.matchWindow language twins start) := by
  have listed : ∀ hole ∈ Term.holesAll pattern.shape.terms, hole.name ∈ pattern.shape.nameSet :=
    fun _ => Shape.name_mem_names
  rw [Shape.KeepsApart] at apart
  generalize pattern.shape.nameSet = names at apart listed
  rw [matchWindow, matchWindow, renamed]
  cases shaped : pattern.shape with
  | node term => exact .none
  | window terms =>
    rw [shaped] at listed
    simp only [Shape.rename, ← alike.length_eq]
    split
    · apply rel_option_map (Term.rel_unifyAll overlooks apart terms false listed
        (List.forall₂_drop start alike) (Assoc.corresponds_empty ..))
      rintro ⟨_, _⟩ ⟨_, _⟩ ⟨bound, rfl⟩
      exact ⟨bound, rfl⟩
    · exact .none

theorem rel_matchNode (overlooks : language.Overlooks r) (alike : r.trees tree twin)
    (pattern : Pattern) : Option.Rel (Bindings.Resembles r) (pattern.matchNode language tree)
      (pattern.matchNode language twin) :=
  rel_option_imp
    (rel_matchNode_renamed overlooks (Set.injOn_id _) pattern.shape.rename_id.symm alike)
    fun _ _ => Bindings.resembles_of_corresponds

theorem rel_matchWindow (overlooks : language.Overlooks r)
    (alike : List.Forall₂ r.trees trees twins) (pattern : Pattern) (start : Nat) :
    Option.Rel (fun first second => first.1.Resembles r second.1 ∧ first.2 = second.2)
      (pattern.matchWindow language trees start) (pattern.matchWindow language twins start) :=
  rel_option_imp
    (rel_matchWindow_renamed overlooks (Set.injOn_id _) pattern.shape.rename_id.symm alike start)
    fun _ _ found => ⟨Bindings.resembles_of_corresponds found.1, found.2⟩

end Pattern

variable {span twinSpan : Span}

namespace Term

mutual

private theorem rel_fill (resembles : bindings.Resembles r others) (spans : r.spans span twinSpan) :
    ∀ term : Term, ExceptRel (List.Forall₂ r.trees) (fill bindings span term)
      (fill others twinSpan term)
  | .leaf kind text => by
    rw [fill, fill]
    exact .ok (.cons (r.spelled kind (some text) spans .nil) .nil)
  | .branch kind children => by
    rw [fill, fill]
    apply (rel_fillAll resembles spans children).bind
    intro trees twins alike
    exact .ok (.cons (r.spelled kind none spans alike) .nil)
  | .hole slot => by
    rw [fill, fill]
    have here := resembles slot.name
    generalize Assoc.find? bindings slot.name = found at here ⊢
    generalize Assoc.find? others slot.name = other at here ⊢
    cases here with
    | none => exact .error _
    | some capture => exact .ok capture.trees

private theorem rel_fillAll (resembles : bindings.Resembles r others)
    (spans : r.spans span twinSpan) :
    ∀ terms : List Term, ExceptRel (List.Forall₂ r.trees) (fillAll bindings span terms)
      (fillAll others twinSpan terms)
  | [] => by
    rw [fillAll, fillAll]
    exact .ok .nil
  | term :: rest => by
    rw [fillAll, fillAll]
    apply (rel_fill resembles spans term).bind
    intro trees twins first
    apply (rel_fillAll resembles spans rest).bind
    intro more others after
    exact .ok (List.rel_append first after)

end

end Term

namespace Template

theorem rel_instantiate (resembles : bindings.Resembles r others) (spans : r.spans span twinSpan)
    (template : Template) : ExceptRel (List.Forall₂ r.trees)
      (template.instantiate bindings span) (template.instantiate others twinSpan) :=
  Term.rel_fillAll resembles spans template.shape.terms

theorem rel_instantiateNode (resembles : bindings.Resembles r others)
    (spans : r.spans span twinSpan) (template : Template) :
    ExceptRel r.trees (template.instantiateNode bindings span)
      (template.instantiateNode others twinSpan) := by
  rw [instantiateNode, instantiateNode]
  split
  · exact .error _
  · apply (template.rel_instantiate resembles spans).bind
    intro trees twins alike
    cases alike with
    | nil => exact .error _
    | cons first after =>
      cases after with
      | nil => exact .ok first
      | cons second rest =>
        simp only [List.length_cons, rest.length_eq]
        exact .error _

end Template

end Codemod
