import Codemod.Proofs.Match.Goal
import Codemod.Proofs.Match.Soundness

/-!
# Matches are complete

A pattern matches whenever some captures make its shape come to the tree, and it finds those that
take the shortest sequences. The matcher never takes back the choice of a list inside another one,
so such a list may hold one run only, whose length is then forced.
-/

namespace Codemod

namespace Term

/-- The terms directly inside a term. -/
def children : Term → List Term
  | .branch _ children => children
  | _ => []

/-- Every list of children within some terms holds at most one run. -/
def Forced (captures : CaptureTable) (terms : List Term) : Prop :=
  ∀ inner ∈ preorderAll terms, inner.children.countP (isRun captures) ≤ 1

private theorem Forced.of_cons {captures : CaptureTable} {term : Term} {rest : List Term}
    (forced : Forced captures (term :: rest)) :
    term.children.countP (isRun captures) ≤ 1 ∧ Forced captures term.children ∧
      Forced captures rest := by
  obtain ⟨inside, behind⟩ := List.forall_mem_append.mp forced
  refine ⟨inside term ?_, fun inner member => inside inner ?_, behind⟩
  · cases term <;> exact List.mem_cons_self
  · cases term with
    | branch kind children => exact List.mem_cons_of_mem _ member
    | leaf | hole => contradiction

private theorem exists_of_fill_hole {goal : Bindings} {span : Span} {slot : Hole}
    {images : List Tree} (filled : fill goal span (.hole slot) = .ok images) :
    ∃ capture, goal.find? slot.name = some capture ∧ images = capture.trees := by
  rw [fill] at filled
  split at filled
  · rename_i capture found
    exact ⟨capture, found, (Except.ok.inj filled).symm⟩
  · contradiction

section Steps

variable {language : Language} {bindings bound : Bindings} {rest : List Term} {anchored : Bool}

private theorem unifyAll_of_repeating {slot : Hole} {earlier here : List Tree} (behind : List Tree)
    (found : bindings.find? slot.name = some (.sequence earlier))
    (same : Tree.sameAll earlier here = true) :
    unifyAll language (.hole slot :: rest) (here ++ behind) bindings anchored =
      (unifyAll language rest behind bindings anchored).map
        fun (extended, used) => (extended, earlier.length + used) := by
  have length := Tree.length_eq_of_sameAll same
  rw [unifyAll.eq_def]
  simp only [stretch, found, length, List.take_left, List.drop_left, same, if_true]

private theorem unifyAll_of_fresh {slot : Hole} {trees : List Tree}
    (unbound : bindings.find? slot.name = none) (sequence : slot.kind = some .sequence) :
    unifyAll language (.hole slot :: rest) trees bindings anchored =
      firstSome (fun length =>
        (unifyAll language rest (trees.drop length)
          (bindings.insert slot.name (.sequence (trees.take length))) anchored).map
          fun (extended, used) => (extended, length + used)) (trees.length + 1) := by
  rw [unifyAll.eq_def]
  simp only [stretch, unbound, sequence, if_true]

private theorem unifyAll_of_single {term : Term} {tree : Tree} (others : List Tree)
    (single : stretch bindings term = .single)
    (unified : unify language term tree bindings = some bound) :
    unifyAll language (term :: rest) (tree :: others) bindings anchored =
      (unifyAll language rest others bound anchored).map
        fun (extended, used) => (extended, used + 1) := by
  rw [unifyAll.eq_def]
  simp only [single, unified]

private theorem ne_nil_of_unifyAll_root {root : Term} {kind : String}
    (spelled : root.kind? = some kind) {trees : List Tree} {used : Nat}
    (matched : unifyAll language (root :: rest) trees bindings anchored = some (bound, used)) :
    trees ≠ [] := by
  rintro rfl
  cases root with
  | hole slot => contradiction
  | leaf | branch => simp [unifyAll, stretch] at matched

end Steps

section Goals

variable {language : Language} {final captures extended : CaptureTable} {site : Site}
  {goal bindings : Bindings}

private theorem sequence_of_effectiveKind {slot : Hole}
    (effective : slot.effectiveKind = .sequence) : slot.kind = some .sequence := by
  cases kind : slot.kind with
  | none => simp [Hole.effectiveKind, kind] at effective
  | some stated => simpa [Hole.effectiveKind, kind] using effective

private theorem exists_kind_of_single {slot : Hole}
    (entered : slot.enter site captures = .ok extended)
    (captured : Captured language captures bindings)
    (single : stretch bindings (.hole slot) = .single) :
    ∃ kind, extended.find? slot.name = some kind ∧ kind ≠ .sequence := by
  obtain ⟨kind, known, _⟩ := Hole.exists_kind_of_enter entered
  refine ⟨kind, known, ?_⟩
  rintro rfl
  rw [stretch] at single
  split at single
  · contradiction
  · rename_i unbound
    split at single
    · contradiction
    · rename_i stated
      have unknown : captures.find? slot.name ≠ some .sequence := by
        intro sequence
        obtain ⟨earlier, found⟩ := (captured.sequence_iff slot.name).mp sequence
        exact unbound earlier found
      obtain ⟨_, ⟨_, rfl, _⟩ | ⟨_, _, ⟨_, rfl⟩ | ⟨_, rfl⟩⟩⟩ := Hole.enter_cases entered
      · exact unknown known
      · exact unknown known
      · rw [Assoc.find?_insert, if_pos rfl, Option.some.injEq] at known
        exact stated (sequence_of_effectiveKind known)

private theorem exists_image_of_single {term : Term} {span : Span} {images : List Tree}
    (checked : check language site term captures = .ok extended)
    (captured : Captured language captures bindings) (within : extended.entries <+: final.entries)
    (aimed : Captured language final goal) (single : stretch bindings term = .single)
    (filled : fill goal span term = .ok images) : ∃ image, images = [image] := by
  cases term with
  | leaf kind text => exact ⟨_, (Except.ok.inj filled).symm⟩
  | branch kind children =>
    obtain ⟨inside, _, made⟩ := exists_of_bind_ok filled
    exact ⟨_, (Except.ok.inj made).symm⟩
  | hole slot =>
    rw [check] at checked
    obtain ⟨kind, known, notSequence⟩ := exists_kind_of_single checked captured single
    obtain ⟨tree, aim, _⟩ := aimed.exists_fits (Assoc.find?_mono within known) notSequence
    obtain ⟨_, found, rfl⟩ := exists_of_fill_hole filled
    rw [aim] at found
    cases found
    exact ⟨tree, rfl⟩

private theorem exists_agrees_of_capture {slot : Hole} {tree image : Tree} {kind : HoleKind}
    (overlooks : language.Overlooks .structural)
    (entered : slot.enter site captures = .ok extended)
    (captured : Captured language captures bindings) (agrees : bindings.Agrees goal)
    (known : extended.find? slot.name = some kind)
    (aim : goal.find? slot.name = some (.node image))
    (fits : kind.fits language image = true) (same : image.same tree = true) :
    ∃ bound, slot.capture language tree bindings = some bound ∧ bound.Agrees goal := by
  obtain ⟨other, found, effective⟩ := Hole.exists_kind_of_enter entered
  have allowed : (slot.backRef || slot.effectiveKind.fits language tree) = true := by
    cases backRef : slot.backRef with
    | true => rfl
    | false =>
      rw [← effective backRef, ← Option.some.inj (known.symm.trans found),
        kind.fits_eq overlooks (r := .structural) same, fits]
      rfl
  rw [Hole.capture, if_pos allowed]
  cases bind : bindings.find? slot.name with
  | some capture =>
    obtain ⟨_, aim', alike⟩ := agrees _ _ bind
    rw [aim] at aim'
    cases aim'
    cases alike with
    | node alike =>
      refine ⟨bindings, ?_, agrees⟩
      simp only
      rw [if_pos (Tree.same_trans alike same)]
  | none =>
    refine ⟨_, ?_, agrees.insert aim (.node (Tree.same_symm same))⟩
    have absent := (captured.none_iff slot.name).mpr bind
    obtain ⟨_, ⟨_, _, _, present, _⟩ | ⟨capturing, _⟩⟩ := Hole.enter_cases entered
    · rw [absent] at present
      contradiction
    · simp only [capturing, Bool.false_eq_true, if_false]

/-- An anchored list leaves a run before single terms only one length. -/
theorem length_eq_of_no_run {rest : List Term} {trees : List Tree}
    {bindings others bound last : Bindings} {used more first second : Nat}
    (plain : ∀ hole ∈ holesAll rest, hole.Plain)
    (checked : checkAll language site rest captures = .ok extended)
    (within : extended.entries <+: final.entries) (single : rest.countP (isRun final) = 0)
    (captured : Captured language captures bindings) (also : Captured language captures others)
    (matched : unifyAll language rest (trees.drop first) bindings true = some (bound, used))
    (again : unifyAll language rest (trees.drop second) others true = some (last, more))
    (short : first ≤ trees.length) (long : second ≤ trees.length) : first = second := by
  have firstUsed := used_of_no_run plain checked captured within single matched
  have secondUsed := used_of_no_run plain checked also within single again
  have firstAll := used_of_anchored matched
  have secondAll := used_of_anchored again
  rw [List.length_drop] at firstAll secondAll
  omega

private theorem lengths_lt_of_fresh {slot : Hole} {rest : List Term} {trees images here : List Tree}
    {bound : Bindings} {used : Nat} {anchored : Bool} (plain : ∀ hole ∈ holesAll rest, hole.Plain)
    (checked : checkAll language site rest (captures.insert slot.name .sequence) = .ok extended)
    (captured : Captured language captures bindings) (agrees : bindings.Agrees goal)
    (absent : bindings.find? slot.name = none)
    (aim : goal.find? slot.name = some (.sequence images)) (shorter : here.length < images.length)
    (matched : unifyAll language rest trees (bindings.insert slot.name (.sequence here)) anchored =
      some (bound, used)) :
    bound.lengths extended.sequences < goal.lengths extended.sequences := by
  have unknown := (captured.none_iff slot.name).mpr absent
  obtain ⟨added, names⟩ := CaptureTable.sequences_mono (prefix_of_checkAll rest checked)
  have kept :=
    extends_of_unifyAll rest plain checked (captured.insert_sequence slot.name here) matched
  rw [← names, CaptureTable.sequences_insert unknown, List.append_assoc]
  refine Bindings.lengths_lt_of_shorter ?_ kept.find?_insert aim shorter
  refine agrees.lengths_eq (kept.trans (Bindings.extends_insert absent _)) ?_
  intro name member
  rw [Option.isSome_iff_ne_none, Ne, ← captured.none_iff, ← Ne, ← Option.isSome_iff_ne_none]
  exact CaptureTable.isSome_of_mem_sequences member

private theorem exists_reaches_of_fresh {slot : Hole} {rest : List Term} {trees images : List Tree}
    {anchored : Bool} (plain : ∀ hole ∈ holesAll rest, hole.Plain)
    (checked : checkAll language site rest (captures.insert slot.name .sequence) = .ok extended)
    (captured : Captured language captures bindings) (within : extended.entries <+: final.entries)
    (agrees : bindings.Agrees goal) (absent : bindings.find? slot.name = none)
    (sequence : slot.kind = some .sequence)
    (aim : goal.find? slot.name = some (.sequence images)) (fits : images.length ≤ trees.length)
    (after : ∃ bound used,
      unifyAll language rest (trees.drop images.length)
          (bindings.insert slot.name (.sequence (trees.take images.length))) anchored =
        some (bound, used) ∧
      bound.Reaches goal extended (anchored = true → 1 < rest.countP (isRun final))) :
    ∃ bound used,
      unifyAll language (.hole slot :: rest) trees bindings anchored = some (bound, used) ∧
        bound.Reaches goal extended
          (anchored = true → 1 < (.hole slot :: rest).countP (isRun final)) := by
  obtain ⟨aimed, more, matched, reaches⟩ := after
  obtain ⟨length, _, first, attempt, le⟩ := exists_firstSome
    (fun length => (unifyAll language rest (trees.drop length)
      (bindings.insert slot.name (.sequence (trees.take length))) anchored).map
        fun (extended, used) => (extended, length + used))
    (Nat.lt_succ_of_le fits) (by simp [matched])
  obtain ⟨⟨bound, used⟩, here, rfl⟩ := Option.map_eq_some_iff.mp attempt
  refine ⟨bound, length + used, (unifyAll_of_fresh absent sequence).trans first, ?_⟩
  have nextCaptured := fun length => captured.insert_sequence slot.name (trees.take length)
  have run : isRun final (.hole slot) = true :=
    isRun_of_repeating (nextCaptured length) ((prefix_of_checkAll rest checked).trans within)
      (by simp; rfl)
  rcases Nat.eq_or_lt_of_le le with rfl | shorter
  · -- the least length that succeeds is the one of the goal
    rw [matched] at here
    cases here
    refine reaches.mono fun choice told => ?_
    rw [List.countP_cons_of_pos run]
    exact Nat.lt_succ_of_lt (choice told)
  · refine .inl ⟨fun told => ?_, ?_⟩
    · subst told
      by_contra few
      rw [List.countP_cons_of_pos run] at few
      have single : rest.countP (isRun final) = 0 := by omega
      have same := length_eq_of_no_run plain checked within single (nextCaptured length)
        (nextCaptured images.length) here matched (Nat.le_trans le fits) fits
      omega
    · refine lengths_lt_of_fresh plain checked captured agrees absent aim ?_ here
      rw [List.length_take]
      omega

private theorem exists_reaches_of_repeating {slot : Hole} {rest : List Term} {span : Span}
    {earlier images here behind : List Tree} {anchored : Bool} {choice : Prop}
    (agrees : bindings.Agrees goal)
    (found : bindings.find? slot.name = some (.sequence earlier))
    (filled : fill goal span (.hole slot) = .ok images) (same : Tree.sameAll images here = true)
    (after : ∃ bound used, unifyAll language rest behind bindings anchored = some (bound, used) ∧
      bound.Reaches goal extended choice) :
    ∃ bound used,
      unifyAll language (.hole slot :: rest) (here ++ behind) bindings anchored =
          some (bound, used) ∧
        bound.Reaches goal extended choice := by
  obtain ⟨bound, used, matched, reaches⟩ := after
  obtain ⟨aim, goal_found, repeated⟩ := agrees.exists_sequence found
  obtain ⟨_, filled_found, rfl⟩ := exists_of_fill_hole filled
  rw [goal_found] at filled_found
  cases filled_found
  have equal : Tree.sameAll earlier here = true := by
    rw [Tree.sameAll_congr repeated (Tree.sameAll_refl here)]
    exact same
  refine ⟨bound, earlier.length + used, ?_, reaches⟩
  rw [unifyAll_of_repeating _ found equal, matched]
  rfl

mutual

/-- A single term matches what the goal fills it to. -/
theorem exists_unify_reaches (overlooks : language.Overlooks .structural)
    (aimed : Captured language final goal) (span : Span) : ∀ (term : Term) {site : Site}
    {captures extended : CaptureTable} {tree image : Tree} {bindings : Bindings},
    (∀ hole ∈ term.holes, hole.Plain) → check language site term captures = .ok extended →
    Captured language captures bindings → extended.entries <+: final.entries →
    Forced final term.children → stretch bindings term = .single → bindings.Agrees goal →
    fill goal span term = .ok [image] → image.same tree = true →
      ∃ bound, unify language term tree bindings = some bound ∧
        bound.Reaches goal extended (1 < term.children.countP (isRun final))
  | .leaf kind text, _, _, _, tree, image, bindings, _, _, _, _, _, _, agrees, filled, same => by
    cases filled
    rw [Tree.same_iff] at same
    refine ⟨bindings, ?_, .inr agrees⟩
    rw [unify, if_pos ⟨same.1.symm, same.2.1.symm⟩]
  | .branch kind children, _, _, _, tree, image, bindings, plain, checked, captured, within, forced,
      _, agrees, filled, same => by
    rw [check] at checked
    obtain ⟨images, inside, made⟩ := exists_of_bind_ok filled
    cases made
    rw [Tree.same_iff] at same
    obtain ⟨bound, used, matched, reaches⟩ := exists_unifyAll_reaches overlooks aimed span children
      [] true plain checked captured within forced agrees inside same.2.2 fun _ => rfl
    rw [List.append_nil] at matched
    have branches : tree.isLeaf = false := by
      rw [Tree.isLeaf, ← same.2.1]
      rfl
    refine ⟨bound, ?_, reaches.mono fun choice => choice rfl⟩
    rw [unify, if_pos ⟨same.1.symm, branches⟩, matched]
    rfl
  | .hole slot, _, _, _, tree, image, bindings, _, checked, captured, within, _, single, agrees,
      filled, same => by
    rw [check] at checked
    rw [unify]
    obtain ⟨kind, known, notSequence⟩ := exists_kind_of_single checked captured single
    obtain ⟨node, aim, fits⟩ := aimed.exists_fits (Assoc.find?_mono within known) notSequence
    obtain ⟨_, found, images⟩ := exists_of_fill_hole filled
    rw [aim] at found
    cases found
    cases images
    obtain ⟨bound, matched, bound_agrees⟩ := exists_agrees_of_capture overlooks checked captured
      agrees known aim fits same
    exact ⟨bound, matched, .inr bound_agrees⟩

private theorem exists_unifyAll_reaches (overlooks : language.Overlooks .structural)
    (aimed : Captured language final goal) (span : Span) : ∀ (terms : List Term)
    (behind : List Tree) (anchored : Bool) {site : Site} {captures extended : CaptureTable}
    {images here : List Tree} {bindings : Bindings}, (∀ hole ∈ holesAll terms, hole.Plain) →
    checkAll language site terms captures = .ok extended → Captured language captures bindings →
    extended.entries <+: final.entries → Forced final terms → bindings.Agrees goal →
    fillAll goal span terms = .ok images → Tree.sameAll images here = true →
    (anchored = true → behind = []) →
      ∃ bound used,
        unifyAll language terms (here ++ behind) bindings anchored = some (bound, used) ∧
          bound.Reaches goal extended (anchored = true → 1 < terms.countP (isRun final))
  | [], behind, anchored, _, _, _, images, here, bindings, _, _, _, _, _, agrees, filled, same,
      ends => by
    cases filled
    cases here with
    | cons => contradiction
    | nil =>
      refine ⟨bindings, 0, ?_, .inr agrees⟩
      rw [unifyAll]
      cases anchored with
      | false => rfl
      | true => rw [ends rfl]; rfl
  | term :: rest, behind, anchored, _, _, _, images, here, bindings, plain, checked, captured,
      within, forced, agrees, filled, same, ends => by
    obtain ⟨middle, first, others⟩ := checkAll_cons_ok checked
    obtain ⟨firstPlain, restPlain⟩ := List.forall_mem_append.mp plain
    obtain ⟨few, inside, later⟩ := forced.of_cons
    obtain ⟨firstImages, firstFilled, filled⟩ := exists_of_bind_ok filled
    obtain ⟨restImages, restFilled, made⟩ := exists_of_bind_ok filled
    cases made
    obtain ⟨ahead, after, rfl, firstSame, restSame⟩ := Tree.exists_append_of_sameAll same
    have grown := prefix_of_checkAll rest others
    have more : (anchored = true → 1 < rest.countP (isRun final)) →
        (anchored = true → 1 < (term :: rest).countP (isRun final)) := by
      intro choice told
      exact Nat.lt_of_lt_of_le (choice told) ((List.sublist_cons_self term rest).countP_le)
    rw [List.append_assoc]
    cases stretched : stretch bindings term with
    | repeating earlier =>
      obtain ⟨slot, rfl, found⟩ := hole_of_repeating stretched
      rw [check] at first
      obtain ⟨rfl, _⟩ := enter_of_repeating first captured found
      obtain ⟨bound, used, matched, reaches⟩ := exists_unifyAll_reaches overlooks aimed span rest
        behind anchored restPlain others captured within later agrees restFilled restSame ends
      exact exists_reaches_of_repeating agrees found firstFilled firstSame
        ⟨bound, used, matched, reaches.mono more⟩
    | fresh name =>
      obtain ⟨slot, rfl, _, sequence, unbound⟩ := hole_of_fresh stretched
      rw [check] at first
      have slotPlain := firstPlain slot (List.mem_singleton_self slot)
      obtain ⟨absent, rfl, _⟩ := enter_of_fresh slotPlain first captured sequence unbound
      have known : final.find? slot.name = some .sequence :=
        Assoc.find?_mono (grown.trans within) (by simp)
      obtain ⟨aim, goal_found⟩ := (aimed.sequence_iff slot.name).mp known
      obtain ⟨_, filled_found, rfl⟩ := exists_of_fill_hole firstFilled
      rw [goal_found] at filled_found
      cases filled_found
      have length : aim.length = ahead.length := Tree.length_eq_of_sameAll firstSame
      have alike := List.Forall₂.flip (Tree.sameAll_iff_forall₂.mp firstSame)
      refine exists_reaches_of_fresh restPlain others captured within agrees absent sequence
        goal_found (by simp [length]) ?_
      rw [length, List.drop_left, List.take_left]
      exact exists_unifyAll_reaches overlooks aimed span rest behind anchored restPlain others
        (captured.insert_sequence slot.name ahead) within later
        (agrees.insert goal_found (.sequence (alike.imp fun _ _ => Tree.same_symm))) restFilled
        restSame ends
    | single =>
      obtain ⟨image, rfl⟩ := exists_image_of_single first captured (grown.trans within) aimed
        stretched firstFilled
      obtain ⟨tree, _, equal, none, rfl⟩ :=
        List.forall₂_cons_left_iff.mp (Tree.sameAll_iff_forall₂.mp firstSame)
      cases none
      obtain ⟨next, unified, reached⟩ := exists_unify_reaches overlooks aimed span term firstPlain
        first captured (grown.trans within) inside stretched agrees firstFilled equal
      have nextCaptured := captured_of_unify term firstPlain first captured unified
      have nextAgrees := reached.agrees (Nat.not_lt.mpr few)
      obtain ⟨bound, used, matched, reaches⟩ := exists_unifyAll_reaches overlooks aimed span rest
        behind anchored restPlain others nextCaptured within later nextAgrees restFilled restSame
        ends
      refine ⟨bound, used + 1, ?_, reaches.mono more⟩
      rw [List.singleton_append, unifyAll_of_single _ stretched unified, matched]
      rfl

end

end Goals

end Term

namespace Pattern

/-- The outermost list of a pattern: the statements of a window, or what stands directly inside a
single term. -/
def outermost (pattern : Pattern) : List Term :=
  match pattern.shape with
  | .node term => term.children
  | .window terms => terms

/-- No list of children except the outermost one holds more than one run. -/
def Forced (pattern : Pattern) : Prop :=
  Term.Forced pattern.captures pattern.outermost

instance (pattern : Pattern) : Decidable pattern.Forced :=
  inferInstanceAs (Decidable (∀ inner ∈ Term.preorderAll pattern.outermost,
    inner.children.countP (Term.isRun pattern.captures) ≤ 1))

/-- The captures are of the kinds the pattern asks for, and its shape comes to the trees under
them. -/
structure Assigns (language : Language) (pattern : Pattern) (trees : List Tree)
    (bindings : Bindings) : Prop where
  captured : Captured language pattern.captures bindings
  spells : pattern.Spells bindings trees

/-- Among the admissible captures these take the shortest sequences, the first sequence counting
most. Any others that do not take longer ones are the same up to spans and types. -/
structure Shortest (pattern : Pattern) (allowed : Bindings → Prop) (bindings : Bindings) :
    Prop where
  admissible : allowed bindings
  least : ∀ other, allowed other →
    bindings.lengths pattern.captures.sequences < other.lengths pattern.captures.sequences ∨
      bindings.Resembles .structural other

variable {language : Language} {pattern : Pattern} {goal : Bindings}

private theorem exists_matchNode_reaches (overlooks : language.Overlooks .structural)
    (compiled : pattern.Compiled language) (plain : pattern.shape.Plain) (forced : pattern.Forced)
    (node : pattern.isWindow = false) {tree : Tree}
    (assigns : pattern.Assigns language [tree] goal) :
    ∃ bound, pattern.matchNode language tree = some bound ∧
      bound.Reaches goal pattern.captures True := by
  have checked := compiled.checkAll_captures
  obtain ⟨root, _, isRoot, rootChecked⟩ := compiled.exists_root
  obtain ⟨_, spelled⟩ := isSome_kind_of_check rootChecked
  obtain ⟨image, filled, same⟩ := assigns.spells.exists_single .generated
  simp only [Template.instantiate, Template.ofShape] at filled
  rw [Shape.Plain] at plain
  rw [Forced, outermost] at forced
  rw [isWindow] at node
  rw [root?] at isRoot
  rw [matchNode]
  cases shape : pattern.shape with
  | window terms =>
    rw [shape] at node
    contradiction
  | node term =>
    rw [shape] at plain checked filled forced isRoot
    cases isRoot
    obtain ⟨_, first, rest⟩ := Term.checkAll_cons_ok checked
    obtain ⟨termPlain, _⟩ := List.forall_mem_append.mp plain
    cases rest
    obtain ⟨images, here, made⟩ := exists_of_bind_ok filled
    obtain ⟨_, none, made⟩ := exists_of_bind_ok made
    cases none
    rw [show images = [image] by simpa using made] at here
    have single : Term.stretch .empty root = .single := by
      cases root with
      | hole slot => contradiction
      | leaf | branch => rfl
    obtain ⟨bound, matched, reaches⟩ := Term.exists_unify_reaches overlooks assigns.captured
      .generated root termPlain first (.empty language) List.prefix_rfl forced single
      (Bindings.agrees_empty goal) here same
    exact ⟨bound, matched, reaches.mono fun _ => trivial⟩

private theorem exists_matchWindow_reaches (overlooks : language.Overlooks .structural)
    (compiled : pattern.Compiled language) (plain : pattern.shape.Plain) (forced : pattern.Forced)
    (window : pattern.isWindow = true) {statements taken : List Tree} {start : Nat}
    (ahead : taken <+: statements.drop start) (assigns : pattern.Assigns language taken goal) :
    ∃ bound extent, pattern.matchWindow language statements start = some (bound, extent) ∧
      bound.Reaches goal pattern.captures True := by
  have checked := compiled.checkAll_captures
  obtain ⟨root, _, isRoot, rootChecked⟩ := compiled.exists_root
  obtain ⟨_, spelled⟩ := isSome_kind_of_check rootChecked
  obtain ⟨images, filled, same⟩ := assigns.spells .generated
  obtain ⟨behind, rest⟩ := ahead
  simp only [Template.instantiate, Template.ofShape] at filled
  rw [Shape.Plain] at plain
  rw [Forced, outermost] at forced
  rw [isWindow] at window
  rw [root?] at isRoot
  rw [matchWindow]
  cases shape : pattern.shape with
  | node term =>
    rw [shape] at window
    contradiction
  | window terms =>
    rw [shape] at plain checked filled forced isRoot
    obtain ⟨bound, used, matched, reaches⟩ := Term.exists_unifyAll_reaches overlooks
      assigns.captured .generated terms behind false plain checked (.empty language)
      List.prefix_rfl forced (Bindings.agrees_empty goal) filled same (by simp)
    rw [rest] at matched
    obtain ⟨others, rfl⟩ := List.head?_eq_some_iff.mp isRoot
    have inside : start ≤ statements.length := by
      have some_left := Term.ne_nil_of_unifyAll_root spelled matched
      rw [Ne, List.drop_eq_nil_iff] at some_left
      omega
    refine ⟨bound, ⟨start, start + used⟩, ?_, reaches.mono fun _ => trivial⟩
    simp only [inside, if_true, matched]
    rfl

/-- A search that finds what is allowed only, and reaches whatever is allowed, succeeds exactly if
something is allowed and finds the shortest of it. -/
theorem shortest_of_search {α : Type} (found : Option α) (view : α → Bindings)
    {allowed : Bindings → Prop}
    (captured : ∀ other, allowed other → Captured language pattern.captures other)
    (sound : ∀ result, found = some result → allowed (view result))
    (complete : ∀ other, allowed other →
      ∃ result, found = some result ∧ (view result).Reaches other pattern.captures True) :
    (found.isSome = true ↔ ∃ bindings, allowed bindings) ∧
      ∀ result, found = some result → pattern.Shortest allowed (view result) := by
  refine ⟨⟨fun succeeds => ?_, fun ⟨other, fit⟩ => ?_⟩, fun result here => ⟨sound result here, ?_⟩⟩
  · obtain ⟨result, here⟩ := Option.isSome_iff_exists.mp succeeds
    exact ⟨view result, sound result here⟩
  · obtain ⟨result, here, _⟩ := complete other fit
    rw [here]
    rfl
  · intro other fit
    obtain ⟨again, same, reaches⟩ := complete other fit
    rw [here] at same
    cases same
    exact reaches.imp And.right fun agrees =>
      Bindings.resembles_of_agrees (captured _ (sound result here)) (captured other fit) agrees

/-- A pattern matches a tree, or statements from a place on, exactly if some captures are
admissible there, and the match captures the shortest sequences. -/
theorem matches_complete (roles : Roles) (pattern : Pattern)
    (compiled : pattern.Compiled roles.language) (plain : pattern.shape.Plain)
    (forced : pattern.Forced) :
    (pattern.isWindow = false → ∀ tree : Tree, tree.TextAtLeaves →
      ((pattern.matchNode roles.language tree).isSome = true ↔
          ∃ bindings, pattern.Assigns roles.language [tree] bindings) ∧
        ∀ bindings, pattern.matchNode roles.language tree = some bindings →
          pattern.Shortest (pattern.Assigns roles.language [tree]) bindings) ∧
    (pattern.isWindow = true → ∀ (statements : List Tree) (start : Nat),
      (∀ tree ∈ statements, tree.TextAtLeaves) →
      let admissible bindings :=
        ∃ taken, taken <+: statements.drop start ∧ pattern.Assigns roles.language taken bindings
      ((pattern.matchWindow roles.language statements start).isSome = true ↔
          ∃ bindings, admissible bindings) ∧
        ∀ bindings extent,
          pattern.matchWindow roles.language statements start = some (bindings, extent) →
            pattern.Shortest admissible bindings) := by
  have overlooks := roles.overlooks .structural
  constructor
  · intro node tree atLeaves
    refine shortest_of_search _ id (fun _ => Assigns.captured) ?_ ?_
    · intro bindings matched
      obtain ⟨captured, spells⟩ := captured_and_spells_of_matchNode compiled plain atLeaves matched
      exact ⟨captured, spells⟩
    · intro goal assigns
      exact exists_matchNode_reaches overlooks compiled plain forced node assigns
  · intro window statements start atLeaves admissible
    have captured : ∀ bindings, admissible bindings →
        Captured roles.language pattern.captures bindings :=
      fun _ ⟨_, _, assigns⟩ => assigns.captured
    have search := shortest_of_search (pattern.matchWindow roles.language statements start)
      Prod.fst captured ?_ ?_
    · exact ⟨search.1, fun bindings extent matched => search.2 ⟨bindings, extent⟩ matched⟩
    · rintro ⟨bindings, extent⟩ matched
      obtain ⟨captured, spells⟩ := captured_and_spells_of_matchWindow compiled plain atLeaves
        matched
      obtain ⟨starts, proper, _⟩ := matchWindow_root compiled matched
      refine ⟨extent.slice statements, ⟨statements.drop extent.stop, ?_⟩, captured, spells⟩
      rw [← starts]
      exact extent.slice_append_drop statements (Nat.le_of_lt proper)
    · rintro goal ⟨_, ahead, assigns⟩
      obtain ⟨bound, extent, matched, reaches⟩ := exists_matchWindow_reaches overlooks compiled
        plain forced window ahead assigns
      exact ⟨⟨bound, extent⟩, matched, reaches⟩

/-- A block that is cut in two at a mark. -/
def cutShape : Shape :=
  .node (.branch "block"
    [.hole (.capturing "s" .sequence), .leaf Tree.nameKind "m", .hole (.capturing "t" .sequence)])

/-- Statements after a mark that a block repeats. -/
def repeatShape : Shape :=
  .window [.leaf Tree.nameKind "m", .hole (.capturing "s" .sequence),
    .branch "block" [.hole (.referringTo "s")]]

theorem cut_and_repeat_complete :
    let language := ({} : Roles).language
    let cut : Pattern := ⟨cutShape, ⟨[("s", .sequence), ("t", .sequence)]⟩, true⟩
    let again : Pattern := ⟨repeatShape, ⟨[("s", .sequence)]⟩, true⟩
    let name (text : String) : Tree := .leaf Tree.nameKind text
    let tree : Tree := .branch "block" [name "a", name "m", name "b", name "m", name "c"]
    let statements : List Tree :=
      [name "a", name "m", name "b", .branch "block" [name "b"], name "c"]
    cut.Compiled language ∧ cut.shape.Plain ∧ cut.Forced ∧ cut.isWindow = false ∧
      tree.TextAtLeaves ∧ again.Compiled language ∧ again.shape.Plain ∧ again.Forced ∧
      again.isWindow = true ∧ (∀ statement ∈ statements, statement.TextAtLeaves) ∧
      (∃ bindings, cut.matchNode language tree = some bindings ∧
        bindings.lengths cut.captures.sequences = [1, 3] ∧
        cut.Shortest (cut.Assigns language [tree]) bindings) ∧
      ∃ bindings extent, again.matchWindow language statements 1 = some (bindings, extent) ∧
        bindings.lengths again.captures.sequences = [1] ∧
        again.Shortest (fun bindings => ∃ taken, taken <+: statements.drop 1 ∧
          again.Assigns language taken bindings) bindings := by
  intro language cut again name tree statements
  have cutCompiled : cut.Compiled language := by rfl
  have againCompiled : again.Compiled language := by rfl
  have cutPlain : cut.shape.Plain := by decide
  have againPlain : again.shape.Plain := by decide
  have cutForced : cut.Forced := by decide +kernel
  have againForced : again.Forced := by decide +kernel
  have treeAtLeaves : tree.TextAtLeaves := by decide +kernel
  have statementsAtLeaves : ∀ statement ∈ statements, statement.TextAtLeaves := by decide +kernel
  have matchedNode : (cut.matchNode language tree).map
      (fun bindings => bindings.lengths cut.captures.sequences) = some [1, 3] := by decide +kernel
  have matchedWindow : (again.matchWindow language statements 1).map
      (fun found => found.1.lengths again.captures.sequences) = some [1] := by decide +kernel
  obtain ⟨bindings, node, nodeLengths⟩ := Option.map_eq_some_iff.mp matchedNode
  obtain ⟨⟨others, extent⟩, window, windowLengths⟩ := Option.map_eq_some_iff.mp matchedWindow
  have nodes := matches_complete {} cut cutCompiled cutPlain cutForced
  have windows := matches_complete {} again againCompiled againPlain againForced
  exact ⟨cutCompiled, cutPlain, cutForced, rfl, treeAtLeaves, againCompiled, againPlain,
    againForced, rfl, statementsAtLeaves,
    ⟨bindings, node, nodeLengths, (nodes.1 rfl tree treeAtLeaves).2 bindings node⟩,
    others, extent, window, windowLengths,
    (windows.2 rfl statements 1 statementsAtLeaves).2 others extent window⟩

end Pattern

end Codemod
