import Codemod.Proofs.Match.Anchor
import Codemod.Proofs.Match.Extension
import Codemod.Proofs.Tree.Resemblance
import Codemod.Template

/-!
# Matches are sound

What a pattern matched is what its own shape comes to when it is filled with the captures of the
match, up to spans and types. Later captures do not change that.
-/

namespace Codemod

/-- No tree in a tree carries both a text and children. -/
def Tree.TextAtLeaves (tree : Tree) : Prop :=
  ∀ inner ∈ tree.preorder, inner.isLeaf = true → inner.children = []

instance (tree : Tree) : Decidable tree.TextAtLeaves :=
  inferInstanceAs (Decidable (∀ inner ∈ tree.preorder, inner.isLeaf = true → inner.children = []))

namespace Tree

namespace TextAtLeaves

variable {tree : Tree}

private theorem children_eq_nil (atLeaves : tree.TextAtLeaves) (leaf : tree.isLeaf = true) :
    tree.children = [] := by
  refine atLeaves tree ?_ leaf
  rw [preorder_eq]
  exact List.mem_cons_self

private theorem child (atLeaves : tree.TextAtLeaves) :
    ∀ child ∈ tree.children, child.TextAtLeaves := by
  intro child member inner inside
  refine atLeaves inner ?_
  rw [preorder_eq]
  exact List.mem_cons_of_mem tree (mem_preorderAll.mpr ⟨child, member, inside⟩)

end TextAtLeaves

private theorem sameAll_append {first second others more : List Tree} (ahead : sameAll first others)
    (behind : sameAll second more) : sameAll (first ++ second) (others ++ more) :=
  sameAll_iff_forall₂.mpr
    (List.rel_append (sameAll_iff_forall₂.mp ahead) (sameAll_iff_forall₂.mp behind))

end Tree

namespace Term

variable {language : Language} {final : Bindings}

theorem fill_hole {slot : Hole} {capture : Capture} (span : Span)
    (found : final.find? slot.name = some capture) :
    fill final span (.hole slot) = .ok capture.trees := by
  rw [fill, found]

theorem fill_branch {kind : String} {children : List Term} {span : Span} {images : List Tree}
    (filled : fillAll final span children = .ok images) :
    fill final span (.branch kind children) = .ok [(Tree.branch kind images).withSpan span] := by
  rw [fill, filled]
  rfl

theorem fillAll_cons {term : Term} {rest : List Term} {span : Span} {here others : List Tree}
    (first : fill final span term = .ok here) (after : fillAll final span rest = .ok others) :
    fillAll final span (term :: rest) = .ok (here ++ others) := by
  rw [fillAll, first, after]
  rfl

private theorem same_of_capture {hole : Hole} {tree : Tree} {bindings bound : Bindings}
    (matched : hole.capture language tree bindings = some bound) (kept : final.Extends bound) :
    ∃ earlier, final.find? hole.name = some (.node earlier) ∧ earlier.same tree = true := by
  rcases Hole.capture_cases matched with ⟨earlier, found, same, rfl⟩ | ⟨_, _, _, rfl⟩
  · exact ⟨earlier, kept _ _ found, same⟩
  · exact ⟨tree, kept.find?_insert, Tree.same_refl tree⟩

private theorem sameAll_of_parts {here others trees : List Tree} {length more : Nat}
    (ahead : Tree.sameAll here (trees.take length))
    (behind : Tree.sameAll others ((trees.drop length).take more)) :
    Tree.sameAll (here ++ others) (trees.take (length + more)) := by
  rw [List.take_add]
  exact Tree.sameAll_append ahead behind

mutual

/-- A term that matched a tree comes to one tree again when it is filled with what the match
captured, and that tree is equal to the one matched. -/
theorem same_of_unify (span : Span) : ∀ (term : Term) {site : Site}
    {captures extended : CaptureTable} {tree : Tree} {bindings bound : Bindings},
    (∀ hole ∈ term.holes, hole.Plain) → check language site term captures = .ok extended →
    Captured language captures bindings → tree.TextAtLeaves →
    unify language term tree bindings = some bound → final.Extends bound →
      ∃ image, fill final span term = .ok [image] ∧ image.same tree = true
  | .leaf kind text, _, _, _, tree, _, _, _, _, _, atLeaves, matched, _ => by
    rw [unify] at matched
    split at matched
    · rename_i equal
      have childless := atLeaves.children_eq_nil (by simp [Tree.isLeaf, equal.2])
      refine ⟨_, rfl, ?_⟩
      rw [Tree.same_iff, childless]
      exact ⟨equal.1.symm, equal.2.symm, rfl⟩
    · contradiction
  | .branch kind children, _, _, _, tree, _, _, plain, checked, captured, atLeaves, matched,
      kept => by
    rw [check] at checked
    rw [unify] at matched
    split at matched
    · rename_i equal
      obtain ⟨⟨_, used⟩, all, rfl⟩ := Option.map_eq_some_iff.mp matched
      obtain ⟨images, filled, same⟩ := sameAll_of_unifyAll span children plain checked captured
        atLeaves.child all kept
      rw [used_of_anchored all, List.take_length] at same
      have textless : tree.text = none := by simpa [Tree.isLeaf] using equal.2
      refine ⟨_, fill_branch filled, ?_⟩
      rw [Tree.same_iff]
      exact ⟨equal.1.symm, textless.symm, same⟩
    · contradiction
  | .hole slot, _, _, _, _, _, _, _, _, _, _, matched, kept => by
    rw [unify] at matched
    obtain ⟨earlier, found, same⟩ := same_of_capture matched kept
    exact ⟨earlier, fill_hole span found, same⟩

private theorem sameAll_of_unifyAll (span : Span) : ∀ (terms : List Term) {site : Site}
    {captures extended : CaptureTable} {trees : List Tree} {bindings bound : Bindings}
    {anchored : Bool} {used : Nat}, (∀ hole ∈ holesAll terms, hole.Plain) →
    checkAll language site terms captures = .ok extended → Captured language captures bindings →
    (∀ tree ∈ trees, tree.TextAtLeaves) →
    unifyAll language terms trees bindings anchored = some (bound, used) → final.Extends bound →
      ∃ images, fillAll final span terms = .ok images ∧
        Tree.sameAll images (trees.take used) = true
  | [], _, _, _, _, _, _, _, _, _, _, _, _, matched, _ => by
    rw [unifyAll] at matched
    split at matched
    · contradiction
    · cases matched
      exact ⟨[], rfl, rfl⟩
  | term :: rest, _, _, _, trees, _, _, _, _, plain, checked, captured, atLeaves, matched,
      kept => by
    obtain ⟨middle, first, others⟩ := checkAll_cons_ok checked
    obtain ⟨firstPlain, restPlain⟩ := List.forall_mem_append.mp plain
    rcases unifyAll_cons_cases matched with ⟨slot, earlier, more, rfl, found, same, after, rfl⟩ |
      ⟨slot, length, more, rfl, sequence, unbound, short, after, rfl⟩ |
      ⟨tree, followers, next, more, _, rfl, unified, after, rfl⟩
    · rw [check] at first
      obtain ⟨rfl, _⟩ := enter_of_repeating first captured found
      have later : ∀ tree ∈ trees.drop earlier.length, tree.TextAtLeaves :=
        fun tree inside => atLeaves tree (List.mem_of_mem_drop inside)
      have grown := extends_of_unifyAll rest restPlain others captured after
      obtain ⟨images, filled, behind⟩ := sameAll_of_unifyAll span rest restPlain others captured
        later after kept
      have here := fill_hole span ((kept.trans grown) _ _ found)
      exact ⟨_, fillAll_cons here filled, sameAll_of_parts same behind⟩
    · rw [check] at first
      have slotPlain := firstPlain slot (List.mem_singleton_self slot)
      obtain ⟨_, rfl, _⟩ := enter_of_fresh slotPlain first captured sequence unbound
      have later : ∀ tree ∈ trees.drop length, tree.TextAtLeaves :=
        fun tree inside => atLeaves tree (List.mem_of_mem_drop inside)
      have nextCaptured := captured.insert_sequence slot.name (trees.take length)
      have grown := extends_of_unifyAll rest restPlain others nextCaptured after
      obtain ⟨images, filled, behind⟩ := sameAll_of_unifyAll span rest restPlain others
        nextCaptured later after kept
      have here := fill_hole span (kept.trans grown).find?_insert
      exact ⟨_, fillAll_cons here filled,
        sameAll_of_parts (Tree.sameAll_refl (trees.take length)) behind⟩
    · obtain ⟨treeAtLeaves, later⟩ := List.forall_mem_cons.mp atLeaves
      have nextCaptured := captured_of_unify term firstPlain first captured unified
      have grown := extends_of_unifyAll rest restPlain others nextCaptured after
      obtain ⟨image, here, same⟩ := same_of_unify span term firstPlain first captured
        treeAtLeaves unified (kept.trans grown)
      obtain ⟨images, filled, behind⟩ := sameAll_of_unifyAll span rest restPlain others
        nextCaptured later after kept
      refine ⟨_, fillAll_cons here filled, ?_⟩
      rw [List.singleton_append, List.take_succ_cons, Tree.sameAll_cons, same, behind]
      rfl

end

end Term

namespace Pattern

variable {language : Language} {pattern : Pattern} {bindings : Bindings}

/-- The shape of a pattern, filled with some captures, comes to these trees. -/
def Spells (pattern : Pattern) (bindings : Bindings) (trees : List Tree) : Prop :=
  ∀ span, ∃ images, (Template.ofShape pattern.shape).instantiate bindings span = .ok images ∧
    Tree.sameAll images trees = true

theorem Spells.exists_single {tree : Tree} (spells : pattern.Spells bindings [tree])
    (span : Span) : ∃ image,
      (Template.ofShape pattern.shape).instantiate bindings span = .ok [image] ∧
        image.same tree = true := by
  obtain ⟨images, filled, same⟩ := spells span
  obtain ⟨image, _, first, none, rfl⟩ :=
    List.forall₂_cons_right_iff.mp (Tree.sameAll_iff_forall₂.mp same)
  rw [List.forall₂_nil_right_iff.mp none] at filled
  exact ⟨image, filled, first⟩

theorem captured_of_matchNode (compiled : pattern.Compiled language)
    (plain : pattern.shape.Plain) {tree : Tree}
    (matched : pattern.matchNode language tree = some bindings) :
    Captured language pattern.captures bindings := by
  have checked := compiled.checkAll_captures
  rw [Shape.Plain] at plain
  rw [matchNode] at matched
  split at matched
  · rename_i term node
    rw [node] at plain checked
    obtain ⟨_, first, rest⟩ := Term.checkAll_cons_ok checked
    cases rest
    exact Term.captured_of_unify term (List.forall_mem_append.mp plain).1 first (.empty language)
      matched
  · contradiction

theorem captured_of_matchWindow (compiled : pattern.Compiled language)
    (plain : pattern.shape.Plain) {statements : List Tree} {start : Nat} {extent : Extent}
    (matched : pattern.matchWindow language statements start = some (bindings, extent)) :
    Captured language pattern.captures bindings := by
  have checked := compiled.checkAll_captures
  rw [Shape.Plain] at plain
  rw [matchWindow] at matched
  split at matched
  · contradiction
  · rename_i terms window
    rw [window] at plain checked
    split at matched
    · obtain ⟨⟨_, used⟩, unified, made⟩ := Option.map_eq_some_iff.mp matched
      cases made
      exact Term.captured_of_unifyAll _ plain checked (.empty language) unified
    · contradiction

theorem captured_and_spells_of_matchNode (compiled : pattern.Compiled language)
    (plain : pattern.shape.Plain) {tree : Tree} (atLeaves : tree.TextAtLeaves)
    (matched : pattern.matchNode language tree = some bindings) :
    Captured language pattern.captures bindings ∧ pattern.Spells bindings [tree] := by
  refine ⟨captured_of_matchNode compiled plain matched, fun span => ?_⟩
  have checked := compiled.checkAll_captures
  rw [Shape.Plain] at plain
  rw [matchNode] at matched
  simp only [Template.instantiate, Template.ofShape]
  split at matched
  · rename_i term node
    rw [node] at plain checked ⊢
    obtain ⟨_, first, rest⟩ := Term.checkAll_cons_ok checked
    obtain ⟨termPlain, _⟩ := List.forall_mem_append.mp plain
    cases rest
    obtain ⟨image, filled, same⟩ := Term.same_of_unify span term termPlain first (.empty language)
      atLeaves matched (.refl bindings)
    exact ⟨_, Term.fillAll_cons filled rfl, by simpa using same⟩
  · contradiction

theorem captured_and_spells_of_matchWindow (compiled : pattern.Compiled language)
    (plain : pattern.shape.Plain) {statements : List Tree} {start : Nat} {extent : Extent}
    (atLeaves : ∀ tree ∈ statements, tree.TextAtLeaves)
    (matched : pattern.matchWindow language statements start = some (bindings, extent)) :
    Captured language pattern.captures bindings ∧
      pattern.Spells bindings (extent.slice statements) := by
  refine ⟨captured_of_matchWindow compiled plain matched, fun span => ?_⟩
  have checked := compiled.checkAll_captures
  rw [Shape.Plain] at plain
  rw [matchWindow] at matched
  simp only [Template.instantiate, Template.ofShape]
  split at matched
  · contradiction
  · rename_i terms window
    rw [window] at plain checked ⊢
    split at matched
    · obtain ⟨⟨_, used⟩, unified, made⟩ := Option.map_eq_some_iff.mp matched
      cases made
      rw [Extent.slice, Extent.length, Nat.add_sub_cancel_left]
      exact Term.sameAll_of_unifyAll span _ plain checked (.empty language)
        (fun tree inside => atLeaves tree (List.mem_of_mem_drop inside)) unified (.refl bindings)
    · contradiction

/-- What a compiled pattern matches is what its own shape comes to under the captures of the match,
which are those of its capture table. -/
theorem matches_sound (language : Language) (pattern : Pattern)
    (compiled : pattern.Compiled language) (plain : pattern.shape.Plain) :
    (∀ (tree : Tree) (bindings : Bindings), tree.TextAtLeaves →
      pattern.matchNode language tree = some bindings →
        Captured language pattern.captures bindings ∧
          ∀ span, ∃ image,
            (Template.ofShape pattern.shape).instantiate bindings span = .ok [image] ∧
              image.same tree = true) ∧
    ∀ (statements : List Tree) (start : Nat) (bindings : Bindings) (extent : Extent),
      (∀ tree ∈ statements, tree.TextAtLeaves) →
      pattern.matchWindow language statements start = some (bindings, extent) →
        Captured language pattern.captures bindings ∧
          extent.start = start ∧ extent.Proper ∧ extent.stop ≤ statements.length ∧
            ∀ span, ∃ images,
              (Template.ofShape pattern.shape).instantiate bindings span = .ok images ∧
                Tree.sameAll images (extent.slice statements) = true := by
  constructor
  · intro tree bindings atLeaves matched
    obtain ⟨captured, spells⟩ := captured_and_spells_of_matchNode compiled plain atLeaves matched
    exact ⟨captured, spells.exists_single⟩
  · intro statements start bindings extent atLeaves matched
    obtain ⟨starts, proper, inside, _⟩ := matchWindow_root compiled matched
    obtain ⟨captured, spells⟩ := captured_and_spells_of_matchWindow compiled plain atLeaves matched
    exact ⟨captured, starts, proper, inside, spells⟩

/-- An attempt whose handler does in a block what it has done, after a statement it repeats. -/
def retryShape : Shape :=
  .node (.branch "try"
    [.hole (.capturing "x" .identifier),
      .branch "block" [.hole (.capturing "s" .sequence), .hole (.referringTo "x")],
      .branch "block" [.hole (.referringTo "s")]])

/-- What is opened and closed, with the statements in between. -/
def bracketShape : Shape :=
  .window
    [.branch "call" [.hole (.capturing "x" .expression), .leaf Tree.nameKind "open"],
      .hole (.capturing "s" .sequence),
      .branch "call" [.hole (.referringTo "x"), .leaf Tree.nameKind "close"]]

theorem retry_and_bracket_sound :
    let language := ({} : Roles).language
    let retry : Pattern := ⟨retryShape, ⟨[("x", .identifier), ("s", .sequence)]⟩, true⟩
    let bracket : Pattern := ⟨bracketShape, ⟨[("x", .expression), ("s", .sequence)]⟩, true⟩
    let name (text : String) : Tree := .leaf Tree.nameKind text
    let tree : Tree := .branch "try"
      [name "a", .branch "block" [name "b", name "c", name "a"],
        .branch "block" [name "b", name "c"]]
    let statements : List Tree :=
      [.branch "call" [name "b", name "open"], .branch "call" [name "a", name "open"], name "c",
        .branch "call" [name "b", name "close"], .branch "call" [name "a", name "close"], name "d"]
    retry.Compiled language ∧ retry.shape.Plain ∧ tree.TextAtLeaves ∧
      bracket.Compiled language ∧ bracket.shape.Plain ∧
      (∀ statement ∈ statements, statement.TextAtLeaves) ∧
      (∃ bindings image, retry.matchNode language tree = some bindings ∧
        (Template.ofShape retryShape).instantiate bindings .generated = .ok [image] ∧
        image.same tree = true) ∧
      ∃ bindings images, bracket.matchWindow language statements 1 = some (bindings, ⟨1, 5⟩) ∧
        (Template.ofShape bracketShape).instantiate bindings .generated = .ok images ∧
        Tree.sameAll images ((⟨1, 5⟩ : Extent).slice statements) = true := by
  intro language retry bracket name tree statements
  have retryCompiled : retry.Compiled language := by rfl
  have bracketCompiled : bracket.Compiled language := by rfl
  have retryPlain : retry.shape.Plain := by decide
  have bracketPlain : bracket.shape.Plain := by decide
  have treeAtLeaves : tree.TextAtLeaves := by decide +kernel
  have statementsAtLeaves : ∀ statement ∈ statements, statement.TextAtLeaves := by decide +kernel
  have matchedNode : (retry.matchNode language tree).isSome = true := by decide +kernel
  have matchedWindow : (bracket.matchWindow language statements 1).map Prod.snd = some ⟨1, 5⟩ := by
    decide +kernel
  obtain ⟨nodeBindings, node⟩ := Option.isSome_iff_exists.mp matchedNode
  obtain ⟨⟨windowBindings, _⟩, window, rfl⟩ := Option.map_eq_some_iff.mp matchedWindow
  have nodeSound := (matches_sound language retry retryCompiled retryPlain).1 tree nodeBindings
    treeAtLeaves node
  have windowSound := (matches_sound language bracket bracketCompiled bracketPlain).2 statements 1
    windowBindings ⟨1, 5⟩ statementsAtLeaves window
  obtain ⟨image, instantiated, same⟩ := nodeSound.2 .generated
  obtain ⟨images, filled, equal⟩ := windowSound.2.2.2.2 .generated
  exact ⟨retryCompiled, retryPlain, treeAtLeaves, bracketCompiled, bracketPlain, statementsAtLeaves,
    ⟨nodeBindings, image, node, instantiated, same⟩, windowBindings, images, window, filled, equal⟩

end Pattern

end Codemod
