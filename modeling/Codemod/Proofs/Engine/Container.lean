import Codemod.Proofs.Engine.Exhaustive
import Codemod.Proofs.Engine.Resumption
import Codemod.Proofs.Pass.Resemblance

/-!
# Containers

A tree that is no block and that no rule matches only holds its children together. Where no guard
asks for versions or for tests from outside, its children have nothing to do with each other: a run
over the container is put together from runs over each child alone.
-/

namespace Codemod

/-- Joins what comes of each item and its index. -/
def joinIdx {α β : Type} (step : Nat → α → List β) (items : List α) : List β :=
  (items.mapIdx step).flatten

section Joining

variable {α β γ : Type} {step : Nat → α → List β}

private theorem joinIdx_cons (item : α) (rest : List α) :
    joinIdx step (item :: rest) = step 0 item ++ joinIdx (fun index => step (index + 1)) rest := by
  rw [joinIdx, List.mapIdx_cons, List.flatten_cons]
  rfl

theorem joinIdx_map (change : γ → α) (items : List γ) :
    joinIdx step (items.map change) =
      joinIdx (fun index item => step index (change item)) items := by
  induction items generalizing step with
  | nil => rfl
  | cons item rest ih => rw [List.map_cons, joinIdx_cons, joinIdx_cons, ih]

theorem joinIdx_congr {other : Nat → α → List β} {items : List α}
    (same : ∀ item ∈ items, ∀ index, step index item = other index item) :
    joinIdx step items = joinIdx other items := by
  induction items generalizing step other with
  | nil => rfl
  | cons item rest ih =>
    rw [joinIdx_cons, joinIdx_cons, same item List.mem_cons_self 0]
    rw [ih fun another member index => same another (List.mem_cons_of_mem item member) (index + 1)]

theorem joinIdx_of_append (read : List β → List γ) (nothing : read [] = [])
    (append : ∀ first second, read (first ++ second) = read first ++ read second)
    (items : List α) :
    read (joinIdx step items) = joinIdx (fun index item => read (step index item)) items := by
  induction items generalizing step with
  | nil => exact nothing
  | cons item rest ih => rw [joinIdx_cons, joinIdx_cons, append, ih]

theorem mem_joinIdx {items : List α} {value : β} : value ∈ joinIdx step items ↔
    ∃ (index : Nat) (item : α), items[index]? = some item ∧ value ∈ step index item := by
  rw [joinIdx, List.mem_flatten]
  simp only [List.mem_iff_getElem?, List.getElem?_mapIdx, Option.map_eq_some_iff]
  constructor
  · rintro ⟨_, ⟨index, item, here, rfl⟩, member⟩
    exact ⟨index, item, here, member⟩
  · rintro ⟨index, item, here, member⟩
    exact ⟨step index item, ⟨index, item, here, rfl⟩, member⟩

theorem filter_joinIdx {keep : β → Bool} {items : List α} {index : Nat} {item : α}
    (here : items[index]? = some item) (kept : ∀ value ∈ step index item, keep value = true)
    (dropped : ∀ (other : Nat) (another : α), other ≠ index →
      ∀ value ∈ step other another, keep value = false) :
    (joinIdx step items).filter keep = step index item := by
  induction items generalizing step index with
  | nil => simp at here
  | cons first rest ih =>
    rw [joinIdx_cons, List.filter_append]
    cases index with
    | zero =>
      cases here
      have nothing : (joinIdx (fun index => step (index + 1)) rest).filter keep = [] := by
        rw [List.filter_eq_nil_iff]
        intro value member
        obtain ⟨other, another, _, inStep⟩ := mem_joinIdx.mp member
        simp [dropped (other + 1) another (by omega) value inStep]
      rw [List.filter_eq_self.mpr kept, nothing, List.append_nil]
    | succ index =>
      have nothing : (step 0 first).filter keep = [] := by
        rw [List.filter_eq_nil_iff]
        intro value member
        simp [dropped 0 first (by omega) value member]
      rw [nothing, List.nil_append]
      exact ih here kept fun other another differs => dropped (other + 1) another (by omega)

end Joining

/-- The same place when its tree has become a child of another. -/
def Location.under (index : Nat) (location : Location) : Location :=
  { location with path := index :: location.path }

/-- Equal trees, alone and below the child of an index. Versions may differ. -/
def Correspondence.under (index : Nat) : Correspondence where
  toResemblance := .exact
  paths path below := below = index :: path
  scopes _ _ := True
  left := Location.under index
  right := id
  path_concat := by
    rintro path _ rfl position
    rfl
  located := by
    rintro path _ span _ rfl rfl statements
    rfl

private theorem Bindings.find?_eq {bindings others : Bindings}
    (resembles : bindings.Resembles .exact others) (name : String) :
    bindings.find? name = others.find? name := by
  have here := resembles name
  generalize Assoc.find? bindings name = found at here ⊢
  generalize Assoc.find? others name = other at here ⊢
  cases here with
  | none => rfl
  | some captured =>
    cases captured with
    | node alike => exact congrArg (fun tree => some (Capture.node tree)) alike
    | sequence alike =>
      exact congrArg (fun trees => some (Capture.sequence trees)) (forall₂_eq_iff.mp alike)

/-- What a rule requires involves neither versions nor tests from outside. -/
def Rule.Local (rule : Rule) : Prop :=
  ∀ leaf ∈ rule.leaves, leaf.readsVersion = false ∧ leaf.isCustom = false

instance (rule : Rule) : Decidable rule.Local :=
  inferInstanceAs (Decidable (∀ leaf ∈ rule.leaves, _ ∧ _))

def Traced.relocate {α : Type} (move : Location → Location) (traced : Traced α) : Traced α :=
  ⟨traced.value, traced.trace.relocate move⟩

private theorem Trace.relocate_id (trace : Trace) : trace.relocate id = trace := by
  have same : Event.relocate id = id := by
    funext event
    cases event <;> rfl
  rw [relocate, same, List.map_id]

namespace Pass

variable {pass : Pass}

/-- A pass whose rules are local does not see what a tree stands in. -/
theorem indifferent_under (isLocal : ∀ tree, ∀ rule ∈ pass.lookup tree, rule.Local) (index : Nat) :
    Indifferent (.under index) pass where
  overlooks :=
    { identifier := by
        rintro tree _ rfl
        rfl
      statement := by
        rintro tree _ rfl
        rfl }
  lookup := by
    rintro tree _ rfl
    rfl
  scope _ _ := trivial
  verdict := by
    rintro scope twinScope anchor _ rule bindings others tried _ rfl resembles
    apply Rule.verdict_congr
    intro leaf member
    obtain ⟨unversioned, builtIn⟩ := isLocal anchor rule tried leaf member
    cases leaf with
    | minVersion required => contradiction
    | capability name => rfl
    | receiverType type => rfl
    | captureType capture types =>
      rw [Guard.evaluate, Guard.evaluate, Guard.checkType, Guard.checkType,
        Bindings.find?_eq resembles capture]
    | unreferenced name within => exact Guard.checkUnreferenced_eq resembles name within
    | custom guard => contradiction
    | all inner => exact absurd member rule.all_notMem_leaves
  cancels := by
    intro scope twinScope anchor twin rule bindings others tried _ _ _
    have builtIn : ∀ leaf ∈ rule.leaves, leaf.isCustom = false := fun leaf member =>
      (isLocal anchor rule tried leaf member).2
    rw [rule.cancels_eq_false builtIn, rule.cancels_eq_false builtIn]

private theorem visit_under (sound : pass.Sound)
    (isLocal : ∀ tree, ∀ rule ∈ pass.lookup tree, rule.Local)
    (index : Nat) (scope : Option Nat) (tree : Tree) :
    pass.tryComposite [index] scope tree (pass.traverse [index] scope tree) =
      (pass.run tree).relocate (.under index) := by
  have simulates := (indifferent_under isLocal index).simulates sound
  obtain ⟨value, told⟩ := @Simulates.visit _ _ _ [] [index] pass.platform.minVersion scope tree tree
    simulates rfl trivial rfl
  refine Traced.eq_of_value_trace value.symm ?_
  exact (Trace.relocate_id _).symm.trans told.symm

section Unmatched

variable {tree : Tree}

private theorem treeClaims_of_unmatched
    (unmatched : ∀ rule ∈ pass.lookup tree, rule.pattern.matchNode pass.language tree = none)
    (composite : Bool) (scope : Option Nat) (position : Nat) (location : Location) :
    (pass.treeClaims composite scope position location tree).value = [] ∧
      TraceRelation.reports.same []
        (pass.treeClaims composite scope position location tree).trace := by
  rw [treeClaims, Traced.value_collect, Traced.trace_collect]
  constructor
  · rw [List.flatMap_eq_nil_iff]
    intro rule member
    rw [unmatched rule (List.mem_of_mem_filter member)]
    rfl
  · apply TraceRelation.flatMap_nil
    intro rule member
    rw [unmatched rule (List.mem_of_mem_filter member)]
    exact ⟨rfl, rfl, rfl, rfl⟩

private theorem decideTree_of_unmatched
    (unmatched : ∀ rule ∈ pass.lookup tree, rule.pattern.matchNode pass.language tree = none)
    (composite : Bool) (path : List Nat) (scope : Option Nat) :
    (pass.decideTree composite path scope tree).value = none ∧
      TraceRelation.reports.same [] (pass.decideTree composite path scope tree).trace := by
  obtain ⟨nothing, silent⟩ :=
    treeClaims_of_unmatched unmatched composite scope 0 ⟨path, none, tree.span⟩
  have undecided : pass.settleTree path tree [] = pure none := by
    have empty : Contest.resolve ([] : List (Claim Match)) = [] := by
      simp [Contest.resolve, Contest.ranks]
    rw [settleTree, empty]
  rw [decideTree, Traced.value_bind, Traced.trace_bind, nothing, undecided]
  exact ⟨rfl, TraceRelation.reports.append silent TraceRelation.reports.nil⟩

end Unmatched

/-- Trees of a kind are neither blocks nor matched by any rule. -/
structure Passive (pass : Pass) (kind : String) : Prop where
  notBlock : pass.language.isBlock kind = false
  unmatched : ∀ tree : Tree, tree.kind = kind → ∀ rule ∈ pass.lookup tree,
    rule.pattern.matchNode pass.language tree = none

private theorem visitOperands_eq (path : List Nat) (scope : Option Nat) (children : List Tree) :
    pass.visitOperands path scope children (pass.traverseAll path scope 0 children) =
      Traced.all (children.mapIdx fun index child =>
        pass.tryComposite (path ++ [index]) scope child
          (pass.traverse (path ++ [index]) scope child)) := by
  rw [visitOperands]
  congr 1
  apply List.ext_getElem
  · simp [length_traverseAll]
  · intro index inside other
    have traversed := getElem?_traverseAll pass path scope 0 children index
    simp only [List.length_mapIdx] at other
    rw [List.getElem?_eq_getElem (by rwa [length_traverseAll]), List.getElem?_eq_getElem other,
      Nat.zero_add] at traversed
    simp only [List.getElem_mapIdx, List.getElem_zip]
    rw [Option.some.inj traversed]

/-- A pass over a container goes over each child as over a tree of its own. -/
theorem run_container (sound : pass.Sound) (isLocal : ∀ tree, ∀ rule ∈ pass.lookup tree, rule.Local)
    {file : Tree} (passive : pass.Passive file.kind) :
    (pass.run file).value = file.withChildren (file.children.map fun child =>
        (pass.run child).value) ∧
      TraceRelation.reports.same
        (joinIdx (fun index child => (pass.run child).trace.relocate (.under index)) file.children)
        (pass.run file).trace := by
  have unmatched (tree : Tree) (isKind : tree.kind = file.kind) (composite : Bool) :=
    decideTree_of_unmatched (passive.unmatched tree isKind) composite [] pass.platform.minVersion
  have visited : pass.visitChildren [] (pass.innerScope pass.platform.minVersion file) file.kind
      file.children (pass.traverseAll [] (pass.innerScope pass.platform.minVersion file) 0
        file.children) = Traced.all (file.children.mapIdx fun index child =>
          (pass.run child).relocate (.under index)) := by
    rw [visitChildren, if_neg (by simp [passive.notBlock]), visitOperands_eq]
    simp only [List.nil_append, visit_under sound isLocal]
  have values : (Traced.all (file.children.mapIdx fun index child =>
      (pass.run child).relocate (.under index))).value =
        file.children.map fun child => (pass.run child).value := by
    rw [Traced.value_all]
    apply List.ext_getElem <;> simp [Traced.relocate]
  have traces : (Traced.all (file.children.mapIdx fun index child =>
      (pass.run child).relocate (.under index))).trace =
        joinIdx (fun index child => (pass.run child).trace.relocate (.under index))
          file.children := by
    rw [Traced.trace_all, List.flatMap, joinIdx]
    congr 1
    apply List.ext_getElem <;> simp [Traced.relocate]
  obtain ⟨noComposite, before⟩ := unmatched file rfl true
  obtain ⟨noSimple, after⟩ := unmatched
    (file.withChildren (file.children.map fun child => (pass.run child).value)) rfl false
  rw [Pass.run, tryComposite_eq, Traced.value_bind, Traced.trace_bind, noComposite, traverse_eq,
    visited]
  simp only [trySimple_eq, Traced.value_bind, Traced.trace_bind, Traced.trace_pure, values, traces,
    noSimple, List.append_nil]
  exact ⟨rfl, TraceRelation.reports.surround before ⟨rfl, rfl, rfl, rfl⟩ after⟩

end Pass

end Codemod
