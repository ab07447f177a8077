import Codemod.Proofs.Pass.Settlement

/-!
# The steps of a pass

A pass that replaces goes through its applications one after the other, and each is a rewriting
step of the whole tree. What was claimed before earlier siblings changed is replaced as it was:
awards of a block lie apart, and only statements ahead of an award have changed when its turn comes.
-/

namespace Codemod

namespace Pass

variable {pass : Pass} {root : Tree} {path : List Nat} {tree : Tree}

/-- A traced computation takes a tree to its value by the steps it reports. -/
def Leads (pass : Pass) (root : Tree) (path : List Nat) (before : Tree) (traced : Traced Tree) :
    Prop :=
  Chain (pass.Performs root path) traced.trace.applied before traced.value

/-- The same for the children of a tree in an extent, whatever has become of those before it. -/
def LeadsOver (pass : Pass) (root : Tree) (path : List Nat) (tree : Tree) (extent : Extent)
    (traced : Traced (List Tree)) : Prop :=
  ∀ done, Chain (pass.Performs root path) traced.trace.applied
    (tree.withChildren (done ++ tree.children.drop extent.start))
    (tree.withChildren (done ++ traced.value ++ tree.children.drop extent.stop))

/-- The traversals of the children of a tree, each of which leads from its child. -/
structure Traversed (pass : Pass) (root : Tree) (path : List Nat) (tree : Tree)
    (steps : List (Traced Tree)) : Prop where
  length_eq : steps.length = tree.children.length
  leads : ∀ (index : Nat) (child : Tree) (step : Traced Tree), tree.children[index]? = some child →
    steps[index]? = some step → pass.Leads root (path ++ [index]) child step

private theorem Leads.child {index : Nat} {child : Tree} {step : Traced Tree}
    (leads : pass.Leads root (path ++ [index]) child step) (reached : root.at? path = some tree)
    (here : tree.children[index]? = some child) (done : List Tree) :
    Chain (pass.Performs root path) step.trace.applied
      (tree.withChildren (done ++ tree.children.drop index))
      (tree.withChildren (done ++ step.value :: tree.children.drop (index + 1))) := by
  obtain ⟨inside, rfl⟩ := List.getElem?_eq_some_iff.mp here
  rw [List.drop_eq_getElem_cons inside]
  apply Chain.lift
    (fun child => tree.withChildren (done ++ child :: tree.children.drop (index + 1))) ?_ leads
  intro entry old new performs
  exact performs.child reached done

private theorem LeadsOver.append {first second : Traced (List Tree)} {start middle stop : Nat}
    (ahead : pass.LeadsOver root path tree ⟨start, middle⟩ first)
    (behind : pass.LeadsOver root path tree ⟨middle, stop⟩ second) :
    pass.LeadsOver root path tree ⟨start, stop⟩ (do
      let before ← first
      let after ← second
      pure (before ++ after)) := by
  intro done
  have chain := (ahead done).append (behind (done ++ first.value))
  simpa using chain

private theorem leadsOver_all (reached : root.at? path = some tree) {steps : List (Traced Tree)}
    {start : Nat} (each : ∀ (offset : Nat) (step : Traced Tree), steps[offset]? = some step →
      ∃ child, tree.children[start + offset]? = some child ∧
        pass.Leads root (path ++ [start + offset]) child step) :
    pass.LeadsOver root path tree ⟨start, start + steps.length⟩ (Traced.all steps) := by
  induction steps generalizing start with
  | nil =>
    intro done
    simpa [Traced.all] using Chain.nil _
  | cons step rest ih =>
    intro done
    obtain ⟨child, here, leads⟩ := each 0 step rfl
    have head := leads.child reached here done
    have tail := @ih (start + 1) (fun offset other after => by
      have := each (offset + 1) other after
      rwa [Nat.add_comm offset 1, ← Nat.add_assoc] at this) (done ++ [step.value])
    simp only [List.append_assoc, List.cons_append, List.nil_append] at tail
    have chain := head.append tail
    simpa [Traced.all, Nat.add_assoc, Nat.add_comm 1] using chain

private theorem Traversed.leadsOver_slice {steps : List (Traced Tree)}
    (traversed : pass.Traversed root path tree steps) (reached : root.at? path = some tree)
    {extent : Extent} (ordered : extent.start ≤ extent.stop)
    (inside : extent.stop ≤ tree.children.length) :
    pass.LeadsOver root path tree extent (Traced.all (extent.slice steps)) := by
  have length : extent.start + (extent.slice steps).length = extent.stop := by
    simp only [Extent.slice, Extent.length, List.length_take, List.length_drop, traversed.length_eq]
    omega
  have leads := @leadsOver_all pass root path tree reached (extent.slice steps) extent.start
    (fun offset step covered => by
      have here := Extent.getElem?_of_slice covered
      obtain ⟨bound, _⟩ := List.getElem?_eq_some_iff.mp here
      rw [traversed.length_eq] at bound
      have child := List.getElem?_eq_getElem bound
      exact ⟨_, child, traversed.leads _ _ step child here⟩)
  rw [length] at leads
  exact leads

private theorem Traversed.leadsOver_drop {steps : List (Traced Tree)}
    (traversed : pass.Traversed root path tree steps) (reached : root.at? path = some tree)
    {next : Nat} (within : next ≤ tree.children.length) :
    pass.LeadsOver root path tree ⟨next, tree.children.length⟩ (Traced.all (steps.drop next)) := by
  rw [← Extent.slice_eq_drop traversed.length_eq next]
  exact traversed.leadsOver_slice reached within (Nat.le_refl _)

private theorem Traversed.leadsOver_all {steps : List (Traced Tree)}
    (traversed : pass.Traversed root path tree steps) (reached : root.at? path = some tree) :
    pass.LeadsOver root path tree ⟨0, tree.children.length⟩ (Traced.all steps) :=
  traversed.leadsOver_drop reached (Nat.zero_le _)

private theorem LeadsOver.whole {traced : Traced (List Tree)}
    (leads : pass.LeadsOver root path tree ⟨0, tree.children.length⟩ traced) :
    Chain (pass.Performs root path) traced.trace.applied tree
      (tree.withChildren traced.value) := by
  have chain := leads []
  simpa using chain

theorem allProper_treeClaims (pass : Pass) (composite : Bool) (scope : Option Nat) (position : Nat)
    (place : Location) (tree : Tree) :
    Contest.AllProper (pass.treeClaims composite scope position place tree).value := by
  intro claim member
  obtain ⟨_, _, _, _, _, _, _, rfl⟩ := mem_treeClaims.mp member
  exact Nat.lt_succ_self position

/-- Settling the claims on one tree comes to nothing or to the replacement for one of them. -/
theorem settleTree_cases (replacing : pass.mode = .replace) (path : List Nat) (tree : Tree)
    (claims : List (Claim Match)) :
    ((pass.settleTree path tree claims).value = none ∧
        (pass.settleTree path tree claims).trace.applied = []) ∨
      ∃ winner ∈ claims, ∃ trees, replacement winner.payload tree.span = .ok trees ∧
        Tree.sameAll trees [tree] = false ∧
        (pass.settleTree path tree claims).value = trees.head? ∧
        (pass.settleTree path tree claims).trace.applied =
          [entryOf winner.payload ⟨path, none, tree.span⟩] := by
  rw [settleTree]
  split
  · exact .inl ⟨rfl, rfl⟩
  · exact .inl ⟨rfl, rfl⟩
  · rename_i winner rest awards
    have granted : .grant winner ∈ Contest.resolve claims := awards ▸ List.mem_cons_self
    simp only [Traced.value_bind, Traced.trace_bind, Traced.value_pure, Traced.trace_pure,
      List.append_nil]
    rcases carryOut_cases replacing winner.payload [tree] ⟨path, none, tree.span⟩ with
      ⟨nothing, idle⟩ | ⟨trees, filled, differs, replaced, applied⟩
    · rw [nothing]
      exact .inl ⟨rfl, idle.applied_eq_nil⟩
    · rw [replaced]
      exact .inr ⟨winner, Contest.mem_of_grant granted, trees, filled, differs, rfl, applied⟩

private theorem leads_settleTree (replacing : pass.mode = .replace) (sound : pass.Sound)
    {site : Tree} (reached : root.at? path = some site) (composite : Bool) (place : Location)
    (rebuilt : ∃ children, tree = site.withChildren children) {claims : List (Claim Match)}
    (made : claims = (pass.treeClaims composite (pass.scopeAt root path) 0 place tree).value) :
    Chain (pass.Performs root path) (pass.settleTree path tree claims).trace.applied tree
      ((pass.settleTree path tree claims).value.getD tree) := by
  rcases settleTree_cases replacing path tree claims with
    ⟨nothing, quiet⟩ | ⟨winner, claimed, trees, filled, differs, replaced, applied⟩
  · rw [nothing, quiet]
    exact .nil tree
  · rw [made] at claimed
    obtain ⟨new, rfl, performs⟩ :=
      performs_of_treeClaim sound reached rebuilt claimed filled differs
    rw [replaced, applied]
    exact .single performs

private theorem leads_trySimple (replacing : pass.mode = .replace) (sound : pass.Sound)
    {site : Tree} (reached : root.at? path = some site) (children : List Tree) :
    pass.Leads root path (site.withChildren children)
      (pass.trySimple path (pass.scopeAt root path) (site.withChildren children)) := by
  have settled := leads_settleTree replacing sound reached false
    ⟨path, none, (site.withChildren children).span⟩ ⟨children, rfl⟩ rfl
  have claiming := idle_treeClaims pass false (pass.scopeAt root path) 0
    ⟨path, none, (site.withChildren children).span⟩ (site.withChildren children)
  rw [Leads, trySimple]
  simp only [Traced.value_bind, Traced.trace_bind, Traced.value_pure, Traced.trace_pure,
    List.append_nil, Trace.applied_append, claiming.applied_eq_nil, List.nil_append]
  exact settled

theorem leads_tryComposite (replacing : pass.mode = .replace) (sound : pass.Sound)
    (reached : root.at? path = some tree) {traversed : Traced Tree}
    (leads : pass.Leads root path tree traversed) :
    pass.Leads root path tree
      (pass.tryComposite path (pass.scopeAt root path) tree traversed) := by
  have settled := leads_settleTree replacing sound reached true ⟨path, none, tree.span⟩
    ⟨tree.children, tree.withChildren_children.symm⟩ rfl
  have claiming := idle_treeClaims pass true (pass.scopeAt root path) 0 ⟨path, none, tree.span⟩ tree
  rw [Leads, tryComposite]
  simp only [Traced.value_bind, Traced.trace_bind, Trace.applied_append, claiming.applied_eq_nil,
    List.nil_append]
  split
  · rename_i replaced found
    rw [found] at settled
    simpa using settled
  · rename_i nothing
    rw [nothing] at settled
    exact settled.append leads

/-- The claims on a block, under the version that is known below it. -/
def claimsAt (pass : Pass) (root : Tree) (path : List Nat) (block : Tree) : List (Claim Match) :=
  (pass.blockClaims path (pass.innerScope (pass.scopeAt root path) block) block.children).value

/-- A claim on a block covers statements of the block. -/
theorem bounds_of_mem_blockClaims (sound : pass.Sound) {scope : Option Nat}
    {statements : List Tree} {claim : Claim Match}
    (claimed : claim ∈ (pass.blockClaims path scope statements).value) :
    claim.extent.Proper ∧ claim.extent.stop ≤ statements.length := by
  obtain ⟨index, statement, here, single | window⟩ := mem_blockClaims.mp claimed
  · obtain ⟨_, _, _, _, _, _, _, rfl⟩ := mem_treeClaims.mp single
    obtain ⟨inside, _⟩ := List.getElem?_eq_some_iff.mp here
    exact ⟨Nat.lt_succ_self index, inside⟩
  · obtain ⟨rule, tried, _, bindings, extent, matched, _, rfl⟩ := mem_windowClaims.mp window
    have compiled := sound.compiled tried
    obtain ⟨_, proper, inside, _⟩ := Pattern.matchWindow_root compiled matched
    exact ⟨proper, inside⟩

theorem allProper_claimsAt (sound : pass.Sound) (root : Tree) (path : List Nat) (block : Tree) :
    Contest.AllProper (pass.claimsAt root path block) :=
  fun _ member => (bounds_of_mem_blockClaims sound member).1

/-- The awards of a block from a statement on lie apart, and what is granted was claimed. -/
structure Awarded (pass : Pass) (root : Tree) (path : List Nat) (block : Tree) (next : Nat)
    (awards : List (Award Match)) : Prop where
  claimed : ∀ winner, .grant winner ∈ awards → winner ∈ pass.claimsAt root path block
  bounded : ∀ award ∈ awards, next ≤ award.extent.start ∧ award.extent.Proper ∧
    award.extent.stop ≤ block.children.length
  apart : awards.Pairwise fun a b => a.extent.stop ≤ b.extent.start

private theorem Awarded.spread {next : Nat} {awards : List (Award Match)}
    (awarded : pass.Awarded root path tree next awards) :
    Contest.Spread tree.children.length next awards :=
  ⟨awarded.bounded, awarded.apart⟩

theorem Awarded.tail {next : Nat} {award : Award Match} {rest : List (Award Match)}
    (awarded : pass.Awarded root path tree next (award :: rest)) :
    pass.Awarded root path tree award.extent.stop rest :=
  ⟨fun winner member => awarded.claimed winner (List.mem_cons_of_mem _ member),
    awarded.spread.tail.bounded, awarded.spread.tail.apart⟩

theorem awarded_resolve (sound : pass.Sound) (root : Tree) (path : List Nat) (block : Tree) :
    pass.Awarded root path block 0 (Contest.resolve (pass.claimsAt root path block)) := by
  have spread := Contest.spread_resolve (allProper_claimsAt sound root path block)
    fun _ claimed => (bounds_of_mem_blockClaims sound claimed).2
  exact ⟨fun winner member => Contest.mem_of_grant member, spread.bounded, spread.apart⟩

private theorem performs_of_blockClaim (sound : pass.Sound) {block : Tree}
    (reached : root.at? path = some block) (isBlock : pass.language.isBlock block.kind = true)
    {claim : Claim Match} (claimed : claim ∈ pass.claimsAt root path block) {trees : List Tree}
    {location : Location} (located : location = blockLocation path block.children claim.extent
      claim.payload.rule.pattern.isWindow)
    (filled : replacement claim.payload location.span = .ok trees)
    (differs : Tree.sameAll trees (claim.extent.slice block.children) = false)
    (done : List Tree) : pass.Performs root path (entryOf claim.payload location)
      (block.withChildren (done ++ block.children.drop claim.extent.start))
      (block.withChildren (done ++ trees ++ block.children.drop claim.extent.stop)) := by
  obtain ⟨index, statement, here, single | window⟩ := mem_blockClaims.mp claimed
  · have below : root.at? (path ++ [index]) = some statement :=
      (Tree.at?_concat reached index).trans here
    rw [← scopeAt_concat reached index] at single
    obtain ⟨rule, tried, isNode, _, bindings, _, _, rfl⟩ := mem_treeClaims.mp single
    have place : location = ⟨path ++ [index], none, statement.span⟩ := by
      rw [located, isNode, ← extentSpan_single here]
      rfl
    have onward : block.children.drop index = statement :: block.children.drop (index + 1) := by
      obtain ⟨inside, rfl⟩ := List.getElem?_eq_some_iff.mp here
      exact List.drop_eq_getElem_cons inside
    rw [slice_single here] at differs
    subst place
    obtain ⟨new, rfl, performs⟩ := performs_of_treeClaim sound below
      ⟨statement.children, statement.withChildren_children.symm⟩ single filled differs
    have step := performs.child reached done
    simpa [Extent.single, onward] using step
  · obtain ⟨rule, _, isWindow, bindings, extent, matched, _, rfl⟩ := mem_windowClaims.mp window
    have place : location = ⟨path, some extent, extentSpan block.children extent⟩ := by
      rw [located, isWindow]
      rfl
    subst place
    exact performs_of_windowClaim sound reached isBlock here window filled differs done

private theorem settleAward_cases (replacing : pass.mode = .replace) (sound : pass.Sound)
    {block : Tree}
    (reached : root.at? path = some block) (isBlock : pass.language.isBlock block.kind = true)
    {award : Award Match}
    (claimed : ∀ winner, award = .grant winner → winner ∈ pass.claimsAt root path block) :
    ((pass.settleAward path block.children award).value = none ∧
        (pass.settleAward path block.children award).trace.Idle) ∨
      ∃ trees entry, (pass.settleAward path block.children award).value = some trees ∧
        (pass.settleAward path block.children award).trace.applied = [entry] ∧
        ∀ done, pass.Performs root path entry
          (block.withChildren (done ++ block.children.drop award.extent.start))
          (block.withChildren (done ++ trees ++ block.children.drop award.extent.stop)) := by
  cases award with
  | ambiguous extent rules =>
    left
    simp [settleAward, report, Event.isIdle]
  | grant winner =>
    have member := claimed winner rfl
    rcases carryOut_cases replacing winner.payload (winner.extent.slice block.children)
      (blockLocation path block.children winner.extent winner.payload.rule.pattern.isWindow) with
      nothing | ⟨trees, filled, differs, replaced, applied⟩
    · exact .inl nothing
    · exact .inr ⟨trees, _, replaced, applied,
        performs_of_blockClaim sound reached isBlock member rfl filled differs⟩

/-- Settling one award, with the statements it covers traversed where it replaces nothing. -/
def settleOrTraverse (pass : Pass) (path : List Nat) (statements : List Tree)
    (traversed : List (Traced Tree)) (award : Award Match) : Traced (List Tree) := do
  match ← pass.settleAward path statements award with
  | some replaced => pure replaced
  | none => Traced.all (award.extent.slice traversed)

theorem assemble_cons (pass : Pass) (path : List Nat) (statements : List Tree)
    (traversed : List (Traced Tree)) (next : Nat) (award : Award Match)
    (rest : List (Award Match)) :
    pass.assemble path statements traversed next (award :: rest) = (do
      let before ← Traced.all (Extent.slice ⟨next, award.extent.start⟩ traversed)
      let after ← (do
        let here ← pass.settleOrTraverse path statements traversed award
        let after ← pass.assemble path statements traversed award.extent.stop rest
        pure (here ++ after))
      pure (before ++ after)) := by
  rw [assemble]
  congr 1
  funext before
  simp only [settleOrTraverse, bind_assoc, pure_bind]
  congr 1
  funext settled
  cases settled <;> simp

private theorem leadsOver_settleOrTraverse (replacing : pass.mode = .replace) (sound : pass.Sound)
    {block : Tree} (reached : root.at? path = some block)
    (isBlock : pass.language.isBlock block.kind = true) {steps : List (Traced Tree)}
    (traversed : pass.Traversed root path block steps) {next : Nat} {award : Award Match}
    {rest : List (Award Match)} (awarded : pass.Awarded root path block next (award :: rest)) :
    pass.LeadsOver root path block award.extent
      (pass.settleOrTraverse path block.children steps award) := by
  have ⟨_, proper, inside⟩ := awarded.bounded award List.mem_cons_self
  have claimed : ∀ winner, award = .grant winner → winner ∈ pass.claimsAt root path block :=
    fun winner grant => awarded.claimed winner (grant ▸ List.mem_cons_self)
  intro done
  rw [settleOrTraverse]
  simp only [Traced.value_bind, Traced.trace_bind, Trace.applied_append]
  rcases settleAward_cases replacing sound reached isBlock claimed with
    ⟨nothing, idle⟩ | ⟨trees, entry, replaced, applied, performs⟩
  · rw [nothing, idle.applied_eq_nil]
    exact traversed.leadsOver_slice reached (Nat.le_of_lt proper) inside done
  · rw [replaced, applied]
    exact .single (performs done)

private theorem leadsOver_assemble (replacing : pass.mode = .replace) (sound : pass.Sound)
    {block : Tree}
    (reached : root.at? path = some block) (isBlock : pass.language.isBlock block.kind = true)
    {steps : List (Traced Tree)} (traversed : pass.Traversed root path block steps) {next : Nat}
    (within : next ≤ block.children.length) {awards : List (Award Match)}
    (awarded : pass.Awarded root path block next awards) :
    pass.LeadsOver root path block ⟨next, block.children.length⟩
      (pass.assemble path block.children steps next awards) := by
  induction awards generalizing next with
  | nil =>
    rw [assemble]
    exact traversed.leadsOver_drop reached within
  | cons award rest ih =>
    have ⟨later, proper, inside⟩ := awarded.bounded award List.mem_cons_self
    rw [assemble_cons]
    have first : pass.LeadsOver root path block ⟨next, award.extent.start⟩ _ :=
      traversed.leadsOver_slice reached later (Nat.le_of_lt (Nat.lt_of_lt_of_le proper inside))
    have second := leadsOver_settleOrTraverse replacing sound reached isBlock traversed awarded
    have third := ih inside awarded.tail
    exact first.append (second.append third)

private theorem leads_visitBlock (replacing : pass.mode = .replace) (sound : pass.Sound)
    {block : Tree}
    (reached : root.at? path = some block) (isBlock : pass.language.isBlock block.kind = true)
    {steps : List (Traced Tree)} (traversed : pass.Traversed root path block steps) :
    Chain (pass.Performs root path)
      (pass.visitBlock path (pass.innerScope (pass.scopeAt root path) block) block.children
        steps).trace.applied block
      (block.withChildren (pass.visitBlock path (pass.innerScope (pass.scopeAt root path) block)
        block.children steps).value) := by
  have claiming := idle_blockClaims pass path (pass.innerScope (pass.scopeAt root path) block)
    block.children
  have chain := (leadsOver_assemble replacing sound reached isBlock traversed (Nat.zero_le _)
    (awarded_resolve sound root path block)).whole
  rw [visitBlock]
  simp only [Traced.value_bind, Traced.trace_bind, Trace.applied_append, claiming.applied_eq_nil,
    List.nil_append]
  exact chain

private theorem leads_visitOperands (replacing : pass.mode = .replace) (sound : pass.Sound)
    (reached : root.at? path = some tree) {steps : List (Traced Tree)}
    (traversed : pass.Traversed root path tree steps) :
    Chain (pass.Performs root path)
      (pass.visitOperands path (pass.innerScope (pass.scopeAt root path) tree) tree.children
        steps).trace.applied tree
      (tree.withChildren (pass.visitOperands path (pass.innerScope (pass.scopeAt root path) tree)
        tree.children steps).value) := by
  apply LeadsOver.whole
  rw [visitOperands]
  apply Traversed.leadsOver_all ?_ reached
  constructor
  · rw [List.length_mapIdx, List.length_zip, traversed.length_eq, Nat.min_self]
  · intro index child step here made
    obtain ⟨other, inner, same, visited, rfl⟩ := exists_of_operand made
    rw [here, Option.some.injEq] at same
    subst same
    have below : root.at? (path ++ [index]) = some child :=
      (Tree.at?_concat reached index).trans here
    have leads := traversed.leads index child inner here visited
    have composite := leads_tryComposite replacing sound below leads
    rwa [scopeAt_concat reached index] at composite

theorem leads_visitChildren (replacing : pass.mode = .replace) (sound : pass.Sound)
    (reached : root.at? path = some tree) {steps : List (Traced Tree)}
    (traversed : pass.Traversed root path tree steps) :
    Chain (pass.Performs root path)
      (pass.visitChildren path (pass.innerScope (pass.scopeAt root path) tree) tree.kind
        tree.children steps).trace.applied tree
      (tree.withChildren (pass.visitChildren path (pass.innerScope (pass.scopeAt root path) tree)
        tree.kind tree.children steps).value) := by
  rw [visitChildren]
  split
  · rename_i isBlock
    exact leads_visitBlock replacing sound reached isBlock traversed
  · exact leads_visitOperands replacing sound reached traversed

theorem leads_traverse (replacing : pass.mode = .replace) (sound : pass.Sound)
    (reached : root.at? path = some tree) :
    pass.Leads root path tree (pass.traverse path (pass.scopeAt root path) tree) := by
  apply traverse_induct (motive := pass.Leads root) ?_ reached
  intro path tree reached each
  have traversed : pass.Traversed root path tree (pass.traverseAll path
      (pass.innerScope (pass.scopeAt root path) tree) 0 tree.children) := by
    refine ⟨length_traverseAll _ _ _ _ _, ?_⟩
    intro index child step here visited
    obtain ⟨other, there, leads⟩ := each index step visited
    cases here.symm.trans there
    exact leads
  have below := leads_visitChildren replacing sound reached traversed
  have above := leads_trySimple replacing sound reached
  simp only [Leads] at above ⊢
  simp only [Traced.value_bind, Traced.trace_bind, Trace.applied_append]
  exact below.append (above _)

theorem traversed_traverseAll (replacing : pass.mode = .replace) (sound : pass.Sound)
    (reached : root.at? path = some tree) :
    pass.Traversed root path tree
      (pass.traverseAll path (pass.innerScope (pass.scopeAt root path) tree) 0 tree.children) := by
  refine ⟨length_traverseAll _ _ _ _ _, ?_⟩
  intro index child step here visited
  rw [getElem?_traverseAll, here, Nat.zero_add] at visited
  cases visited
  rw [← scopeAt_concat reached index]
  exact leads_traverse replacing sound ((Tree.at?_concat reached index).trans here)

/-- A pass that replaces leads from a tree to its value by the applications it reports. -/
theorem leads_run (replacing : pass.mode = .replace) (sound : pass.Sound) (root : Tree) :
    pass.Leads root [] root (pass.run root) := by
  have reached : root.at? [] = some root := rfl
  rw [run_eq]
  exact leads_tryComposite replacing sound reached (leads_traverse replacing sound reached)

end Pass

end Codemod
