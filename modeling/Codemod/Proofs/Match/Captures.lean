import Codemod.Match
import Codemod.Proofs.Except
import Codemod.Tree.Lemmas

/-!
# What a match captures

A match of a compiled pattern binds the names of its capture table and no others, each to what its
kind allows. Where no hole can take a run of statements a list of terms therefore matches tree by
tree.
-/

namespace Codemod

/-- A back-reference that carries no capture kind of its own, or a hole that captures. -/
def Hole.Plain (hole : Hole) : Prop :=
  hole.backRef = true → hole.kind = none

def Shape.Plain (shape : Shape) : Prop :=
  ∀ hole ∈ Term.holesAll shape.terms, hole.Plain

instance (hole : Hole) : Decidable hole.Plain :=
  inferInstanceAs (Decidable (hole.backRef = true → hole.kind = none))

instance (shape : Shape) : Decidable shape.Plain :=
  inferInstanceAs (Decidable (∀ hole ∈ Term.holesAll shape.terms, hole.Plain))

/-- The bindings hold a capture for each name of the table, of the kind the table gives. -/
def Captured (language : Language) (captures : CaptureTable) (bindings : Bindings) : Prop :=
  ∀ name, match captures.find? name with
    | none => bindings.find? name = none
    | some .sequence => ∃ trees, bindings.find? name = some (.sequence trees)
    | some kind => ∃ tree, bindings.find? name = some (.node tree) ∧ kind.fits language tree = true

namespace Captured

variable {language : Language} {captures : CaptureTable} {bindings : Bindings}

theorem empty (language : Language) : Captured language .empty .empty := fun _ => rfl

theorem sequence_iff (captured : Captured language captures bindings) (name : String) :
    captures.find? name = some .sequence ↔
      ∃ trees, bindings.find? name = some (.sequence trees) := by
  have here := captured name
  split at here <;> grind

theorem none_iff (captured : Captured language captures bindings) (name : String) :
    captures.find? name = none ↔ bindings.find? name = none := by
  have here := captured name
  split at here <;> grind

private theorem insert_node (captured : Captured language captures bindings) {kind : HoleKind}
    {tree : Tree} (fits : kind.fits language tree = true) (name : String) :
    Captured language (captures.insert name kind) (bindings.insert name (.node tree)) := by
  intro other
  by_cases same : other = name
  · subst same
    cases kind with
    | sequence => simp [HoleKind.fits] at fits
    | expression | statement | identifier => simpa using fits
  · simpa [same] using captured other

theorem insert_sequence (captured : Captured language captures bindings) (name : String)
    (trees : List Tree) : Captured language (captures.insert name .sequence)
      (bindings.insert name (.sequence trees)) := by
  intro other
  by_cases same : other = name
  · subst same
    simp
  · simpa [same] using captured other

end Captured

theorem Hole.enter_cases {hole : Hole} {site : Site} {captures extended : CaptureTable}
    (entered : hole.enter site captures = .ok extended) :
    site ≠ .root ∧
      ((hole.backRef = true ∧ extended = captures ∧ ∃ kind,
          captures.find? hole.name = some kind ∧ (kind = .sequence → site = .statement)) ∨
        (hole.backRef = false ∧ (hole.effectiveKind = .sequence → site = .statement) ∧
          (captures.find? hole.name = some hole.effectiveKind ∧ extended = captures ∨
            captures.find? hole.name = none ∧
              extended = captures.insert hole.name hole.effectiveKind))) := by
  simp only [enter] at entered
  split at entered
  · contradiction
  · rename_i notRoot
    refine ⟨notRoot, ?_⟩
    split at entered
    · rename_i backRef
      left
      split at entered
      · rename_i found
        split at entered
        · rename_i statement
          exact ⟨backRef, (Except.ok.inj entered).symm, _, found, fun _ => statement⟩
        · contradiction
      · rename_i kind notSequence found
        exact ⟨backRef, (Except.ok.inj entered).symm, _, found, fun is => absurd is notSequence⟩
      · contradiction
    · rename_i capturing
      right
      split at entered
      · contradiction
      · rename_i placed
        refine ⟨by simpa using capturing, fun sequence => ?_, ?_⟩
        · exact Decidable.byContradiction fun elsewhere => placed ⟨sequence, elsewhere⟩
        · split at entered
          · rename_i first found
            split at entered
            · rename_i agrees
              exact .inl ⟨agrees ▸ found, (Except.ok.inj entered).symm⟩
            · contradiction
          · rename_i absent
            exact .inr ⟨absent, (Except.ok.inj entered).symm⟩

/-- A hole is compared with what its name captured before, or captures a tree that fits. -/
theorem Hole.capture_cases {language : Language} {hole : Hole} {tree : Tree}
    {bindings bound : Bindings} (matched : hole.capture language tree bindings = some bound) :
    (∃ earlier, bindings.find? hole.name = some (.node earlier) ∧ earlier.same tree = true ∧
        bound = bindings) ∨
      (hole.backRef = false ∧ hole.effectiveKind.fits language tree = true ∧
        bindings.find? hole.name = none ∧ bound = bindings.insert hole.name (.node tree)) := by
  rw [capture] at matched
  split at matched
  · rename_i allowed
    split at matched
    · rename_i earlier found
      split at matched
      · rename_i same
        exact .inl ⟨earlier, found, same, (Option.some.inj matched).symm⟩
      · contradiction
    · contradiction
    · rename_i unbound
      split at matched
      · contradiction
      · rename_i capturing
        have fits : hole.effectiveKind.fits language tree = true := by
          simpa [capturing] using allowed
        exact .inr ⟨by simpa using capturing, fits, unbound, (Option.some.inj matched).symm⟩
  · contradiction

theorem Term.hole_of_repeating {bindings : Bindings} {term : Term} {trees : List Tree}
    (repeating : stretch bindings term = .repeating trees) :
    ∃ slot, term = .hole slot ∧ bindings.find? slot.name = some (.sequence trees) := by
  cases term with
  | leaf kind text => simp [stretch] at repeating
  | branch kind children => simp [stretch] at repeating
  | hole slot =>
    simp only [stretch] at repeating
    split at repeating
    · rename_i earlier found
      cases repeating
      exact ⟨slot, rfl, found⟩
    · split at repeating <;> contradiction

theorem Term.hole_of_fresh {bindings : Bindings} {term : Term} {name : String}
    (fresh : stretch bindings term = .fresh name) :
    ∃ slot, term = .hole slot ∧ slot.name = name ∧ slot.kind = some .sequence ∧
      ∀ earlier, bindings.find? slot.name ≠ some (.sequence earlier) := by
  cases term with
  | leaf kind text => simp [stretch] at fresh
  | branch kind children => simp [stretch] at fresh
  | hole slot =>
    simp only [stretch] at fresh
    split at fresh
    · contradiction
    · rename_i unbound
      split at fresh
      · rename_i sequence
        cases fresh
        exact ⟨slot, rfl, rfl, sequence, unbound⟩
      · contradiction

/-- The terms after the first one match what it leaves. -/
theorem Term.unifyAll_cons_cases {language : Language} {term : Term} {rest : List Term}
    {trees : List Tree} {bindings bound : Bindings} {anchored : Bool} {used : Nat}
    (matched : unifyAll language (term :: rest) trees bindings anchored = some (bound, used)) :
    (∃ slot earlier more, term = .hole slot ∧
        bindings.find? slot.name = some (.sequence earlier) ∧
        Tree.sameAll earlier (trees.take earlier.length) = true ∧
        unifyAll language rest (trees.drop earlier.length) bindings anchored = some (bound, more) ∧
        used = earlier.length + more) ∨
      (∃ slot length more, term = .hole slot ∧ slot.kind = some .sequence ∧
        (∀ earlier, bindings.find? slot.name ≠ some (.sequence earlier)) ∧
        length ≤ trees.length ∧
        unifyAll language rest (trees.drop length)
          (bindings.insert slot.name (.sequence (trees.take length))) anchored =
            some (bound, more) ∧
        used = length + more) ∨
      ∃ tree others next more, stretch bindings term = .single ∧ trees = tree :: others ∧
        unify language term tree bindings = some next ∧
        unifyAll language rest others next anchored = some (bound, more) ∧ used = more + 1 := by
  rw [unifyAll.eq_def] at matched
  simp only at matched
  split at matched
  · rename_i earlier repeating
    left
    obtain ⟨slot, rfl, found⟩ := hole_of_repeating repeating
    split at matched
    · rename_i equal
      obtain ⟨⟨next, more⟩, rest_matched, result⟩ := Option.map_eq_some_iff.mp matched
      cases result
      exact ⟨slot, earlier, more, rfl, found, equal, rest_matched, rfl⟩
    · contradiction
  · rename_i name fresh
    right
    left
    obtain ⟨slot, rfl, rfl, sequence, unbound⟩ := hole_of_fresh fresh
    obtain ⟨length, inRange, attempt⟩ := List.exists_of_findSome?_eq_some matched
    obtain ⟨⟨next, more⟩, rest_matched, result⟩ := Option.map_eq_some_iff.mp attempt
    cases result
    have short : length ≤ trees.length := Nat.le_of_lt_succ (List.mem_range.mp inRange)
    exact ⟨slot, length, more, rfl, sequence, unbound, short, rest_matched, rfl⟩
  · rename_i single
    right
    right
    split at matched
    · contradiction
    · rename_i tree others
      split at matched
      · contradiction
      · rename_i next unified
        obtain ⟨⟨last, more⟩, rest_matched, result⟩ := Option.map_eq_some_iff.mp matched
        cases result
        exact ⟨tree, others, next, more, single, rfl, unified, rest_matched, rfl⟩

namespace Term

variable {language : Language}

theorem checkAll_cons_ok {site : Site} {term : Term} {rest : List Term}
    {captures extended : CaptureTable}
    (checked : checkAll language site (term :: rest) captures = .ok extended) :
    ∃ middle, check language site term captures = .ok middle ∧
      checkAll language site rest middle = .ok extended :=
  exists_of_bind_ok checked

private theorem captured_of_capture {hole : Hole} {site : Site} {captures extended : CaptureTable}
    {tree : Tree} {bindings bound : Bindings} (entered : hole.enter site captures = .ok extended)
    (captured : Captured language captures bindings)
    (matched : hole.capture language tree bindings = some bound) :
    Captured language extended bound := by
  rcases Hole.capture_cases matched with
    ⟨earlier, found, _, rfl⟩ | ⟨capturing, fits, unbound, rfl⟩
  · -- the name is bound already, so the table knows it and does not grow
    obtain ⟨_, ⟨_, rfl, _⟩ | ⟨_, _, ⟨_, rfl⟩ | ⟨absent, _⟩⟩⟩ := Hole.enter_cases entered
    · exact captured
    · exact captured
    · rw [captured.none_iff, found] at absent
      contradiction
  · obtain ⟨_, ⟨backRef, _⟩ | ⟨_, _, ⟨found, _⟩ | ⟨_, rfl⟩⟩⟩ := Hole.enter_cases entered
    · rw [capturing] at backRef
      contradiction
    · rw [(captured.none_iff hole.name).mpr unbound] at found
      contradiction
    · exact captured.insert_node fits hole.name

theorem enter_of_repeating {hole : Hole} {site : Site} {captures extended : CaptureTable}
    {bindings : Bindings} {earlier : List Tree} (entered : hole.enter site captures = .ok extended)
    (captured : Captured language captures bindings)
    (found : bindings.find? hole.name = some (.sequence earlier)) :
    extended = captures ∧ site = .statement := by
  have sequence := (captured.sequence_iff hole.name).mpr ⟨earlier, found⟩
  obtain ⟨_, ⟨_, same, kind, known, placed⟩ | ⟨_, placed, ⟨known, same⟩ | ⟨absent, _⟩⟩⟩ :=
    Hole.enter_cases entered
  · rw [sequence] at known
    exact ⟨same, placed (Option.some.inj known).symm⟩
  · rw [sequence] at known
    exact ⟨same, placed (Option.some.inj known).symm⟩
  · rw [sequence] at absent
    contradiction

theorem enter_of_fresh {hole : Hole} {site : Site} {captures extended : CaptureTable}
    {bindings : Bindings} (plain : hole.Plain) (entered : hole.enter site captures = .ok extended)
    (captured : Captured language captures bindings) (sequence : hole.kind = some .sequence)
    (unbound : ∀ earlier, bindings.find? hole.name ≠ some (.sequence earlier)) :
    bindings.find? hole.name = none ∧ extended = captures.insert hole.name .sequence ∧
      site = .statement := by
  have capturing : hole.backRef = false := by
    by_cases backRef : hole.backRef = true
    · rw [plain backRef] at sequence
      contradiction
    · simpa using backRef
  have effective : hole.effectiveKind = .sequence := by simp [Hole.effectiveKind, sequence]
  obtain ⟨_, ⟨backRef, _⟩ | ⟨_, placed, ⟨known, _⟩ | ⟨absent, grown⟩⟩⟩ := Hole.enter_cases entered
  · rw [capturing] at backRef
    contradiction
  · rw [effective, captured.sequence_iff] at known
    obtain ⟨earlier, found⟩ := known
    exact absurd found (unbound earlier)
  · exact ⟨(captured.none_iff _).mp absent, effective ▸ grown, placed effective⟩

mutual

theorem captured_of_unify : ∀ (term : Term) {site : Site} {captures extended : CaptureTable}
    {tree : Tree} {bindings bound : Bindings}, (∀ hole ∈ term.holes, hole.Plain) →
    check language site term captures = .ok extended → Captured language captures bindings →
    unify language term tree bindings = some bound → Captured language extended bound
  | .leaf kind text, _, _, _, _, _, _, _, checked, captured, matched => by
    rw [check, Except.ok.injEq] at checked
    rw [unify] at matched
    split at matched
    · cases checked
      cases matched
      exact captured
    · contradiction
  | .branch kind children, _, _, _, _, _, _, plain, checked, captured, matched => by
    rw [check] at checked
    rw [unify] at matched
    split at matched
    · obtain ⟨⟨_, used⟩, all, rfl⟩ := Option.map_eq_some_iff.mp matched
      exact captured_of_unifyAll children plain checked captured all
    · contradiction
  | .hole slot, _, _, _, _, _, _, _, checked, captured, matched => by
    rw [check] at checked
    rw [unify] at matched
    exact captured_of_capture checked captured matched

theorem captured_of_unifyAll : ∀ (terms : List Term) {site : Site}
    {captures extended : CaptureTable} {trees : List Tree} {bindings bound : Bindings}
    {anchored : Bool} {used : Nat}, (∀ hole ∈ holesAll terms, hole.Plain) →
    checkAll language site terms captures = .ok extended → Captured language captures bindings →
    unifyAll language terms trees bindings anchored = some (bound, used) →
      Captured language extended bound
  | [], _, _, _, _, _, _, _, _, _, checked, captured, matched => by
    rw [checkAll, Except.ok.injEq] at checked
    rw [unifyAll] at matched
    split at matched
    · contradiction
    · cases checked
      cases matched
      exact captured
  | term :: rest, _, _, _, _, _, _, _, _, plain, checked, captured, matched => by
    obtain ⟨middle, first, others⟩ := checkAll_cons_ok checked
    obtain ⟨firstPlain, restPlain⟩ := List.forall_mem_append.mp plain
    rcases unifyAll_cons_cases matched with ⟨slot, earlier, more, rfl, found, _, after, _⟩ |
      ⟨slot, length, more, rfl, sequence, unbound, _, after, _⟩ |
      ⟨tree, trees, next, more, _, _, unified, after, _⟩
    · rw [check] at first
      obtain ⟨rfl, _⟩ := enter_of_repeating first captured found
      exact captured_of_unifyAll rest restPlain others captured after
    · rw [check] at first
      have slotPlain := firstPlain slot (List.mem_singleton_self slot)
      obtain ⟨_, rfl, _⟩ := enter_of_fresh slotPlain first captured sequence unbound
      exact captured_of_unifyAll rest restPlain others (captured.insert_sequence slot.name _) after
    · have next_captured := captured_of_unify term firstPlain first captured unified
      exact captured_of_unifyAll rest restPlain others next_captured after

end

/-- Where no hole may take a run of statements each term matches the tree at its own position. -/
theorem unify_getElem_of_operands {terms : List Term} {captures extended : CaptureTable}
    {trees : List Tree} {bindings bound : Bindings} {anchored : Bool} {used : Nat}
    (plain : ∀ hole ∈ holesAll terms, hole.Plain)
    (checked : checkAll language .operand terms captures = .ok extended)
    (captured : Captured language captures bindings)
    (matched : unifyAll language terms trees bindings anchored = some (bound, used))
    {position : Nat} {term : Term} (here : terms[position]? = some term) :
    ∃ tree before after, trees[position]? = some tree ∧
      unify language term tree before = some after := by
  induction terms generalizing captures trees bindings used position with
  | nil => simp at here
  | cons first rest ih =>
    obtain ⟨middle, firstChecked, restChecked⟩ := checkAll_cons_ok checked
    obtain ⟨firstPlain, restPlain⟩ := List.forall_mem_append.mp plain
    rcases unifyAll_cons_cases matched with ⟨slot, earlier, more, rfl, found, _⟩ |
      ⟨slot, length, more, rfl, sequence, unbound, _⟩ |
      ⟨tree, others, next, more, _, rfl, unified, after, _⟩
    · rw [check] at firstChecked
      obtain ⟨_, site⟩ := enter_of_repeating firstChecked captured found
      contradiction
    · rw [check] at firstChecked
      have slotPlain := firstPlain slot (List.mem_singleton_self slot)
      obtain ⟨_, _, site⟩ := enter_of_fresh slotPlain firstChecked captured sequence unbound
      contradiction
    · cases position with
      | zero =>
        cases here
        exact ⟨tree, bindings, next, rfl, unified⟩
      | succ position =>
        have next_captured := captured_of_unify first firstPlain firstChecked captured unified
        exact ih restPlain restChecked next_captured after here

theorem used_le_length {terms : List Term} {trees : List Tree} {bindings bound : Bindings}
    {anchored : Bool} {used : Nat}
    (matched : unifyAll language terms trees bindings anchored = some (bound, used)) :
    used ≤ trees.length := by
  induction terms generalizing trees bindings used with
  | nil =>
    rw [unifyAll] at matched
    split at matched
    · contradiction
    · cases matched
      exact Nat.zero_le _
  | cons term rest ih =>
    rcases unifyAll_cons_cases matched with ⟨slot, earlier, more, _, _, equal, after, rfl⟩ |
      ⟨slot, length, more, _, _, _, short, after, rfl⟩ |
      ⟨tree, others, next, more, _, rfl, _, after, rfl⟩
    · have rest_le := ih after
      have length_eq := Tree.length_eq_of_sameAll equal
      rw [List.length_take] at length_eq
      rw [List.length_drop] at rest_le
      omega
    · have rest_le := ih after
      rw [List.length_drop] at rest_le
      omega
    · have rest_le := ih after
      rw [List.length_cons]
      omega

theorem used_of_anchored {terms : List Term} {trees : List Tree} {bindings bound : Bindings}
    {used : Nat} (matched : unifyAll language terms trees bindings true = some (bound, used)) :
    used = trees.length := by
  induction terms generalizing trees bindings used with
  | nil =>
    cases trees with
    | nil =>
      rw [unifyAll] at matched
      cases matched
      rfl
    | cons tree trees => simp [unifyAll] at matched
  | cons term rest ih =>
    rcases unifyAll_cons_cases matched with ⟨slot, earlier, more, _, _, equal, after, rfl⟩ |
      ⟨slot, length, more, _, _, _, short, after, rfl⟩ |
      ⟨tree, others, next, more, _, rfl, _, after, rfl⟩
    · have length_eq := Tree.length_eq_of_sameAll equal
      rw [List.length_take] at length_eq
      rw [ih after, List.length_drop]
      omega
    · rw [ih after, List.length_drop]
      omega
    · rw [ih after, List.length_cons]

theorem kind_of_unify {term : Term} {kind : String} (spelled : term.kind? = some kind) {tree : Tree}
    {bindings bound : Bindings} (matched : unify language term tree bindings = some bound) :
    tree.kind = kind := by
  cases term with
  | hole slot => contradiction
  | leaf _ text =>
    cases spelled
    rw [unify] at matched
    split at matched
    · rename_i equal
      exact equal.1
    · contradiction
  | branch _ children =>
    cases spelled
    rw [unify] at matched
    split at matched
    · rename_i equal
      exact equal.1
    · contradiction

end Term

end Codemod
