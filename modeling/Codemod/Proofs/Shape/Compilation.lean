import Codemod.Proofs.Assoc
import Codemod.Proofs.Match.Captures
import Codemod.Proofs.Shape.Occurrences
import Mathlib.Data.List.Induction

/-!
# Compiling shapes

Compilation enters the holes of a shape into a table, one after the other, and the table knows what
the names captured so far. So it accepts the well-formed shapes, and what it reports of another one
is the first hole that offends.
-/

namespace Codemod

variable {language : Language}

namespace Standing

/-- What compilation looks at of a place. -/
def site (language : Language) : Standing → Site
  | .element 0 => .root
  | .element (_ + 1) => .statement
  | .child kind => Term.childSite language kind

private theorem site_eq_root_iff {standing : Standing} :
    standing.site language = .root ↔ standing = .element 0 := by
  rcases standing with (_ | index) | kind
  · simp [site]
  · simp [site]
  · simp only [site, Term.childSite]
    split <;> simp

private theorem site_ne_root (language : Language) {standing : Standing}
    (inner : standing ≠ .element 0) : standing.site language ≠ .root :=
  mt site_eq_root_iff.mp inner

private theorem site_eq_statement_iff {standing : Standing} :
    standing.site language = .statement ↔ standing.IsStatement language := by
  rcases standing with (_ | index) | kind
  · simp [site, IsStatement]
  · simp [site, IsStatement]
  · simp [site, Term.childSite, IsStatement]

private theorem site_ne_statement {standing : Standing}
    (misplaced : ¬standing.IsStatement language) : standing.site language ≠ .statement :=
  mt site_eq_statement_iff.mp misplaced

end Standing

/-- Enters an occurrence into a table. -/
def Occurrence.enter (language : Language) (captures : CaptureTable) (occurrence : Occurrence) :
    Except PatternError CaptureTable :=
  occurrence.hole.enter (occurrence.standing.site language) captures

namespace Term

mutual

private theorem check_eq_foldlM (standing : Standing) : ∀ (term : Term) (captures : CaptureTable),
    check language (standing.site language) term captures =
      (term.occurrences standing).foldlM (Occurrence.enter language) captures
  | .leaf _ _, _ => rfl
  | .branch kind children, captures => checkAll_eq_foldlM kind children captures
  | .hole slot, captures => by
    rw [check, occurrences, List.foldlM_cons]
    exact (bind_pure _).symm

private theorem checkAll_eq_foldlM (kind : String) :
    ∀ (terms : List Term) (captures : CaptureTable),
    checkAll language (childSite language kind) terms captures =
      (occurrencesAll kind terms).foldlM (Occurrence.enter language) captures
  | [], _ => rfl
  | term :: rest, captures => by
    rw [checkAll, occurrencesAll, List.foldlM_append]
    congr 1
    · exact check_eq_foldlM (.child kind) term captures
    · funext extended
      exact checkAll_eq_foldlM kind rest extended

end

private theorem checkAll_statement_eq_foldlM (index : Nat) (terms : List Term)
    (captures : CaptureTable) : checkAll language .statement terms captures =
      (Shape.occurrencesFrom (index + 1) terms).foldlM (Occurrence.enter language) captures := by
  induction terms generalizing index captures with
  | nil => rfl
  | cons term rest ih =>
    rw [checkAll, Shape.occurrencesFrom_cons, List.foldlM_append]
    congr 1
    · exact check_eq_foldlM (.element (index + 1)) term captures
    · funext extended
      exact ih (index + 1) extended

end Term

private theorem Shape.captureTable_eq_foldlM {shape : Shape} (nonempty : shape ≠ .window []) :
    shape.captureTable language =
      shape.occurrences.foldlM (Occurrence.enter language) .empty := by
  cases shape with
  | node term =>
    have whole : occurrences (.node term) = term.occurrences (.element 0) := List.append_nil _
    rw [captureTable, whole]
    exact Term.check_eq_foldlM (.element 0) term .empty
  | window terms =>
    cases terms with
    | nil => contradiction
    | cons first rest =>
      rw [captureTable, occurrences, terms, occurrencesFrom_cons, List.foldlM_append]
      congr 1
      · exact Term.check_eq_foldlM (.element 0) first .empty
      · funext captures
        exact Term.checkAll_statement_eq_foldlM 0 rest captures

/-- The table lists the names of some occurrences in order, with the kinds they capture. -/
structure Records (captures : CaptureTable) (before : List Occurrence) : Prop where
  keys : captures.keys = distinct (before.map (·.hole.name))
  found : ∀ name kind, captures.find? name = some kind ↔
    ∃ capture ∈ before, capture.Captures name kind

private theorem distinct_concat {α : Type} [DecidableEq α] (items : List α) (last : α) :
    distinct (items ++ [last]) = addNew (distinct items) last := by
  rw [distinct, addAllNew, List.foldl_append]
  rfl

private theorem exists_mem_concat_iff {α : Type} {items : List α} {last : α} {P : α → Prop} :
    (∃ item ∈ items ++ [last], P item) ↔ (∃ item ∈ items, P item) ∨ P last := by
  simp only [List.mem_append, List.mem_singleton, or_and_right, exists_or, exists_eq_left]

private theorem records_empty : Records .empty [] := by
  refine ⟨rfl, fun name kind => ?_⟩
  simp

namespace Records

variable {captures extended : CaptureTable} {before : List Occurrence} {occurrence : Occurrence}

private theorem mem_keys_of_found (records : Records captures before) {name : String}
    {kind : HoleKind} (found : captures.find? name = some kind) : name ∈ captures.keys := by
  obtain ⟨capture, earlier, captured⟩ := (records.found name kind).mp found
  rw [records.keys, mem_distinct, ← captured.name_eq]
  exact List.mem_map_of_mem earlier

private theorem concat_of_known (records : Records captures before)
    (known : occurrence.hole.name ∈ captures.keys)
    (agrees : ∀ name kind, occurrence.Captures name kind → captures.find? name = some kind) :
    Records captures (before ++ [occurrence]) := by
  constructor
  · rw [records.keys] at known ⊢
    rw [List.map_append, List.map_singleton, distinct_concat, addNew, if_pos known]
  · intro name kind
    rw [exists_mem_concat_iff, ← records.found]
    exact ⟨.inl, fun either => either.elim id (agrees name kind)⟩

private theorem concat_of_new (records : Records captures before)
    (capturing : occurrence.hole.backRef = false)
    (absent : captures.find? occurrence.hole.name = none) :
    Records (captures.insert occurrence.hole.name occurrence.hole.effectiveKind)
      (before ++ [occurrence]) := by
  constructor
  · rw [List.map_append, List.map_singleton, distinct_concat, ← records.keys]
    exact Assoc.keys_alter captures occurrence.hole.name _
  · intro name kind
    rw [exists_mem_concat_iff, ← records.found, Assoc.find?_insert]
    split
    · rename_i same
      subst same
      rw [absent]
      constructor
      · intro here
        exact .inr ⟨capturing, rfl, Option.some.inj here⟩
      · rintro (earlier | ⟨_, _, rfl⟩)
        · contradiction
        · rfl
    · rename_i differs
      have other : ¬occurrence.Captures name kind := fun captured =>
        differs captured.name_eq.symm
      rw [or_iff_left other]

private theorem enter (records : Records captures before)
    (entered : occurrence.enter language captures = .ok extended) :
    Records extended (before ++ [occurrence]) := by
  rcases Hole.enter_cases entered with
    ⟨_, ⟨backRef, rfl, kind, found, _⟩ | ⟨capturing, _, ⟨found, rfl⟩ | ⟨absent, rfl⟩⟩⟩
  · refine records.concat_of_known (records.mem_keys_of_found found) fun name kind captures => ?_
    rw [captures.capturing] at backRef
    contradiction
  · refine records.concat_of_known (records.mem_keys_of_found found) ?_
    rintro name kind ⟨_, rfl, rfl⟩
    exact found
  · exact records.concat_of_new capturing absent

private theorem find?_eq_none_iff (records : Records captures before) {name : String} :
    captures.find? name = none ↔ ∀ capture ∈ before, ∀ kind, ¬capture.Captures name kind := by
  rw [Option.eq_none_iff_forall_ne_some]
  constructor
  · intro absent capture earlier kind captured
    exact absent kind ((records.found name kind).mpr ⟨capture, earlier, captured⟩)
  · intro absent kind found
    obtain ⟨capture, earlier, captured⟩ := (records.found name kind).mp found
    exact absent capture earlier kind captured

private theorem enter_eq_error (records : Records captures before) {error : PatternError}
    (offends : Offends language before occurrence error) :
    occurrence.enter language captures = .error error := by
  rw [Occurrence.enter, Hole.enter]
  cases offends with
  | root hole => rfl
  | unbound inner backRef absent =>
    have notRoot := Standing.site_ne_root language inner
    simp only [notRoot, if_false, backRef, if_true, records.find?_eq_none_iff.mpr absent]
  | reference inner backRef earlier sequence misplaced =>
    have notRoot := Standing.site_ne_root language inner
    have elsewhere := Standing.site_ne_statement misplaced
    have found := (records.found _ _).mpr ⟨_, earlier, sequence⟩
    simp only [notRoot, if_false, backRef, if_true, found, elsewhere]
  | misplaced inner sequence misplaced =>
    have notRoot := Standing.site_ne_root language inner
    have elsewhere := Standing.site_ne_statement misplaced
    obtain ⟨capturing, rfl, kind⟩ := sequence
    simp [notRoot, capturing, kind, elsewhere]
  | incompatible inner captured placed earlier captured' differ =>
    have notRoot := Standing.site_ne_root language inner
    have found := (records.found _ _).mpr ⟨_, earlier, captured'⟩
    obtain ⟨capturing, rfl, rfl⟩ := captured
    have fits : ¬(occurrence.hole.effectiveKind = .sequence ∧
        occurrence.standing.site language ≠ .statement) := by
      rintro ⟨sequence, elsewhere⟩
      exact elsewhere (Standing.site_eq_statement_iff.mpr (placed sequence))
    simp [notRoot, capturing, fits, found, differ]

private theorem offends_of_enter (records : Records captures before) {error : PatternError}
    (refused : occurrence.enter language captures = .error error) :
    Offends language before occurrence error := by
  simp only [Occurrence.enter, Hole.enter] at refused
  split at refused
  · rename_i atRoot
    obtain ⟨hole, standing⟩ := occurrence
    cases Standing.site_eq_root_iff.mp atRoot
    cases refused
    exact .root hole
  · rename_i notRoot
    have inner : occurrence.standing ≠ .element 0 := mt Standing.site_eq_root_iff.mpr notRoot
    split at refused
    · rename_i backRef
      split at refused
      · rename_i found
        split at refused
        · contradiction
        · rename_i elsewhere
          cases refused
          obtain ⟨capture, earlier, sequence⟩ := (records.found _ _).mp found
          exact .reference inner backRef earlier sequence
            (mt Standing.site_eq_statement_iff.mpr elsewhere)
      · contradiction
      · rename_i absent
        cases refused
        exact .unbound inner backRef (records.find?_eq_none_iff.mp absent)
    · rename_i notBackRef
      have capturing : occurrence.hole.backRef = false := by simpa using notBackRef
      split at refused
      · rename_i misplaced
        cases refused
        exact .misplaced inner ⟨capturing, rfl, misplaced.1⟩
          (mt Standing.site_eq_statement_iff.mpr misplaced.2)
      · rename_i placed
        split at refused
        · rename_i first found
          split at refused
          · contradiction
          · rename_i differ
            cases refused
            obtain ⟨capture, earlier, captured⟩ := (records.found _ _).mp found
            refine .incompatible inner ⟨capturing, rfl, rfl⟩ (fun sequence => ?_) earlier captured
              differ
            by_contra misplaced
            exact placed ⟨sequence, mt Standing.site_eq_statement_iff.mp misplaced⟩
        · contradiction

end Records

section Run

variable {occurrences : List Occurrence}

private theorem foldlM_concat (occurrences : List Occurrence) (last : Occurrence) :
    (occurrences ++ [last]).foldlM (Occurrence.enter language) .empty = (do
      let captures ← occurrences.foldlM (Occurrence.enter language) .empty
      last.enter language captures) := by
  rw [List.foldlM_append]
  congr 1
  funext captures
  rw [List.foldlM_cons]
  exact bind_pure _

/-- The table of the holes entered so far is a record of them. -/
theorem records_of_foldlM {captures : CaptureTable}
    (entered : occurrences.foldlM (Occurrence.enter language) .empty = .ok captures) :
    Records captures occurrences := by
  induction occurrences using List.reverseRecOn generalizing captures with
  | nil =>
    cases entered
    exact records_empty
  | append_singleton earlier last ih =>
    rw [foldlM_concat] at entered
    obtain ⟨middle, before, here⟩ := exists_of_bind_ok entered
    exact (ih before).enter here

private theorem exists_foldlM_ok_iff :
    (∃ captures, occurrences.foldlM (Occurrence.enter language) .empty = .ok captures) ↔
      Spotless language occurrences := by
  induction occurrences using List.reverseRecOn with
  | nil => exact ⟨fun _ => spotless_nil, fun _ => ⟨.empty, rfl⟩⟩
  | append_singleton earlier last ih =>
    rw [spotless_concat, ← ih]
    simp only [foldlM_concat]
    constructor
    · rintro ⟨captures, entered⟩
      obtain ⟨middle, before, here⟩ := exists_of_bind_ok entered
      refine ⟨⟨middle, before⟩, fun error offends => ?_⟩
      rw [(records_of_foldlM before).enter_eq_error offends] at here
      contradiction
    · rintro ⟨⟨middle, before⟩, fine⟩
      rw [before]
      cases entered : last.enter language middle with
      | ok captures => exact ⟨captures, entered⟩
      | error error =>
        exact absurd ((records_of_foldlM before).offends_of_enter entered) (fine error)

private theorem foldlM_eq_error_iff {error : PatternError} :
    occurrences.foldlM (Occurrence.enter language) .empty = .error error ↔
      FirstOffends language occurrences error := by
  induction occurrences using List.reverseRecOn generalizing error with
  | nil => simp [FirstOffends, pure, Except.pure]
  | append_singleton earlier last ih =>
    rw [firstOffends_concat, ← ih, ← exists_foldlM_ok_iff, foldlM_concat]
    cases before : earlier.foldlM (Occurrence.enter language) .empty with
    | error reason => simp [bind, Except.bind]
    | ok middle =>
      have records := records_of_foldlM before
      constructor
      · intro refused
        exact .inr ⟨⟨middle, rfl⟩, records.offends_of_enter refused⟩
      · rintro (refused | ⟨_, offends⟩)
        · contradiction
        · exact records.enter_eq_error offends

end Run

/-- A block is among the terms. -/
def HoldsBlock (language : Language) (terms : List Term) : Prop :=
  ∃ kind children, Term.branch kind children ∈ terms ∧ language.isBlock kind = true

/-- A sequence is captured. -/
def CapturesSequence (occurrences : List Occurrence) : Prop :=
  ∃ occurrence ∈ occurrences, ∃ name, occurrence.Captures name .sequence

private theorem holdsBlock_append {terms more : List Term} :
    HoldsBlock language (terms ++ more) ↔ HoldsBlock language terms ∨ HoldsBlock language more := by
  simp only [HoldsBlock, List.mem_append, or_and_right, exists_or]

private theorem capturesSequence_append {occurrences more : List Occurrence} :
    CapturesSequence (occurrences ++ more) ↔
      CapturesSequence occurrences ∨ CapturesSequence more := by
  simp only [CapturesSequence, List.mem_append, or_and_right, exists_or]

namespace Term

mutual

private theorem holdsStatements_iff (standing : Standing) : ∀ term : Term,
    term.holdsStatements language = true ↔
      HoldsBlock language term.preorder ∨ CapturesSequence (term.occurrences standing)
  | .leaf kind text => by
    simp [holdsStatements, HoldsBlock, CapturesSequence, preorder, occurrences]
  | .branch kind children => by
    have below := holdsStatementsAny_iff kind children
    have here : HoldsBlock language (preorder (.branch kind children)) ↔
        language.isBlock kind = true ∨ HoldsBlock language (preorderAll children) := by
      simp only [HoldsBlock, preorder, List.mem_cons, branch.injEq]
      grind
    rw [holdsStatements, Bool.or_eq_true, below, here, or_assoc]
    rfl
  | .hole slot => by
    have alone : CapturesSequence (occurrences standing (.hole slot)) ↔
        slot.backRef = false ∧ slot.effectiveKind = .sequence := by
      simp only [CapturesSequence, occurrences, List.mem_singleton, exists_eq_left]
      exact ⟨fun ⟨_, captures⟩ => ⟨captures.capturing, captures.kind_eq⟩,
        fun ⟨capturing, sequence⟩ => ⟨slot.name, capturing, rfl, sequence⟩⟩
    simp [holdsStatements, HoldsBlock, preorder, alone]

private theorem holdsStatementsAny_iff (kind : String) : ∀ terms : List Term,
    holdsStatementsAny language terms = true ↔
      HoldsBlock language (preorderAll terms) ∨ CapturesSequence (occurrencesAll kind terms)
  | [] => by
    simp [holdsStatementsAny, HoldsBlock, CapturesSequence, preorderAll, occurrencesAll]
  | term :: rest => by
    rw [holdsStatementsAny, Bool.or_eq_true, holdsStatements_iff (.child kind) term,
      holdsStatementsAny_iff kind rest, preorderAll, occurrencesAll, holdsBlock_append,
      capturesSequence_append]
    exact or_or_or_comm

end

end Term

private theorem Shape.isComposite_iff {shape : Shape} : shape.isComposite language = true ↔
    shape.isWindow = true ∨ HoldsBlock language (Term.preorderAll shape.terms) ∨
      CapturesSequence shape.occurrences := by
  have elements (index : Nat) (terms : List Term) :
      Term.holdsStatementsAny language terms = true ↔
        HoldsBlock language (Term.preorderAll terms) ∨
          CapturesSequence (occurrencesFrom index terms) := by
    induction terms generalizing index with
    | nil => exact Term.holdsStatementsAny_iff "" []
    | cons term rest ih =>
      rw [Term.holdsStatementsAny, Bool.or_eq_true,
        Term.holdsStatements_iff (.element index) term, ih (index + 1), Term.preorderAll,
        occurrencesFrom_cons, holdsBlock_append, capturesSequence_append]
      exact or_or_or_comm
  rw [isComposite, Bool.or_eq_true, elements 0]
  rfl

namespace Pattern

/-- What a compiled pattern tells of its shape. -/
structure Describes (language : Language) (pattern : Pattern) (shape : Shape) : Prop where
  shape_eq : pattern.shape = shape
  /-- All hole names are listed, in order of first appearance. -/
  keys : pattern.captures.keys = shape.names
  kinds : ∀ occurrence ∈ shape.occurrences, ∀ name kind, occurrence.Captures name kind →
    pattern.captures.find? name = some kind
  composite : pattern.composite = true ↔
    shape.isWindow = true ∨ HoldsBlock language (Term.preorderAll shape.terms) ∨
      CapturesSequence shape.occurrences

variable {shape : Shape}

private theorem compile_eq (nonempty : shape ≠ .window []) : compile language shape = (do
    let captures ← shape.occurrences.foldlM (Occurrence.enter language) .empty
    .ok ⟨shape, captures, shape.isComposite language⟩) := by
  rw [compile, Shape.captureTable_eq_foldlM nonempty]

private theorem nonempty_of_compile {pattern : Pattern}
    (compiled : compile language shape = .ok pattern) : shape ≠ .window [] := by
  rintro rfl
  contradiction

private theorem describes_of_compile {pattern : Pattern}
    (compiled : compile language shape = .ok pattern) : pattern.Describes language shape := by
  rw [compile_eq (nonempty_of_compile compiled)] at compiled
  obtain ⟨captures, entered, result⟩ := exists_of_bind_ok compiled
  cases result
  have records := records_of_foldlM entered
  refine ⟨rfl, ?_, fun occurrence listed name kind captured => ?_, Shape.isComposite_iff⟩
  · rw [records.keys, Shape.names_eq]
  · exact (records.found name kind).mpr ⟨occurrence, listed, captured⟩

private theorem exists_compile_iff :
    (∃ pattern, compile language shape = .ok pattern) ↔ shape.WellFormed language := by
  rw [Shape.wellFormed_iff]
  constructor
  · rintro ⟨pattern, compiled⟩
    have nonempty := nonempty_of_compile compiled
    rw [compile_eq nonempty] at compiled
    obtain ⟨captures, entered, _⟩ := exists_of_bind_ok compiled
    exact ⟨nonempty, exists_foldlM_ok_iff.mp ⟨captures, entered⟩⟩
  · rintro ⟨nonempty, spotless⟩
    obtain ⟨captures, entered⟩ := exists_foldlM_ok_iff.mpr spotless
    refine ⟨⟨shape, captures, shape.isComposite language⟩, ?_⟩
    rw [compile_eq nonempty, entered]
    rfl

private theorem compile_eq_error_iff {error : PatternError} :
    compile language shape = .error error ↔ shape = .window [] ∧ error = .emptyWindow ∨
      FirstOffends language shape.occurrences error := by
  by_cases empty : shape = .window []
  · subst empty
    have none_offends : ¬FirstOffends language (Shape.occurrences (.window [])) error := by
      rintro ⟨before, occurrence, starts, _⟩
      simp [Shape.occurrences, Shape.occurrencesFrom, Shape.terms] at starts
    simp [compile, Shape.captureTable, none_offends, bind, Except.bind, eq_comm]
  · rw [compile_eq empty, ← foldlM_eq_error_iff]
    cases shape.occurrences.foldlM (Occurrence.enter language) .empty <;>
      simp [empty, bind, Except.bind]

/-- Compilation accepts the well-formed shapes, tells of them what they capture, and of any other
shape which hole offends first. -/
theorem compile_accepts_wellFormed (language : Language) (shape : Shape) :
    ((∃ pattern, compile language shape = .ok pattern) ↔ shape.WellFormed language) ∧
      (∀ pattern, compile language shape = .ok pattern → pattern.Describes language shape) ∧
      ∀ error, compile language shape = .error error ↔
        shape = .window [] ∧ error = .emptyWindow ∨
          FirstOffends language shape.occurrences error :=
  ⟨exists_compile_iff, fun _ => describes_of_compile, fun _ => compile_eq_error_iff⟩

/-- A call, the statements after it, and a block that repeats them. -/
def repeatedRest : Shape :=
  .window [.branch "call" [.hole (.capturing "x" .expression), .leaf Tree.nameKind "f"],
    .hole (.capturing "rest" .sequence), .branch "block" [.hole (.referringTo "rest")]]

/-- A call whose argument refers to what only comes after it. -/
def earlyReference : Shape :=
  .node (.branch "call" [.hole (.referringTo "x"), .hole (.capturing "x" .expression)])

theorem repeatedRest_accepted :
    let language := ({} : Roles).language
    let pattern : Pattern := ⟨repeatedRest, ⟨[("x", .expression), ("rest", .sequence)]⟩, true⟩
    compile language repeatedRest = .ok pattern ∧ repeatedRest.WellFormed language ∧
      pattern.Describes language repeatedRest ∧
      compile language earlyReference = .error (.unboundBackReference "x") ∧
      FirstOffends language earlyReference.occurrences (.unboundBackReference "x") := by
  intro language pattern
  have compiled : compile language repeatedRest = .ok pattern := by rfl
  have refused : compile language earlyReference = .error (.unboundBackReference "x") := by rfl
  obtain ⟨accepts, describes, _⟩ := compile_accepts_wellFormed language repeatedRest
  have offends := ((compile_accepts_wellFormed language earlyReference).2.2 _).mp refused
  exact ⟨compiled, accepts.mp ⟨pattern, compiled⟩, describes pattern compiled, refused,
    offends.resolve_left fun ⟨empty, _⟩ => Shape.noConfusion empty⟩

end Pattern

end Codemod
