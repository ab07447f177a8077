import Codemod.Proofs.Statistics.Totals
import Codemod.Proofs.Text.Bytes
import Mathlib.Data.Prod.Lex
import Mathlib.Data.String.Basic

/-!
# Printed statistics

Statistics are printed with one line for each timed rule, the cheaper rules first. What is printed
depends on the sums alone and not on the order in which they are listed. A line shows the name of
its rule, or as much of it as there is room for; there is none when that would split a character.
-/

namespace Codemod

namespace Statistics

variable {statistics other : Statistics} {name label text : String}

/-- A name on one line. -/
def spaced (name : String) : List Char :=
  name.toList.map fun c => if c = '\n' then ' ' else c

/-- A label shows a name that fits, and of a longer name the front that takes up all the room,
followed by three dots. -/
inductive Labels (name : String) : String → Prop where
  | whole (fits : Text.byteLength (spaced name) ≤ nameLimit) :
      Labels name (String.ofList (spaced name))
  | cut {shown rest : List Char} (splits : spaced name = shown ++ rest) (more : rest ≠ [])
      (full : Text.byteLength shown = nameLimit) :
      Labels name (String.ofList shown ++ "...")

private theorem nameLabel?_eq (name : String) : nameLabel? name =
    if Text.byteLength (spaced name) ≤ nameLimit then some (String.ofList (spaced name))
    else if Text.byteLength (Text.takeBytes (spaced name) nameLimit) = nameLimit then
      some (String.ofList (Text.takeBytes (spaced name) nameLimit) ++ "...")
    else none := rfl

private theorem nameLabel?_eq_some_iff : nameLabel? name = some label ↔ Labels name label := by
  rw [nameLabel?_eq]
  constructor
  · intro found
    split at found
    · rename_i fits
      cases found
      exact .whole fits
    · rename_i long
      split at found
      · rename_i full
        cases found
        obtain ⟨rest, splits⟩ := Text.takeBytes_prefix (spaced name) nameLimit
        refine .cut splits.symm ?_ full
        rintro rfl
        rw [List.append_nil] at splits
        rw [splits] at full
        exact long (Nat.le_of_eq full)
      · contradiction
  · intro labels
    cases labels with
    | whole fits => exact if_pos fits
    | @cut shown rest splits more full =>
      have taken : Text.takeBytes (spaced name) nameLimit = shown := by
        rw [splits, ← full, Text.takeBytes_append]
      rw [taken, if_neg, if_pos full]
      have some := Text.byteLength_pos more
      rw [splits, Text.byteLength_append]
      omega

/-- A name has a label unless one of its characters lies across the limit. -/
theorem exists_nameLabel?_iff : (∃ label, nameLabel? name = some label) ↔
    Text.byteLength (spaced name) ≤ nameLimit ∨ Text.Cuts (spaced name) nameLimit := by
  simp only [nameLabel?_eq_some_iff]
  constructor
  · rintro ⟨label, fits | ⟨splits, more, full⟩⟩
    · exact .inl fits
    · exact .inr ⟨_, _, splits, full⟩
  · rintro (fits | ⟨shown, rest, splits, full⟩)
    · exact ⟨_, .whole fits⟩
    · by_cases more : rest = []
      · rw [more, List.append_nil] at splits
        exact ⟨_, .whole (splits ▸ Nat.le_of_eq full)⟩
      · exact ⟨_, .cut splits more full⟩

private theorem newline_notMem_spaced (name : String) : '\n' ∉ spaced name := by
  intro inside
  obtain ⟨c, _, same⟩ := List.mem_map.mp inside
  split at same
  · contradiction
  · contradiction

private theorem Labels.newline_notMem (labels : Labels name label) : '\n' ∉ label.toList := by
  have plain := newline_notMem_spaced name
  cases labels with
  | whole fits => rwa [String.toList_ofList]
  | cut splits more full =>
    rw [splits, List.mem_append, not_or] at plain
    simp [plain.1]

/-- What a line says of a rule under a label. -/
def labelled (statistics : Statistics) (name label : String) : String :=
  let search := Text.seconds (Tally.get statistics.searchTimes name)
  let apply := Text.seconds (Tally.get statistics.applyTimes name)
  let found := Tally.get statistics.matchCounts name
  let applied := Tally.get statistics.appliedCounts name
  s!"Rule {label}: search {search}s, apply {apply}s, num matches {found}, num rewrites {applied}"

private theorem line?_eq (statistics : Statistics) (name : String) :
    statistics.line? name =
      (nameLabel? name).map fun label => statistics.labelled name label ++ "\n" := by
  rw [line?]
  cases nameLabel? name with
  | none => rfl
  | some label =>
    refine congrArg some (String.toList_injective ?_)
    delta labelled
    simp [toString]

@[simp] theorem newline_notMem_numeral (n : Nat) : '\n' ∉ Nat.toDigits 10 n := by
  intro inside
  have digit := Nat.isDigit_of_mem_toDigits (by decide) (by decide) inside
  contradiction

private theorem newline_notMem_seconds (nanos : Nat) : '\n' ∉ (Text.seconds nanos).toList := by
  simp [Text.seconds, toString]

private theorem Labels.newline_notMem_labelled (labels : Labels name label)
    (statistics : Statistics) : '\n' ∉ (statistics.labelled name label).toList := by
  delta labelled
  simp [toString, labels.newline_notMem, newline_notMem_seconds]

/-- Whether a rule was tried or filled in, and so has a time. -/
def Timed (statistics : Statistics) (name : String) : Prop :=
  name ∈ statistics.searchTimes.keys ∨ name ∈ statistics.applyTimes.keys

private theorem timed_iff_isSome : statistics.Timed name ↔
    (statistics.sum? .searchTimes name).isSome = true ∨
      (statistics.sum? .applyTimes name).isSome = true := by
  rw [Timed, Assoc.mem_keys_iff, Assoc.mem_keys_iff, Option.isSome_iff_exists,
    Option.isSome_iff_exists]
  rfl

theorem timed_union (statistics : Statistics) (keyed : other.Keyed) (name : String) :
    (statistics.union other).Timed name ↔ statistics.Timed name ∨ other.Timed name := by
  simp only [timed_iff_isSome, sum?_union _ keyed, Option.isSome_merge, Bool.or_eq_true]
  exact or_or_or_comm

private theorem timed_foldl {parts : List Statistics} (keyed : ∀ part ∈ parts, part.Keyed)
    (statistics : Statistics) (name : String) : (parts.foldl union statistics).Timed name ↔
      statistics.Timed name ∨ ∃ part ∈ parts, part.Timed name := by
  induction parts generalizing statistics with
  | nil => simp
  | cons part rest ih =>
    obtain ⟨here, later⟩ := List.forall_mem_cons.mp keyed
    rw [List.foldl_cons, ih later, timed_union _ here, or_assoc]
    simp

theorem not_timed_empty (name : String) : ¬ Timed {} name := by
  rw [timed_iff_isSome, sum?_empty, sum?_empty]
  simp

theorem timed_total {parts : List Statistics} (keyed : ∀ part ∈ parts, part.Keyed)
    (name : String) : (total parts).Timed name ↔ ∃ part ∈ parts, part.Timed name := by
  rw [total, timed_foldl keyed]
  exact or_iff_right (not_timed_empty name)

/-- What rules are ordered by. -/
def rank (statistics : Statistics) (name : String) : ℕ ×ₗ String :=
  toLex (statistics.millis name, name)

private theorem precedes_iff (statistics : Statistics) (a b : String) :
    statistics.precedes a b = true ↔ statistics.rank a ≤ statistics.rank b := by
  rw [precedes, rank, rank, Prod.Lex.toLex_le_toLex]
  split
  · rename_i same
    simp only [same, Bool.not_eq_true', decide_eq_false_iff_not, not_lt, lt_self_iff_false,
      false_or, true_and]
  · rename_i different
    simp [different]

private theorem mem_timedNames : name ∈ statistics.timedNames ↔ statistics.Timed name := by
  rw [timedNames, List.mem_mergeSort, mem_distinct, List.mem_append, Timed]

private theorem nodup_timedNames (statistics : Statistics) : statistics.timedNames.Nodup :=
  (List.mergeSort_perm _ _).nodup_iff.mpr (nodup_distinct _)

private theorem sorted_timedNames (statistics : Statistics) :
    statistics.timedNames.Pairwise fun a b => statistics.precedes a b = true := by
  apply List.pairwise_mergeSort
  · intro a b c first second
    rw [precedes_iff] at first second ⊢
    exact first.trans second
  · intro a b
    rw [Bool.or_eq_true, precedes_iff, precedes_iff]
    exact le_total _ _

/-- There is one way to list the timed rules in order. -/
theorem timedNames_eq {names : List String}
    (perm : names.Perm (distinct (statistics.searchTimes.keys ++ statistics.applyTimes.keys)))
    (sorted : names.Pairwise fun a b => statistics.precedes a b = true) :
    statistics.timedNames = names := by
  have same := (List.mergeSort_perm _ statistics.precedes).trans perm.symm
  -- The name is part of the rank, so that no two names precede each other.
  refine same.eq_of_pairwise (fun a b _ _ ahead behind => ?_) (sorted_timedNames statistics) sorted
  rw [precedes_iff] at ahead behind
  exact (Prod.mk.inj (toLex.injective (le_antisymm ahead behind))).2

private theorem strict_timedNames (statistics : Statistics) :
    statistics.timedNames.Pairwise fun a b => statistics.millis a < statistics.millis b ∨
      statistics.millis a = statistics.millis b ∧ a < b := by
  refine ((sorted_timedNames statistics).and (nodup_timedNames statistics)).imp ?_
  rintro a b ⟨ahead, apart⟩
  have different : statistics.rank a ≠ statistics.rank b := by
    intro same
    exact apart (Prod.mk.inj (toLex.injective same)).2
  rw [precedes_iff] at ahead
  exact Prod.Lex.toLex_lt_toLex.mp (lt_of_le_of_ne ahead different)

/-- A text is the table of some statistics: after the number of passes it has one line for each
timed rule, which is given with its label, the cheaper rules first and ties by name. -/
structure Tabulates (statistics : Statistics) (rows : List (String × String)) (text : String) :
    Prop where
  once : (rows.map Prod.fst).Nodup
  timed : ∀ name, name ∈ rows.map Prod.fst ↔ statistics.Timed name
  ordered : (rows.map Prod.fst).Pairwise fun a b => statistics.millis a < statistics.millis b ∨
    statistics.millis a = statistics.millis b ∧ a < b
  labels : ∀ row ∈ rows, Labels row.1 row.2
  oneLine : ∀ row ∈ rows, '\n' ∉ (statistics.labelled row.1 row.2).toList
  text_eq : text = s!"Passes: {statistics.passes}\n" ++
    String.join (rows.map fun row => statistics.labelled row.1 row.2 ++ "\n")

private theorem mapM_line?_eq_some_iff {names lines : List String} :
    names.mapM statistics.line? = some lines ↔
      ∃ rows : List (String × String), rows.map Prod.fst = names ∧
        (∀ row ∈ rows, Labels row.1 row.2) ∧
        lines = rows.map fun row => statistics.labelled row.1 row.2 ++ "\n" := by
  induction names generalizing lines with
  | nil =>
    simp only [List.mapM_nil, List.map_eq_nil_iff]
    constructor
    · rintro ⟨⟩
      exact ⟨[], rfl, List.forall_mem_nil _, rfl⟩
    · rintro ⟨rows, rfl, _, rfl⟩
      rfl
  | cons name rest ih =>
    rw [List.mapM_cons, line?_eq]
    constructor
    · intro listed
      simp only [Option.bind_eq_bind, Option.bind_eq_some_iff, Option.map_eq_some_iff] at listed
      obtain ⟨line, ⟨label, labelled, rfl⟩, others, read, made⟩ := listed
      obtain ⟨rows, rfl, labels, rfl⟩ := ih.mp read
      cases made
      exact ⟨(name, label) :: rows, rfl,
        List.forall_mem_cons.mpr ⟨nameLabel?_eq_some_iff.mp labelled, labels⟩, rfl⟩
    · rintro ⟨rows, named, labels, rfl⟩
      obtain ⟨row, others, rfl, rfl, rfl⟩ := List.map_eq_cons_iff.mp named
      obtain ⟨here, later⟩ := List.forall_mem_cons.mp labels
      rw [nameLabel?_eq_some_iff.mpr here, ih.mpr ⟨others, rfl, later, rfl⟩]
      rfl

private theorem render?_eq (statistics : Statistics) : statistics.render? =
    if statistics.comparable = true then
      (statistics.timedNames.mapM statistics.line?).bind fun lines =>
        some (String.join (s!"Passes: {statistics.passes}\n" :: lines))
    else none := by
  rw [render?]
  cases statistics.comparable <;> rfl

private theorem render?_eq_some_iff : statistics.render? = some text ↔
    statistics.comparable = true ∧ ∃ lines, statistics.timedNames.mapM statistics.line? = some lines ∧
      text = String.join (s!"Passes: {statistics.passes}\n" :: lines) := by
  rw [render?_eq]
  split
  · rename_i ordered
    simp only [ordered, true_and, Option.bind_eq_some_iff, Option.some.injEq, eq_comm (a := text)]
  · rename_i unordered
    simp only [unordered, false_and, reduceCtorEq]

/-- What is printed is the table. -/
theorem exists_tabulates (printed : statistics.render? = some text) :
    ∃ rows, statistics.Tabulates rows text := by
  obtain ⟨_, lines, listed, rfl⟩ := render?_eq_some_iff.mp printed
  obtain ⟨rows, named, labels, rfl⟩ := mapM_line?_eq_some_iff.mp listed
  refine ⟨rows, ?_, ?_, ?_, labels, ?_, ?_⟩
  · exact named ▸ nodup_timedNames statistics
  · intro name
    rw [named, mem_timedNames]
  · exact named ▸ strict_timedNames statistics
  · intro row member
    exact (labels row member).newline_notMem_labelled statistics
  · rw [String.join_cons]

private theorem exists_rows {names : List String}
    (each : ∀ name ∈ names, ∃ label, nameLabel? name = some label) :
    ∃ rows : List (String × String), rows.map Prod.fst = names ∧
      ∀ row ∈ rows, Labels row.1 row.2 := by
  induction names with
  | nil => exact ⟨[], rfl, List.forall_mem_nil _⟩
  | cons name rest ih =>
    obtain ⟨⟨label, found⟩, later⟩ := List.forall_mem_cons.mp each
    obtain ⟨rows, rfl, labels⟩ := ih later
    exact ⟨(name, label) :: rows, rfl,
      List.forall_mem_cons.mpr ⟨nameLabel?_eq_some_iff.mp found, labels⟩⟩

/-- Where no time is too long there is a text unless a timed rule has no label. -/
theorem exists_render?_iff (short : ∀ name, statistics.time name < timeLimit) :
    (∃ text, statistics.render? = some text) ↔
      ∀ name, statistics.Timed name → ∃ label, nameLabel? name = some label := by
  constructor
  · rintro ⟨text, printed⟩ name timed
    obtain ⟨rows, table⟩ := exists_tabulates printed
    obtain ⟨row, member, rfl⟩ := List.mem_map.mp ((table.timed name).mpr timed)
    exact ⟨row.2, nameLabel?_eq_some_iff.mpr (table.labels row member)⟩
  · intro labelled
    have comparable : statistics.comparable = true := by simp [comparable, short]
    obtain ⟨rows, named, labels⟩ := exists_rows fun name listed =>
      labelled name (mem_timedNames.mp listed)
    exact ⟨_, render?_eq_some_iff.mpr
      ⟨comparable, _, mapM_line?_eq_some_iff.mpr ⟨rows, named, labels, rfl⟩, rfl⟩⟩

theorem Same.timed_iff (same : statistics.Same other) (name : String) :
    statistics.Timed name ↔ other.Timed name := by
  rw [timed_iff_isSome, timed_iff_isSome, same.sums, same.sums]

private theorem Same.get_eq (same : statistics.Same other) (column : Column) (name : String) :
    Tally.get (statistics.column column) name = Tally.get (other.column column) name :=
  congrArg (·.getD 0) (same.sums column name)

theorem Same.time_eq (same : statistics.Same other) : statistics.time = other.time := by
  funext name
  rw [time, time]
  exact congrArg₂ Nat.add (same.get_eq .searchTimes name) (same.get_eq .applyTimes name)

private theorem Same.timedNames_eq (same : statistics.Same other) :
    statistics.timedNames = other.timedNames := by
  apply Statistics.timedNames_eq
  · rw [List.perm_ext_iff_of_nodup (nodup_timedNames other) (nodup_distinct _)]
    intro name
    rw [mem_timedNames, ← same.timed_iff, mem_distinct, List.mem_append, Timed]
  · have millis_eq : statistics.millis = other.millis := by
      funext name
      rw [millis, millis, same.time_eq]
    have precedes_eq : statistics.precedes = other.precedes := by
      funext a b
      rw [precedes, precedes, millis_eq]
    rw [precedes_eq]
    exact sorted_timedNames other

private theorem Same.line?_eq (same : statistics.Same other) : statistics.line? = other.line? := by
  funext name
  have search := same.get_eq .searchTimes name
  have apply := same.get_eq .applyTimes name
  have found := same.get_eq .matchCounts name
  have applied := same.get_eq .appliedCounts name
  simp only [column] at search apply found applied
  simp only [line?, search, apply, found, applied]

private theorem Same.render?_eq (same : statistics.Same other) :
    statistics.render? = other.render? := by
  have comparable : statistics.comparable = other.comparable := by
    rw [comparable, comparable, same.timedNames_eq, same.time_eq]
  rw [render?, render?, comparable, same.timedNames_eq, same.line?_eq, same.passes]

/-- The total of statistics is the same in whatever order and however bracketed they are united, as
long as it can be kept, and so is its text. That text has one line for each timed rule, and there is
one unless a timed rule has no label. -/
theorem total_settled (parts : List Statistics) (keyed : ∀ part ∈ parts, part.Keyed)
    (fits : (total parts).Fits) :
    (∀ a b c : Statistics, a.Keyed → b.Keyed → c.Keyed →
      ((a.union b).union c).Same (a.union (b.union c)) ∧ (a.union b).Same (b.union a) ∧
        (union {} a).Same a ∧ (a.union {}).Same a) ∧
    (∀ bracketing : Bracketing, bracketing.items.Perm parts → ∃ kept,
      bracketing.kept? = some kept ∧ kept.Same (total parts) ∧
        kept.render? = (total parts).render?) ∧
    (∀ text, (total parts).render? = some text → ∃ rows, (total parts).Tabulates rows text) ∧
    ((∀ name, (total parts).time name < timeLimit) →
      (∀ name, (total parts).Timed name → ∃ label, nameLabel? name = some label) →
        ∃ text, (total parts).render? = some text) := by
  refine ⟨?_, ?_, fun text => exists_tabulates, fun short => (exists_render?_iff short).mpr⟩
  · intro a b c first second third
    exact ⟨union_assoc a second third, union_comm first second, empty_union first, union_empty a⟩
  · intro bracketing perm
    have each : ∀ part ∈ bracketing.items, part.Keyed := fun part member =>
      keyed part (perm.mem_iff.mp member)
    have same := same_total_of_perm perm each
    have alike := same.symm.fits (keyed_total parts) (keyed_total _) fits
    obtain ⟨kept, is_kept, _, tells⟩ := bracketing.exists_kept each alike
    exact ⟨kept, is_kept, tells.trans same, (tells.trans same).render?_eq⟩

/-- A run that spent most of its time on one rule. -/
def folding : Statistics where
  updated := true
  passes := 2
  searchTimes := ⟨[("fold", 1500000000), ("hoist", 20000000)]⟩
  applyTimes := ⟨[("fold", 3400000)]⟩
  matchCounts := ⟨[("fold", 3)]⟩
  appliedCounts := ⟨[("fold", 1)]⟩

/-- A run that applied nothing and tried a third rule. -/
def hoisting : Statistics where
  passes := 1
  searchTimes := ⟨[("inline", 20900000), ("hoist", 400000)]⟩
  matchCounts := ⟨[("hoist", 1)]⟩

theorem folding_and_hoisting_settled :
    let parts := [folding, hoisting]
    let swapped := Bracketing.pair (.single hoisting) (.pair .empty (.single folding))
    let text := "Passes: 3\n" ++
      "Rule hoist: search 0.020s, apply 0.000s, num matches 1, num rewrites 0\n" ++
      "Rule inline: search 0.021s, apply 0.000s, num matches 0, num rewrites 0\n" ++
      "Rule fold: search 1.500s, apply 0.003s, num matches 3, num rewrites 1\n"
    (∀ part ∈ parts, part.Keyed) ∧ (total parts).Fits ∧ (total parts).render? = some text ∧
      (∃ kept, swapped.kept? = some kept ∧ kept.Same (total parts) ∧ kept.render? = some text) ∧
      ∃ rows, (total parts).Tabulates rows text := by
  intro parts swapped text
  have keyed : ∀ part ∈ parts, part.Keyed := by
    intro part member
    rcases List.mem_pair.mp member with rfl | rfl <;> constructor <;> decide +kernel
  have fits : (total parts).Fits := by
    constructor <;> decide +kernel
  have ordered : (total parts).timedNames = ["hoist", "inline", "fold"] := by
    apply timedNames_eq <;> decide +kernel
  have printed : (total parts).render? = some text := by
    rw [render?, comparable, ordered]
    decide +kernel
  obtain ⟨_, settled, tabulated, _⟩ := total_settled parts keyed fits
  obtain ⟨kept, is_kept, same, alike⟩ := settled swapped (.swap folding hoisting [])
  exact ⟨keyed, fits, printed, ⟨kept, is_kept, same, alike.trans printed⟩, tabulated text printed⟩

end Statistics

end Codemod
