import Codemod.Proofs.Statistics
import Mathlib.Data.List.Perm.Basic

/-!
# Totals

Statistics are united name by name. The total of any number of runs therefore depends neither on
their order nor on which are united first, and as long as the exact total can be kept so can every
part of it on the way.
-/

namespace Codemod

private theorem Tally.below_iff {tally : Tally} (unique : tally.keys.Nodup) {limit : Nat} :
    tally.below limit = true ↔ ∀ name sum, tally.find? name = some sum → sum < limit := by
  simp only [below, List.all_eq_true, decide_eq_true_eq, Assoc.find?_eq_some_iff unique]
  constructor
  · intro each name sum
    exact each (name, sum)
  · intro each entry
    exact each entry.1 entry.2

private theorem Tally.nodup_keys_union {tally other : Tally} (unique : tally.keys.Nodup) :
    (tally.union other).keys.Nodup := by
  obtain ⟨entries⟩ := other
  rw [union]
  induction entries generalizing tally with
  | nil => exact unique
  | cons entry rest ih => exact ih (nodup_keys_add unique entry.1 entry.2)

namespace Statistics

variable {a b c : Statistics} {parts others : List Statistics}

inductive Column where
  | searchTimes
  | applyTimes
  | matchCounts
  | appliedCounts

/-- The first sum of a column that is too large to be kept. -/
def Column.limit : Column → Nat
  | .searchTimes | .applyTimes => timeLimit
  | .matchCounts | .appliedCounts => counterSize

def column (statistics : Statistics) : Column → Tally
  | .searchTimes => statistics.searchTimes
  | .applyTimes => statistics.applyTimes
  | .matchCounts => statistics.matchCounts
  | .appliedCounts => statistics.appliedCounts

/-- What is under a name in a column, if it is listed there. -/
def sum? (statistics : Statistics) (column : Column) (name : String) : Option Nat :=
  (statistics.column column).find? name

private theorem Keyed.column (keyed : a.Keyed) : ∀ column, (a.column column).keys.Nodup
  | .searchTimes => keyed.searchTimes
  | .applyTimes => keyed.applyTimes
  | .matchCounts => keyed.matchCounts
  | .appliedCounts => keyed.appliedCounts

theorem Keyed.union (keyed : a.Keyed) (b : Statistics) : (a.union b).Keyed where
  searchTimes := Tally.nodup_keys_union keyed.searchTimes
  applyTimes := Tally.nodup_keys_union keyed.applyTimes
  matchCounts := Tally.nodup_keys_union keyed.matchCounts
  appliedCounts := Tally.nodup_keys_union keyed.appliedCounts

theorem sum?_union (a : Statistics) (keyed : b.Keyed) (column : Column) (name : String) :
    (a.union b).sum? column name =
      Option.merge (· + ·) (a.sum? column name) (b.sum? column name) := by
  have united : (a.union b).column column = (a.column column).union (b.column column) := by
    cases column <;> rfl
  rw [sum?, united, Tally.find?_union _ (keyed.column column)]
  rfl

/-- The same sums under the same names, in whatever order they are listed. -/
structure Same (a b : Statistics) : Prop where
  updated : a.updated = b.updated
  passes : a.passes = b.passes
  sums : ∀ column name, a.sum? column name = b.sum? column name

theorem Same.symm (same : a.Same b) : b.Same a :=
  ⟨same.updated.symm, same.passes.symm, fun column name => (same.sums column name).symm⟩

theorem Same.trans (first : a.Same b) (second : b.Same c) : a.Same c :=
  ⟨first.updated.trans second.updated, first.passes.trans second.passes,
    fun column name => (first.sums column name).trans (second.sums column name)⟩

private theorem Same.union {twin other : Statistics} (first : a.Same twin) (second : b.Same other)
    (keyed : b.Keyed) (other_keyed : other.Keyed) : (a.union b).Same (twin.union other) where
  updated := congrArg₂ or first.updated second.updated
  passes := congrArg₂ Nat.add first.passes second.passes
  sums column name := by
    rw [sum?_union a keyed, sum?_union twin other_keyed, first.sums, second.sums]

theorem union_assoc (a : Statistics) (keyed : b.Keyed) (last : c.Keyed) :
    ((a.union b).union c).Same (a.union (b.union c)) where
  updated := Bool.or_assoc _ _ _
  passes := Nat.add_assoc _ _ _
  sums column name := by
    simp only [sum?_union _ last, sum?_union _ (keyed.union c), sum?_union _ keyed]
    exact Std.Associative.assoc _ _ _

theorem union_comm (keyed : a.Keyed) (other : b.Keyed) : (a.union b).Same (b.union a) where
  updated := Bool.or_comm _ _
  passes := Nat.add_comm _ _
  sums column name := by
    rw [sum?_union a other, sum?_union b keyed]
    exact Std.Commutative.comm _ _

theorem sum?_empty (column : Column) (name : String) : sum? {} column name = none := by
  cases column <;> rfl

theorem empty_union (keyed : a.Keyed) : (union {} a).Same a where
  updated := rfl
  passes := Nat.zero_add _
  sums column name := by rw [sum?_union _ keyed, sum?_empty, Option.merge_none_left]

theorem union_empty (a : Statistics) : (a.union {}).Same a where
  updated := Bool.or_false _
  passes := rfl
  sums column name := by rw [sum?_union a keyed_empty, sum?_empty, Option.merge_none_right]

/-- The exact total of statistics. -/
def total (parts : List Statistics) : Statistics :=
  parts.foldl union {}

private theorem keyed_foldl (keyed : a.Keyed) (parts : List Statistics) :
    (parts.foldl union a).Keyed := by
  induction parts generalizing a with
  | nil => exact keyed
  | cons part rest ih => exact ih (keyed.union part)

theorem keyed_total (parts : List Statistics) : (total parts).Keyed :=
  keyed_foldl keyed_empty parts

private theorem updated_foldl (a : Statistics) (parts : List Statistics) :
    (parts.foldl union a).updated = (a.updated || parts.any (·.updated)) := by
  induction parts generalizing a with
  | nil => exact (Bool.or_false _).symm
  | cons part rest ih => rw [List.foldl_cons, ih, union, List.any_cons, Bool.or_assoc]

private theorem passes_foldl (a : Statistics) (parts : List Statistics) :
    (parts.foldl union a).passes = (parts.map (·.passes)).foldl (· + ·) a.passes := by
  induction parts generalizing a with
  | nil => rfl
  | cons part rest ih => exact ih (a.union part)

/-- The parts are added up name by name. -/
theorem sum?_foldl (keyed : ∀ part ∈ parts, part.Keyed) (a : Statistics) (column : Column)
    (name : String) : (parts.foldl union a).sum? column name =
      (parts.map fun part => part.sum? column name).foldl (Option.merge (· + ·))
        (a.sum? column name) := by
  induction parts generalizing a with
  | nil => rfl
  | cons part rest ih =>
    obtain ⟨here, later⟩ := List.forall_mem_cons.mp keyed
    rw [List.foldl_cons, ih later, sum?_union a here, List.map_cons, List.foldl_cons]

theorem same_total_of_perm (perm : parts.Perm others) (keyed : ∀ part ∈ parts, part.Keyed) :
    (total parts).Same (total others) where
  updated := by rw [total, total, updated_foldl, updated_foldl, perm.any_eq]
  passes := by rw [total, total, passes_foldl, passes_foldl, (perm.map _).foldl_op_eq]
  sums column name := by
    have also : ∀ part ∈ others, part.Keyed := fun part member =>
      keyed part (perm.mem_iff.mpr member)
    rw [total, total, sum?_foldl keyed, sum?_foldl also]
    exact (perm.map _).foldl_op_eq

private theorem same_foldl (keyed : ∀ part ∈ parts, part.Keyed) (a : Statistics) :
    (parts.foldl union a).Same (a.union (total parts)) where
  updated := by
    rw [updated_foldl, union, total, updated_foldl]
    rfl
  passes := by
    rw [passes_foldl, union, total, passes_foldl]
    show List.foldl (· + ·) (a.passes + 0) _ = a.passes + List.foldl (· + ·) 0 _
    exact List.foldl_assoc
  sums column name := by
    rw [sum?_foldl keyed, sum?_union a (keyed_total parts), total, sum?_foldl keyed, sum?_empty]
    have started := Option.merge_none_right (f := (· + ·)) (a := a.sum? column name)
    exact (congrArg (List.foldl _ · _) started.symm).trans List.foldl_assoc

private theorem same_total_append (keyed : ∀ part ∈ others, part.Keyed) (parts : List Statistics) :
    (total (parts ++ others)).Same ((total parts).union (total others)) := by
  rw [total, List.foldl_append]
  exact same_foldl keyed _

/-- Every sum is small enough to be kept. -/
def Fits (statistics : Statistics) : Prop :=
  statistics.timesFit = true ∧ statistics.countsFit = true

private theorem fits_iff (keyed : a.Keyed) :
    a.Fits ↔ a.passes < counterSize ∧
      ∀ column name sum, a.sum? column name = some sum → sum < column.limit := by
  simp only [Fits, timesFit, countsFit, Bool.and_eq_true, decide_eq_true_eq,
    Tally.below_iff keyed.searchTimes, Tally.below_iff keyed.applyTimes,
    Tally.below_iff keyed.matchCounts, Tally.below_iff keyed.appliedCounts]
  constructor
  · rintro ⟨⟨searched, applied⟩, ⟨passes, matched⟩, counted⟩
    refine ⟨passes, fun column => ?_⟩
    cases column
    · exact searched
    · exact applied
    · exact matched
    · exact counted
  · rintro ⟨passes, each⟩
    exact ⟨⟨each .searchTimes, each .applyTimes⟩, ⟨passes, each .matchCounts⟩, each .appliedCounts⟩

theorem Same.fits (same : a.Same b) (keyed : a.Keyed) (other : b.Keyed) (fits : a.Fits) :
    b.Fits := by
  rw [fits_iff keyed] at fits
  simp only [same.passes, same.sums] at fits
  exact (fits_iff other).mpr fits

theorem fits_of_time_lt (keyed : a.Keyed) (short : ∀ name, a.time name < timeLimit)
    (counts : a.countsFit = true) : a.Fits := by
  refine ⟨?_, counts⟩
  rw [timesFit, Bool.and_eq_true, Tally.below_iff keyed.searchTimes, Tally.below_iff keyed.applyTimes]
  constructor
  · intro name sum found
    have listed : Tally.get a.searchTimes name = sum := by rw [Tally.get, found, Option.getD_some]
    exact Nat.lt_of_le_of_lt (listed ▸ Nat.le_add_right _ _) (short name)
  · intro name sum found
    have listed : Tally.get a.applyTimes name = sum := by rw [Tally.get, found, Option.getD_some]
    exact Nat.lt_of_le_of_lt (listed ▸ Nat.le_add_left _ _) (short name)

private theorem fits_of_union (keyed : a.Keyed) (other : b.Keyed) (fits : (a.union b).Fits) :
    a.Fits := by
  obtain ⟨passes, each⟩ := (fits_iff (keyed.union b)).mp fits
  refine (fits_iff keyed).mpr ⟨Nat.lt_of_le_of_lt (Nat.le_add_right _ _) passes, ?_⟩
  intro column name sum found
  cases more : b.sum? column name with
  | none => exact each column name sum (by rw [sum?_union a other, found, more]; rfl)
  | some amount =>
    have summed := each column name (sum + amount) (by rw [sum?_union a other, found, more]; rfl)
    exact Nat.lt_of_le_of_lt (Nat.le_add_right _ _) summed

/-- A way of uniting statistics two by two. -/
inductive Bracketing where
  | empty
  | single (statistics : Statistics)
  | pair (first second : Bracketing)

namespace Bracketing

/-- What is united, in order. -/
def items : Bracketing → List Statistics
  | .empty => []
  | .single statistics => [statistics]
  | .pair first second => first.items ++ second.items

/-- What is kept in the end, if all that comes up on the way can be kept. -/
def kept? : Bracketing → Option Statistics
  | .empty => some {}
  | .single statistics => some statistics
  | .pair first second => do
    let a ← first.kept?
    let b ← second.kept?
    a.unite? b

/-- When the exact total can be kept it is kept, whichever are united first. -/
theorem exists_kept (bracketing : Bracketing) (keyed : ∀ part ∈ bracketing.items, part.Keyed)
    (fits : (total bracketing.items).Fits) : ∃ kept, bracketing.kept? = some kept ∧ kept.Keyed ∧
      kept.Same (total bracketing.items) := by
  induction bracketing with
  | empty => exact ⟨{}, rfl, keyed_empty, rfl, rfl, fun _ _ => rfl⟩
  | single statistics =>
    have alone := keyed statistics (List.mem_singleton_self statistics)
    exact ⟨statistics, rfl, alone, (empty_union alone).symm⟩
  | pair first second ahead behind =>
    obtain ⟨here, there⟩ := List.forall_mem_append.mp keyed
    have together := same_total_append there first.items
    have both : ((total first.items).union (total second.items)).Fits :=
      together.fits (keyed_total _) ((keyed_total _).union _) fits
    -- Each half is united to the other, and so fits because the whole does.
    have swapped : ((total second.items).union (total first.items)).Fits :=
      (union_comm (keyed_total _) (keyed_total _)).fits ((keyed_total _).union _)
        ((keyed_total _).union _) both
    obtain ⟨a, kept_a, keyed_a, same_a⟩ :=
      ahead here (fits_of_union (keyed_total _) (keyed_total _) both)
    obtain ⟨b, kept_b, keyed_b, same_b⟩ :=
      behind there (fits_of_union (keyed_total _) (keyed_total _) swapped)
    have united := same_a.union same_b keyed_b (keyed_total second.items)
    obtain ⟨times, counts⟩ := united.symm.fits ((keyed_total _).union _) (keyed_a.union b) both
    refine ⟨a.union b, ?_, keyed_a.union b, united.trans together.symm⟩
    simp only [kept?, kept_a, kept_b, Option.bind_eq_bind, Option.bind_some]
    exact unite?_eq_some_union times counts

end Bracketing

end Statistics

end Codemod
