/-!
# Lists without repeats
-/

namespace Codemod

/-- Adds what is not yet in a list at its end. -/
def addNew [DecidableEq α] (items : List α) (item : α) : List α :=
  if item ∈ items then items else items ++ [item]

/-- Adds the new ones among several items, in order. -/
def addAllNew [DecidableEq α] (items more : List α) : List α :=
  more.foldl addNew items

/-- A list without its later repeats. -/
def distinct [DecidableEq α] (items : List α) : List α :=
  addAllNew [] items

/-- The numbers of a list in increasing order, each once. -/
def ascending (numbers : List Nat) : List Nat :=
  (distinct numbers).mergeSort fun a b => a ≤ b

theorem mem_addNew [DecidableEq α] (items : List α) (item other : α) :
    other ∈ addNew items item ↔ other ∈ items ∨ other = item := by
  rw [addNew]
  split
  · rename_i present
    constructor
    · exact .inl
    · rintro (old | rfl)
      · exact old
      · exact present
  · simp

theorem nodup_addNew [DecidableEq α] {items : List α} (item : α) (unique : items.Nodup) :
    (addNew items item).Nodup := by
  rw [addNew]
  split
  · exact unique
  · rename_i absent
    rw [List.nodup_append]
    refine ⟨unique, by simp, ?_⟩
    intro a ha b hb
    rw [List.mem_singleton] at hb
    rintro rfl
    exact absent (hb ▸ ha)

private theorem mem_addAllNew [DecidableEq α] (items more : List α) (other : α) :
    other ∈ addAllNew items more ↔ other ∈ items ∨ other ∈ more := by
  rw [addAllNew]
  induction more generalizing items with
  | nil => simp
  | cons item more ih => simp [ih, mem_addNew, or_assoc]

theorem mem_distinct [DecidableEq α] (items : List α) (other : α) :
    other ∈ distinct items ↔ other ∈ items := by
  simp [distinct, mem_addAllNew]

private theorem nodup_addAllNew [DecidableEq α] {items : List α} (more : List α)
    (unique : items.Nodup) : (addAllNew items more).Nodup := by
  rw [addAllNew]
  induction more generalizing items with
  | nil => exact unique
  | cons item more ih => exact ih (nodup_addNew item unique)

theorem nodup_distinct [DecidableEq α] (items : List α) : (distinct items).Nodup :=
  nodup_addAllNew items List.nodup_nil

private theorem addAllNew_addNew [DecidableEq α] (items more : List α) (item : α) :
    addAllNew items (addNew more item) = addNew (addAllNew items more) item := by
  rw [addNew]
  split
  · rename_i present
    rw [addNew, if_pos ((mem_addAllNew items more item).mpr (.inr present))]
  · simp [addAllNew]

private theorem addAllNew_assoc [DecidableEq α] (items more others : List α) :
    addAllNew items (addAllNew more others) = addAllNew (addAllNew items more) others := by
  induction others generalizing more with
  | nil => rfl
  | cons item others ih =>
    show addAllNew items (addAllNew (addNew more item) others) =
      addAllNew (addNew (addAllNew items more) item) others
    rw [ih, addAllNew_addNew]

theorem distinct_append [DecidableEq α] (items more : List α) :
    distinct (items ++ more) = addAllNew (distinct items) (distinct more) := by
  rw [distinct, distinct, distinct, addAllNew_assoc]
  simp [addAllNew]

private theorem addAllNew_eq_append [DecidableEq α] {items more : List α}
    (unique : (items ++ more).Nodup) : addAllNew items more = items ++ more := by
  induction more generalizing items with
  | nil => simp [addAllNew]
  | cons item more ih =>
    have absent : item ∉ items := fun present =>
      (List.nodup_append.mp unique).2.2 item present item List.mem_cons_self rfl
    have longer : (items ++ [item] ++ more).Nodup := by simpa using unique
    show addAllNew (addNew items item) more = items ++ item :: more
    rw [addNew, if_neg absent, ih longer, List.append_assoc, List.singleton_append]

theorem distinct_eq_self [DecidableEq α] {items : List α} (unique : items.Nodup) :
    distinct items = items :=
  addAllNew_eq_append unique

theorem mem_ascending {numbers : List Nat} {number : Nat} :
    number ∈ ascending numbers ↔ number ∈ numbers := by
  rw [ascending, List.mem_mergeSort, mem_distinct]

end Codemod
