import Mathlib.Data.List.Basic

/-!
# Computations that may fail
-/

namespace Codemod

variable {ε α β : Type}

theorem exists_of_bind_ok {first : Except ε α} {next : α → Except ε β} {result : β}
    (succeeded : (first >>= next) = .ok result) :
    ∃ value, first = .ok value ∧ next value = .ok result := by
  cases first with
  | error error => contradiction
  | ok value => exact ⟨value, rfl, succeeded⟩

theorem exists_of_map_ok {first : Except ε α} {change : α → β} {result : β}
    (succeeded : change <$> first = .ok result) :
    ∃ value, first = .ok value ∧ change value = result := by
  cases first with
  | error error => contradiction
  | ok value => exact ⟨value, rfl, Except.ok.inj succeeded⟩

theorem mapError_bind {δ : Type} (change : ε → δ) (first : Except ε α) (next : α → Except ε β) :
    (first >>= next).mapError change = first.mapError change >>= fun value =>
      (next value).mapError change := by
  cases first <;> rfl

theorem mapM_cons_ok_iff {read : α → Except ε β} {item : α} {items : List α} {values : List β} :
    (item :: items).mapM read = .ok values ↔
      ∃ value rest, read item = .ok value ∧ items.mapM read = .ok rest ∧
        values = value :: rest := by
  rw [List.mapM_cons]
  constructor
  · intro succeeded
    obtain ⟨value, first, succeeded⟩ := exists_of_bind_ok succeeded
    obtain ⟨rest, others, succeeded⟩ := exists_of_bind_ok succeeded
    exact ⟨value, rest, first, others, (Except.ok.inj succeeded).symm⟩
  · rintro ⟨value, rest, first, others, rfl⟩
    rw [first, others]
    rfl

theorem forall_of_mapM_ok {read : α → Except ε β} {items : List α} {values : List β} {P : β → Prop}
    (each : ∀ item ∈ items, ∀ value, read item = .ok value → P value)
    (succeeded : items.mapM read = .ok values) : ∀ value ∈ values, P value := by
  induction items generalizing values with
  | nil =>
    cases succeeded
    simp
  | cons item items ih =>
    obtain ⟨value, rest, first, others, rfl⟩ := mapM_cons_ok_iff.mp succeeded
    obtain ⟨here, later⟩ := List.forall_mem_cons.mp each
    exact List.forall_mem_cons.mpr ⟨here value first, ih later others⟩

end Codemod
