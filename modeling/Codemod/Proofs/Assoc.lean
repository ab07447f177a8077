import Codemod.Assoc
import Codemod.Distinct
import Mathlib.Data.List.Nodup

/-!
# Entries of association lists

A new key is entered last, so that a list which starts with another one gives its keys the same
values.
-/

namespace Codemod.Assoc

variable {κ ν : Type} [DecidableEq κ] {map other : Assoc κ ν} {key : κ} {value : ν}

theorem mem_entries_of_find? (found : map.find? key = some value) : (key, value) ∈ map.entries := by
  obtain ⟨entries⟩ := map
  rw [find?] at found
  simp only at found ⊢
  induction entries with
  | nil => contradiction
  | cons entry rest ih =>
    obtain ⟨other, first⟩ := entry
    rw [findEntry] at found
    split at found
    · rename_i same
      cases found
      rw [same]
      exact List.mem_cons_self
    · exact List.mem_cons_of_mem _ (ih found)

private theorem findEntry_append (key : κ) (first second : List (κ × ν)) :
    findEntry key (first ++ second) = (findEntry key first).or (findEntry key second) := by
  induction first with
  | nil => rfl
  | cons entry rest ih =>
    simp only [List.cons_append, findEntry]
    split
    · rfl
    · exact ih

theorem find?_mono (within : map.entries <+: other.entries)
    (found : map.find? key = some value) : other.find? key = some value := by
  obtain ⟨added, grown⟩ := within
  rw [find?] at found ⊢
  rw [← grown, findEntry_append, found, Option.some_or]

theorem isSome_find?_of_mem (member : (key, value) ∈ map.entries) :
    (map.find? key).isSome = true := by
  obtain ⟨entries⟩ := map
  rw [find?]
  simp only at member ⊢
  induction entries with
  | nil => contradiction
  | cons entry rest ih =>
    obtain ⟨other, first⟩ := entry
    rw [findEntry]
    split
    · rfl
    · rename_i different
      refine ih ((List.mem_cons.mp member).resolve_left fun here => ?_)
      cases here
      exact different rfl

private theorem alterEntries_of_absent {entries : List (κ × ν)}
    (absent : findEntry key entries = none) (change : Option ν → ν) :
    alterEntries key change entries = entries ++ [(key, change none)] := by
  induction entries with
  | nil => rfl
  | cons entry rest ih =>
    rw [findEntry] at absent
    split at absent
    · contradiction
    · rename_i different
      rw [alterEntries, if_neg different, ih absent, List.cons_append]

theorem entries_insert (absent : map.find? key = none) (value : ν) :
    (map.insert key value).entries = map.entries ++ [(key, value)] :=
  alterEntries_of_absent absent _

theorem mem_entries_alter {listed : κ} {change : Option ν → ν}
    (member : (listed, value) ∈ (map.alter key change).entries) :
    (listed, value) ∈ map.entries ∨
      listed = key ∧ (value = change none ∨
        ∃ old, (key, old) ∈ map.entries ∧ value = change (some old)) := by
  obtain ⟨entries⟩ := map
  rw [alter] at member
  simp only at member ⊢
  induction entries with
  | nil =>
    rw [alterEntries, List.mem_singleton] at member
    cases member
    exact .inr ⟨rfl, .inl rfl⟩
  | cons entry rest ih =>
    obtain ⟨first, old⟩ := entry
    rw [alterEntries] at member
    split at member
    · rename_i same
      subst same
      rcases List.mem_cons.mp member with here | later
      · cases here
        exact .inr ⟨rfl, .inr ⟨old, List.mem_cons_self, rfl⟩⟩
      · exact .inl (List.mem_cons_of_mem _ later)
    · rcases List.mem_cons.mp member with here | later
      · exact .inl (here ▸ List.mem_cons_self)
      · rcases ih later with earlier | ⟨same, new | ⟨older, present, changed⟩⟩
        · exact .inl (List.mem_cons_of_mem _ earlier)
        · exact .inr ⟨same, .inl new⟩
        · exact .inr ⟨same, .inr ⟨older, List.mem_cons_of_mem _ present, changed⟩⟩

/-- When what is spread out for one key grows, so does what is spread out for all keys. -/
theorem perm_flatMap_alter {α : Type} (spread : κ → ν → List α) (map : Assoc κ ν) (key : κ)
    (change : Option ν → ν) (more : List α)
    (grows : ∀ old : Option ν,
      (spread key (change old)).Perm ((old.elim [] (spread key)) ++ more)) :
    ((map.alter key change).entries.flatMap fun entry => spread entry.1 entry.2).Perm
      ((map.entries.flatMap fun entry => spread entry.1 entry.2) ++ more) := by
  obtain ⟨entries⟩ := map
  simp only [alter]
  induction entries with
  | nil => simpa [alterEntries] using grows none
  | cons entry rest ih =>
    obtain ⟨other, old⟩ := entry
    rw [alterEntries]
    split
    · rename_i same
      subst same
      have here := (grows (some old)).append_right
        (rest.flatMap fun entry => spread entry.1 entry.2)
      simp only [List.flatMap_cons, List.append_assoc]
      refine here.trans ?_
      rw [Option.elim_some, List.append_assoc]
      exact List.perm_append_comm.append_left _
    · simp only [List.flatMap_cons, List.append_assoc]
      exact ih.append_left _

theorem keys_alter (map : Assoc κ ν) (key : κ) (change : Option ν → ν) :
    (map.alter key change).keys = addNew map.keys key := by
  obtain ⟨entries⟩ := map
  rw [alter]
  simp only [keys]
  induction entries with
  | nil => rfl
  | cons entry rest ih =>
    obtain ⟨first, value⟩ := entry
    rw [alterEntries]
    split
    · rename_i same
      rw [addNew, if_pos (by simp [same])]
      rfl
    · rename_i different
      rw [List.map_cons, ih]
      simp only [List.map_cons, addNew, List.mem_cons, different, false_or]
      split <;> rfl

theorem mem_keys_iff : key ∈ map.keys ↔ ∃ value, map.find? key = some value := by
  constructor
  · intro listed
    obtain ⟨entry, member, rfl⟩ := List.mem_map.mp listed
    exact Option.isSome_iff_exists.mp (isSome_find?_of_mem member)
  · rintro ⟨value, found⟩
    exact List.mem_map_of_mem (mem_entries_of_find? found)

theorem find?_eq_some_iff (unique : map.keys.Nodup) :
    map.find? key = some value ↔ (key, value) ∈ map.entries := by
  refine ⟨mem_entries_of_find?, fun member => ?_⟩
  obtain ⟨other, found⟩ := Option.isSome_iff_exists.mp (isSome_find?_of_mem member)
  have same := List.inj_on_of_nodup_map unique (mem_entries_of_find? found) member rfl
  rw [found, (Prod.mk.inj same).2]

theorem find?_eq_none_of_not_mem (absent : key ∉ map.keys) : map.find? key = none := by
  cases found : map.find? key with
  | none => rfl
  | some value => exact absurd (List.mem_map_of_mem (mem_entries_of_find? found)) absent

end Codemod.Assoc
