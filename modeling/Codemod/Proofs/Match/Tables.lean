import Codemod.Proofs.Assoc
import Codemod.Proofs.Match.Captures

/-!
# Capture tables that grow

A check enters names at the end of the capture table and changes nothing before them, so a table
lists its names by first appearance. Terms that take exactly one tree each are told from runs by the
table.
-/

namespace Codemod

/-- The names that capture sequences, in order of first appearance. -/
def CaptureTable.sequences (captures : CaptureTable) : List String :=
  (captures.entries.filter (·.2 = .sequence)).map Prod.fst

/-- A hole that stands for a sequence, captured there or referred to. -/
def Term.isRun (captures : CaptureTable) : Term → Bool
  | .hole slot => captures.find? slot.name = some .sequence
  | _ => false

namespace CaptureTable

variable {captures extended : CaptureTable}

theorem sequences_mono (grown : captures.entries <+: extended.entries) :
    sequences captures <+: sequences extended :=
  (grown.filter _).map _

theorem isSome_of_mem_sequences {name : String} (member : name ∈ sequences captures) :
    (captures.find? name).isSome = true := by
  obtain ⟨⟨_, kind⟩, listed, rfl⟩ := List.mem_map.mp member
  exact Assoc.isSome_find?_of_mem (List.mem_filter.mp listed).1

theorem sequences_insert {name : String} (absent : captures.find? name = none) :
    sequences (captures.insert name .sequence) = sequences captures ++ [name] := by
  rw [sequences, Assoc.entries_insert absent, List.filter_append, List.map_append]
  rfl

end CaptureTable

variable {language : Language} {site : Site} {captures extended : CaptureTable}

theorem Hole.exists_kind_of_enter {hole : Hole}
    (entered : hole.enter site captures = .ok extended) :
    ∃ kind, extended.find? hole.name = some kind ∧
      (hole.backRef = false → kind = hole.effectiveKind) := by
  obtain ⟨_, ⟨backRef, rfl, kind, known, _⟩ | ⟨_, _, ⟨known, rfl⟩ | ⟨_, rfl⟩⟩⟩ :=
    Hole.enter_cases entered
  · exact ⟨kind, known, by simp [backRef]⟩
  · exact ⟨_, known, fun _ => rfl⟩
  · exact ⟨_, by simp, fun _ => rfl⟩

private theorem Hole.prefix_of_enter {hole : Hole}
    (entered : hole.enter site captures = .ok extended) :
    captures.entries <+: extended.entries := by
  obtain ⟨_, ⟨_, rfl, _⟩ | ⟨_, _, ⟨_, rfl⟩ | ⟨absent, rfl⟩⟩⟩ := Hole.enter_cases entered
  · exact List.prefix_rfl
  · exact List.prefix_rfl
  · rw [Assoc.entries_insert absent]
    exact List.prefix_append _ _

namespace Term

mutual

private theorem prefix_of_check : ∀ (term : Term) {site : Site} {captures extended : CaptureTable},
    check language site term captures = .ok extended → captures.entries <+: extended.entries
  | .leaf _ _, _, _, _, checked => by
    cases checked
    exact List.prefix_rfl
  | .branch kind children, _, _, _, checked => by
    rw [check] at checked
    exact prefix_of_checkAll children checked
  | .hole slot, _, _, _, checked => by
    rw [check] at checked
    exact Hole.prefix_of_enter checked

theorem prefix_of_checkAll : ∀ (terms : List Term) {site : Site}
    {captures extended : CaptureTable}, checkAll language site terms captures = .ok extended →
      captures.entries <+: extended.entries
  | [], _, _, _, checked => by
    cases checked
    exact List.prefix_rfl
  | term :: rest, _, _, _, checked => by
    obtain ⟨middle, first, others⟩ := checkAll_cons_ok checked
    exact (prefix_of_check term first).trans (prefix_of_checkAll rest others)

end

variable {bindings bound : Bindings}

theorem isRun_of_repeating {slot : Hole} {earlier : List Tree} {final : CaptureTable}
    (captured : Captured language captures bindings)
    (within : captures.entries <+: final.entries)
    (found : bindings.find? slot.name = some (.sequence earlier)) :
    isRun final (.hole slot) = true := by
  have sequence := (captured.sequence_iff slot.name).mpr ⟨earlier, found⟩
  simp [isRun, Assoc.find?_mono within sequence]

theorem used_of_no_run {final : CaptureTable} {terms : List Term} {trees : List Tree}
    {anchored : Bool} {used : Nat} (plain : ∀ hole ∈ holesAll terms, hole.Plain)
    (checked : checkAll language site terms captures = .ok extended)
    (captured : Captured language captures bindings)
    (within : extended.entries <+: final.entries) (single : terms.countP (isRun final) = 0)
    (matched : unifyAll language terms trees bindings anchored = some (bound, used)) :
    used = terms.length := by
  induction terms generalizing captures trees bindings used with
  | nil =>
    rw [unifyAll] at matched
    split at matched
    · contradiction
    · cases matched
      rfl
  | cons term rest ih =>
    obtain ⟨middle, first, others⟩ := checkAll_cons_ok checked
    obtain ⟨firstPlain, restPlain⟩ := List.forall_mem_append.mp plain
    have later := (prefix_of_checkAll rest others).trans within
    obtain ⟨here, behind⟩ := List.forall_mem_cons.mp (List.countP_eq_zero.mp single)
    rcases unifyAll_cons_cases matched with ⟨slot, earlier, more, rfl, found, _⟩ |
      ⟨slot, length, more, rfl, sequence, unbound, _⟩ |
      ⟨tree, followers, next, more, _, _, unified, after, rfl⟩
    · have grown := prefix_of_check _ first
      exact absurd (isRun_of_repeating captured (grown.trans later) found) here
    · rw [check] at first
      have slotPlain := firstPlain slot (List.mem_singleton_self slot)
      obtain ⟨_, rfl, _⟩ := enter_of_fresh slotPlain first captured sequence unbound
      have nextCaptured := captured.insert_sequence slot.name (trees.take length)
      exact absurd (isRun_of_repeating nextCaptured later (by simp; rfl)) here
    · have nextCaptured := captured_of_unify term firstPlain first captured unified
      rw [ih restPlain others nextCaptured (List.countP_eq_zero.mpr behind) after,
        List.length_cons]

end Term

end Codemod
