/-!
# Extents

Half-open ranges of sibling positions. A reversed range is empty.
-/

namespace Codemod

structure Extent where
  start : Nat
  stop : Nat
deriving DecidableEq, Repr

namespace Extent

def length (extent : Extent) : Nat :=
  extent.stop - extent.start

/-- The extent of one position. -/
def single (position : Nat) : Extent :=
  ⟨position, position + 1⟩

def overlaps (a b : Extent) : Bool :=
  a.start < b.stop && b.start < a.stop

/-- The part of a list an extent covers. -/
def slice (extent : Extent) (items : List α) : List α :=
  (items.drop extent.start).take extent.length

theorem slice_append_drop (extent : Extent) (items : List α) (le : extent.start ≤ extent.stop) :
    extent.slice items ++ items.drop extent.stop = items.drop extent.start := by
  have stop : items.drop extent.stop = (items.drop extent.start).drop extent.length := by
    rw [List.drop_drop, length, Nat.add_sub_cancel' le]
  rw [stop]
  exact List.take_append_drop extent.length (items.drop extent.start)

theorem getElem?_of_slice {extent : Extent} {items : List α} {offset : Nat} {item : α}
    (covered : (extent.slice items)[offset]? = some item) :
    items[extent.start + offset]? = some item := by
  rw [slice, List.getElem?_take] at covered
  split at covered
  · rwa [List.getElem?_drop] at covered
  · contradiction

theorem slice_eq_drop {items : List α} {count : Nat} (length_eq : items.length = count)
    (start : Nat) : slice ⟨start, count⟩ items = items.drop start := by
  apply List.take_of_length_le
  rw [List.length_drop, length_eq]
  exact Nat.le_refl (count - start)

/-- A position lies in an extent. -/
instance : Membership Nat Extent where
  mem extent position := extent.start ≤ position ∧ position < extent.stop

theorem mem_iff {extent : Extent} {position : Nat} :
    position ∈ extent ↔ extent.start ≤ position ∧ position < extent.stop := Iff.rfl

/-- The first extent lies in the second one. -/
def Within (inner outer : Extent) : Prop :=
  outer.start ≤ inner.start ∧ inner.stop ≤ outer.stop

instance (inner outer : Extent) : Decidable (inner.Within outer) :=
  inferInstanceAs (Decidable (_ ∧ _))

/-- An extent that covers something. -/
def Proper (extent : Extent) : Prop :=
  extent.start < extent.stop

instance (extent : Extent) : Decidable extent.Proper :=
  inferInstanceAs (Decidable (extent.start < extent.stop))

theorem overlaps_iff {a b : Extent} :
    a.overlaps b = true ↔ a.start < b.stop ∧ b.start < a.stop := by
  simp [overlaps]

theorem Proper.overlaps_self {extent : Extent} (proper : extent.Proper) :
    extent.overlaps extent = true :=
  overlaps_iff.mpr ⟨proper, proper⟩

theorem overlaps_comm (a b : Extent) : a.overlaps b = b.overlaps a := by
  simp [overlaps, Bool.and_comm]

end Extent

end Codemod
