import Codemod.Text.Position
import Mathlib.Tactic.Common

/-!
# Bytes of a text

Between two cuts that split no character lie the characters that take up the bytes in between.
-/

namespace Codemod.Text

@[simp] theorem byteLength_nil : byteLength [] = 0 := rfl

@[simp] theorem byteLength_cons (c : Char) (rest : List Char) :
    byteLength (c :: rest) = c.utf8Size + byteLength rest := rfl

@[simp] theorem byteLength_append (first second : List Char) :
    byteLength (first ++ second) = byteLength first + byteLength second := by
  induction first with
  | nil => simp
  | cons c first ih => simp [ih, Nat.add_assoc]

theorem byteLength_pos {text : List Char} (some : text ≠ []) : 0 < byteLength text := by
  obtain ⟨c, rest, rfl⟩ := List.exists_cons_of_ne_nil some
  exact Nat.add_pos_left c.utf8Size_pos _

private theorem utf8ByteSize_ofList (text : List Char) :
    (String.ofList text).utf8ByteSize = byteLength text := by
  induction text with
  | nil => simp
  | cons c text ih => rw [String.ofList_cons, String.utf8ByteSize_append,
      String.utf8ByteSize_singleton, ih, byteLength_cons]

theorem byteLength_toList (text : String) : byteLength text.toList = text.utf8ByteSize := by
  rw [← utf8ByteSize_ofList, String.ofList_toList]

/-- A cut between two characters lies on a boundary of the encoding. -/
theorem isValid_byteLength {text : String} {front rest : List Char}
    (splits : text.toList = front ++ rest) :
    String.Pos.Raw.IsValid text ⟨byteLength front⟩ := by
  refine String.Pos.Raw.isValid_iff_exists_append.mpr
    ⟨String.ofList front, String.ofList rest, ?_, ?_⟩
  · rw [← String.ofList_append, ← splits, String.ofList_toList]
  · rw [String.rawEndPos, utf8ByteSize_ofList]

private theorem dropBytes_cons {c : Char} {rest : List Char} {count : Nat} (some : count ≠ 0) :
    dropBytes (c :: rest) count = dropBytes rest (count - c.utf8Size) := by
  cases count with
  | zero => contradiction
  | succ count => rfl

private theorem takeBytes_cons {c : Char} {rest : List Char} {count : Nat} (some : count ≠ 0) :
    takeBytes (c :: rest) count = c :: takeBytes rest (count - c.utf8Size) := by
  cases count with
  | zero => contradiction
  | succ count => rfl

private theorem dropBytes_append (front rest : List Char) :
    dropBytes (front ++ rest) (byteLength front) = rest := by
  induction front with
  | nil => cases rest <;> rfl
  | cons c front ih =>
    have some := byteLength_pos (List.cons_ne_nil c front)
    rw [List.cons_append, dropBytes_cons (Nat.ne_of_gt some), byteLength_cons,
      Nat.add_sub_cancel_left, ih]

theorem takeBytes_append (body rest : List Char) :
    takeBytes (body ++ rest) (byteLength body) = body := by
  induction body with
  | nil => cases rest <;> rfl
  | cons c body ih =>
    have some := byteLength_pos (List.cons_ne_nil c body)
    rw [List.cons_append, takeBytes_cons (Nat.ne_of_gt some), byteLength_cons,
      Nat.add_sub_cancel_left, ih]

theorem takeBytes_prefix (text : List Char) (count : Nat) : takeBytes text count <+: text := by
  induction text generalizing count with
  | nil => exact List.prefix_refl _
  | cons c rest ih =>
    cases count with
    | zero => exact List.nil_prefix
    | succ count => exact (List.cons_prefix_cons).mpr ⟨rfl, ih _⟩

theorem slice_append (front body back : List Char) :
    slice (front ++ (body ++ back)) (byteLength front) (byteLength front + byteLength body) =
      body := by
  rw [slice, dropBytes_append, Nat.add_sub_cancel_left, takeBytes_append]

/-- No character of the text goes across the offset. -/
def Cuts (text : List Char) (offset : Nat) : Prop :=
  ∃ front back, text = front ++ back ∧ byteLength front = offset

theorem exists_between {text : List Char} {start stop : Nat} (starts : Cuts text start)
    (stops : Cuts text stop) (forward : start < stop) :
    ∃ front quoted back, text = front ++ (quoted ++ back) ∧ quoted ≠ [] ∧
      byteLength front = start ∧ byteLength front + byteLength quoted = stop := by
  obtain ⟨front, rest, rfl, rfl⟩ := starts
  obtain ⟨whole, back, same, rfl⟩ := stops
  rcases List.append_eq_append_iff.mp same with ⟨quoted, rfl, rfl⟩ | ⟨beyond, rfl, rfl⟩
  · refine ⟨front, quoted, back, rfl, ?_, rfl, (byteLength_append front quoted).symm⟩
    rintro rfl
    simp at forward
  · rw [byteLength_append] at forward
    omega

end Codemod.Text
