import Codemod.Proofs.Text.Bytes
import Mathlib.Data.List.Induction

/-!
# Positions of characters

A position is looked up by an offset in bytes. At the first byte of a character it is that of the
character; at any other byte the character has been passed already.
-/

namespace Codemod.Text.Position

/-- The position of the character that comes after some others: each newline ends a line, and the
columns of a line count its characters. -/
def after (before : List Char) : Position :=
  ⟨before.count '\n' + 1, (before.reverse.takeWhile (· ≠ '\n')).length + 1⟩

private theorem after_concat (before : List Char) (c : Char) :
    after (before ++ [c]) = (after before).advance c := by
  by_cases newline : c = '\n'
  · simp [after, advance, newline]
  · simp [after, advance, newline]

private theorem foldl_advance (before : List Char) : before.foldl advance first = after before := by
  induction before using List.reverseRecOn with
  | nil => rfl
  | append_singleton before c ih =>
    rw [List.foldl_append, List.foldl_cons, List.foldl_nil, ih, after_concat]

@[simp] theorem seek_zero (position : Position) (text : List Char) :
    position.seek text 0 = position := by
  cases text <;> rfl

private theorem seek_cons (position : Position) {c : Char} {rest : List Char} {offset : Nat}
    (some : offset ≠ 0) :
    position.seek (c :: rest) offset = (position.advance c).seek rest (offset - c.utf8Size) := by
  cases offset with
  | zero => contradiction
  | succ offset => rfl

private theorem seek_append (position : Position) (before rest : List Char) (more : Nat) :
    position.seek (before ++ rest) (byteLength before + more) =
      (before.foldl advance position).seek rest more := by
  induction before generalizing position with
  | nil => simp
  | cons c before ih =>
    have some := c.utf8Size_pos
    rw [List.cons_append, byteLength_cons, seek_cons position (by omega), Nat.add_assoc,
      Nat.add_sub_cancel_left, ih, List.foldl_cons]

theorem ofOffset_byteLength (front rest : List Char) :
    ofOffset (front ++ rest) (byteLength front) = after front := by
  have sought := seek_append first front rest 0
  rwa [Nat.add_zero, seek_zero, foldl_advance] at sought

/-- At its last byte a character of several bytes has been passed. It is no newline. -/
def atLastByte (position : Position) (c : Char) : Position :=
  if c.utf8Size = 1 then position else ⟨position.line, position.column + 1⟩

theorem ofOffset_lastByte (front : List Char) (c : Char) (rest : List Char) :
    ofOffset (front ++ c :: rest) (byteLength front + (c.utf8Size - 1)) =
      (after front).atLastByte c := by
  rw [atLastByte]
  split
  · rename_i single
    rw [single]
    exact ofOffset_byteLength front (c :: rest)
  · rename_i several
    have some := c.utf8Size_pos
    have notNewline : c ≠ '\n' := by
      rintro rfl
      exact several rfl
    have passed : c.utf8Size - 1 - c.utf8Size = 0 := by omega
    rw [ofOffset, seek_append, foldl_advance, seek_cons _ (by omega), passed, seek_zero, advance,
      if_neg notNewline]

end Codemod.Text.Position
