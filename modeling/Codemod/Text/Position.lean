/-!
# Positions

Offsets count UTF-8 bytes; lines and columns count from one, columns in characters. A newline ends
its line.
-/

namespace Codemod.Text

structure Position where
  line : Nat
  column : Nat
deriving DecidableEq, Repr

namespace Position

def first : Position := ⟨1, 1⟩

/-- The position after a character. -/
def advance (position : Position) (c : Char) : Position :=
  if c = '\n' then ⟨position.line + 1, 1⟩ else ⟨position.line, position.column + 1⟩

/-- Moves past every character that starts before the offset. -/
def seek (position : Position) : List Char → Nat → Position
  | [], _ => position
  | _, 0 => position
  | c :: rest, offset => seek (position.advance c) rest (offset - c.utf8Size)

def ofOffset (text : List Char) (offset : Nat) : Position :=
  first.seek text offset

end Position

/-- The bytes a text takes. -/
def byteLength : List Char → Nat
  | [] => 0
  | c :: rest => c.utf8Size + byteLength rest

def dropBytes : List Char → Nat → List Char
  | [], _ => []
  | text, 0 => text
  | c :: rest, count => dropBytes rest (count - c.utf8Size)

def takeBytes : List Char → Nat → List Char
  | [], _ => []
  | _, 0 => []
  | c :: rest, count => c :: takeBytes rest (count - c.utf8Size)

/-- The characters between two byte offsets. -/
def slice (text : List Char) (start stop : Nat) : List Char :=
  takeBytes (dropBytes text start) (stop - start)

end Codemod.Text
