/-!
# String literals

A literal stands between quotes. Quote, backslash, newline and tab are written with a backslash,
every other character as itself.
-/

namespace Codemod.Text

namespace Quoted

/-- How a character is spelled inside a literal. -/
def spell : Char → List Char
  | '"' => ['\\', '"']
  | '\\' => ['\\', '\\']
  | '\n' => ['\\', 'n']
  | '\t' => ['\\', 't']
  | c => [c]

/-- The character that stands for a backslash followed by the given one. -/
def unescape : Char → Char
  | 'n' => '\n'
  | 't' => '\t'
  | c => c

def encode (text : List Char) : List Char :=
  text.flatMap spell

end Quoted

def quote (text : String) : String :=
  String.ofList ('"' :: Quoted.encode text.toList ++ ['"'])

end Codemod.Text
