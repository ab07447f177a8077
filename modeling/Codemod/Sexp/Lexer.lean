import Codemod.Sexp.Basic
import Codemod.Text.Quoted
import Codemod.Unicode.Classes

/-!
# Tokens

One pass over the characters cuts a text into tokens with byte offsets. White space and comments,
which run from a semicolon to the end of their line, separate tokens. A character that can start no
token ends the pass, and so does a literal without its closing quote.
-/

namespace Codemod

inductive Bracket where
  | round
  | square
deriving DecidableEq, Repr

inductive Lexeme where
  | opening (bracket : Bracket)
  | closing (bracket : Bracket)
  | atom (atom : Atom)
  | stray
  | unclosedQuote
deriving DecidableEq, Repr

structure Token where
  lexeme : Lexeme
  start : Nat
  stop : Nat
deriving DecidableEq, Repr

namespace Lexer

def isWordChar (c : Char) : Bool :=
  Unicode.isAlphanumeric c || "-+*/?!=<>&|^%_.:$@#".toList.contains c

def isDigits (text : List Char) : Bool :=
  !text.isEmpty && text.all Char.isDigit

/-- A word is a number if, a leading minus apart, it is digits with at most one point inside. -/
def wordAtom (word : List Char) : Atom :=
  let unsigned := match word with
    | '-' :: rest => rest
    | _ => word
  let text := String.ofList word
  if isDigits unsigned then .int text
  else match unsigned.span (· ≠ '.') with
    | (whole, _ :: fraction) =>
      if isDigits whole && isDigits fraction then .float text else .ident text
    | _ => .ident text

/-- What the pass is in the middle of. Characters are collected newest first. -/
inductive State where
  | layout
  | comment
  | word (start : Nat) (chars : List Char)
  | quoted (start : Nat) (chars : List Char) (escaped : Bool)
  | halted

/-- Starts a token, or stays between tokens. -/
def begin (offset : Nat) (c : Char) : List Token × State :=
  if Unicode.isWhiteSpace c then ([], .layout)
  else match c with
    | ';' => ([], .comment)
    | '(' => ([⟨.opening .round, offset, offset + 1⟩], .layout)
    | ')' => ([⟨.closing .round, offset, offset + 1⟩], .layout)
    | '[' => ([⟨.opening .square, offset, offset + 1⟩], .layout)
    | ']' => ([⟨.closing .square, offset, offset + 1⟩], .layout)
    | '"' => ([], .quoted offset [] false)
    | c =>
      if isWordChar c then ([], .word offset [c]) else ([⟨.stray, offset, offset⟩], .halted)

def wordToken (start stop : Nat) (chars : List Char) : Token :=
  ⟨.atom (wordAtom chars.reverse), start, stop⟩

/-- Takes one character, giving the tokens it completes. -/
def step (offset : Nat) (c : Char) : State → List Token × State
  | .layout => begin offset c
  | .comment => ([], if c = '\n' ∨ c = '\r' then .layout else .comment)
  | .word start chars =>
    if isWordChar c then ([], .word start (c :: chars))
    else
      let (tokens, state) := begin offset c
      (wordToken start offset chars :: tokens, state)
  | .quoted start chars true => ([], .quoted start (Text.Quoted.unescape c :: chars) false)
  | .quoted start chars false =>
    if c = '"' then
      ([⟨.atom (.string (String.ofList chars.reverse)), start, offset + 1⟩], .layout)
    else if c = '\\' then ([], .quoted start chars true)
    else ([], .quoted start (c :: chars) false)
  | .halted => ([], .halted)

/-- The token that the end of the text completes. -/
def finish (offset : Nat) : State → List Token
  | .word start chars => [wordToken start offset chars]
  | .quoted start _ _ => [⟨.unclosedQuote, start, start + 1⟩]
  | _ => []

def run : State → Nat → List Char → List Token
  | state, offset, [] => finish offset state
  | state, offset, c :: rest =>
    let (tokens, next) := step offset c state
    tokens ++ run next (offset + c.utf8Size) rest

end Lexer

def tokens (text : String) : List Token :=
  Lexer.run .layout 0 text.toList

end Codemod
