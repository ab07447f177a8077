import Codemod.ReadError
import Codemod.Sexp.Lexer

/-!
# Reading s-expressions

Tokens are taken one by one. An opening bracket starts a list, the closing bracket of the same form
ends the innermost open one.
-/

namespace Codemod

namespace Reader

/-- A list whose closing bracket has not been read, with its items newest first. -/
structure OpenList where
  bracket : Bracket
  start : Nat
  items : List Sexp

/-- The open lists, innermost first, and the finished top-level expressions, newest first. -/
structure State where
  pending : List OpenList
  done : List Sexp

def State.initial : State := ⟨[], []⟩

def State.push (state : State) (sexp : Sexp) : State :=
  match state.pending with
  | [] => { state with done := sexp :: state.done }
  | inner :: outer => { state with pending := { inner with items := sexp :: inner.items } :: outer }

def feed (source : Source) (state : State) (token : Token) : Except ReadError State :=
  match token.lexeme with
  | .opening bracket => .ok { state with pending := ⟨bracket, token.start, []⟩ :: state.pending }
  | .closing bracket =>
    match state.pending with
    | inner :: outer =>
      if inner.bracket = bracket then
        let list := Sexp.list inner.items.reverse ⟨source, inner.start, token.stop⟩
        .ok ({ state with pending := outer }.push list)
      else .error ⟨⟨source, token.start, token.start⟩, .expectedIdent⟩
    | [] => .error ⟨⟨source, token.start, token.start⟩, .expectedIdent⟩
  | .atom atom => .ok (state.push (.atom atom ⟨source, token.start, token.stop⟩))
  | .stray => .error ⟨⟨source, token.start, token.start⟩, .expectedIdent⟩
  | .unclosedQuote => .error ⟨⟨source, token.start, token.stop⟩, .missingEndQuote⟩

def unexpectedEnd (source : Source) : ReadError :=
  ⟨⟨source, source.text.utf8ByteSize, source.text.utf8ByteSize⟩, .unexpectedEnd⟩

/-- Reads tokens up to the end of the first top-level expression. -/
def readFirst (source : Source) : State → List Token → Except ReadError (Sexp × List Token)
  | _, [] => .error (unexpectedEnd source)
  | state, token :: rest =>
    match feed source state token with
    | .error error => .error error
    | .ok next =>
      match next.pending, next.done with
      | [], sexp :: _ => .ok (sexp, rest)
      | _, _ => readFirst source next rest

end Reader

/-- Reads the s-expressions of a text. -/
def Sexp.readAll (source : Source) : Except ReadError (List Sexp) := do
  let state ← (tokens source.text).foldlM (Reader.feed source) .initial
  if state.pending.isEmpty then .ok state.done.reverse else .error (Reader.unexpectedEnd source)

/-- Reads a text that holds exactly one s-expression. -/
def Sexp.readOne (source : Source) : Except ReadError Sexp := do
  let (sexp, rest) ← Reader.readFirst source .initial (tokens source.text)
  match rest with
  | [] => .ok sexp
  | token :: _ => .error ⟨⟨source, token.start, token.start⟩, .trailingInput⟩

end Codemod
