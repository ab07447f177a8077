import Codemod.Text.Position

/-!
# Sources and spans

A span marks a stretch of one source. Code that no source holds has the generated span.
-/

namespace Codemod

/-- A text under reading. The id tells two readings of equal texts apart. -/
structure Source where
  id : Nat
  name : Option String
  text : String
deriving DecidableEq, Repr

structure Span where
  source : Source
  start : Nat
  stop : Nat
deriving DecidableEq, Repr

namespace Span

def generated : Span := ⟨⟨0, none, ""⟩, 0, 0⟩

/-- An unnamed empty text holds no code. -/
def isGenerated (span : Span) : Bool :=
  span.source.name.isNone && span.source.text.isEmpty

def text (span : Span) : String :=
  String.ofList (Text.slice span.source.text.toList span.start span.stop)

/-- The least span that covers both. The first one wins over a span of another source. -/
def merge (a b : Span) : Span :=
  if a.isGenerated then b
  else if b.isGenerated || a.source ≠ b.source then a
  else ⟨a.source, min a.start b.start, max a.stop b.stop⟩

def firstPosition (span : Span) : Text.Position :=
  .ofOffset span.source.text.toList span.start

/-- Where the last byte of the span lies; an empty span ends where it starts. -/
def lastPosition (span : Span) : Text.Position :=
  .ofOffset span.source.text.toList (max (span.stop - 1) span.start)

def render (span : Span) : String :=
  if span.isGenerated then "In <generated>"
  else
    let first := span.firstPosition
    let last := span.lastPosition
    let lastText :=
      if first.line = last.line then s!"{last.column}" else s!"{last.line}:{last.column}"
    let file := match span.source.name with
      | some name => s!" of {name}"
      | none => ""
    s!"In {first.line}:{first.column}-{lastText}{file}: {span.text}"

end Span

end Codemod
