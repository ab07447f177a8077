import Codemod.Proofs.Text.Positions
import Codemod.Proofs.Tree.Spans

/-!
# Displayed positions

A span of what is read is displayed with the position of the first character it marks. The last
column is that of the last character if the character takes a single byte. The end is looked up one
byte ahead of where the span stops, which lies inside a longer character: then the column displayed
is the next one.
-/

namespace Codemod

open Text

namespace Span

/-- The spans of s-expressions and trees that are read from a source, and what they merge to. -/
inductive OfRead (source : Source) : Span → Prop where
  | sexp {sexps : List Sexp} {sexp part : Sexp} (read : Sexp.readAll source = .ok sexps)
      (member : sexp ∈ sexps) (within : part.Within sexp) : OfRead source part.span
  | tree {tree node : Tree} (read : Tree.read source = .ok tree) (inside : node ∈ tree.preorder) :
      OfRead source node.span
  | trees {trees : List Tree} {tree node : Tree} (read : Tree.readAll source = .ok trees)
      (member : tree ∈ trees) (inside : node ∈ tree.preorder) : OfRead source node.span
  | merge {a b : Span} (first : OfRead source a) (second : OfRead source b) :
      OfRead source (a.merge b)

/-- The span marks some characters of a source. -/
structure Quotes (source : Source) (span : Span) : Prop where
  source_eq : span.source = source
  forward : span.start < span.stop
  starts : Cuts source.text.toList span.start
  stops : Cuts source.text.toList span.stop

namespace Quotes

variable {source : Source} {span other : Span}

private theorem isGenerated_eq_false (quotes : span.Quotes source) : span.isGenerated = false := by
  obtain ⟨front, back, whole, stop⟩ := quotes.stops
  have forward := quotes.forward
  have written : source.text ≠ "" := by
    intro empty
    rw [empty] at whole
    obtain ⟨rfl, rfl⟩ := List.append_eq_nil_iff.mp whole.symm
    rw [byteLength_nil] at stop
    omega
  simp [isGenerated, quotes.source_eq, written]

private theorem merge (quotes : span.Quotes source) (others : other.Quotes source) :
    (span.merge other).Quotes source := by
  have merged :
      span.merge other = ⟨source, min span.start other.start, max span.stop other.stop⟩ := by
    simp [Span.merge, quotes.isGenerated_eq_false, others.isGenerated_eq_false, quotes.source_eq,
      others.source_eq]
  have forward := quotes.forward
  rw [merged]
  refine ⟨rfl, ?_, ?_, ?_⟩
  · dsimp only
    omega
  · rw [Nat.min_def]
    split
    · exact quotes.starts
    · exact others.starts
  · rw [Nat.max_def]
    split
    · exact others.stops
    · exact quotes.stops

private theorem exists_marks (quotes : span.Quotes source) :
    ∃ front body last back, span.Marks front (body ++ [last]) back := by
  obtain ⟨front, quoted, back, whole, some, start, stop⟩ :=
    exists_between quotes.starts quotes.stops quotes.forward
  obtain ⟨body, last, rfl⟩ := (List.eq_nil_or_concat' quoted).resolve_left some
  rw [← quotes.source_eq] at whole
  exact ⟨front, body, last, back, whole, start.symm, stop.symm⟩

end Quotes

private theorem quotes_of_within {source : Source} {sexps : List Sexp}
    (read : Sexp.readAll source = .ok sexps) {sexp part : Sexp} (member : sexp ∈ sexps)
    (within : part.Within sexp) : part.span.Quotes source := by
  obtain ⟨front, quoted, back, marks, alone⟩ := Sexp.exists_marks read member within
  have splits := alone.source_eq ▸ marks.splits
  have starts : Cuts source.text.toList part.span.start :=
    ⟨front, _, splits, marks.start_eq.symm⟩
  rw [← List.append_assoc] at splits
  have stops : Cuts source.text.toList part.span.stop :=
    ⟨_, back, splits, (byteLength_append front quoted).trans marks.stop_eq.symm⟩
  exact ⟨alone.source_eq, marks.start_lt_stop alone.some, starts, stops⟩

private theorem quotes_of_made {source : Source} {sexps : List Sexp}
    (read : Sexp.readAll source = .ok sexps) {sexp : Sexp} (member : sexp ∈ sexps) {tree : Tree}
    (made : Tree.ofSexp sexp = .ok tree) : ∀ node ∈ tree.preorder, node.span.Quotes source := by
  intro node inside
  obtain ⟨part, within, same, _⟩ := Tree.standsFor_of_ofSexp sexp tree made node inside
  rw [← same]
  exact quotes_of_within read member within

private theorem OfRead.quotes {source : Source} {span : Span} (ofRead : span.OfRead source) :
    span.Quotes source := by
  induction ofRead with
  | sexp read member within => exact quotes_of_within read member within
  | tree read inside =>
    obtain ⟨sexp, first, made⟩ := exists_of_bind_ok read
    exact quotes_of_made (Sexp.readOne_ok_iff.mp first) List.mem_cons_self made _ inside
  | @trees trees tree node read member inside =>
    obtain ⟨sexps, first, made⟩ := exists_of_bind_ok read
    rw [Tree.ofSexps_eq_mapM] at made
    have each : ∀ sexp ∈ sexps, ∀ tree, Tree.ofSexp sexp = .ok tree →
        ∀ node ∈ tree.preorder, node.span.Quotes source :=
      fun sexp listed tree made => quotes_of_made first listed made
    exact forall_of_mapM_ok each made tree member node inside
  | merge _ _ first second => exact first.merge second

/-- A span that is displayed with a first and a last position. -/
def renderAt (span : Span) (first last : Position) : String :=
  let lastText :=
    if first.line = last.line then s!"{last.column}" else s!"{last.line}:{last.column}"
  let file := match span.source.name with
    | some name => s!" of {name}"
    | none => ""
  s!"In {first.line}:{first.column}-{lastText}{file}: {span.text}"

private theorem render_eq {span : Span} (written : span.isGenerated = false) :
    span.render = span.renderAt span.firstPosition span.lastPosition := by
  rw [render, if_neg (by simp [written])]
  rfl

private theorem Marks.firstPosition_eq {span : Span} {front quoted back : List Char}
    (marks : span.Marks front quoted back) : span.firstPosition = .after front := by
  rw [firstPosition, marks.splits, marks.start_eq, Position.ofOffset_byteLength]

private theorem Marks.lastPosition_eq {span : Span} {front body back : List Char} {last : Char}
    (marks : span.Marks front (body ++ [last]) back) :
    span.lastPosition = (Position.after (front ++ body)).atLastByte last := by
  have size := last.utf8Size_pos
  have looked : max (span.stop - 1) span.start =
      byteLength (front ++ body) + (last.utf8Size - 1) := by
    rw [marks.stop_eq, marks.start_eq, byteLength_append, byteLength_append, byteLength_cons,
      byteLength_nil]
    omega
  have whole : span.source.text.toList = front ++ body ++ last :: back := by
    rw [marks.splits]
    simp
  rw [lastPosition, whole, looked, Position.ofOffset_lastByte]

/-- A span of what is read is displayed with the position of the first character it marks, and with
the position of the last one or, if that takes several bytes, with the next column. -/
theorem displayed_positions (source : Source) (span : Span) (ofRead : span.OfRead source) :
    ∃ front body last back, span.Marks front (body ++ [last]) back ∧
      span.text = String.ofList (body ++ [last]) ∧
      let first := Position.after front
      let place := Position.after (front ++ body)
      (last.utf8Size = 1 → span.render = span.renderAt first place) ∧
        (last.utf8Size ≠ 1 →
          span.render = span.renderAt first ⟨place.line, place.column + 1⟩) := by
  have quotes := ofRead.quotes
  obtain ⟨front, body, last, back, marks⟩ := quotes.exists_marks
  have shown := render_eq quotes.isGenerated_eq_false
  rw [marks.firstPosition_eq, marks.lastPosition_eq, Position.atLastByte] at shown
  refine ⟨front, body, last, back, marks, marks.text_eq, fun single => ?_, fun several => ?_⟩
  · rwa [if_pos single] at shown
  · rwa [if_neg several] at shown

private theorem exists_read_spanning {source : Source} {span : Span}
    (found : (Tree.read source).toOption.map Tree.span = some span) :
    ∃ tree, Tree.read source = .ok tree ∧ tree.span = span := by
  cases read : Tree.read source with
  | error error => simp [read, Except.toOption] at found
  | ok tree =>
    rw [read] at found
    exact ⟨tree, rfl, Option.some.inj found⟩

/-- A list on two lines, behind a comment. -/
def commentedList : Source := ⟨0, none, "; é\n(é\n f)"⟩

theorem commentedList_displayed :
    ∃ tree, Tree.read commentedList = .ok tree ∧ tree.span.OfRead commentedList ∧
      tree.span.render = "In 2:1-3:3: (é\n f)" ∧
      ∃ front body last back, tree.span.Marks front (body ++ [last]) back ∧
        (last.utf8Size = 1 → tree.span.render =
          tree.span.renderAt (.after front) (.after (front ++ body))) := by
  obtain ⟨tree, read, span_eq⟩ := @exists_read_spanning commentedList ⟨commentedList, 5, 12⟩
    (by decide +kernel)
  have ofRead : tree.span.OfRead commentedList := .tree read (Tree.mem_preorder.mpr (.inl rfl))
  obtain ⟨front, body, last, back, marks, _, single, _⟩ :=
    displayed_positions commentedList tree.span ofRead
  refine ⟨tree, read, ofRead, ?_, front, body, last, back, marks, single⟩
  rw [span_eq]
  decide +kernel

/-- A name of one character that takes two bytes. -/
def accentedName : Source := ⟨0, none, "é"⟩

theorem accentedName_displayed_too_far :
    ∃ tree, Tree.read accentedName = .ok tree ∧ tree.span.Marks [] ([] ++ ['é']) [] ∧
      tree.span.renderAt (.after []) (.after ([] ++ [])) = "In 1:1-1: é" ∧
      tree.span.render = "In 1:1-2: é" := by
  obtain ⟨tree, read, span_eq⟩ := @exists_read_spanning accentedName ⟨accentedName, 0, 2⟩
    (by decide +kernel)
  refine ⟨tree, read, ?_, ?_, ?_⟩ <;> rw [span_eq]
  · exact ⟨by decide +kernel, rfl, by decide +kernel⟩
  · decide +kernel
  · decide +kernel

end Span

end Codemod
