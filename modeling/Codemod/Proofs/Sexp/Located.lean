import Codemod.Proofs.Sexp.Form
import Codemod.Proofs.Sexp.Tokens

/-!
# Where s-expressions stand

A forest stands in a text token by token, and the span of each s-expression runs from the first byte
of its first token to the last byte of its last one. What lies around an s-expression does not
matter to it: the same characters hold it anywhere.
-/

namespace Codemod

open Text Lexer

namespace Bracket

/-- A text between brackets. -/
def around (bracket : Bracket) (text : List Char) : List Char :=
  bracket.opens :: (text ++ [bracket.closes])

private theorem byteLength_opens (bracket : Bracket) : byteLength [bracket.opens] = 1 := by
  cases bracket <;> rfl

private theorem byteLength_closes (bracket : Bracket) : byteLength [bracket.closes] = 1 := by
  cases bracket <;> rfl

private theorem around_eq (bracket : Bracket) (text : List Char) :
    bracket.around text = [bracket.opens] ++ (text ++ [bracket.closes]) := rfl

private theorem byteLength_around (bracket : Bracket) (text : List Char) :
    byteLength (bracket.around text) = 1 + byteLength text + 1 := by
  rw [around_eq, byteLength_append, byteLength_append, byteLength_opens, byteLength_closes,
    Nat.add_assoc]

end Bracket

/-- A text that starts at an offset of a source holds s-expressions of that source, each behind some
layout and nothing behind the last one. -/
inductive Stands (source : Source) : Nat → List Sexp → List Char → Prop where
  | nil (offset : Nat) : Stands source offset [] []
  | atom {offset : Nat} {atom : Atom} {gap token rest : List Char} {sexps : List Sexp}
      (layout : Layout gap) (spelled : atom.Spelled token)
      (ends : (Lexeme.atom atom).isWord = true → Breaks rest)
      (later : Stands source (offset + byteLength gap + byteLength token) sexps rest) :
      Stands source offset
        (.atom atom ⟨source, offset + byteLength gap,
          offset + byteLength gap + byteLength token⟩ :: sexps)
        (gap ++ (token ++ rest))
  | list {offset : Nat} {bracket : Bracket} {gap inner last rest : List Char}
      {items sexps : List Sexp} (layout : Layout gap)
      (inside : Stands source (offset + byteLength gap + 1) items inner) (closing : Layout last)
      (later : Stands source
        (offset + byteLength gap + byteLength (bracket.around (inner ++ last))) sexps rest) :
      Stands source offset
        (.list items ⟨source, offset + byteLength gap,
          offset + byteLength gap + byteLength (bracket.around (inner ++ last))⟩ :: sexps)
        (gap ++ (bracket.around (inner ++ last) ++ rest))

private theorem Atom.Spelled.ne_nil {atom : Atom} {token : List Char}
    (spelled : atom.Spelled token) : token ≠ [] := by
  cases spelled with
  | ident identifier => exact identifier.1.1
  | int integer => exact (isWord_of_isInteger integer).1
  | float decimal => exact (isWord_of_isDecimal decimal).1
  | string _ => exact List.cons_ne_nil _ _

/-- The characters of one s-expression that starts at an offset. -/
structure StandsAlone (source : Source) (offset : Nat) (sexp : Sexp) (body : List Char) : Prop where
  stands : Stands source offset [sexp] body
  span_eq : sexp.span = ⟨source, offset, offset + byteLength body⟩
  some : body ≠ []

namespace Stands

variable {source : Source} {offset : Nat} {sexps : List Sexp} {text : List Char}

/-- Induction over the s-expressions of a text alone, whatever is in them. -/
@[elab_as_elim]
theorem one_by_one {motive : ∀ offset sexps text, Stands source offset sexps text → Prop}
    (nil : ∀ offset, motive offset [] [] (.nil offset))
    (cons : ∀ {offset : Nat} {sexp : Sexp} {sexps : List Sexp} {gap body rest : List Char}
      (_ : StandsAlone source (offset + byteLength gap) sexp body)
      (later : Stands source (offset + byteLength gap + byteLength body) sexps rest)
      (stands : Stands source offset (sexp :: sexps) (gap ++ (body ++ rest))),
      motive _ _ _ later → motive _ _ _ stands)
    (stands : Stands source offset sexps text) : motive offset sexps text stands := by
  induction stands with
  | nil offset => exact nil offset
  | @atom offset atom gap token rest sexps layout spelled ends later ih =>
    -- without the layout ahead and the s-expressions behind it stands alone
    have alone : Stands source (offset + byteLength gap) _ ([] ++ (token ++ [])) :=
      .atom .nil spelled (fun _ => breaks_nil) (.nil _)
    rw [List.nil_append, List.append_nil] at alone
    exact cons ⟨alone, rfl, spelled.ne_nil⟩ later (.atom layout spelled ends later) ih
  | @list offset bracket gap inner last rest items sexps layout inside closing later _ ih =>
    have alone : Stands source (offset + byteLength gap) _
        ([] ++ (bracket.around (inner ++ last) ++ [])) :=
      .list .nil inside closing (.nil _)
    rw [List.nil_append, List.append_nil] at alone
    exact cons ⟨alone, rfl, List.cons_ne_nil _ _⟩ later (.list layout inside closing later) ih

theorem within (stands : Stands source offset sexps text) : ∀ sexp ∈ sexps,
    offset ≤ sexp.span.start ∧ sexp.span.stop ≤ offset + byteLength text := by
  induction stands using one_by_one with
  | nil => simp
  | cons alone _ _ ih =>
    refine List.forall_mem_cons.mpr ⟨?_, fun sexp member => ?_⟩
    · simp only [alone.span_eq, byteLength_append]
      omega
    · have := ih sexp member
      simp only [byteLength_append]
      omega

theorem ascending (stands : Stands source offset sexps text) :
    sexps.Pairwise fun a b => a.span.stop ≤ b.span.start := by
  induction stands using one_by_one with
  | nil => exact .nil
  | cons alone later _ ih =>
    refine .cons (fun sexp member => ?_) ih
    rw [alone.span_eq]
    exact (later.within sexp member).1

end Stands

/-- The s-expression occurs in another one, at any depth. -/
inductive Sexp.Within (part : Sexp) : Sexp → Prop where
  | self : Within part part
  | item {items : List Sexp} {item : Sexp} {span : Span} (member : item ∈ items)
      (within : Within part item) : Within part (.list items span)

/-- The s-expression stands in some stretch of a text that starts at an offset. -/
def StandsIn (source : Source) (offset : Nat) (text : List Char) (sexp : Sexp) : Prop :=
  ∃ front body back, text = front ++ (body ++ back) ∧
    StandsAlone source (offset + byteLength front) sexp body

private theorem StandsIn.widen {source : Source} {offset : Nat} {before text : List Char}
    {sexp : Sexp}
    (stands : StandsIn source (offset + byteLength before) text sexp) (after : List Char) :
    StandsIn source offset (before ++ (text ++ after)) sexp := by
  obtain ⟨front, body, back, rfl, alone⟩ := stands
  refine ⟨before ++ front, body, back ++ after, by simp, ?_⟩
  rwa [byteLength_append, ← Nat.add_assoc]

namespace Stands

variable {source : Source} {offset : Nat} {sexps : List Sexp} {text : List Char}

private theorem standsIn (stands : Stands source offset sexps text) :
    ∀ sexp ∈ sexps, StandsIn source offset text sexp := by
  induction stands using one_by_one with
  | nil => simp
  | @cons offset sexp sexps gap body rest alone _ _ ih =>
    refine List.forall_mem_cons.mpr ⟨⟨gap, body, rest, rfl, alone⟩, fun other member => ?_⟩
    have later := ih other member
    rw [Nat.add_assoc, ← byteLength_append] at later
    have whole := later.widen []
    rwa [List.append_nil, List.append_assoc] at whole

end Stands

theorem StandsAlone.items {source : Source} {offset : Nat} {items : List Sexp} {span : Span}
    {body : List Char} (alone : StandsAlone source offset (.list items span) body) :
    ∃ opening inner behind, body = opening ++ (inner ++ behind) ∧ opening ≠ [] ∧ behind ≠ [] ∧
      Stands source (offset + byteLength opening) items inner := by
  obtain ⟨stands, _, _⟩ := alone
  cases stands with
  | @list _ bracket gap inner last rest _ _ layout inside closing later =>
    refine ⟨gap ++ [bracket.opens], inner, last ++ bracket.closes :: rest, ?_, by simp, by simp, ?_⟩
    · simp [Bracket.around]
    · rwa [byteLength_append, bracket.byteLength_opens, ← Nat.add_assoc]

/-- Whatever occurs in an s-expression of a text stands in the text. -/
theorem Stands.standsIn_of_within {source : Source} {offset : Nat} {sexps : List Sexp}
    {text : List Char} (stands : Stands source offset sexps text) {sexp part : Sexp}
    (member : sexp ∈ sexps) (occurs : part.Within sexp) : StandsIn source offset text part := by
  induction occurs generalizing offset sexps text with
  | self => exact stands.standsIn _ member
  | item inItems _ ih =>
    obtain ⟨front, body, back, rfl, alone⟩ := stands.standsIn _ member
    obtain ⟨opening, inner, behind, rfl, _, _, inside⟩ := alone.items
    have within := ih inside inItems
    exact (within.widen behind).widen back

/-- The s-expression as a part of a source, further on in it. -/
def Sexp.placed (source : Source) (distance : Nat) : Sexp → Sexp
  | .atom value span => .atom value ⟨source, span.start + distance, span.stop + distance⟩
  | .list items span =>
    .list (items.map (placed source distance)) ⟨source, span.start + distance, span.stop + distance⟩

theorem Sexp.placed_atom (source : Source) (distance : Nat) (value : Atom) (span : Span) :
    (Sexp.atom value span).placed source distance =
      .atom value ⟨source, span.start + distance, span.stop + distance⟩ := by
  rw [placed]

theorem Sexp.placed_list (source : Source) (distance : Nat) (items : List Sexp) (span : Span) :
    (Sexp.list items span).placed source distance = .list (items.map (placed source distance))
      ⟨source, span.start + distance, span.stop + distance⟩ := by
  rw [placed]

/-- The same characters hold the same s-expressions in any source at any offset. -/
theorem Stands.exists_moved {source : Source} {offset distance : Nat} {sexps : List Sexp}
    {text : List Char} (stands : Stands source (offset + distance) sexps text) (other : Source) :
    ∃ others, Stands other offset others text ∧
      others.map (Sexp.placed source distance) = sexps := by
  generalize moved : offset + distance = place at stands
  induction stands generalizing offset with
  | nil => exact ⟨[], .nil offset, rfl⟩
  | @atom place atom gap token rest sexps layout spelled ends _ ih =>
    obtain ⟨others, later, same⟩ := @ih (offset + byteLength gap + byteLength token) (by omega)
    refine ⟨_, .atom layout spelled ends later, ?_⟩
    rw [List.map_cons, same, Sexp.placed_atom]
    dsimp only
    congr 3 <;> omega
  | @list place bracket gap inner last rest items sexps layout _ closing _ ihInside ih =>
    obtain ⟨parts, inside, sameParts⟩ := @ihInside (offset + byteLength gap + 1) (by omega)
    obtain ⟨others, later, same⟩ :=
      @ih (offset + byteLength gap + byteLength (bracket.around (inner ++ last))) (by omega)
    refine ⟨_, .list layout inside closing later, ?_⟩
    rw [List.map_cons, same, Sexp.placed_list, sameParts]
    dsimp only
    congr 3 <;> omega

namespace Reader

private theorem foldl_push_done (sexps done : List Sexp) :
    sexps.foldl State.push ⟨[], done⟩ = ⟨[], sexps.reverse ++ done⟩ := by
  induction sexps generalizing done with
  | nil => rfl
  | cons sexp sexps ih => simp [State.push, ih]

private theorem foldl_push_pending (sexps : List Sexp) (inner : OpenList) (outer : List OpenList)
    (done : List Sexp) :
    sexps.foldl State.push ⟨inner :: outer, done⟩ =
      ⟨{ inner with items := sexps.reverse ++ inner.items } :: outer, done⟩ := by
  induction sexps generalizing inner with
  | nil => rfl
  | cons sexp sexps ih => simp [State.push, ih]

private theorem feed_closing (source : Source) (bracket : Bracket) (start offset : Nat)
    (items : List Sexp) (state : State) :
    feed source ⟨⟨bracket, start, items.reverse⟩ :: state.pending, state.done⟩
        ⟨.closing bracket, offset, offset + 1⟩ =
      .ok (state.push (.list items ⟨source, start, offset + 1⟩)) := by
  simp [feed]

end Reader

private theorem Stands.foldlM_feed {source : Source} {offset : Nat} {sexps : List Sexp}
    {text : List Char}
    (stands : Stands source offset sexps text) {rest : List Char} (ends : Breaks rest)
    (state : Reader.State) :
    (run .layout offset (text ++ rest)).foldlM (Reader.feed source) state =
      (run .layout (offset + byteLength text) rest).foldlM (Reader.feed source)
        (sexps.foldl Reader.State.push state) := by
  induction stands generalizing rest state with
  | nil => rfl
  | @atom offset atom gap token later sexps layout spelled breaks _ ih =>
    have follows := fun word => breaks_append (breaks word) ends
    rw [List.append_assoc, List.append_assoc, run_layout layout,
      run_spelled (.atom spelled) follows, List.foldlM_cons]
    have fed : Reader.feed source state ⟨.atom atom, offset + byteLength gap,
        offset + byteLength gap + byteLength token⟩ = .ok (state.push (.atom atom
          ⟨source, offset + byteLength gap, offset + byteLength gap + byteLength token⟩)) := rfl
    rw [fed]
    refine (ih ends _).trans ?_
    simp only [byteLength_append, Nat.add_assoc]
    rfl
  | @list offset bracket gap inner last later items sexps layout _ closing _ ihInside ih =>
    have whole : offset + byteLength gap + 1 + byteLength inner + byteLength last + 1 =
        offset + byteLength gap + byteLength (bracket.around (inner ++ last)) := by
      rw [bracket.byteLength_around, byteLength_append]
      omega
    have split : gap ++ (bracket.around (inner ++ last) ++ later) ++ rest =
        gap ++ ([bracket.opens] ++ (inner ++ (last ++ ([bracket.closes] ++ (later ++ rest))))) := by
      simp [Bracket.around]
    rw [split, run_layout layout, run_spelled (.opening bracket) (by simp [Lexeme.isWord]),
      List.foldlM_cons, bracket.byteLength_opens]
    have opened : Reader.feed source state ⟨.opening bracket, offset + byteLength gap,
        offset + byteLength gap + 1⟩ =
          .ok ⟨⟨bracket, offset + byteLength gap, []⟩ :: state.pending, state.done⟩ := rfl
    rw [opened]
    -- the items go to the list left open here, until the bracket behind them closes it
    refine (ihInside (breaks_closes closing bracket _) _).trans ?_
    rw [Reader.foldl_push_pending, List.append_nil, run_layout closing,
      run_spelled (.closing bracket) (by simp [Lexeme.isWord]), List.foldlM_cons,
      bracket.byteLength_closes, Reader.feed_closing, whole]
    refine (ih ends _).trans ?_
    simp only [byteLength_append, Nat.add_assoc]
    rfl

/-- A text that writes a forest and more lexemes holds located s-expressions of the forest ahead of
what writes these. -/
theorem stands_of_writes {source : Source} {forms : List Form} {lexemes : List Lexeme}
    (bracketed : Bracketed forms lexemes) {afterWord : Bool} {more : List Lexeme} {text : List Char}
    (writes : Writes afterWord (lexemes ++ more) text) (offset : Nat) :
    ∃ sexps body rest wordBefore, text = body ++ rest ∧ Stands source offset sexps body ∧
      sexps.map Sexp.form = forms ∧ Writes wordBefore more rest := by
  -- the items of a list are followed by its closing bracket, so more than the forest is written
  induction bracketed generalizing afterWord more text offset with
  | nil => exact ⟨[], [], text, afterWord, rfl, .nil offset, rfl, writes⟩
  | atom atom _ ih =>
    rw [List.cons_append] at writes
    cases writes with
    | @next _ gap token later _ _ layout _ spelled writes =>
      have breaks (word : (Lexeme.atom atom).isWord = true) : Breaks later := by
        rw [word] at writes
        exact writes.breaks
      obtain ⟨sexps, body, rest, wordBefore, rfl, stands, same, writesMore⟩ :=
        ih writes (offset + byteLength gap + byteLength token)
      cases spelled with
      | atom spelled =>
        refine ⟨_, gap ++ (token ++ body), rest, wordBefore, by simp,
          .atom layout spelled (fun word => breaks_of_append (breaks word)) stands, ?_, writesMore⟩
        rw [List.map_cons, same, Sexp.form]
  | list bracket _ _ inside later =>
    rw [List.append_assoc, List.cons_append] at writes
    cases writes with
    | @next _ gap _ _ _ _ layout _ opening writesItems =>
      cases opening
      obtain ⟨items, inner, _, _, rfl, stands, same, writesClosing⟩ :=
        inside writesItems (offset + byteLength gap + 1)
      rw [List.cons_append] at writesClosing
      cases writesClosing with
      | @next _ last _ _ _ _ closing _ closed writesLater =>
        cases closed
        obtain ⟨sexps, body, rest, wordBefore, rfl, standsLater, sameLater, writesMore⟩ :=
          later writesLater
            (offset + byteLength gap + byteLength (bracket.around (inner ++ last)))
        refine ⟨_, _, rest, wordBefore, ?_, .list layout stands closing standsLater, ?_,
          writesMore⟩
        · simp [Bracket.around]
        · rw [List.map_cons, sameLater, Sexp.form, same]

/-- A text is read as the s-expressions that stand in it. -/
theorem Stands.readAll {source : Source} {sexps : List Sexp} {body gap : List Char}
    (stands : Stands source 0 sexps body) (layout : LastLayout gap)
    (whole : source.text.toList = body ++ gap) : Sexp.readAll source = .ok sexps := by
  have fed := stands.foldlM_feed (breaks_lastLayout layout) .initial
  rw [run_lastLayout layout, ← whole, Reader.State.initial, Reader.foldl_push_done,
    List.append_nil] at fed
  rw [Sexp.readAll, tokens, Reader.State.initial, fed]
  simp [bind, Except.bind, pure, Except.pure]

end Codemod
