import Codemod.Proofs.Sexp.Words

/-!
# Tokens and layout

A text writes lexemes when it spells them in order, with layout before, between and after them. It
is cut into just these, each token from the first to the last byte of its spelling.
-/

namespace Codemod

/-- How an atom may be spelled. -/
inductive Atom.Spelled : Atom → List Char → Prop where
  | ident {word : List Char} (identifier : Lexer.IsIdentifier word) :
      Spelled (.ident (String.ofList word)) word
  | int {word : List Char} (integer : Lexer.IsInteger word) :
      Spelled (.int (String.ofList word)) word
  | float {word : List Char} (decimal : Lexer.IsDecimal word) :
      Spelled (.float (String.ofList word)) word
  | string {spelling text : List Char} (escapes : Text.Quoted.Escapes spelling text) :
      Spelled (.string (String.ofList text)) ('"' :: spelling ++ ['"'])

def Bracket.opens : Bracket → Char
  | .round => '('
  | .square => '['

def Bracket.closes : Bracket → Char
  | .round => ')'
  | .square => ']'

inductive Lexeme.Spelled : Lexeme → List Char → Prop where
  | opening (bracket : Bracket) : Spelled (.opening bracket) [bracket.opens]
  | closing (bracket : Bracket) : Spelled (.closing bracket) [bracket.closes]
  | atom {atom : Atom} {token : List Char} (spelled : atom.Spelled token) :
      Spelled (.atom atom) token

/-- Identifiers and numbers end only where a character does not go on with them. -/
def Lexeme.isWord : Lexeme → Bool
  | .atom (.string _) => false
  | .atom _ => true
  | _ => false

namespace Lexer

abbrev EndsLine (c : Char) : Prop := c = '\n' ∨ c = '\r'

/-- Within one line. -/
def InLine (text : List Char) : Prop := ∀ c ∈ text, ¬EndsLine c

/-- White space, and comments with the end of their line. -/
inductive Layout : List Char → Prop where
  | nil : Layout []
  | blank {c : Char} {rest : List Char} (isBlank : Unicode.isWhiteSpace c) (layout : Layout rest) :
      Layout (c :: rest)
  | comment {body rest : List Char} {c : Char} (inLine : InLine body) (ends : EndsLine c)
      (layout : Layout rest) : Layout (';' :: (body ++ c :: rest))

/-- Layout up to the end of a text, where a comment may have no end of its own. -/
inductive LastLayout : List Char → Prop where
  | layout {gap : List Char} (layout : Layout gap) : LastLayout gap
  | comment {gap body : List Char} (layout : Layout gap) (inLine : InLine body) :
      LastLayout (gap ++ ';' :: body)

/-- A text spells some lexemes with layout before, between and after them. There has to be some
layout between two words. -/
inductive Writes : (afterWord : Bool) → List Lexeme → List Char → Prop where
  | last {afterWord : Bool} {gap : List Char} (layout : LastLayout gap) : Writes afterWord [] gap
  | next {afterWord : Bool} {gap token rest : List Char} {lexeme : Lexeme} {lexemes : List Lexeme}
      (layout : Layout gap) (apart : afterWord = true → lexeme.isWord = true → gap ≠ [])
      (spelled : lexeme.Spelled token) (writes : Writes lexeme.isWord lexemes rest) :
      Writes afterWord (lexeme :: lexemes) (gap ++ (token ++ rest))

end Lexer

theorem Atom.Spelled.isWord {atom : Atom} {token : List Char} (spelled : atom.Spelled token)
    (word : (Lexeme.atom atom).isWord = true) :
    Lexer.IsWord token ∧ Lexer.wordAtom token = atom := by
  cases spelled with
  | ident identifier => exact ⟨identifier.1, Lexer.wordAtom_of_isIdentifier identifier⟩
  | int integer => exact ⟨Lexer.isWord_of_isInteger integer, Lexer.wordAtom_of_isInteger integer⟩
  | float decimal => exact ⟨Lexer.isWord_of_isDecimal decimal, Lexer.wordAtom_of_isDecimal decimal⟩
  | string _ => contradiction

namespace Lexer

private theorem run_comment {body : List Char} (inLine : InLine body) {c : Char} (ends : EndsLine c)
    (offset : Nat) (rest : List Char) :
    run .comment offset (body ++ c :: rest) =
      run .layout (offset + Text.byteLength body + c.utf8Size) rest := by
  induction body generalizing offset with
  | nil =>
    rw [List.nil_append, run, step, if_pos ends]
    rfl
  | cons d body ih =>
    obtain ⟨here, later⟩ := List.forall_mem_cons.mp inLine
    rw [List.cons_append, run, step, if_neg here, Text.byteLength_cons, ← Nat.add_assoc]
    exact ih later _

private theorem run_comment_of_inLine {body : List Char} (inLine : InLine body) (offset : Nat) :
    run .comment offset body = [] := by
  induction body generalizing offset with
  | nil => rfl
  | cons d body ih =>
    obtain ⟨here, later⟩ := List.forall_mem_cons.mp inLine
    rw [run, step, if_neg here]
    exact ih later _

private theorem begin_semicolon (offset : Nat) : begin offset ';' = ([], .comment) := rfl

theorem run_layout {gap : List Char} (layout : Layout gap) (offset : Nat) (rest : List Char) :
    run .layout offset (gap ++ rest) = run .layout (offset + Text.byteLength gap) rest := by
  induction layout generalizing offset with
  | nil => rfl
  | @blank c gap isBlank _ ih =>
    have begins : begin offset c = ([], .layout) := by
      rw [begin_eq, if_pos isBlank]
    rw [List.cons_append, run, step, begins, Text.byteLength_cons, ← Nat.add_assoc]
    exact ih _
  | @comment body gap c inLine ends _ ih =>
    rw [List.cons_append, List.append_assoc, List.cons_append, run, step, begin_semicolon]
    refine (run_comment inLine ends _ _).trans ?_
    rw [ih]
    simp [Nat.add_assoc]

theorem run_lastLayout {gap : List Char} (layout : LastLayout gap) (offset : Nat) :
    run .layout offset gap = [] := by
  cases layout with
  | layout layout =>
    have cut := run_layout layout offset []
    rwa [List.append_nil] at cut
  | comment layout inLine =>
    rw [run_layout layout, run, step, begin_semicolon]
    simp [run_comment_of_inLine inLine]

private theorem run_bracket {c : Char} {lexeme : Lexeme} (size : c.utf8Size = 1)
    (begins : ∀ offset, begin offset c = ([⟨lexeme, offset, offset + 1⟩], .layout))
    (offset : Nat) (rest : List Char) : run .layout offset ([c] ++ rest) =
      ⟨lexeme, offset, offset + Text.byteLength [c]⟩ ::
        run .layout (offset + Text.byteLength [c]) rest := by
  simp [run, step, begins, size]

theorem run_spelled {lexeme : Lexeme} {token rest : List Char} (spelled : lexeme.Spelled token)
    (ends : lexeme.isWord = true → Breaks rest) (offset : Nat) :
    run .layout offset (token ++ rest) = ⟨lexeme, offset, offset + Text.byteLength token⟩ ::
      run .layout (offset + Text.byteLength token) rest := by
  cases spelled with
  | opening bracket => cases bracket <;> exact run_bracket rfl (fun _ => rfl) offset rest
  | closing bracket => cases bracket <;> exact run_bracket rfl (fun _ => rfl) offset rest
  | @atom atom token spelled =>
    by_cases word : (Lexeme.atom atom).isWord = true
    · obtain ⟨isWord, same⟩ := spelled.isWord word
      rw [run_layout_word isWord (ends word), same]
    · cases spelled with
      | string escapes =>
        have cut := run_layout_quoted escapes rest offset
        simpa using cut
      | ident _ | int _ | float _ => exact absurd rfl word

private theorem breaks_of_isWhiteSpace {c : Char} (isBlank : Unicode.isWhiteSpace c)
    (rest : List Char) : Breaks (c :: rest) :=
  breaks_cons.mpr (not_isWordChar_of_isWhiteSpace isBlank)

private theorem breaks_semicolon (rest : List Char) : Breaks (';' :: rest) := by
  rw [breaks_cons]
  decide +kernel

private theorem breaks_layout {gap : List Char} (layout : Layout gap) (some : gap ≠ [])
    (rest : List Char) : Breaks (gap ++ rest) := by
  cases layout with
  | nil => contradiction
  | blank isBlank _ => exact breaks_of_isWhiteSpace isBlank _
  | comment _ _ _ => exact breaks_semicolon _

theorem breaks_lastLayout {gap : List Char} (layout : LastLayout gap) : Breaks gap := by
  cases layout with
  | layout layout =>
    by_cases empty : gap = []
    · rw [empty]
      exact breaks_nil
    · have ends := breaks_layout layout empty []
      rwa [List.append_nil] at ends
  | @comment gap body layout _ =>
    by_cases empty : gap = []
    · rw [empty]
      exact breaks_semicolon body
    · exact breaks_layout layout empty _

private theorem breaks_spelled {lexeme : Lexeme} {token : List Char}
    (spelled : lexeme.Spelled token)
    (notWord : lexeme.isWord = false) (rest : List Char) : Breaks (token ++ rest) := by
  cases spelled with
  | opening bracket | closing bracket =>
    rw [List.singleton_append, breaks_cons]
    cases bracket <;> decide +kernel
  | atom spelled =>
    cases spelled with
    | string _ =>
      rw [List.cons_append, List.cons_append, breaks_cons]
      decide +kernel
    | ident _ | int _ | float _ => contradiction

theorem breaks_append {text rest : List Char} (first : Breaks text) (second : Breaks rest) :
    Breaks (text ++ rest) := by
  cases text with
  | nil => exact second
  | cons c text => exact first

theorem breaks_of_append {text rest : List Char} (breaks : Breaks (text ++ rest)) :
    Breaks text := by
  cases text with
  | nil => exact breaks_nil
  | cons c text => exact breaks

theorem breaks_closes {gap : List Char} (layout : Layout gap) (bracket : Bracket)
    (rest : List Char) : Breaks (gap ++ ([bracket.closes] ++ rest)) := by
  cases layout with
  | nil => exact breaks_spelled (.closing bracket) rfl rest
  | blank isBlank _ => exact breaks_of_isWhiteSpace isBlank _
  | comment _ _ _ => exact breaks_semicolon _

theorem Writes.breaks {lexemes : List Lexeme} {text : List Char}
    (writes : Writes true lexemes text) : Breaks text := by
  cases writes with
  | last layout => exact breaks_lastLayout layout
  | @next _ gap token rest lexeme _ layout apart spelled _ =>
    by_cases empty : gap = []
    · have notWord : lexeme.isWord = false := by
        by_contra word
        exact apart rfl (by simpa using word) empty
      rw [empty, List.nil_append]
      exact breaks_spelled spelled notWord rest
    · exact breaks_layout layout empty _

/-- A text is cut into the lexemes it writes. -/
theorem Writes.lexemes_eq {afterWord : Bool} {lexemes : List Lexeme} {text : List Char}
    (writes : Writes afterWord lexemes text) : Lexer.lexemes text = lexemes := by
  induction writes with
  | last layout => rw [Lexer.lexemes, run_lastLayout layout, List.map_nil]
  | @next _ gap token rest lexeme lexemes layout _ spelled writes ih =>
    have ends : lexeme.isWord = true → Breaks rest := by
      intro word
      rw [word] at writes
      exact writes.breaks
    rw [Lexer.lexemes, run_layout layout, run_spelled spelled ends, List.map_cons, map_lexeme_run,
      ih]

private theorem Layout.append {gap more : List Char} (first : Layout gap) (second : Layout more) :
    Layout (gap ++ more) := by
  induction first with
  | nil => exact second
  | blank isBlank _ ih => exact .blank isBlank ih
  | comment inLine ends _ ih =>
    rw [List.cons_append, List.append_assoc]
    exact .comment inLine ends ih

theorem spelled_wordAtom {word : List Char} (isWord : IsWord word) :
    (wordAtom word).Spelled word := by
  by_cases integer : IsInteger word
  · rw [wordAtom_of_isInteger integer]
    exact .int integer
  · by_cases decimal : IsDecimal word
    · rw [wordAtom_of_isDecimal decimal]
      exact .float decimal
    · have identifier : IsIdentifier word := ⟨isWord, integer, decimal⟩
      rw [wordAtom_of_isIdentifier identifier]
      exact .ident identifier

section

variable {lexemes : List Lexeme} {text : List Char}

private theorem Writes.after_layout (writes : Writes false lexemes text) {gap : List Char}
    (layout : Layout gap) (some : gap ≠ []) (afterWord : Bool) :
    Writes afterWord lexemes (gap ++ text) := by
  cases writes with
  | last rest =>
    cases rest with
    | layout rest => exact .last (.layout (layout.append rest))
    | comment rest inLine =>
      rw [← List.append_assoc]
      exact .last (.comment (layout.append rest) inLine)
  | next rest _ spelled writes =>
    rw [← List.append_assoc]
    exact .next (layout.append rest) (fun _ _ => by simp [some]) spelled writes

private theorem Writes.after_word (writes : Writes false lexemes text) (ends : Breaks text) :
    Writes true lexemes text := by
  cases writes with
  | last layout => exact .last layout
  | @next _ gap token rest lexeme _ layout _ spelled writes =>
    refine .next layout ?_ spelled writes
    intro _ word empty
    cases spelled with
    | opening _ | closing _ => contradiction
    | atom spelled =>
      obtain ⟨nonempty, inWord⟩ := (spelled.isWord word).1
      obtain ⟨c, token, rfl⟩ := List.exists_cons_of_ne_nil nonempty
      rw [empty, List.nil_append, List.cons_append, breaks_cons] at ends
      simp [inWord c List.mem_cons_self] at ends

private theorem Writes.word (writes : Writes true lexemes text) {word : List Char}
    (isWord : IsWord word) : Writes false (.atom (wordAtom word) :: lexemes) (word ++ text) := by
  have word_atom : (Lexeme.atom (wordAtom word)).isWord = true := by
    rcases wordAtom_cases word with same | same | same <;> simp [same, Lexeme.isWord]
  refine .next .nil (by simp) (.atom (spelled_wordAtom isWord)) ?_
  rwa [word_atom]

private theorem Writes.mark (writes : Writes false lexemes text) {lexeme : Lexeme}
    {token : List Char} (spelled : lexeme.Spelled token) (notWord : lexeme.isWord = false) :
    Writes false (lexeme :: lexemes) (token ++ text) := by
  refine .next .nil (by simp) spelled ?_
  rwa [notWord]

end

/-- The lexemes of a text that is cut to its end. -/
def Regular (lexemes : List Lexeme) : Prop :=
  .stray ∉ lexemes ∧ .unclosedQuote ∉ lexemes

/-- What has been taken of the token or the comment that the pass is in the middle of. -/
inductive Underway : State → List Char → Prop where
  | layout : Underway .layout []
  | comment {body : List Char} (inLine : InLine body) : Underway .comment (';' :: body)
  | word {start : Nat} {chars : List Char} (isWord : IsWord chars.reverse) :
      Underway (.word start chars) chars.reverse
  | quoted {start : Nat} {chars spelling : List Char}
      (escapes : Text.Quoted.Escapes spelling chars.reverse) :
      Underway (.quoted start chars false) ('"' :: spelling)
  | escaped {start : Nat} {chars spelling : List Char}
      (escapes : Text.Quoted.Escapes spelling chars.reverse) :
      Underway (.quoted start chars true) ('"' :: (spelling ++ ['\\']))

/-- A step from `front` to `later` completes tokens that are written, if what comes after them
is. -/
def Completes (front : List Char) (made : List Token) (later : List Char) (c : Char) : Prop :=
  ∀ lexemes text, Writes false lexemes (later ++ text) →
    Writes false (made.map Token.lexeme ++ lexemes) (front ++ c :: text)

private theorem exists_completes_begin {offset : Nat} {c : Char}
    (regular : Regular ((begin offset c).1.map Token.lexeme)) :
    ∃ later, Underway (begin offset c).2 later ∧ Completes [] (begin offset c).1 later c := by
  rw [begin_eq] at regular ⊢
  split_ifs at regular ⊢ with blank semicolon opening closing opening' closing' quote inWord
  · refine ⟨[], .layout, ?_⟩
    intro lexemes text writes
    exact writes.after_layout (.blank blank .nil) (List.cons_ne_nil c []) false
  · refine ⟨[';'], .comment (List.forall_mem_nil _), ?_⟩
    intro lexemes text writes
    rw [semicolon]
    exact writes
  · refine ⟨[], .layout, ?_⟩
    intro lexemes text writes
    rw [opening]
    exact writes.mark (.opening .round) rfl
  · refine ⟨[], .layout, ?_⟩
    intro lexemes text writes
    rw [closing]
    exact writes.mark (.closing .round) rfl
  · refine ⟨[], .layout, ?_⟩
    intro lexemes text writes
    rw [opening']
    exact writes.mark (.opening .square) rfl
  · refine ⟨[], .layout, ?_⟩
    intro lexemes text writes
    rw [closing']
    exact writes.mark (.closing .square) rfl
  · refine ⟨['"'], .quoted .nil, ?_⟩
    intro lexemes text writes
    rw [quote]
    exact writes
  · have isWord : IsWord [c].reverse := by simpa [IsWord] using inWord
    exact ⟨[c], .word isWord, fun lexemes text writes => writes⟩
  · simp [Regular] at regular

private theorem exists_completes_comment {offset : Nat} {c : Char} {body : List Char}
    (inLine : InLine body) :
    ∃ later, Underway (step offset c .comment).2 later ∧
      Completes (';' :: body) (step offset c .comment).1 later c := by
  by_cases ends : EndsLine c
  · refine ⟨[], ?_, ?_⟩
    · rw [step, if_pos ends]
      exact .layout
    · intro lexemes text writes
      have after := writes.after_layout (.comment inLine ends .nil) (List.cons_ne_nil _ _) false
      simpa [step] using after
  · refine ⟨';' :: (body ++ [c]), ?_, ?_⟩
    · rw [step, if_neg ends]
      exact .comment (List.forall_mem_append.mpr ⟨inLine, List.forall_mem_singleton.mpr ends⟩)
    · intro lexemes text writes
      simpa [step] using writes

private theorem exists_completes_word {offset start : Nat} {c : Char} {chars : List Char}
    (isWord : IsWord chars.reverse)
    (regular : Regular ((step offset c (.word start chars)).1.map Token.lexeme)) :
    ∃ later, Underway (step offset c (.word start chars)).2 later ∧
      Completes chars.reverse (step offset c (.word start chars)).1 later c := by
  by_cases inWord : isWordChar c
  · refine ⟨chars.reverse ++ [c], ?_, ?_⟩
    · rw [step, if_pos inWord, ← List.reverse_cons]
      refine .word ?_
      rw [List.reverse_cons]
      exact isWord.concat inWord
    · intro lexemes text writes
      simpa [step, inWord] using writes
  · have stepped : step offset c (.word start chars) =
        (wordToken start offset chars :: (begin offset c).1, (begin offset c).2) := by
      rw [step, if_neg inWord]
    rw [stepped] at regular ⊢
    have begins : Regular ((begin offset c).1.map Token.lexeme) := by
      simpa [Regular, wordToken] using regular
    obtain ⟨later, underway, completes⟩ := exists_completes_begin begins
    refine ⟨later, underway, ?_⟩
    intro lexemes text writes
    have ends : Breaks (c :: text) := by simpa using inWord
    have after := (completes lexemes text writes).after_word ends
    exact after.word isWord

private theorem exists_completes_quoted {offset start : Nat} {c : Char} {chars spelling : List Char}
    (escapes : Text.Quoted.Escapes spelling chars.reverse) :
    ∃ later, Underway (step offset c (.quoted start chars false)).2 later ∧
      Completes ('"' :: spelling) (step offset c (.quoted start chars false)).1 later c := by
  by_cases quote : c = '"'
  · refine ⟨[], ?_, ?_⟩
    · rw [step, if_pos quote]
      exact .layout
    · intro lexemes text writes
      have after := writes.mark (.atom (.string escapes)) rfl
      simpa [step, quote] using after
  · by_cases backslash : c = '\\'
    · refine ⟨'"' :: (spelling ++ ['\\']), ?_, ?_⟩
      · rw [step, if_neg quote, if_pos backslash]
        exact .escaped escapes
      · intro lexemes text writes
        simpa [step, backslash] using writes
    · refine ⟨'"' :: (spelling ++ [c]), ?_, ?_⟩
      · rw [step, if_neg quote, if_neg backslash]
        refine .quoted ?_
        rw [List.reverse_cons]
        exact escapes.append (.plain quote backslash .nil)
      · intro lexemes text writes
        simpa [step, quote, backslash] using writes

private theorem exists_completes_step {offset : Nat} {c : Char} {state : State} {front : List Char}
    (underway : Underway state front)
    (regular : Regular ((step offset c state).1.map Token.lexeme)) :
    ∃ later, Underway (step offset c state).2 later ∧
      Completes front (step offset c state).1 later c := by
  cases underway with
  | layout => exact exists_completes_begin regular
  | comment inLine => exact exists_completes_comment inLine
  | word isWord => exact exists_completes_word isWord regular
  | quoted escapes => exact exists_completes_quoted escapes
  | @escaped start chars spelling escapes =>
    refine ⟨'"' :: (spelling ++ ['\\', c]), .quoted ?_, ?_⟩
    · rw [List.reverse_cons]
      exact escapes.append (Text.Quoted.escapes_unescape c)
    · intro lexemes text writes
      simpa [step] using writes

private theorem writes_finish {offset : Nat} {state : State} {front : List Char}
    (underway : Underway state front)
    (regular : Regular ((finish offset state).map Token.lexeme)) :
    Writes false ((finish offset state).map Token.lexeme) front := by
  cases underway with
  | layout => exact .last (.layout .nil)
  | comment inLine => exact .last (.comment .nil inLine)
  | word isWord =>
    have ended : Writes true [] [] := .last (.layout .nil)
    have written := ended.word isWord
    simpa [finish, wordToken] using written
  | quoted _ | escaped _ => simp [Regular, finish] at regular

theorem regular_append {lexemes more : List Lexeme} :
    Regular (lexemes ++ more) ↔ Regular lexemes ∧ Regular more := by
  simp only [Regular, List.mem_append, not_or]
  tauto

theorem writes_run (text : List Char) {offset : Nat} {state : State} {front : List Char}
    (underway : Underway state front)
    (regular : Regular ((run state offset text).map Token.lexeme)) :
    Writes false ((run state offset text).map Token.lexeme) (front ++ text) := by
  induction text generalizing offset state front with
  | nil =>
    rw [List.append_nil]
    exact writes_finish underway regular
  | cons c text ih =>
    rw [run, List.map_append] at regular ⊢
    obtain ⟨here, rest⟩ := regular_append.mp regular
    obtain ⟨later, underway, completes⟩ := exists_completes_step underway here
    exact completes _ _ (ih underway rest)

/-- A text that is cut to its end writes its lexemes. -/
theorem writes_lexemes {text : List Char} (regular : Regular (lexemes text)) :
    Writes false (lexemes text) text :=
  writes_run text .layout regular

end Lexer

end Codemod
