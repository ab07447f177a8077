import Codemod.Proofs.Text.Bytes
import Codemod.Sexp.Lexer

/-!
# Lexemes of written atoms

What a text is cut into does not depend on where the text stands. A written atom is cut off as one
lexeme, whatever follows it, as long as no word goes on. Every atom that a pass finds is legible:
it is a literal, or the atom of some word.
-/

namespace Codemod

namespace Lexer

private theorem ranges_apart : ∀ range ∈ Unicode.whiteSpace,
    ∀ other ∈ Unicode.alphabetic ++ Unicode.numeric, range.2 < other.1 ∨ other.2 < range.1 := by
  decide +kernel

private theorem graphic_apart : ∀ range ∈ Unicode.whiteSpace, range.2 < 33 ∨ 126 < range.1 := by
  decide +kernel

private theorem graphic_marks :
    ∀ mark ∈ "-+*/?!=<>&|^%_.:$@#".toList, 33 ≤ mark.toNat ∧ mark.toNat ≤ 126 := by
  simp

theorem not_isWordChar_of_isWhiteSpace {c : Char} (blank : Unicode.isWhiteSpace c) :
    isWordChar c = false := by
  obtain ⟨range, listed, above, below⟩ := Unicode.isWhiteSpace_iff.mp blank
  rw [isWordChar, Bool.or_eq_false_iff, Bool.eq_false_iff, Bool.eq_false_iff]
  constructor
  · intro alphanumeric
    obtain ⟨other, is_other, from_first, to_last⟩ := Unicode.isAlphanumeric_iff.mp alphanumeric
    have apart := ranges_apart range listed other is_other
    omega
  · intro isMark
    have graphic := graphic_marks c (List.contains_iff_mem.mp isMark)
    have apart := graphic_apart range listed
    omega

/-- Characters that make up a word. -/
def IsWord (word : List Char) : Prop :=
  word ≠ [] ∧ ∀ c ∈ word, isWordChar c

theorem isWord_iff {word : List Char} : IsWord word ↔ word ≠ [] ∧ word.all isWordChar := by
  rw [IsWord, List.all_eq_true]

theorem IsWord.concat {word : List Char} (isWord : IsWord word) {c : Char}
    (inWord : isWordChar c = true) : IsWord (word ++ [c]) := by
  refine ⟨by simp, ?_⟩
  exact List.forall_mem_append.mpr ⟨isWord.2, List.forall_mem_singleton.mpr inWord⟩

/-- A word that ends before the text does not go on in it. -/
def Breaks (text : List Char) : Prop :=
  ∀ c ∈ text.head?, isWordChar c = false

@[simp] theorem breaks_nil : Breaks [] := by
  simp [Breaks]

@[simp] theorem breaks_cons {c : Char} {rest : List Char} :
    Breaks (c :: rest) ↔ isWordChar c = false := by
  simp [Breaks]

/-- The tokens a character can start, as one chain of tests. -/
theorem begin_eq (offset : Nat) (c : Char) :
    begin offset c =
      if Unicode.isWhiteSpace c then ([], .layout)
      else if c = ';' then ([], .comment)
      else if c = '(' then ([⟨.opening .round, offset, offset + 1⟩], .layout)
      else if c = ')' then ([⟨.closing .round, offset, offset + 1⟩], .layout)
      else if c = '[' then ([⟨.opening .square, offset, offset + 1⟩], .layout)
      else if c = ']' then ([⟨.closing .square, offset, offset + 1⟩], .layout)
      else if c = '"' then ([], .quoted offset [] false)
      else if isWordChar c then ([], .word offset [c])
      else ([⟨.stray, offset, offset⟩], .halted) := by
  unfold begin
  split
  · rfl
  · split
    case h_7 _ notSemicolon notOpening notClosing notOpening' notClosing' notQuote =>
      rw [if_neg notSemicolon, if_neg notOpening, if_neg notClosing, if_neg notOpening',
        if_neg notClosing', if_neg notQuote]
    all_goals rfl

private theorem begin_wordChar {offset : Nat} {c : Char} (inWord : isWordChar c) :
    begin offset c = ([], .word offset [c]) := by
  have marks : isWordChar ';' = false ∧ isWordChar '(' = false ∧ isWordChar ')' = false ∧
      isWordChar '[' = false ∧ isWordChar ']' = false ∧ isWordChar '"' = false := by
    decide +kernel
  have blank : Unicode.isWhiteSpace c = false := by
    by_contra blank
    rw [not_isWordChar_of_isWhiteSpace (by simpa using blank)] at inWord
    contradiction
  grind [begin_eq]

end Lexer

/-- A token of the same text further on. -/
def Token.shift (distance : Nat) (token : Token) : Token :=
  ⟨token.lexeme, token.start + distance, token.stop + distance⟩

namespace Lexer

def State.shift (distance : Nat) : State → State
  | .layout => .layout
  | .comment => .comment
  | .word start chars => .word (start + distance) chars
  | .quoted start chars escaped => .quoted (start + distance) chars escaped
  | .halted => .halted

variable (distance : Nat)

private theorem begin_shift (offset : Nat) (c : Char) :
    begin (offset + distance) c =
      ((begin offset c).1.map (·.shift distance), (begin offset c).2.shift distance) := by
  simp only [begin_eq]
  split_ifs <;> simp [Token.shift, State.shift, Nat.add_right_comm]

private theorem step_shift (offset : Nat) (c : Char) (state : State) :
    step (offset + distance) c (state.shift distance) =
      ((step offset c state).1.map (·.shift distance), (step offset c state).2.shift distance) := by
  cases state with
  | layout => exact begin_shift distance offset c
  | comment =>
    simp only [step, State.shift]
    split_ifs <;> rfl
  | word start chars =>
    simp only [step, State.shift, begin_shift]
    split <;> rfl
  | quoted start chars escaped =>
    cases escaped with
    | true => rfl
    | false =>
      simp only [step, State.shift]
      split_ifs <;> simp [Token.shift, Nat.add_right_comm]
  | halted => rfl

private theorem run_shift (text : List Char) (offset : Nat) (state : State) :
    run (state.shift distance) (offset + distance) text =
      (run state offset text).map (·.shift distance) := by
  induction text generalizing offset state with
  | nil =>
    cases state <;>
      simp [run, finish, State.shift, Token.shift, wordToken, Nat.add_right_comm]
  | cons c rest ih =>
    simp only [run, step_shift, List.map_append]
    rw [Nat.add_right_comm, ih]

/-- What a text is cut into. -/
def lexemes (text : List Char) : List Lexeme :=
  (run .layout 0 text).map Token.lexeme

theorem map_lexeme_run (offset : Nat) (text : List Char) :
    (run .layout offset text).map Token.lexeme = lexemes text := by
  have moved := run_shift offset text 0 .layout
  rw [State.shift, Nat.zero_add] at moved
  rw [moved, List.map_map]
  rfl

private theorem lexemes_cons {c : Char} {made : List Token} (begins : begin 0 c = (made, .layout))
    (rest : List Char) : lexemes (c :: rest) = made.map Token.lexeme ++ lexemes rest := by
  rw [lexemes, run, step, begins, List.map_append, map_lexeme_run]

@[simp] theorem lexemes_nil : lexemes [] = [] := rfl

@[simp] theorem lexemes_blank (rest : List Char) : lexemes (' ' :: rest) = lexemes rest :=
  lexemes_cons (rfl : begin 0 ' ' = ([], .layout)) rest

@[simp] theorem lexemes_newline (rest : List Char) : lexemes ('\n' :: rest) = lexemes rest :=
  lexemes_cons (rfl : begin 0 '\n' = ([], .layout)) rest

@[simp] theorem lexemes_opening (rest : List Char) :
    lexemes ('(' :: rest) = .opening .round :: lexemes rest :=
  lexemes_cons (rfl : begin 0 '(' = ([⟨.opening .round, 0, 1⟩], .layout)) rest

@[simp] theorem lexemes_closing (rest : List Char) :
    lexemes (')' :: rest) = .closing .round :: lexemes rest :=
  lexemes_cons (rfl : begin 0 ')' = ([⟨.closing .round, 0, 1⟩], .layout)) rest

private theorem run_word_of_breaks {rest : List Char} (ends : Breaks rest) (start offset : Nat)
    (chars : List Char) :
    run (.word start chars) offset rest =
      wordToken start offset chars :: run .layout offset rest := by
  cases rest with
  | nil => rfl
  | cons c rest =>
    simp only [run, step, breaks_cons.mp ends]
    rfl

private theorem run_word {word rest : List Char} (inWord : ∀ c ∈ word, isWordChar c)
    (ends : Breaks rest) (start offset : Nat) (chars : List Char) :
    run (.word start chars) offset (word ++ rest) =
      ⟨.atom (wordAtom (chars.reverse ++ word)), start, offset + Text.byteLength word⟩ ::
        run .layout (offset + Text.byteLength word) rest := by
  induction word generalizing offset chars with
  | nil => simpa [wordToken] using run_word_of_breaks ends start offset chars
  | cons c word ih =>
    obtain ⟨here, inWord⟩ := List.forall_mem_cons.mp inWord
    simp only [List.cons_append, run, step, here, if_true, List.nil_append]
    rw [ih inWord, List.reverse_cons, List.append_assoc, List.singleton_append,
      Text.byteLength_cons, Nat.add_assoc]

theorem run_layout_word {word rest : List Char} (isWord : IsWord word) (ends : Breaks rest)
    (offset : Nat) : run .layout offset (word ++ rest) =
      ⟨.atom (wordAtom word), offset, offset + Text.byteLength word⟩ ::
        run .layout (offset + Text.byteLength word) rest := by
  obtain ⟨nonempty, inWord⟩ := isWord
  obtain ⟨c, word, rfl⟩ := List.exists_cons_of_ne_nil nonempty
  obtain ⟨here, inWord⟩ := List.forall_mem_cons.mp inWord
  simp only [List.cons_append, run, step, begin_wordChar here, List.nil_append]
  rw [run_word inWord ends offset _ [c], Text.byteLength_cons, Nat.add_assoc]
  rfl

private theorem lexemes_word {word rest : List Char} (isWord : IsWord word) (ends : Breaks rest) :
    lexemes (word ++ rest) = .atom (wordAtom word) :: lexemes rest := by
  rw [lexemes, run_layout_word isWord ends, List.map_cons, map_lexeme_run]

end Lexer

namespace Text.Quoted

/-- How a text may be spelled inside a literal. Most characters stand for themselves. A backslash
makes a newline of `n` and a tab of `t`, and leaves any other character as it is. -/
inductive Escapes : List Char → List Char → Prop where
  | nil : Escapes [] []
  | plain {c : Char} {spelling text : List Char} (notQuote : c ≠ '"') (notBackslash : c ≠ '\\')
      (rest : Escapes spelling text) : Escapes (c :: spelling) (c :: text)
  | newline {spelling text : List Char} (rest : Escapes spelling text) :
      Escapes ('\\' :: 'n' :: spelling) ('\n' :: text)
  | tab {spelling text : List Char} (rest : Escapes spelling text) :
      Escapes ('\\' :: 't' :: spelling) ('\t' :: text)
  | escaped {c : Char} {spelling text : List Char} (notNewline : c ≠ 'n') (notTab : c ≠ 't')
      (rest : Escapes spelling text) : Escapes ('\\' :: c :: spelling) (c :: text)

theorem Escapes.append {spelling text other more : List Char} (first : Escapes spelling text)
    (second : Escapes other more) : Escapes (spelling ++ other) (text ++ more) := by
  induction first with
  | nil => exact second
  | plain notQuote notBackslash _ ih => exact .plain notQuote notBackslash ih
  | newline _ ih => exact .newline ih
  | tab _ ih => exact .tab ih
  | escaped notNewline notTab _ ih => exact .escaped notNewline notTab ih

private theorem escapes_spell (c : Char) : Escapes (spell c) [c] := by
  unfold spell
  split
  case h_5 notQuote notBackslash _ _ => exact .plain notQuote notBackslash .nil
  · exact .escaped (by decide) (by decide) .nil
  · exact .escaped (by decide) (by decide) .nil
  · exact .newline .nil
  · exact .tab .nil

private theorem escapes_encode (text : List Char) : Escapes (encode text) text := by
  induction text with
  | nil => exact .nil
  | cons c text ih => exact (escapes_spell c).append ih

theorem escapes_unescape (c : Char) : Escapes ['\\', c] [unescape c] := by
  unfold unescape
  split
  case h_3 notNewline notTab => exact .escaped notNewline notTab .nil
  · exact .newline .nil
  · exact .tab .nil

private theorem unescape_of_ne {c : Char} (notNewline : c ≠ 'n') (notTab : c ≠ 't') :
    unescape c = c := by
  unfold unescape
  split <;> trivial

end Text.Quoted

namespace Lexer

open Text.Quoted

theorem utf8Size_quote : '"'.utf8Size = 1 := rfl

private theorem run_quoted {spelling text : List Char} (escapes : Escapes spelling text)
    (rest : List Char) (start offset : Nat) (chars : List Char) :
    run (.quoted start chars false) offset (spelling ++ '"' :: rest) =
      ⟨.atom (.string (String.ofList (chars.reverse ++ text))), start,
        offset + Text.byteLength spelling + 1⟩ ::
        run .layout (offset + Text.byteLength spelling + 1) rest := by
  induction escapes generalizing offset chars with
  | nil => simp [run, step, utf8Size_quote]
  | plain notQuote notBackslash _ ih =>
    simp only [List.cons_append, run, step, if_neg notQuote, if_neg notBackslash, List.nil_append]
    rw [ih, List.reverse_cons, List.append_assoc, List.singleton_append, Text.byteLength_cons,
      Nat.add_assoc offset]
  | newline _ ih | tab _ ih =>
    refine (ih _ _).trans ?_
    simp [unescape, Nat.add_assoc]
  | escaped notNewline notTab _ ih =>
    refine (ih _ _).trans ?_
    simp [unescape_of_ne notNewline notTab, Nat.add_assoc]

theorem run_layout_quoted {spelling text : List Char} (escapes : Escapes spelling text)
    (rest : List Char) (offset : Nat) : run .layout offset ('"' :: spelling ++ '"' :: rest) =
      ⟨.atom (.string (String.ofList text)), offset,
        offset + Text.byteLength ('"' :: spelling ++ ['"'])⟩ ::
        run .layout (offset + Text.byteLength ('"' :: spelling ++ ['"'])) rest := by
  have opened : begin offset '"' = ([], .quoted offset [] false) := rfl
  simp only [List.cons_append, run, step, opened, List.nil_append]
  rw [run_quoted escapes rest offset _ []]
  simp [utf8Size_quote, Nat.add_assoc]

private theorem lexemes_quoted {spelling text : List Char} (escapes : Escapes spelling text)
    (rest : List Char) : lexemes ('"' :: spelling ++ '"' :: rest) =
      .atom (.string (String.ofList text)) :: lexemes rest := by
  rw [lexemes, run_layout_quoted escapes, List.map_cons, map_lexeme_run]

theorem wordAtom_cases (word : List Char) :
    wordAtom word = .ident (String.ofList word) ∨ wordAtom word = .int (String.ofList word) ∨
      wordAtom word = .float (String.ofList word) := by
  unfold wordAtom
  dsimp only
  split_ifs
  · exact .inr (.inl rfl)
  · split
    · split_ifs
      · exact .inr (.inr rfl)
      · exact .inl rfl
    · exact .inl rfl

end Lexer

namespace Atom

open Lexer

/-- How an atom is written. -/
def write : Atom → List Char
  | .string text => '"' :: Text.Quoted.encode text.toList ++ ['"']
  | .ident text | .int text | .float text => text.toList

/-- An atom that a text can hold. -/
inductive Legible : Atom → Prop
  | literal (text : String) : Legible (.string text)
  | word {word : List Char} (isWord : IsWord word) : Legible (wordAtom word)

theorem write_wordAtom (word : List Char) : (wordAtom word).write = word := by
  rcases wordAtom_cases word with atom | atom | atom <;> rw [atom, write, String.toList_ofList]

theorem Legible.lexemes_write {atom : Atom} (legible : atom.Legible) {rest : List Char}
    (ends : Breaks rest) : lexemes (atom.write ++ rest) = .atom atom :: lexemes rest := by
  cases legible with
  | literal text =>
    have cut := lexemes_quoted (Text.Quoted.escapes_encode text.toList) rest
    rw [String.ofList_toList] at cut
    simpa [write] using cut
  | word isWord => rw [write_wordAtom, lexemes_word isWord ends]

end Atom

end Codemod
