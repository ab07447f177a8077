import Codemod.Proofs.Except
import Codemod.Proofs.Sexp.Grammar

/-!
# Spellings

A form spells a value for a reader when it is legible and the reader takes every s-expression of
this form for the value. Readers accept more than one form of a value; what is printed is one of
them.
-/

namespace Codemod

structure Spells {α : Type} (read : Sexp → Except ReadError α) (form : Form) (value : α) :
    Prop where
  legible : form.Legible
  read_eq (sexp : Sexp) : sexp.form = form → read sexp = .ok value

section

variable {α : Type} {read : Sexp → Except ReadError α} {spell : α → Form}

/-- What a reader makes of an s-expression, if that is legible, can be spelled. -/
def Respells (read : Sexp → Except ReadError α) (spell : α → Form) (sexp : Sexp) : Prop :=
  ∀ value, read sexp = .ok value → sexp.form.Legible → Spells read (spell value) value

theorem spells_of_mapM {sexps : List Sexp} (respells : ∀ sexp ∈ sexps, Respells read spell sexp)
    {values : List α} (succeeded : sexps.mapM read = .ok values)
    (legible : ∀ sexp ∈ sexps, sexp.form.Legible) :
    ∀ value ∈ values, Spells read (spell value) value :=
  forall_of_mapM_ok (fun sexp inside value first =>
    respells sexp inside value first (legible sexp inside)) succeeded

theorem legible_of_spells {values : List α}
    (spelled : ∀ value ∈ values, Spells read (spell value) value) :
    ∀ form ∈ values.map spell, form.Legible :=
  List.forall_mem_map.mpr fun value inside => (spelled value inside).legible

theorem mapM_of_spells {values : List α}
    (spelled : ∀ value ∈ values, Spells read (spell value) value)
    {sexps : List Sexp} (same : sexps.map Sexp.form = values.map spell) :
    sexps.mapM read = .ok values := by
  induction values generalizing sexps with
  | nil =>
    obtain rfl := List.map_eq_nil_iff.mp same
    rfl
  | cons value values ih =>
    obtain ⟨sexp, sexps, rfl, here, later⟩ := List.map_eq_cons_iff.mp same
    obtain ⟨first, others⟩ := List.forall_mem_cons.mp spelled
    exact mapM_cons_ok_iff.mpr ⟨value, values, first.read_eq sexp here, ih others later, rfl⟩

end

namespace Sexp

@[simp] theorem form_atom (atom : Atom) (span : Span) :
    (Sexp.atom atom span).form = .atom atom := by
  rw [form]

@[simp] theorem form_list (items : List Sexp) (span : Span) :
    (Sexp.list items span).form = .list (items.map form) := by
  rw [form]

variable {sexp : Sexp}

theorem exists_of_form_atom {atom : Atom} (same : sexp.form = .atom atom) :
    ∃ span, sexp = .atom atom span := by
  cases sexp with
  | atom other span =>
    rw [form_atom, Form.atom.injEq] at same
    exact ⟨span, by rw [same]⟩
  | list items span => simp at same

private theorem exists_of_form_list {forms : List Form} (same : sexp.form = .list forms) :
    ∃ items span, sexp = .list items span ∧ items.map form = forms := by
  cases sexp with
  | atom other span => simp at same
  | list items span =>
    rw [form_list, Form.list.injEq] at same
    exact ⟨items, span, rfl, same⟩

theorem exists_of_form_cons {first : Form} {forms : List Form}
    (same : sexp.form = .list (first :: forms)) :
    ∃ head items span, sexp = .list (head :: items) span ∧ head.form = first ∧
      items.map form = forms := by
  obtain ⟨all, span, rfl, forms_same⟩ := exists_of_form_list same
  obtain ⟨head, items, rfl, here, later⟩ := List.map_eq_cons_iff.mp forms_same
  exact ⟨head, items, span, rfl, here, later⟩

theorem ident?_eq_some_iff {text : String} :
    sexp.ident? = some text ↔ sexp.form = .word text := by
  constructor
  · intro found
    unfold ident? at found
    split at found
    · cases found
      exact form_atom _ _
    · contradiction
  · intro same
    obtain ⟨span, rfl⟩ := exists_of_form_atom same
    rfl

theorem expectIdent_ok_iff {text : String} :
    sexp.expectIdent = .ok text ↔ sexp.form = .word text := by
  rw [← ident?_eq_some_iff, expectIdent]
  cases sexp.ident? <;> simp

theorem expectString_ok_iff {text : String} :
    sexp.expectString = .ok text ↔ sexp.form = .atom (.string text) := by
  constructor
  · intro found
    unfold expectString at found
    split at found
    · cases found
      exact form_atom _ _
    · contradiction
  · intro same
    obtain ⟨span, rfl⟩ := exists_of_form_atom same
    rfl

theorem expectList_ok_iff {items : List Sexp} :
    sexp.expectList = .ok items ↔ ∃ span, sexp = .list items span := by
  cases sexp <;> simp [expectList]

end Sexp

theorem Sexp.respells_ident (sexp : Sexp) :
    Respells Sexp.expectIdent Form.word sexp := by
  intro text found legible
  rw [Sexp.expectIdent_ok_iff.mp found] at legible
  exact ⟨legible, fun _ => Sexp.expectIdent_ok_iff.mpr⟩

namespace Lexer

private theorem wordAtom_of_head {c : Char} (notMinus : c ≠ '-') (notDigit : c.isDigit = false)
    (rest : List Char) : wordAtom (c :: rest) = .ident (String.ofList (c :: rest)) := by
  have not_digits (more : List Char) : isDigits (c :: more) = false := by
    simp [isDigits, notDigit]
  have not_whole : isDigits ((c :: rest).takeWhile (· ≠ '.')) = false := by
    rw [List.takeWhile_cons]
    split
    · exact not_digits _
    · rfl
  unfold wordAtom
  split
  · rename_i other same
    exact absurd (List.cons.inj same).1 notMinus
  · dsimp only
    rw [not_digits, if_neg Bool.false_ne_true, List.span_eq_takeWhile_dropWhile]
    cases (c :: rest).dropWhile (· ≠ '.') with
    | nil => rfl
    | cons point fraction =>
      dsimp only
      rw [not_whole]
      rfl

end Lexer

namespace Atom

theorem legible_ident_iff {text : String} :
    (Atom.ident text).Legible ↔
      Lexer.IsWord text.toList ∧ Lexer.wordAtom text.toList = .ident text := by
  constructor
  · intro legible
    generalize same : Atom.ident text = atom at legible
    cases legible with
    | literal other => contradiction
    | @word word isWord =>
      have spelled := write_wordAtom word
      rw [← same, write] at spelled
      subst spelled
      exact ⟨isWord, by rw [← same]⟩
  · rintro ⟨isWord, same⟩
    exact same ▸ .word isWord

theorem legible_ident_of_head {c : Char} {rest : List Char} (isWord : Lexer.IsWord (c :: rest))
    (notMinus : c ≠ '-') (notDigit : c.isDigit = false) :
    (Atom.ident (String.ofList (c :: rest))).Legible :=
  Lexer.wordAtom_of_head notMinus notDigit rest ▸ .word isWord

end Atom

namespace Text

theorem toString_natCast (n : Nat) : toString (n : Int) = toString n := rfl

private theorem toString_ofNat (n : Nat) :
    toString (Int.ofNat n) = String.ofList (Nat.toDigits 10 n) := by
  rw [← Nat.toList_repr, String.ofList_toList]
  rfl

private theorem toString_negSucc (n : Nat) :
    toString (Int.negSucc n) = String.ofList ('-' :: Nat.toDigits 10 (n + 1)) := by
  rw [← Nat.toList_repr, String.ofList_cons, String.ofList_toList]
  rfl

private theorem isDigit_of_mem_numeral {n : Nat} {c : Char} (inside : c ∈ Nat.toDigits 10 n) :
    c.isDigit :=
  Nat.isDigit_of_mem_toDigits (by decide) (by decide) inside

private theorem natural?_toDigits (n : Nat) : natural? (Nat.toDigits 10 n) = some n := by
  have digits : (Nat.toDigits 10 n).all Char.isDigit :=
    List.all_eq_true.mpr fun c => isDigit_of_mem_numeral
  have nonempty : (Nat.toDigits 10 n).isEmpty = false := by simp [Nat.toDigits_ne_nil]
  rw [natural?, digits, nonempty]
  exact congrArg some (Nat.ofDigitChars_toDigits (by decide) (by decide))

private theorem head_toDigits_ne_minus (n : Nat) (rest : List Char) :
    Nat.toDigits 10 n ≠ '-' :: rest := by
  intro same
  have digit := isDigit_of_mem_numeral (same ▸ List.mem_cons_self : '-' ∈ Nat.toDigits 10 n)
  contradiction

private theorem int64?_toString {value : Int} (least : -int64Bound ≤ value)
    (greatest : value < int64Bound) : int64? (toString value) = some value := by
  cases value with
  | ofNat n =>
    rw [toString_ofNat, int64?, String.toList_ofList]
    split
    · rename_i rest same
      exact absurd same (head_toDigits_ne_minus n rest)
    · rw [natural?_toDigits]
      simpa using ⟨least, greatest⟩
  | negSucc n =>
    rw [toString_negSucc, int64?, String.toList_ofList]
    simp only [natural?_toDigits, Option.map_some]
    have negative : -Int.ofNat (n + 1) = Int.negSucc n := rfl
    rw [negative]
    simpa using ⟨least, greatest⟩

end Text

namespace Lexer

open Text

private theorem isDigits_toDigits (n : Nat) : isDigits (Nat.toDigits 10 n) := by
  simpa [isDigits, Nat.toDigits_ne_nil] using fun c => isDigit_of_mem_numeral

theorem wordAtom_numeral (value : Int) :
    wordAtom (toString value).toList = .int (toString value) := by
  cases value with
  | ofNat n =>
    rw [toString_ofNat, String.toList_ofList]
    unfold wordAtom
    split
    · rename_i rest same
      exact absurd same (head_toDigits_ne_minus n rest)
    · exact if_pos (isDigits_toDigits n)
  | negSucc n =>
    rw [toString_negSucc, String.toList_ofList, wordAtom]
    exact if_pos (isDigits_toDigits (n + 1))

theorem isWord_numeral (value : Int) : IsWord (toString value).toList := by
  have digits (n : Nat) : ∀ c ∈ Nat.toDigits 10 n, isWordChar c := fun c inside =>
    isWordChar_of_isDigit (isDigit_of_mem_numeral inside)
  cases value with
  | ofNat n =>
    rw [toString_ofNat, String.toList_ofList]
    exact ⟨Nat.toDigits_ne_nil, digits n⟩
  | negSucc n =>
    rw [toString_negSucc, String.toList_ofList]
    exact ⟨List.cons_ne_nil _ _, List.forall_mem_cons.mpr ⟨by decide +kernel, digits _⟩⟩

end Lexer

theorem Sexp.spells_int (value : Int) (least : -Text.int64Bound ≤ value)
    (greatest : value < Text.int64Bound) :
    Spells Sexp.expectInt (.atom (.int (toString value))) value where
  legible := .atom (Lexer.wordAtom_numeral value ▸ .word (Lexer.isWord_numeral value))
  read_eq sexp same := by
    obtain ⟨span, rfl⟩ := Sexp.exists_of_form_atom same
    rw [Sexp.expectInt, Text.int64?_toString least greatest]

end Codemod
