import Codemod.Proofs.Sexp.Lexemes
import Mathlib.Data.List.TakeDrop

/-!
# Words

A word is an integer, a decimal, or neither and then an identifier. What is read for a word is the
atom of its sort.
-/

namespace Codemod

namespace Lexer

/-- Digits after an optional minus sign. -/
def IsInteger (word : List Char) : Prop :=
  ∃ digits, isDigits digits ∧ (word = digits ∨ word = '-' :: digits)

/-- Digits on both sides of a point, after an optional minus sign. -/
def IsDecimal (word : List Char) : Prop :=
  ∃ whole fraction, isDigits whole ∧ isDigits fraction ∧
    (word = whole ++ '.' :: fraction ∨ word = '-' :: (whole ++ '.' :: fraction))

def IsIdentifier (word : List Char) : Prop :=
  IsWord word ∧ ¬IsInteger word ∧ ¬IsDecimal word

private theorem isDigits_iff {text : List Char} :
    isDigits text ↔ text ≠ [] ∧ ∀ c ∈ text, c.isDigit := by
  simp [isDigits]

theorem isWordChar_of_isDigit {c : Char} (digit : c.isDigit) : isWordChar c := by
  have digits : ∀ n ∈ List.range' 48 10, isWordChar (Char.ofNat n) = true := by
    decide +kernel
  rw [← Char.ofNat_toNat c]
  apply digits
  simp only [Char.isDigit, Bool.and_eq_true, decide_eq_true_eq, ge_iff_le, UInt32.le_iff_toNat_le]
    at digit
  obtain ⟨least, greatest⟩ := digit
  change 48 ≤ c.toNat at least
  change c.toNat ≤ 57 at greatest
  rw [List.mem_range'_1]
  omega

theorem span_append {separator : Char} {front : List Char} (absent : separator ∉ front)
    (rest : List Char) : (front ++ rest).span (· ≠ separator) =
      (front ++ rest.takeWhile (· ≠ separator), rest.dropWhile (· ≠ separator)) := by
  have plain : ∀ c ∈ front, decide (c ≠ separator) = true := by
    intro c inside
    rw [decide_eq_true_eq]
    intro same
    exact absent (same ▸ inside)
  rw [List.span_eq_takeWhile_dropWhile, List.takeWhile_append_of_pos plain,
    List.dropWhile_append_of_pos plain]

/-- A word without its minus sign. -/
def unsigned (word : List Char) : List Char :=
  match word with
  | '-' :: rest => rest
  | _ => word

private theorem unsigned_cases (word : List Char) :
    word = unsigned word ∨ word = '-' :: unsigned word := by
  unfold unsigned
  split
  · exact .inr rfl
  · exact .inl rfl

private theorem unsigned_of_isDigits {digits : List Char} (isDigits : isDigits digits)
    (rest : List Char) : unsigned (digits ++ rest) = digits ++ rest := by
  obtain ⟨nonempty, digit⟩ := isDigits_iff.mp isDigits
  cases digits with
  | nil => contradiction
  | cons c digits =>
    unfold unsigned
    split
    · rename_i other same
      have minus : c = '-' := (List.cons.inj same).1
      have isDigit := digit c List.mem_cons_self
      rw [minus] at isDigit
      contradiction
    · rfl

private theorem isInteger_iff {word : List Char} : IsInteger word ↔ isDigits (unsigned word) := by
  constructor
  · intro integer
    obtain ⟨digits, isDigits, rfl | rfl⟩ := integer
    · have same := unsigned_of_isDigits isDigits []
      rw [List.append_nil] at same
      rwa [same]
    · exact isDigits
  · intro isDigits
    exact ⟨unsigned word, isDigits, unsigned_cases word⟩

private theorem point_notMem {digits : List Char} (isDigits : isDigits digits) : '.' ∉ digits := by
  intro inside
  have digit := (isDigits_iff.mp isDigits).2 '.' inside
  contradiction

private theorem isDecimal_iff {word : List Char} : IsDecimal word ↔
    ∃ whole point fraction, (unsigned word).span (· ≠ '.') = (whole, point :: fraction) ∧
      isDigits whole ∧ isDigits fraction := by
  constructor
  · intro decimal
    obtain ⟨whole, fraction, wholeDigits, fractionDigits, form⟩ := decimal
    have bare : unsigned word = whole ++ '.' :: fraction := by
      cases form with
      | inl same => rw [same, unsigned_of_isDigits wholeDigits]
      | inr same => rw [same, unsigned]
    refine ⟨whole, '.', fraction, ?_, wholeDigits, fractionDigits⟩
    rw [bare, span_append (point_notMem wholeDigits)]
    simp
  · intro parts
    obtain ⟨whole, point, fraction, cut, wholeDigits, fractionDigits⟩ := parts
    rw [List.span_eq_takeWhile_dropWhile, Prod.mk.injEq] at cut
    obtain ⟨ahead, behind⟩ := cut
    have isPoint : point = '.' := by
      have stops := List.head?_dropWhile_not (· ≠ '.') (unsigned word)
      rw [behind] at stops
      simpa using stops
    have whole_word : unsigned word = whole ++ '.' :: fraction := by
      rw [← isPoint, ← ahead, ← behind, List.takeWhile_append_dropWhile]
    refine ⟨whole, fraction, wholeDigits, fractionDigits, ?_⟩
    rw [← whole_word]
    exact unsigned_cases word

private theorem not_isInteger_of_isDecimal {word : List Char} (decimal : IsDecimal word) :
    ¬IsInteger word := by
  intro integer
  obtain ⟨whole, point, fraction, cut, _, _⟩ := isDecimal_iff.mp decimal
  have absent := span_append (point_notMem (isInteger_iff.mp integer)) []
  rw [List.append_nil, cut] at absent
  simp at absent

private theorem inWord_of_isDigits {digits : List Char} (isDigits : isDigits digits) :
    ∀ c ∈ digits, isWordChar c := by
  intro c inside
  exact isWordChar_of_isDigit ((isDigits_iff.mp isDigits).2 c inside)

theorem isWord_of_isInteger {word : List Char} (integer : IsInteger word) : IsWord word := by
  obtain ⟨digits, isDigits, rfl | rfl⟩ := integer
  · exact ⟨(isDigits_iff.mp isDigits).1, inWord_of_isDigits isDigits⟩
  · have minus : isWordChar '-' := by decide +kernel
    exact ⟨List.cons_ne_nil _ _, List.forall_mem_cons.mpr ⟨minus, inWord_of_isDigits isDigits⟩⟩

theorem isWord_of_isDecimal {word : List Char} (decimal : IsDecimal word) : IsWord word := by
  obtain ⟨whole, fraction, wholeDigits, fractionDigits, form⟩ := decimal
  have minus : isWordChar '-' := by decide +kernel
  have point : isWordChar '.' := by decide +kernel
  have inWord : ∀ c ∈ whole ++ '.' :: fraction, isWordChar c :=
    List.forall_mem_append.mpr ⟨inWord_of_isDigits wholeDigits,
      List.forall_mem_cons.mpr ⟨point, inWord_of_isDigits fractionDigits⟩⟩
  cases form with
  | inl same => exact same ▸ ⟨by simp, inWord⟩
  | inr same => exact same ▸ ⟨List.cons_ne_nil _ _, List.forall_mem_cons.mpr ⟨minus, inWord⟩⟩

private theorem wordAtom_eq (word : List Char) :
    wordAtom word =
      if isDigits (unsigned word) then .int (String.ofList word)
      else match (unsigned word).span (· ≠ '.') with
        | (whole, _ :: fraction) =>
          if isDigits whole && isDigits fraction then .float (String.ofList word)
          else .ident (String.ofList word)
        | _ => .ident (String.ofList word) := rfl

theorem wordAtom_of_isInteger {word : List Char} (integer : IsInteger word) :
    wordAtom word = .int (String.ofList word) := by
  rw [wordAtom_eq, if_pos (isInteger_iff.mp integer)]

theorem wordAtom_of_isDecimal {word : List Char} (decimal : IsDecimal word) :
    wordAtom word = .float (String.ofList word) := by
  have notDigits : isDigits (unsigned word) = false := by
    simpa [isInteger_iff] using not_isInteger_of_isDecimal decimal
  obtain ⟨whole, point, fraction, cut, wholeDigits, fractionDigits⟩ := isDecimal_iff.mp decimal
  rw [wordAtom_eq, notDigits, cut]
  simp [wholeDigits, fractionDigits]

private theorem wordAtom_of_neither {word : List Char} (notInteger : ¬IsInteger word)
    (notDecimal : ¬IsDecimal word) : wordAtom word = .ident (String.ofList word) := by
  have notDigits : isDigits (unsigned word) = false := by
    simpa [isInteger_iff] using notInteger
  rw [wordAtom_eq, notDigits, if_neg Bool.false_ne_true]
  split
  · rename_i whole point fraction cut
    have notParts : ¬(isDigits whole && isDigits fraction) := by
      intro both
      rw [Bool.and_eq_true] at both
      exact notDecimal (isDecimal_iff.mpr ⟨whole, point, fraction, cut, both.1, both.2⟩)
    exact if_neg notParts
  · rfl

theorem wordAtom_of_isIdentifier {word : List Char} (identifier : IsIdentifier word) :
    wordAtom word = .ident (String.ofList word) :=
  wordAtom_of_neither identifier.2.1 identifier.2.2

instance (word : List Char) : Decidable (IsWord word) :=
  decidable_of_iff _ isWord_iff.symm

instance (word : List Char) : Decidable (IsInteger word) :=
  decidable_of_iff _ isInteger_iff.symm

private theorem isDecimal_iff_wordAtom {word : List Char} :
    IsDecimal word ↔ wordAtom word = .float (String.ofList word) := by
  constructor
  · exact wordAtom_of_isDecimal
  · intro read
    by_contra notDecimal
    by_cases integer : IsInteger word
    · rw [wordAtom_of_isInteger integer] at read
      contradiction
    · rw [wordAtom_of_neither integer notDecimal] at read
      contradiction

instance (word : List Char) : Decidable (IsDecimal word) :=
  decidable_of_iff _ isDecimal_iff_wordAtom.symm

instance (word : List Char) : Decidable (IsIdentifier word) :=
  inferInstanceAs (Decidable (_ ∧ _))

end Lexer

end Codemod
