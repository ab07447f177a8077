import Codemod.Proofs.Sexp.Located

/-!
# The grammar of texts

A text writes a forest when it writes the lexemes of the forest. Reading accepts just the texts that
write some forest, and comes to this forest.
-/

namespace Codemod

/-- A text writes a forest. -/
def Written (forms : List Form) (text : List Char) : Prop :=
  ∃ lexemes, Bracketed forms lexemes ∧ Lexer.Writes false lexemes text

private theorem Bracketed.regular {forms : List Form} {lexemes : List Lexeme}
    (bracketed : Bracketed forms lexemes) : Lexer.Regular lexemes := by
  induction bracketed with
  | nil => simp [Lexer.Regular]
  | atom _ _ ih => simpa [Lexer.Regular] using ih
  | list _ _ _ inside rest =>
    rw [List.cons_append]
    have both := Lexer.regular_append.mpr ⟨inside, rest⟩
    simpa [Lexer.Regular] using both

private theorem Written.exists_stands {forms : List Form} {text : List Char}
    (written : Written forms text)
    (source : Source) : ∃ sexps body gap, sexps.map Sexp.form = forms ∧ text = body ++ gap ∧
      Stands source 0 sexps body ∧ Lexer.LastLayout gap := by
  obtain ⟨lexemes, bracketed, writes⟩ := written
  rw [← List.append_nil lexemes] at writes
  obtain ⟨sexps, body, gap, _, whole, stands, same, rest⟩ := stands_of_writes bracketed writes 0
  cases rest with
  | last layout => exact ⟨sexps, body, gap, same, whole, stands, layout⟩

/-- A text that is cut into the lexemes of a forest holds s-expressions of its forms. -/
theorem Sexp.exists_readAll_of_bracketed {source : Source} {forms : List Form}
    (bracketed : Bracketed forms (Lexer.lexemes source.text.toList)) :
    ∃ sexps, Sexp.readAll source = .ok sexps ∧ sexps.map Sexp.form = forms := by
  have written : Written forms source.text.toList :=
    ⟨_, bracketed, Lexer.writes_lexemes bracketed.regular⟩
  obtain ⟨sexps, body, gap, same, whole, stands, layout⟩ := written.exists_stands source
  exact ⟨sexps, stands.readAll layout whole, same⟩

/-- A text with the lexemes of some forms holds s-expressions of these forms. -/
theorem Sexp.exists_readAll {source : Source} {forms : List Form}
    (spelled : Lexer.lexemes source.text.toList = forms.flatMap Form.lexemes) :
    ∃ sexps, Sexp.readAll source = .ok sexps ∧ sexps.map Sexp.form = forms := by
  apply Sexp.exists_readAll_of_bracketed
  rw [spelled]
  exact bracketed_lexemes forms

private theorem written_of_readAll {source : Source} {sexps : List Sexp}
    (read : Sexp.readAll source = .ok sexps) :
    Written (sexps.map Sexp.form) source.text.toList := by
  have bracketed := Sexp.bracketed_of_readAll read
  exact ⟨_, bracketed, Lexer.writes_lexemes bracketed.regular⟩

/-- A text is read as s-expressions of some forms if and only if it writes these forms. -/
theorem exists_readAll_iff_written (source : Source) (forms : List Form) :
    (∃ sexps, Sexp.readAll source = .ok sexps ∧ sexps.map Sexp.form = forms) ↔
      Written forms source.text.toList := by
  constructor
  · intro read
    obtain ⟨sexps, read, same⟩ := read
    exact same ▸ written_of_readAll read
  · intro written
    obtain ⟨lexemes, bracketed, writes⟩ := written
    exact Sexp.exists_readAll_of_bracketed (writes.lexemes_eq ▸ bracketed)

/-- What is read from a text stands in it. -/
theorem Sexp.exists_stands_of_readAll {source : Source} {sexps : List Sexp}
    (read : Sexp.readAll source = .ok sexps) :
    ∃ body gap, source.text.toList = body ++ gap ∧ Stands source 0 sexps body := by
  obtain ⟨found, body, gap, _, whole, stands, layout⟩ :=
    (written_of_readAll read).exists_stands source
  have same := (stands.readAll layout whole).symm.trans read
  cases same
  exact ⟨body, gap, whole, stands⟩

private theorem Atom.Spelled.legible {atom : Atom} {token : List Char}
    (spelled : atom.Spelled token) : atom.Legible := by
  by_cases word : (Lexeme.atom atom).isWord = true
  · obtain ⟨isWord, same⟩ := spelled.isWord word
    exact same ▸ .word isWord
  · cases spelled with
    | string _ => exact .literal _
    | ident _ | int _ | float _ => exact absurd rfl word

private theorem Lexer.Writes.legible {afterWord : Bool} {lexemes : List Lexeme} {text : List Char}
    (writes : Lexer.Writes afterWord lexemes text) :
    ∀ atom, Lexeme.atom atom ∈ lexemes → atom.Legible := by
  induction writes with
  | last _ => simp
  | next _ _ spelled _ ih =>
    intro atom inside
    cases inside with
    | head => cases spelled with | atom spelled => exact spelled.legible
    | tail _ later => exact ih atom later

private theorem Bracketed.legible {forms : List Form} {lexemes : List Lexeme}
    (bracketed : Bracketed forms lexemes) :
    (∀ atom, Lexeme.atom atom ∈ lexemes → atom.Legible) → ∀ form ∈ forms, form.Legible := by
  induction bracketed with
  | nil => simp
  | atom atom _ ih =>
    intro legible
    have here : (Form.atom atom).Legible := .atom (legible atom List.mem_cons_self)
    exact List.forall_mem_cons.mpr
      ⟨here, ih fun other inside => legible other (List.mem_cons_of_mem _ inside)⟩
  | list _ _ _ inside rest =>
    intro legible
    refine List.forall_mem_cons.mpr ⟨.list (inside ?_), rest ?_⟩
    · exact fun atom within => legible atom (by simp [within])
    · exact fun atom later => legible atom (by simp [later])

/-- The forms of a text that is read are legible. -/
theorem Sexp.legible_of_readAll {source : Source} {sexps : List Sexp}
    (read : Sexp.readAll source = .ok sexps) : ∀ sexp ∈ sexps, sexp.form.Legible := by
  obtain ⟨_, bracketed, writes⟩ := written_of_readAll read
  exact List.forall_mem_map.mp (bracketed.legible writes.legible)

end Codemod
