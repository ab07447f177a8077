import Codemod.Proofs.Except
import Codemod.Proofs.Sexp.Lexemes
import Codemod.Sexp.Reader

/-!
# Forms

A form is an s-expression apart from where it stands. Forms written on lines of their own are read
back as s-expressions of these forms, as long as their atoms are legible. A reader takes either form
of brackets around a list.
-/

namespace Codemod

inductive Form where
  | atom (atom : Atom)
  | list (items : List Form)

def Sexp.form : Sexp → Form
  | .atom value _ => .atom value
  | .list items _ => .list (items.map form)

/-- Induction with the items of a list at once. -/
@[elab_as_elim]
theorem Sexp.itemwise {motive : Sexp → Prop} (atom : ∀ value span, motive (.atom value span))
    (list : ∀ items span, (∀ item ∈ items, motive item) → motive (.list items span)) :
    (sexp : Sexp) → motive sexp
  | .atom value span => atom value span
  | .list items span => list items span fun item _ => itemwise atom list item

namespace Form

/-- An identifier. -/
abbrev word (text : String) : Form := .atom (.ident text)

/-- Induction with the items of a list at once. -/
@[elab_as_elim]
theorem itemwise {motive : Form → Prop} (atom : ∀ atom, motive (.atom atom))
    (list : ∀ items, (∀ item ∈ items, motive item) → motive (.list items)) :
    (form : Form) → motive form
  | .atom value => atom value
  | .list items => list items fun item _ => itemwise atom list item

def lexemes : Form → List Lexeme
  | .atom value => [.atom value]
  | .list items => .opening .round :: items.flatMap lexemes ++ [.closing .round]

/-- How a form is written: the items of a list one blank apart. -/
def write : Form → List Char
  | .atom value => value.write
  | .list [] => ['(', ')']
  | .list (head :: rest) =>
    '(' :: head.write ++ rest.flatMap (fun item => ' ' :: item.write) ++ [')']

/-- Forms on lines of their own. -/
def writeLines (forms : List Form) : List Char :=
  ['\n'].intercalate (forms.map write)

inductive Legible : Form → Prop
  | atom {atom : Atom} (legible : atom.Legible) : Legible (.atom atom)
  | list {items : List Form} (legible : ∀ item ∈ items, Legible item) : Legible (.list items)

theorem legible_atom {atom : Atom} : (Form.atom atom).Legible ↔ atom.Legible := by
  constructor
  · rintro ⟨legible⟩
    exact legible
  · exact .atom

theorem legible_list {items : List Form} :
    (Form.list items).Legible ↔ ∀ item ∈ items, item.Legible := by
  constructor
  · rintro ⟨legible⟩
    assumption
  · exact .list

theorem legible_cons {first : Form} {forms : List Form} :
    (Form.list (first :: forms)).Legible ↔ first.Legible ∧ ∀ form ∈ forms, form.Legible := by
  rw [legible_list, List.forall_mem_cons]

open Lexer

/-- A form is cut off as its lexemes, whatever follows. -/
def CutOff (form : Form) : Prop :=
  ∀ rest, Breaks rest → Lexer.lexemes (form.write ++ rest) = form.lexemes ++ Lexer.lexemes rest

private theorem breaks_blank (rest : List Char) : Breaks (' ' :: rest) := by
  rw [breaks_cons]
  decide +kernel

private theorem breaks_newline (rest : List Char) : Breaks ('\n' :: rest) := by
  rw [breaks_cons]
  decide +kernel

private theorem breaks_closing (rest : List Char) : Breaks (')' :: rest) := by
  rw [breaks_cons]
  decide +kernel

private theorem breaks_spread (items : List Form) {rest : List Char} (ends : Breaks rest) :
    Breaks (items.flatMap (fun item => ' ' :: item.write) ++ rest) := by
  cases items with
  | nil => exact ends
  | cons item items => exact breaks_blank _

private theorem lexemes_spread {items : List Form} (cut : ∀ item ∈ items, item.CutOff)
    {rest : List Char} (ends : Breaks rest) :
    Lexer.lexemes (items.flatMap (fun item => ' ' :: item.write) ++ rest) =
      items.flatMap lexemes ++ Lexer.lexemes rest := by
  induction items with
  | nil => rfl
  | cons item items ih =>
    obtain ⟨here, later⟩ := List.forall_mem_cons.mp cut
    rw [List.flatMap_cons, List.append_assoc, List.cons_append, lexemes_blank,
      here _ (breaks_spread items ends), ih later, List.flatMap_cons, List.append_assoc]

private theorem Legible.cutOff {form : Form} (legible : form.Legible) : form.CutOff := by
  induction legible with
  | atom legible =>
    intro rest ends
    rw [write, lexemes, legible.lexemes_write ends]
    rfl
  | @list items _ ih =>
    intro rest ends
    cases items with
    | nil => simp [write, lexemes]
    | cons head items =>
      -- The first item follows the bracket at once and every other one a blank, so no word runs on.
      obtain ⟨here, later⟩ := List.forall_mem_cons.mp ih
      have closes := breaks_closing rest
      have cut := here _ (breaks_spread items closes)
      rw [lexemes_spread later closes] at cut
      simpa [write, lexemes] using cut

theorem lexemes_writeLines {forms : List Form} (legible : ∀ form ∈ forms, form.Legible) :
    Lexer.lexemes (writeLines forms) = forms.flatMap lexemes := by
  induction forms with
  | nil => rfl
  | cons form forms ih =>
    obtain ⟨here, later⟩ := List.forall_mem_cons.mp legible
    cases forms with
    | nil =>
      have cut := here.cutOff [] breaks_nil
      simpa [writeLines] using cut
    | cons next forms =>
      have cut := here.cutOff ('\n' :: writeLines (next :: forms)) (breaks_newline _)
      rw [lexemes_newline, ih later] at cut
      simpa [writeLines] using cut

end Form

/-- The lexemes of a forest, with brackets of either form around each list. -/
inductive Bracketed : List Form → List Lexeme → Prop where
  | nil : Bracketed [] []
  | atom {forms : List Form} {lexemes : List Lexeme} (atom : Atom)
      (rest : Bracketed forms lexemes) : Bracketed (.atom atom :: forms) (.atom atom :: lexemes)
  | list {items forms : List Form} {inner lexemes : List Lexeme} (bracket : Bracket)
      (inside : Bracketed items inner) (rest : Bracketed forms lexemes) :
      Bracketed (.list items :: forms) (.opening bracket :: inner ++ .closing bracket :: lexemes)

private theorem Bracketed.append {forms others : List Form} {lexemes more : List Lexeme}
    (first : Bracketed forms lexemes) (second : Bracketed others more) :
    Bracketed (forms ++ others) (lexemes ++ more) := by
  induction first with
  | nil => exact second
  | atom atom _ ih => exact .atom atom ih
  | list bracket inside _ _ ih =>
    rw [List.append_assoc, List.cons_append]
    exact .list bracket inside ih

private theorem bracketed_all {forms : List Form}
    (each : ∀ form ∈ forms, Bracketed [form] form.lexemes) :
    Bracketed forms (forms.flatMap Form.lexemes) := by
  induction forms with
  | nil => exact .nil
  | cons form forms ih =>
    obtain ⟨here, later⟩ := List.forall_mem_cons.mp each
    exact here.append (ih later)

private theorem Form.bracketed (form : Form) : Bracketed [form] form.lexemes := by
  induction form using Form.itemwise with
  | atom atom =>
    rw [lexemes]
    exact .atom atom .nil
  | list items ih =>
    rw [lexemes]
    exact .list .round (bracketed_all ih) .nil

theorem bracketed_lexemes (forms : List Form) : Bracketed forms (forms.flatMap Form.lexemes) :=
  bracketed_all fun form _ => form.bracketed

namespace Reader

/-- What has been taken of a forest: the finished expressions, and in each open list the bracket and
the items so far. -/
inductive Taken : State → List Lexeme → Prop where
  | outside {done : List Sexp} {lexemes : List Lexeme}
      (bracketed : Bracketed (done.reverse.map Sexp.form) lexemes) : Taken ⟨[], done⟩ lexemes
  | inside {inner : OpenList} {outer : List OpenList} {done : List Sexp}
      {front lexemes : List Lexeme} (before : Taken ⟨outer, done⟩ front)
      (bracketed : Bracketed (inner.items.reverse.map Sexp.form) lexemes) :
      Taken ⟨inner :: outer, done⟩ (front ++ .opening inner.bracket :: lexemes)

private theorem Taken.push {state : State} {lexemes more : List Lexeme}
    (taken : Taken state lexemes) {sexp : Sexp} (bracketed : Bracketed [sexp.form] more) :
    Taken (state.push sexp) (lexemes ++ more) := by
  cases taken with
  | outside before =>
    refine .outside ?_
    rw [List.reverse_cons, List.map_append]
    exact before.append bracketed
  | inside before items =>
    rw [List.append_assoc, List.cons_append]
    refine .inside before ?_
    rw [List.reverse_cons, List.map_append]
    exact items.append bracketed

variable {source : Source}

private theorem Taken.feed {state next : State} {lexemes : List Lexeme}
    (taken : Taken state lexemes) {token : Token} (fed : feed source state token = .ok next) :
    Taken next (lexemes ++ [token.lexeme]) := by
  unfold Reader.feed at fed
  split at fed
  · rename_i bracket opens
    cases fed
    rw [opens]
    have opened : Bracketed ((OpenList.mk bracket token.start []).items.reverse.map Sexp.form) [] :=
      .nil
    exact .inside taken opened
  · rename_i bracket closes
    split at fed
    · rename_i inner outer pending
      split at fed
      · rename_i same
        cases fed
        obtain ⟨_, done⟩ := state
        cases pending
        cases taken with
        | inside before items =>
          rw [closes, ← same, List.append_assoc, List.cons_append]
          exact before.push (by simpa [Sexp.form] using Bracketed.list inner.bracket items .nil)
      · contradiction
    · contradiction
  · rename_i atom isAtom
    cases fed
    rw [isAtom]
    exact taken.push (by simpa [Sexp.form] using Bracketed.atom atom .nil)
  · contradiction
  · contradiction

private theorem Taken.foldlM {tokens : List Token} {state last : State} {lexemes : List Lexeme}
    (taken : Taken state lexemes) (fed : tokens.foldlM (Reader.feed source) state = .ok last) :
    Taken last (lexemes ++ tokens.map Token.lexeme) := by
  induction tokens generalizing state lexemes with
  | nil =>
    cases fed
    simpa using taken
  | cons token tokens ih =>
    rw [List.foldlM_cons] at fed
    obtain ⟨next, here, rest⟩ := exists_of_bind_ok fed
    simpa using ih (taken.feed here) rest

end Reader

theorem Sexp.bracketed_of_readAll {source : Source} {sexps : List Sexp}
    (read : Sexp.readAll source = .ok sexps) :
    Bracketed (sexps.map Sexp.form) (Lexer.lexemes source.text.toList) := by
  obtain ⟨last, fed, finished⟩ := exists_of_bind_ok read
  have started : Reader.Taken .initial [] := .outside .nil
  have taken := started.foldlM fed
  obtain ⟨pending, done⟩ := last
  cases pending with
  | nil =>
    cases finished
    cases taken with
    | outside bracketed => exact bracketed
  | cons inner outer => contradiction

namespace Reader

variable {source : Source}

private theorem push_cases (state : State) (sexp : Sexp) :
    (state.push sexp).pending ≠ [] ∧ (state.push sexp).done = state.done ∨
      (state.push sexp).pending = [] ∧ ∃ last, (state.push sexp).done = last :: state.done := by
  obtain ⟨pending, done⟩ := state
  cases pending <;> simp [State.push]

/-- A token leaves a list open, or it ends an expression. -/
theorem feed_cases {state next : State} {token : Token}
    (fed : feed source state token = .ok next) :
    next.pending ≠ [] ∧ next.done = state.done ∨
      next.pending = [] ∧ ∃ last, next.done = last :: state.done := by
  unfold feed at fed
  split at fed
  · cases fed
    exact .inl ⟨List.cons_ne_nil _ _, rfl⟩
  · split at fed
    · split at fed
      · cases fed
        exact push_cases _ _
      · contradiction
    · contradiction
  · cases fed
    exact push_cases _ _
  · contradiction
  · contradiction

private theorem length_done_lt {tokens : List Token} {state last : State}
    (fed : tokens.foldlM (feed source) state = .ok last) (some : tokens ≠ [])
    (closed : last.pending = []) : state.done.length < last.done.length := by
  induction tokens generalizing state with
  | nil => contradiction
  | cons token tokens ih =>
    rw [List.foldlM_cons] at fed
    obtain ⟨next, here, rest⟩ := exists_of_bind_ok fed
    have grows := feed_cases here
    by_cases empty : tokens = []
    · rw [empty] at rest
      cases rest
      obtain ⟨sexp, done⟩ := (grows.resolve_left fun opened => opened.1 closed).2
      simp [done]
    · have later := ih rest empty
      cases grows with
      | inl opened => rwa [opened.2] at later
      | inr ended =>
        obtain ⟨sexp, done⟩ := ended.2
        rw [done, List.length_cons] at later
        omega

private theorem readFirst_ok_iff {tokens : List Token} {state : State} (fresh : state.done = [])
    {sexp : Sexp} : readFirst source state tokens = .ok (sexp, []) ↔
      tokens.foldlM (feed source) state = .ok ⟨[], [sexp]⟩ := by
  induction tokens generalizing state with
  | nil =>
    obtain ⟨pending, done⟩ := state
    have other : done ≠ [sexp] := by simp_all
    simp [readFirst, pure, Except.pure, other]
  | cons token tokens ih =>
    rw [List.foldlM_cons, readFirst]
    cases here : feed source state token with
    | error error => simp [bind, Except.bind]
    | ok next =>
      obtain ⟨pending, done⟩ := next
      change _ ↔ tokens.foldlM (feed source) ⟨pending, done⟩ = _
      cases feed_cases here with
      | inl opened =>
        obtain ⟨stillOpen, same⟩ := opened
        have reads : done = [] := same.trans fresh
        cases pending with
        | nil => contradiction
        | cons inner outer => exact ih reads
      | inr ended =>
        obtain ⟨closed, first, same⟩ := ended
        rw [fresh] at same
        dsimp only at closed same
        subst closed same
        by_cases empty : tokens = []
        · simp [empty, pure, Except.pure]
        · have leftOver : tokens.foldlM (feed source) ⟨[], [first]⟩ ≠ .ok ⟨[], [sexp]⟩ := by
            intro fed
            have grown := length_done_lt fed empty rfl
            simp at grown
          simp [empty, leftOver]

end Reader

/-- One expression is read from the texts that hold no other. -/
theorem Sexp.readOne_ok_iff {source : Source} {sexp : Sexp} :
    Sexp.readOne source = .ok sexp ↔ Sexp.readAll source = .ok [sexp] := by
  constructor
  · intro read
    obtain ⟨⟨first, rest⟩, taken, finished⟩ := exists_of_bind_ok read
    cases rest with
    | nil =>
      cases finished
      have fed := (Reader.readFirst_ok_iff rfl).mp taken
      rw [readAll, fed]
      rfl
    | cons token rest => contradiction
  · intro read
    obtain ⟨⟨pending, done⟩, fed, finished⟩ := exists_of_bind_ok read
    cases pending with
    | nil =>
      have same : done.reverse = [sexp] := Except.ok.inj finished
      rw [List.reverse_eq_iff, List.reverse_singleton] at same
      rw [same] at fed
      rw [readOne, (Reader.readFirst_ok_iff rfl).mpr fed]
      rfl
    | cons inner outer => contradiction

end Codemod
