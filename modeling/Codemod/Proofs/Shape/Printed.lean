import Codemod.Proofs.Tree.Printed
import Codemod.Shape.Reader

/-!
# Printed shapes

What is printed for a term or a shape is a form of it: a term that was read from a legible
s-expression is read again from whatever has the form it is printed in. Holes are printed in one
way each, so the form is not always the one that was read.
-/

namespace Codemod

namespace Hole

open Lexer

/-- The end of the word of a hole, which tells what it captures. -/
def mark : HoleKind → List Char
  | .expression => []
  | .statement => [':', 's', 't', 'm', 't']
  | .sequence => ['.', '.', '.']
  | .identifier => [':', 'i', 'd', 'e', 'n', 't']

private theorem toList_render_capturing (name : List Char) (kind : HoleKind) :
    (capturing (String.ofList name) kind).render.toList = '?' :: name ++ mark kind := by
  cases kind <;> simp [render, capturing, mark, toString]

private theorem toList_render_referringTo (name : List Char) :
    (referringTo (String.ofList name)).render.toList = '=' :: '?' :: name := by
  simp [render, referringTo, toString]

private theorem sequenceName?_eq_some_iff {body name : List Char} :
    sequenceName? body = some name ↔ body = name ++ ['.', '.', '.'] := by
  constructor
  · intro found
    rw [sequenceName?] at found
    split at found
    · rename_i rest reversed
      cases found
      rw [← List.reverse_inj, reversed]
      simp
    · contradiction
  · rintro rfl
    simp [sequenceName?]

private theorem parts?_mark {name : List Char} (isName : isName name) (kind : HoleKind) :
    parts? (name ++ mark kind) = some (name, kind) := by
  simp only [Hole.isName, Bool.and_eq_true, Bool.not_eq_true', List.contains_eq_mem,
    decide_eq_false_iff_not] at isName
  obtain ⟨⟨_, noColon⟩, noPoint⟩ := isName
  have no_sequence {rest : List Char} (ends : ∀ front, name ++ rest ≠ front ++ ['.', '.', '.']) :
      sequenceName? (name ++ rest) = none := by
    rw [Option.eq_none_iff_forall_ne_some]
    exact fun front found => ends front (sequenceName?_eq_some_iff.mp found)
  cases kind with
  | sequence =>
    have found : sequenceName? (name ++ mark .sequence) = some name :=
      sequenceName?_eq_some_iff.mpr rfl
    rw [parts?, found]
  | expression =>
    rw [parts?, no_sequence, Lexer.span_append noColon]
    · simp [mark]
    · intro front same
      rw [mark, List.append_nil] at same
      exact noPoint (same ▸ by simp)
  | statement =>
    rw [parts?, no_sequence, Lexer.span_append noColon]
    · simp [mark, kindOfSuffix?]
    · intro front same
      simpa [mark] using congrArg List.getLast? same
  | identifier =>
    rw [parts?, no_sequence, Lexer.span_append noColon]
    · simp [mark, kindOfSuffix?]
    · intro front same
      simpa [mark] using congrArg List.getLast? same

private theorem mem_of_parts? {body name : List Char} {kind : HoleKind}
    (found : parts? body = some (name, kind)) : ∀ c ∈ name, c ∈ body := by
  rw [parts?, List.span_eq_takeWhile_dropWhile] at found
  have front : ∀ c ∈ body.takeWhile (· ≠ ':'), c ∈ body := fun c inside =>
    (List.takeWhile_prefix _).subset inside
  split at found
  · rename_i sequence
    cases found
    rw [sequenceName?_eq_some_iff.mp sequence]
    exact fun c inside => List.mem_append_left _ inside
  · split at found
    · rename_i cut
      obtain ⟨other, suffix, same⟩ := Option.map_eq_some_iff.mp found
      cases same
      exact (Prod.mk.inj cut).1 ▸ front
    · rename_i cut
      cases found
      exact (Prod.mk.inj cut).1 ▸ front

private theorem exists_of_ofToken? {token : String} {slot : Hole}
    (found : ofToken? token = some slot) : ∃ name, isName name ∧ (∀ c ∈ name, c ∈ token.toList) ∧
      (slot = referringTo (String.ofList name) ∨
        ∃ kind, slot = capturing (String.ofList name) kind) := by
  unfold ofToken? at found
  split at found
  · rename_i name spelled
    split at found
    · rename_i isName
      cases found
      refine ⟨name, isName, fun c inside => ?_, .inl rfl⟩
      rw [spelled]
      exact List.mem_cons_of_mem _ (List.mem_cons_of_mem _ inside)
    · contradiction
  · rename_i body spelled
    obtain ⟨⟨name, kind⟩, parts, found⟩ := Option.bind_eq_some_iff.mp found
    dsimp only at found
    split at found
    · rename_i isName
      cases found
      refine ⟨name, isName, fun c inside => ?_, .inr ⟨kind, rfl⟩⟩
      rw [spelled]
      exact List.mem_cons_of_mem _ (mem_of_parts? parts c inside)
    · contradiction
  · contradiction

private theorem ofToken?_render_capturing {name : List Char} (isName : isName name)
    (kind : HoleKind) : ofToken? (capturing (String.ofList name) kind).render =
      some (capturing (String.ofList name) kind) := by
  rw [ofToken?, toList_render_capturing, List.cons_append]
  simp [parts?_mark isName, isName]

private theorem ofToken?_render_referringTo {name : List Char} (isName : isName name) :
    ofToken? (referringTo (String.ofList name)).render =
      some (referringTo (String.ofList name)) := by
  rw [ofToken?, toList_render_referringTo]
  simp [isName]

private theorem all_isWordChar_mark (kind : HoleKind) : (mark kind).all isWordChar := by
  cases kind <;> decide +kernel

private theorem printed_of_ofToken? {token : String} (legible : (Atom.ident token).Legible)
    {slot : Hole} (found : ofToken? token = some slot) :
    (Atom.ident slot.render).Legible ∧ isToken slot.render ∧
      ofToken? slot.render = some slot := by
  obtain ⟨name, isName, inside, made⟩ := exists_of_ofToken? found
  have inWord : ∀ c ∈ name, isWordChar c := fun c here =>
    (Atom.legible_ident_iff.mp legible).1.2 c (inside c here)
  obtain rfl | ⟨kind, rfl⟩ := made
  · have spelled := toList_render_referringTo name
    have isWord : IsWord ('=' :: '?' :: name) := ⟨List.cons_ne_nil _ _,
      List.forall_mem_cons.mpr ⟨by decide +kernel,
        List.forall_mem_cons.mpr ⟨by decide +kernel, inWord⟩⟩⟩
    refine ⟨?_, ?_, ofToken?_render_referringTo isName⟩
    · rw [← String.ofList_toList (s := (referringTo (String.ofList name)).render), spelled]
      exact Atom.legible_ident_of_head isWord (by decide) (by decide)
    · simp [isToken, spelled]
  · have spelled := toList_render_capturing name kind
    rw [List.cons_append] at spelled
    have isWord : IsWord ('?' :: (name ++ mark kind)) := ⟨List.cons_ne_nil _ _,
      List.forall_mem_cons.mpr ⟨by decide +kernel,
        List.forall_mem_append.mpr ⟨inWord, List.all_eq_true.mp (all_isWordChar_mark kind)⟩⟩⟩
    refine ⟨?_, ?_, ofToken?_render_capturing isName kind⟩
    · rw [← String.ofList_toList (s := (capturing (String.ofList name) kind).render), spelled]
      exact Atom.legible_ident_of_head isWord (by decide) (by decide)
    · simp [isToken, spelled]

end Hole

namespace Term

/-- The form a term is printed in. -/
def form : Term → Form
  | .leaf kind text => .atom (Atom.ofLeaf kind text)
  | .branch kind children => .list (.word kind :: children.map form)
  | .hole slot => .word slot.render

mutual

private theorem toList_render : (term : Term) → term.render.toList = term.form.write
  | .leaf kind text => by rw [render, form, Form.write, Atom.write_ofLeaf]
  | .branch kind children => by
    simp [render, form, Form.write, Atom.write, toString, toList_renderAll children]
  | .hole slot => by rw [render, form, Form.write, Atom.write]

private theorem toList_renderAll : (terms : List Term) →
    (renderAll terms).toList = (terms.map form).flatMap fun item => ' ' :: item.write
  | [] => rfl
  | term :: rest => by
    simp [renderAll, toString, toList_render term, toList_renderAll rest]

end

theorem ofSexps_eq_mapM (sexps : List Sexp) : ofSexps sexps = sexps.mapM ofSexp := by
  induction sexps with
  | nil => rfl
  | cons sexp sexps ih =>
    rw [ofSexps, List.mapM_cons, ih]
    rfl

theorem ofAtom_ok {span : Span} {atom : Atom} {term : Term} (read : ofAtom span atom = .ok term) :
    (term = .leaf atom.kind atom.text ∧ ∀ other, ofAtom other atom = .ok term) ∨
      ∃ token slot, atom = .ident token ∧ Hole.ofToken? token = some slot ∧ term = .hole slot := by
  cases atom with
  | ident token =>
    simp only [ofAtom] at read ⊢
    split at read
    · split at read
      · rename_i slot found
        cases read
        exact .inr ⟨token, slot, rfl, found, rfl⟩
      · contradiction
    · rename_i notToken
      cases read
      refine .inl ⟨rfl, fun other => if_neg notToken⟩
  | int text | float text | string text =>
    cases read
    exact .inl ⟨rfl, fun _ => rfl⟩

private theorem respells_atom (atom : Atom) (span : Span) :
    Respells ofSexp form (.atom atom span) := by
  intro term read legible
  rw [Sexp.form_atom] at legible
  rw [ofSexp] at read
  obtain ⟨rfl, reread⟩ | ⟨token, slot, rfl, found, rfl⟩ := ofAtom_ok read
  · have same : form (.leaf atom.kind atom.text) = .atom atom := by
      rw [form, Atom.ofLeaf_kind]
    refine ⟨same ▸ legible, fun sexp here => ?_⟩
    obtain ⟨other, rfl⟩ := Sexp.exists_of_form_atom (here.trans same)
    rw [ofSexp]
    exact reread other
  · obtain ⟨printed, isToken, reread⟩ :=
      Hole.printed_of_ofToken? (Form.legible_atom.mp legible) found
    have same : form (.hole slot) = .word slot.render := by
      rw [form]
    refine ⟨same ▸ .atom printed, fun sexp here => ?_⟩
    obtain ⟨other, rfl⟩ := Sexp.exists_of_form_atom (here.trans same)
    rw [ofSexp, ofAtom, isToken, reread]
    rfl

private theorem respells : (sexp : Sexp) → Respells ofSexp form sexp
  | .atom atom span => respells_atom atom span
  | .list [] span => by
    intro term read
    rw [ofSexp] at read
    contradiction
  | .list (head :: items) span => by
    intro term read legible
    rw [ofSexp] at read
    obtain ⟨kind, named, read⟩ := exists_of_bind_ok read
    split_ifs at read with isType isWindow
    obtain ⟨children, succeeded, made⟩ := exists_of_bind_ok read
    cases made
    rw [ofSexps_eq_mapM] at succeeded
    rw [Sexp.form_list, List.map_cons] at legible
    obtain ⟨head_legible, items_legible⟩ := Form.legible_cons.mp legible
    have spelled := spells_of_mapM (fun sexp _ => respells sexp) succeeded
      (fun sexp inside => items_legible _ (List.mem_map_of_mem inside))
    have named_so := Sexp.expectIdent_ok_iff.mp named
    have same : form (.branch kind children) =
        .list (.word kind :: children.map form) := by
      rw [form]
    refine ⟨?_, fun sexp here => ?_⟩
    · rw [same]
      exact Form.legible_cons.mpr ⟨named_so ▸ head_legible, legible_of_spells spelled⟩
    · obtain ⟨head', items', other, rfl, head_same, items_same⟩ :=
        Sexp.exists_of_form_cons (here.trans same)
      rw [ofSexp, Sexp.expectIdent_ok_iff.mpr head_same, ofSexps_eq_mapM,
        mapM_of_spells spelled items_same]
      simp [bind, Except.bind, isType, isWindow]

end Term

namespace Shape

def form : Shape → Form
  | .node term => term.form
  | .window terms => .list (.word windowHead :: terms.map Term.form)

theorem toList_render (shape : Shape) : shape.render.toList = shape.form.write := by
  cases shape with
  | node term => exact term.toList_render
  | window terms =>
    simp [render, form, Form.write, Atom.write, toString, Term.toList_renderAll]

private theorem ofSexp_of_term {sexp : Sexp} {term : Term} (read : Term.ofSexp sexp = .ok term) :
    ofSexp sexp = .ok (.node term) := by
  unfold ofSexp
  split
  · rename_i head items span
    split
    · rename_i windowed
      rw [Term.ofSexp, Sexp.expectIdent, windowed] at read
      contradiction
    · rw [read]
      rfl
  · rw [read]
    rfl

theorem respells (sexp : Sexp) : Respells ofSexp form sexp := by
  intro shape read legible
  unfold ofSexp at read
  have as_term {term : Term} (read : Term.ofSexp sexp = .ok term) :
      Spells ofSexp (form (.node term)) (.node term) := by
    have spelled := Term.respells sexp term read legible
    exact ⟨spelled.legible, fun other same => ofSexp_of_term (spelled.read_eq other same)⟩
  split at read
  · rename_i head items span
    split at read
    · rename_i windowed
      obtain ⟨terms, succeeded, rfl⟩ := exists_of_map_ok read
      rw [Term.ofSexps_eq_mapM] at succeeded
      rw [Sexp.form_list, List.map_cons] at legible
      obtain ⟨head_legible, items_legible⟩ := Form.legible_cons.mp legible
      have spelled := spells_of_mapM (fun sexp _ => Term.respells sexp) succeeded
        (fun sexp inside => items_legible _ (List.mem_map_of_mem inside))
      rw [Sexp.ident?_eq_some_iff.mp windowed] at head_legible
      refine ⟨?_, fun other same => ?_⟩
      · exact Form.legible_cons.mpr ⟨head_legible, legible_of_spells spelled⟩
      · obtain ⟨head', items', other, rfl, head_same, items_same⟩ :=
          Sexp.exists_of_form_cons same
        simp only [ofSexp, Sexp.ident?_eq_some_iff.mpr head_same, if_true,
          Term.ofSexps_eq_mapM, mapM_of_spells spelled items_same]
        rfl
    · obtain ⟨term, succeeded, rfl⟩ := exists_of_map_ok read
      exact as_term succeeded
  · obtain ⟨term, succeeded, rfl⟩ := exists_of_map_ok read
    exact as_term succeeded

end Shape

end Codemod
