import Codemod.Guard.Reader
import Codemod.Proofs.Sexp.Spelling

/-!
# Printed guards

A guard that stands alone is printed in the form it is read from. Guards required one after another
are joined to one guard, which lists them in order.
-/

namespace Codemod

namespace Guard

/-- The form of a capture name. -/
def captureForm (name : String) : Form :=
  .word ("?" ++ name)

/-- The form of a guard that stands alone. -/
def form : Guard → Form
  | .minVersion version => .list [.word "min-version", .atom (.int (toString (version : Int)))]
  | .capability name => .list [.word "capability", .word name]
  | .receiverType type => .list [.word "receiver-type", .word type]
  | .captureType capture types =>
    .list (.word "capture-type" :: captureForm capture :: types.map .word)
  | .unreferenced name within =>
    .list (.word "unreferenced" :: captureForm name :: within.map captureForm)
  | .custom guard => .list [.word "custom", .word guard.name]
  | .all _ => .list []

/-- A guard that stands alone: no conjunction, and no choice among no types. -/
def Single : Guard → Prop
  | .all _ => False
  | .captureType _ types => types ≠ []
  | _ => True

private theorem intercalate_blank (first : List Char) (rest : List (List Char)) :
    [' '].intercalate (first :: rest) = first ++ rest.flatMap fun text => ' ' :: text := by
  induction rest generalizing first with
  | nil => simp
  | cons next rest ih => simp [List.intercalate_cons_cons, ih]

theorem toList_render {guard : Guard} (single : guard.Single) :
    guard.render.toList = guard.form.write := by
  cases guard with
  | minVersion version =>
    unfold render
    rw [form, Text.toString_natCast]
    simp [Form.write, Atom.write, toString]
  | capability name =>
    unfold render
    simp [form, Form.write, Atom.write, toString]
  | receiverType type =>
    unfold render
    simp [form, Form.write, Atom.write, toString]
  | captureType capture types =>
    obtain ⟨first, rest, rfl⟩ := List.exists_cons_of_ne_nil single
    unfold render
    simp [form, captureForm, Form.write, Atom.write, toString, intercalate_blank, List.flatMap_map]
  | unreferenced name within =>
    unfold render
    simp [form, captureForm, Form.write, Atom.write, toString, List.flatMap_map]
  | custom guard =>
    unfold render
    simp [form, Form.write, Atom.write, toString]
  | all guards => exact single.elim

private theorem captureName_ok_iff {sexp : Sexp} {name : String} :
    captureName sexp = .ok name ↔ name ≠ "" ∧ sexp.form = captureForm name := by
  constructor
  · intro read
    obtain ⟨token, isIdent, read⟩ := exists_of_bind_ok read
    have written := Sexp.expectIdent_ok_iff.mp isIdent
    split at read
    · rename_i c rest spelled
      cases read
      refine ⟨by simp, ?_⟩
      rw [written, captureForm, ← String.ofList_toList (s := token), spelled, String.ofList_cons]
      rfl
    · contradiction
  · rintro ⟨nonempty, written⟩
    obtain ⟨c, rest, spelled⟩ :=
      List.exists_cons_of_ne_nil (mt String.toList_eq_nil_iff.mp nonempty)
    have token : ("?" ++ name).toList = '?' :: c :: rest := by
      rw [String.toList_append, spelled]
      rfl
    rw [captureName, Sexp.expectIdent_ok_iff.mpr written]
    simp only [bind, Except.bind, token]
    rw [← spelled, String.ofList_toList]

private theorem respells_capture (sexp : Sexp) : Respells captureName captureForm sexp := by
  intro name read legible
  obtain ⟨nonempty, same⟩ := captureName_ok_iff.mp read
  exact ⟨same ▸ legible, fun other here => captureName_ok_iff.mpr ⟨nonempty, here⟩⟩

variable {customGuards : Assoc String CustomGuard}

/-- Custom guards go by their own names. -/
def Registered (customGuards : Assoc String CustomGuard) : Prop :=
  ∀ name guard, customGuards.find? name = some guard → guard.name = name

private theorem exists_ofForm {sexp : Sexp} {guard : Guard}
    (read : ofSexp customGuards sexp = .ok guard) :
    ∃ head items span, sexp.form = .list (.word head :: items.map Sexp.form) ∧
      ofForm customGuards span head items = .ok guard := by
  obtain ⟨all, listed, read⟩ := exists_of_bind_ok read
  obtain ⟨span, rfl⟩ := Sexp.expectList_ok_iff.mp listed
  cases all with
  | nil => contradiction
  | cons first items =>
    obtain ⟨head, named, read⟩ := exists_of_bind_ok read
    refine ⟨head, items, span, ?_, read⟩
    rw [Sexp.form_list, List.map_cons, Sexp.expectIdent_ok_iff.mp named]

private theorem ofSexp_of_form {sexp : Sexp} {head : String} {forms : List Form}
    (same : sexp.form = .list (.word head :: forms)) :
    ∃ items span, items.map Sexp.form = forms ∧
      ofSexp customGuards sexp = ofForm customGuards span head items := by
  obtain ⟨first, items, span, rfl, named, rest⟩ := Sexp.exists_of_form_cons same
  refine ⟨items, span, rest, ?_⟩
  simp [ofSexp, Sexp.expectList, Sexp.expectIdent_ok_iff.mpr named, bind, Except.bind, Sexp.span]

private theorem spells_of_ofForm {head : String} {forms : List Form} {guard : Guard}
    (head_legible : (Form.word head).Legible) (forms_legible : ∀ form ∈ forms, form.Legible)
    (reads : ∀ items span, items.map Sexp.form = forms →
      ofForm customGuards span head items = .ok guard) :
    Spells (ofSexp customGuards) (.list (.word head :: forms)) guard := by
  refine ⟨Form.legible_cons.mpr ⟨head_legible, forms_legible⟩, fun sexp same => ?_⟩
  obtain ⟨items, span, rest, read⟩ := ofSexp_of_form same
  rw [read]
  exact reads items span rest

private theorem spells_argument {head : String} {argument : Form} {guard : Guard}
    (head_legible : (Form.word head).Legible) (legible : argument.Legible)
    (reads : ∀ span other, other.form = argument →
      ofForm customGuards span head [other] = .ok guard) :
    Spells (ofSexp customGuards) (.list [.word head, argument]) guard := by
  refine spells_of_ofForm head_legible (by simpa using legible) ?_
  intro items span same
  obtain ⟨other, rfl, here⟩ := List.map_eq_singleton_iff.mp same
  exact reads span other here

private theorem spells_name {head : String} {make : String → Guard} {name : Sexp} {guard : Guard}
    (takes : ∀ span other, ofForm customGuards span head [other] = make <$> other.expectIdent)
    (read : make <$> name.expectIdent = .ok guard) (head_legible : (Form.word head).Legible)
    (legible : name.form.Legible) :
    ∃ text, guard = make text ∧
      Spells (ofSexp customGuards) (.list [.word head, .word text]) guard := by
  obtain ⟨text, named, rfl⟩ := exists_of_map_ok read
  have spelled := Sexp.respells_ident name text named legible
  refine ⟨text, rfl, spells_argument head_legible spelled.legible ?_⟩
  intro span other here
  rw [takes, spelled.read_eq other here]
  rfl

private theorem spells_capture {readItem : Sexp → Except ReadError String} {spell : String → Form}
    (respells : ∀ sexp, Respells readItem spell sexp) {head : String}
    {make : String → List String → Guard} {capture first : Sexp} {rest : List Sexp} {guard : Guard}
    (takes : ∀ span capture first rest,
      ofForm customGuards span head (capture :: first :: rest) = do
        let name ← captureName capture
        let items ← (first :: rest).mapM readItem
        .ok (make name items))
    (read : (do
      let name ← captureName capture
      let items ← (first :: rest).mapM readItem
      .ok (make name items)) = Except.ok guard)
    (head_legible : (Form.word head).Legible)
    (legible : ∀ sexp ∈ capture :: first :: rest, sexp.form.Legible) :
    ∃ name items, guard = make name items ∧ items ≠ [] ∧
      Spells (ofSexp customGuards) (.list (.word head :: captureForm name :: items.map spell))
        guard := by
  obtain ⟨name, captured, read⟩ := exists_of_bind_ok read
  obtain ⟨items, succeeded, made⟩ := exists_of_bind_ok read
  cases made
  obtain ⟨capture_legible, legible⟩ := List.forall_mem_cons.mp legible
  have spelled_capture := respells_capture capture name captured capture_legible
  have spelled := spells_of_mapM (fun sexp _ => respells sexp) succeeded legible
  obtain ⟨value, values, -, -, rfl⟩ := mapM_cons_ok_iff.mp succeeded
  refine ⟨name, value :: values, rfl, List.cons_ne_nil _ _, spells_of_ofForm head_legible ?_ ?_⟩
  · exact List.forall_mem_cons.mpr ⟨spelled_capture.legible, legible_of_spells spelled⟩
  · intro all other same
    obtain ⟨capture', others, rfl, capture_same, same⟩ := List.map_eq_cons_iff.mp same
    have reread := mapM_of_spells spelled same
    obtain ⟨first', rest', rfl, -, -⟩ := List.map_eq_cons_iff.mp same
    rw [takes, spelled_capture.read_eq capture' capture_same, reread]
    rfl

private theorem versionOfSexp_of_int {sexp : Sexp} {value : Int}
    (found : sexp.expectInt = .ok value) (bounds : 0 ≤ value ∧ value < Text.wordCount) :
    versionOfSexp sexp = .ok (.minVersion value.toNat) := by
  rw [versionOfSexp, found]
  exact if_pos bounds

private theorem spells_version {sexp : Sexp} {guard : Guard}
    (read : versionOfSexp sexp = .ok guard) : ∃ version : Nat, guard = .minVersion version ∧
      Spells versionOfSexp (.atom (.int (toString (version : Int)))) guard := by
  obtain ⟨value, found, read⟩ := exists_of_bind_ok read
  split at read
  · rename_i bounds
    cases read
    obtain ⟨version, rfl⟩ := Int.eq_ofNat_of_zero_le bounds.1
    have fits : (Text.wordCount : Int) ≤ Text.int64Bound := by decide
    have spelled := Sexp.spells_int (version : Int) (by omega) (by omega)
    exact ⟨version, rfl, spelled.legible, fun other same =>
      versionOfSexp_of_int (spelled.read_eq other same) bounds⟩
  · contradiction

/-- A guard that is read stands alone and can be spelled. -/
theorem printed_of_ofSexp (registered : Registered customGuards) {sexp : Sexp} {guard : Guard}
    (read : ofSexp customGuards sexp = .ok guard) (legible : sexp.form.Legible) :
    guard.Single ∧ Spells (ofSexp customGuards) guard.form guard := by
  obtain ⟨head, items, span, same, read⟩ := exists_ofForm read
  rw [same] at legible
  obtain ⟨head_legible, forms_legible⟩ := Form.legible_cons.mp legible
  have items_legible : ∀ item ∈ items, item.form.Legible := fun item inside =>
    forms_legible _ (List.mem_map_of_mem inside)
  -- One case for each head that the reader knows, in its order, and one for every other head.
  unfold ofForm at read
  split at read
  · obtain ⟨version, rfl, spelled⟩ := spells_version read
    exact ⟨trivial, spells_argument head_legible spelled.legible fun _ => spelled.read_eq⟩
  · obtain ⟨text, rfl, spelled⟩ := spells_name (fun _ _ => rfl) read head_legible
      (items_legible _ List.mem_cons_self)
    exact ⟨trivial, spelled⟩
  · obtain ⟨text, rfl, spelled⟩ := spells_name (fun _ _ => rfl) read head_legible
      (items_legible _ List.mem_cons_self)
    exact ⟨trivial, spelled⟩
  · obtain ⟨name, types, rfl, nonempty, spelled⟩ :=
      spells_capture Sexp.respells_ident (fun _ _ _ _ => rfl) read head_legible items_legible
    exact ⟨nonempty, spelled⟩
  · obtain ⟨name, within, rfl, _, spelled⟩ :=
      spells_capture respells_capture (fun _ _ _ _ => rfl) read head_legible items_legible
    exact ⟨trivial, spelled⟩
  · rename_i written
    obtain ⟨name, named, read⟩ := exists_of_bind_ok read
    split at read
    · rename_i guard found
      cases read
      have spelled := Sexp.respells_ident written name named (items_legible _ List.mem_cons_self)
      rw [← registered name guard found] at spelled found
      refine ⟨trivial, spells_argument head_legible spelled.legible ?_⟩
      intro span other here
      rw [ofForm, spelled.read_eq other here]
      simp only [bind, Except.bind, found]
    · contradiction
  · contradiction

/-- The guard that requires several guards. -/
def joined : List Guard → Option Guard
  | [] => none
  | [guard] => some guard
  | guards => some (.all guards)

/-- The guards that a guard requires. -/
def listed : Option Guard → List Guard
  | some guard => guard.conjuncts
  | none => []

theorem conjoin_joined {guards : List Guard} (single : ∀ guard ∈ guards, guard.Single)
    (new : Guard) : some (conjoin (joined guards) new) = joined (guards ++ [new]) := by
  cases guards with
  | nil => rfl
  | cons first rest =>
    cases rest with
    | cons second rest => rfl
    | nil =>
      have alone := single first List.mem_cons_self
      cases first with
      | all guards => exact alone.elim
      | _ => rfl

theorem listed_joined {guards : List Guard} (single : ∀ guard ∈ guards, guard.Single) :
    listed (joined guards) = guards := by
  cases guards with
  | nil => rfl
  | cons first rest =>
    cases rest with
    | cons second rest => rfl
    | nil =>
      have alone := single first List.mem_cons_self
      cases first with
      | all guards => exact alone.elim
      | _ => rfl

end Guard

end Codemod
