import Mathlib.Data.List.Forall2

/-!
# Related results

Computations on related values come to related results: step by step where they may fail, and item
by item on lists.
-/

namespace Codemod

variable {α β γ δ ε : Type}

theorem forall₂_eq_iff {items others : List α} :
    List.Forall₂ Eq items others ↔ items = others :=
  iff_of_eq (congrFun (congrFun List.forall₂_eq_eq_eq items) others)

variable {related : α → β → Prop} {results : γ → δ → Prop}

theorem any_eq_of_forall₂ {items : List α} {others : List β}
    (each : List.Forall₂ related items others) {test : α → Bool} {look : β → Bool}
    (agree : ∀ item other, related item other → test item = look other) :
    items.any test = others.any look := by
  induction each with
  | nil => rfl
  | cons first _ ih => rw [List.any_cons, List.any_cons, agree _ _ first, ih]

theorem rel_getElem? {items : List α} {others : List β}
    (each : List.Forall₂ related items others) (index : Nat) :
    Option.Rel related items[index]? others[index]? := by
  induction each generalizing index with
  | nil => exact .none
  | cons first _ ih =>
    cases index with
    | zero => exact .some first
    | succ index => exact ih index

theorem rel_option_refl {related : α → α → Prop} (refl : ∀ value, related value value)
    (found : Option α) : Option.Rel related found found := by
  cases found with
  | none => exact .none
  | some value => exact .some (refl value)

theorem rel_option_map {found : Option α} {other : Option β} (rel : Option.Rel related found other)
    {change : α → γ} {look : β → δ}
    (agree : ∀ value twin, related value twin → results (change value) (look twin)) :
    Option.Rel results (found.map change) (other.map look) := by
  cases rel with
  | none => exact .none
  | some here => exact .some (agree _ _ here)

theorem rel_option_imp {relaxed : α → β → Prop} {found : Option α} {other : Option β}
    (rel : Option.Rel related found other)
    (imp : ∀ value twin, related value twin → relaxed value twin) :
    Option.Rel relaxed found other := by
  cases rel with
  | none => exact .none
  | some here => exact .some (imp _ _ here)

theorem rel_findSome? {attempt : ε → Option α} {look : ε → Option β}
    (agree : ∀ item, Option.Rel related (attempt item) (look item)) (items : List ε) :
    Option.Rel related (items.findSome? attempt) (items.findSome? look) := by
  induction items with
  | nil => exact .none
  | cons item rest ih =>
    rw [List.findSome?_cons, List.findSome?_cons]
    have first := agree item
    generalize attempt item = found at first ⊢
    generalize look item = other at first ⊢
    cases first with
    | none => exact ih
    | some here => exact .some here

/-- Two computations fail with the same error or come to related values. -/
inductive ExceptRel (related : α → β → Prop) : Except ε α → Except ε β → Prop where
  | error (error : ε) : ExceptRel related (.error error) (.error error)
  | ok {value : α} {other : β} (here : related value other) :
      ExceptRel related (.ok value) (.ok other)

theorem ExceptRel.bind {first : Except ε α} {image : Except ε β}
    (rel : ExceptRel related first image) {next : α → Except ε γ} {look : β → Except ε δ}
    (after : ∀ value other, related value other → ExceptRel results (next value) (look other)) :
    ExceptRel results (first >>= next) (image >>= look) := by
  cases rel with
  | error error => exact .error error
  | ok here => exact after _ _ here

end Codemod
