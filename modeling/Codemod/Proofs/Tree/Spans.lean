import Codemod.Proofs.Sexp.Spans
import Codemod.Proofs.Tree.Printed
import Codemod.Proofs.Tree.Resemblance

/-!
# Spans of trees

Every tree of a tree that is read has the span of an s-expression it is read from. Read by itself,
what the span marks gives an equal tree.
-/

namespace Codemod

namespace Tree

private theorem same_withType (tree : Tree) (type : String) :
    tree.same (tree.withType type) = true :=
  (same_iff _ _).mpr ⟨rfl, rfl, sameAll_refl _⟩

private theorem exists_sameAll_of_forms {items : List Sexp}
    (each : ∀ item ∈ items, ∀ tree, ofSexp item = .ok tree → ∀ other : Sexp,
      other.form = item.form → ∃ twin, ofSexp other = .ok twin ∧ twin.same tree = true)
    {others : List Sexp} (same : others.map Sexp.form = items.map Sexp.form) {trees : List Tree}
    (made : items.mapM ofSexp = .ok trees) :
    ∃ twins, others.mapM ofSexp = .ok twins ∧ sameAll twins trees = true := by
  induction items generalizing others trees with
  | nil =>
    obtain rfl := List.map_eq_nil_iff.mp same
    cases made
    exact ⟨[], rfl, rfl⟩
  | cons item items ih =>
    obtain ⟨other, others, rfl, here, later⟩ := List.map_eq_cons_iff.mp same
    obtain ⟨tree, trees, first, rest, rfl⟩ := mapM_cons_ok_iff.mp made
    obtain ⟨eachHere, eachLater⟩ := List.forall_mem_cons.mp each
    obtain ⟨twin, twin_read, twin_same⟩ := eachHere tree first other here
    obtain ⟨twins, twins_read, twins_same⟩ := ih eachLater later rest
    refine ⟨twin :: twins, mapM_cons_ok_iff.mpr ⟨twin, twins, twin_read, twins_read, rfl⟩, ?_⟩
    rw [sameAll_cons, twin_same, twins_same]
    rfl

private theorem exists_same_of_form (sexp : Sexp) : ∀ tree, ofSexp sexp = .ok tree → ∀ other : Sexp,
    other.form = sexp.form → ∃ twin, ofSexp other = .ok twin ∧ twin.same tree = true := by
  induction sexp using Sexp.itemwise with
  | atom value span =>
    intro tree read other same
    rw [Sexp.form_atom] at same
    obtain ⟨place, rfl⟩ := Sexp.exists_of_form_atom same
    rw [ofSexp] at read ⊢
    cases read
    exact ⟨_, rfl, (same_iff _ _).mpr ⟨rfl, rfl, rfl⟩⟩
  | list items span ih =>
    intro tree read other same
    cases items with
    | nil =>
      rw [ofSexp] at read
      contradiction
    | cons head items =>
      rw [Sexp.form_list, List.map_cons] at same
      obtain ⟨first, others, place, rfl, first_same, others_same⟩ := Sexp.exists_of_form_cons same
      rcases ofSexp_cons_ok_iff.mp read with
        ⟨expr, type, untyped, name, rfl, headed, made, typed, rfl⟩ |
        ⟨kind, children, headed, plain, made, rfl⟩
      · obtain ⟨inner, others, rfl, inner_same, others_same⟩ := List.map_eq_cons_iff.mp others_same
        obtain ⟨written, others, rfl, named, rest⟩ := List.map_eq_cons_iff.mp others_same
        obtain rfl := List.map_eq_nil_iff.mp rest
        obtain ⟨twin, twin_read, twin_same⟩ := ih expr (by simp) untyped made inner inner_same
        refine ⟨twin.withType name, ofSexp_cons_ok_iff.mpr (.inl ⟨inner, written, twin, name, rfl,
          first_same.trans headed, twin_read, named.trans typed, rfl⟩), ?_⟩
        have retyped := same_trans (same_symm (same_withType twin name)) twin_same
        exact same_trans retyped (same_withType untyped name)
      · obtain ⟨twins, twins_read, twins_same⟩ := exists_sameAll_of_forms
          (fun item member => ih item (List.mem_cons_of_mem head member)) others_same made
        refine ⟨_, ofSexp_cons_ok_iff.mpr (.inr ⟨kind, twins, first_same.trans headed, plain,
          twins_read, rfl⟩), ?_⟩
        exact (same_iff _ _).mpr ⟨rfl, rfl, twins_same⟩

/-- A part of an s-expression has the span of a tree and is read as an equal tree. -/
def StandsFor (sexp : Sexp) (node : Tree) : Prop :=
  ∃ part : Sexp, part.Within sexp ∧ part.span = node.span ∧
    ∃ twin, ofSexp part = .ok twin ∧ twin.same node = true

private theorem StandsFor.item {items : List Sexp} {item : Sexp} {span : Span} {node : Tree}
    (stands : StandsFor item node) (member : item ∈ items) : StandsFor (.list items span) node := by
  obtain ⟨part, within, found⟩ := stands
  exact ⟨part, .item member within, found⟩

theorem standsFor_of_ofSexp (sexp : Sexp) : ∀ tree, ofSexp sexp = .ok tree →
    ∀ node ∈ tree.preorder, StandsFor sexp node := by
  induction sexp using Sexp.itemwise with
  | atom value span =>
    intro tree read node inside
    have made := read
    rw [ofSexp] at read
    cases read
    obtain rfl := List.mem_singleton.mp inside
    exact ⟨_, .self, rfl, _, made, same_refl _⟩
  | list items span ih =>
    intro tree read node inside
    cases items with
    | nil =>
      rw [ofSexp] at read
      contradiction
    | cons head items =>
      rcases ofSexp_cons_ok_iff.mp read with
        ⟨expr, type, untyped, name, rfl, headed, made, typed, rfl⟩ |
        ⟨kind, children, headed, plain, made, rfl⟩
      · have below := ih expr (by simp) untyped made
        rcases mem_preorder.mp inside with rfl | inner
        · obtain ⟨part, within, span_eq, twin, twin_read, twin_same⟩ :=
            below untyped (mem_preorder.mpr (.inl rfl))
          exact ⟨part, .item (by simp) within, span_eq, twin, twin_read,
            same_trans twin_same (same_withType untyped name)⟩
        · exact (below node (mem_preorder.mpr (.inr inner))).item (by simp)
      · rcases mem_preorder.mp inside with rfl | ⟨child, member, inner⟩
        · exact ⟨_, .self, rfl, _, read, same_refl _⟩
        · have below : ∀ item ∈ items, ∀ child, ofSexp item = .ok child →
              ∀ node ∈ child.preorder, StandsFor (.list (head :: items) span) node := by
            intro item member child made node inside
            have listed := List.mem_cons_of_mem head member
            exact (ih item listed child made node inside).item listed
          exact forall_of_mapM_ok below made child member node inner

/-- A tree that is read is read again from what the span of any tree in it marks. -/
theorem exists_read_of_span {source : Source} {tree node : Tree}
    (read : Tree.read source = .ok tree) (inside : node ∈ tree.preorder) (id : Nat)
    (name : Option String) :
    ∃ twin, Tree.read ⟨id, name, node.span.text⟩ = .ok twin ∧ twin.same node = true := by
  obtain ⟨sexp, first, made⟩ := exists_of_bind_ok read
  obtain ⟨part, within, span_eq, whole, whole_read, whole_same⟩ :=
    standsFor_of_ofSexp sexp tree made node inside
  have delimited := Sexp.delimited_of_readAll (Sexp.readOne_ok_iff.mp first)
    (List.mem_singleton_self sexp) within
  obtain ⟨alone, alone_read, placed⟩ := delimited.alone id name
  have form_eq : alone.form = part.form := by
    rw [← placed, Sexp.form_placed]
  obtain ⟨twin, twin_read, twin_same⟩ := exists_same_of_form part whole whole_read alone form_eq
  refine ⟨twin, ?_, same_trans twin_same whole_same⟩
  rw [← span_eq, Tree.read, Sexp.readOne_ok_iff.mpr alone_read]
  exact twin_read

end Tree

/-- Each span delimits its own source: between boundaries of characters it marks what is read, by
itself, as the s-expression or the tree that has the span. -/
theorem spans_delimit_source :
    (∀ source sexps, Sexp.readAll source = .ok sexps → ∀ sexp ∈ sexps, ∀ part : Sexp,
      part.Within sexp → part.Delimited source) ∧
    ∀ source tree, Tree.read source = .ok tree → ∀ node ∈ tree.preorder, ∀ id,
      ∃ twin, Tree.read ⟨id, none, node.span.text⟩ = .ok twin ∧ twin.same node = true :=
  ⟨fun _ _ read _ member _ within => Sexp.delimited_of_readAll read member within,
    fun _ _ read _ inside id => Tree.exists_read_of_span read inside id none⟩

/-- A call whose operand takes up more bytes than characters, with a comment behind. -/
def accentedCall : Source := ⟨0, none, "(f \"é\") ; é"⟩

theorem accentedCall_delimited :
    ∃ sexp tree, Sexp.readAll accentedCall = .ok [sexp] ∧ sexp.Delimited accentedCall ∧
      Tree.read accentedCall = .ok tree ∧
      ∃ twin, Tree.read ⟨1, none, tree.span.text⟩ = .ok twin ∧ twin.same tree = true := by
  have accepted : (Tree.read accentedCall).toBool = true := by decide +kernel
  cases read : Tree.read accentedCall with
  | error error =>
    rw [read] at accepted
    contradiction
  | ok tree =>
    obtain ⟨sexp, first, _⟩ := exists_of_bind_ok read
    have all := Sexp.readOne_ok_iff.mp first
    have delimited := spans_delimit_source.1 accentedCall [sexp] all sexp List.mem_cons_self sexp
      .self
    have again := spans_delimit_source.2 accentedCall tree read tree
      (Tree.mem_preorder.mpr (.inl rfl)) 1
    exact ⟨sexp, tree, all, delimited, rfl, again⟩

end Codemod
