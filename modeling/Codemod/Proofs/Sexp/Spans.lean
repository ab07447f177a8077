import Codemod.Proofs.Sexp.Grammar

/-!
# Spans of what is read

The span of an s-expression marks its own characters and no others. Read by themselves they give the
s-expression again, with the offsets counted from its start.
-/

namespace Codemod

open Text

/-- The span runs over some characters of its source, between those ahead and those behind. -/
structure Span.Marks (span : Span) (front quoted back : List Char) : Prop where
  splits : span.source.text.toList = front ++ (quoted ++ back)
  start_eq : span.start = byteLength front
  stop_eq : span.stop = byteLength front + byteLength quoted

namespace Span.Marks

variable {span : Span} {front quoted back : List Char}

theorem text_eq (marks : span.Marks front quoted back) : span.text = String.ofList quoted := by
  rw [text, marks.splits, marks.start_eq, marks.stop_eq, slice_append]

theorem start_lt_stop (marks : span.Marks front quoted back) (some : quoted ≠ []) :
    span.start < span.stop := by
  have pos := byteLength_pos some
  rw [marks.start_eq, marks.stop_eq]
  omega

private theorem stop_le (marks : span.Marks front quoted back) :
    span.stop ≤ span.source.text.utf8ByteSize := by
  rw [← byteLength_toList, marks.splits, marks.stop_eq, byteLength_append, byteLength_append]
  omega

private theorem isValid_start (marks : span.Marks front quoted back) :
    String.Pos.Raw.IsValid span.source.text ⟨span.start⟩ := by
  rw [marks.start_eq]
  exact isValid_byteLength marks.splits

private theorem isValid_stop (marks : span.Marks front quoted back) :
    String.Pos.Raw.IsValid span.source.text ⟨span.stop⟩ := by
  rw [marks.stop_eq, ← byteLength_append]
  exact isValid_byteLength (marks.splits.trans (List.append_assoc _ _ _).symm)

end Span.Marks

namespace Sexp

/-- The items of a list; an atom has none. -/
def items : Sexp → List Sexp
  | .atom _ _ => []
  | .list items _ => items

/-- The span of an s-expression delimits it in its source. -/
structure Delimited (source : Source) (sexp : Sexp) : Prop where
  source_eq : sexp.span.source = source
  start_lt_stop : sexp.span.start < sexp.span.stop
  stop_le : sexp.span.stop ≤ source.text.utf8ByteSize
  isValid_start : String.Pos.Raw.IsValid source.text ⟨sexp.span.start⟩
  isValid_stop : String.Pos.Raw.IsValid source.text ⟨sexp.span.stop⟩
  inside : ∀ item ∈ sexp.items, sexp.span.start < item.span.start ∧ item.span.stop < sexp.span.stop
  ascending : sexp.items.Pairwise fun a b => a.span.stop ≤ b.span.start
  /-- What the span marks is read as this s-expression and nothing else. -/
  alone : ∀ id name, ∃ twin, readAll ⟨id, name, sexp.span.text⟩ = .ok [twin] ∧
    twin.placed source sexp.span.start = sexp

end Sexp

namespace StandsAlone

variable {source : Source} {offset : Nat} {sexp : Sexp} {body : List Char}

theorem source_eq (alone : StandsAlone source offset sexp body) : sexp.span.source = source := by
  rw [alone.span_eq]

private theorem inside (alone : StandsAlone source offset sexp body) : ∀ item ∈ sexp.items,
    sexp.span.start < item.span.start ∧ item.span.stop < sexp.span.stop := by
  intro item member
  cases sexp with
  | atom value span => contradiction
  | list items span =>
    obtain ⟨opening, inner, behind, rfl, someOpening, someBehind, stands⟩ := alone.items
    have bounds := stands.within item member
    have opens := byteLength_pos someOpening
    have closes := byteLength_pos someBehind
    rw [alone.span_eq]
    simp only [byteLength_append]
    omega

private theorem ascending (alone : StandsAlone source offset sexp body) :
    sexp.items.Pairwise fun a b => a.span.stop ≤ b.span.start := by
  cases sexp with
  | atom value span => exact .nil
  | list items span =>
    obtain ⟨_, _, _, _, _, _, stands⟩ := alone.items
    exact stands.ascending

/-- The characters of an s-expression are read as this s-expression. -/
theorem exists_twin (alone : StandsAlone source offset sexp body) (id : Nat)
    (name : Option String) : ∃ twin, Sexp.readAll ⟨id, name, String.ofList body⟩ = .ok [twin] ∧
      twin.placed source offset = sexp := by
  have stands := alone.stands
  rw [← Nat.zero_add offset] at stands
  obtain ⟨twins, moved, same⟩ := stands.exists_moved ⟨id, name, String.ofList body⟩
  obtain ⟨twin, others, rfl, here, rest⟩ := List.map_eq_cons_iff.mp same
  obtain rfl := List.map_eq_nil_iff.mp rest
  refine ⟨twin, moved.readAll (.layout .nil) ?_, here⟩
  rw [String.toList_ofList, List.append_nil]

end StandsAlone

namespace Sexp

theorem form_placed (source : Source) (distance : Nat) (sexp : Sexp) :
    (sexp.placed source distance).form = sexp.form := by
  induction sexp using itemwise with
  | atom value span => rw [placed_atom, form, form]
  | list items span ih =>
    rw [placed_list, form, form, List.map_map, Form.list.injEq]
    exact List.map_congr_left ih

/-- Whatever occurs in an s-expression of a text stands somewhere in the text, and its span marks
just its own characters. -/
theorem exists_marks {source : Source} {sexps : List Sexp} (read : readAll source = .ok sexps)
    {sexp part : Sexp} (member : sexp ∈ sexps) (within : part.Within sexp) :
    ∃ front quoted back, part.span.Marks front quoted back ∧
      StandsAlone source (byteLength front) part quoted := by
  obtain ⟨body, gap, whole, stands⟩ := exists_stands_of_readAll read
  obtain ⟨front, quoted, back, rfl, alone⟩ := stands.standsIn_of_within member within
  rw [Nat.zero_add] at alone
  refine ⟨front, quoted, back ++ gap, ⟨?_, ?_, ?_⟩, alone⟩ <;> rw [alone.span_eq]
  rw [whole, List.append_assoc, List.append_assoc]

theorem delimited_of_readAll {source : Source} {sexps : List Sexp}
    (read : readAll source = .ok sexps) {sexp part : Sexp} (member : sexp ∈ sexps)
    (within : part.Within sexp) : part.Delimited source := by
  obtain ⟨front, quoted, back, marks, alone⟩ := exists_marks read member within
  have source_eq := alone.source_eq
  refine ⟨source_eq, marks.start_lt_stop alone.some, source_eq ▸ marks.stop_le,
    source_eq ▸ marks.isValid_start, source_eq ▸ marks.isValid_stop, alone.inside, alone.ascending,
    fun id name => ?_⟩
  rw [marks.text_eq, marks.start_eq]
  exact alone.exists_twin id name

end Sexp

end Codemod
