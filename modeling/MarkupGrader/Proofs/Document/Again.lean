import MarkupGrader.Proofs.Document.View
import MarkupGrader.Proofs.Layout.Page

/-! A layout that is read again shows what the page shows: the same elements, with the same names and
attributes. Only text, comments and white space are put elsewhere. -/

namespace MarkupGrader.Markup

theorem Tag.views_squeeze (t : Tag) :
    t.squeeze.attributes.map Document.Attribute.view =
      t.attributes.map Document.Attribute.view := by
  have value (v : Value) : Text.squeeze v.squeeze.text = Text.squeeze v.text := by
    cases v with
    | bare t => rfl
    | quoted quote lead t => exact Document.squeeze_squeeze t
  have own (a : Attribute) :
      Document.Attribute.view ⟨a.squeeze.name.lower, a.squeeze.assigned.map (·.value.text)⟩ =
        Document.Attribute.view ⟨a.name.lower, a.assigned.map (·.value.text)⟩ := by
    obtain ⟨name, assigned⟩ := a
    cases assigned with
    | none => rfl
    | some b => exact congrArg (Prod.mk name.lower) (value b.value)
  have each : ∀ ps : List TagPart,
      ((ps.map TagPart.squeeze).filterMap TagPart.attribute?).map Document.Attribute.view =
        (ps.filterMap TagPart.attribute?).map Document.Attribute.view := by
    intro ps
    induction ps with
    | nil => rfl
    | cons p ps ih =>
      cases p with
      | filler f => exact ih
      | attr a => exact congrArg₂ List.cons (own a) ih
  exact each t.parts

namespace Item

mutual

theorem views_squeeze : ∀ i : Item, i.squeeze.views = i.views
  | leaf t => rfl
  | element tag content closing => by
    rw [squeeze, views, views, tag.views_squeeze, views_squeezeAll content]
    rfl

theorem views_squeezeAll : ∀ items : List Item, viewsAll (squeezeAll items) = viewsAll items
  | [] => rfl
  | i :: rest => by rw [squeezeAll, viewsAll, viewsAll, views_squeeze i, views_squeezeAll rest]

end

theorem views_of_isGap {i : Item} (gap : i.isGap = true) : i.views = [] := by
  cases i with
  | leaf t => rfl
  | element tag content closing => cases gap

theorem viewsAll_eq_nil {items : List Item} (none : ∀ i ∈ items, i.views = []) :
    viewsAll items = [] := by
  rw [viewsAll_eq_flatMap, List.flatMap_eq_nil_iff]
  exact none

theorem viewsAll_of_gaps {items : List Item} (gaps : items.all isGap = true) :
    viewsAll items = [] :=
  viewsAll_eq_nil fun i hi => views_of_isGap (List.all_eq_true.mp gaps i hi)

theorem views_of_isLeaf {i : Item} (leaf_ : i.isLeaf = true) : i.views = [] := by
  cases i with
  | leaf t => rfl
  | element tag content closing => cases leaf_

theorem views_loosen {i : Item} (regular : i.Regular) (inline : i.isInline = true) :
    viewsAll i.loosen = i.views := by
  induction regular with
  | leaf _ _ _ => rfl
  | raw _ _ _ _ _ _ =>
    rw [isInline, Bool.and_eq_true] at inline
    cases inline.2
  | @element tag content closing _ _ _ _ _ _ void ends ih =>
    rw [isInline, Bool.and_eq_true, allInline_eq_all, List.all_eq_true] at inline
    have inner : viewsAll (loosenAll content) = viewsAll content := by
      rw [viewsAll_eq_flatMap, loosenAll_eq_flatMap, List.flatMap_assoc, viewsAll_eq_flatMap]
      refine List.flatMap_congr fun i hi => ?_
      rw [← viewsAll_eq_flatMap]
      exact ih i hi (inline.2 i hi)
    cases ends with
    | @endTag e _ _ _ =>
      have loose : (element tag content (.endTag e)).loosen =
          [element tag (loosenAll content) (.endTag e)] := rfl
      rw [loose, viewsAll, viewsAll, List.append_nil, views, inner, views]
    | selfClosed _ none =>
      subst none
      rfl
    | implied _ may =>
      have leaves := void (isVoid_key (isVoid_of_inline inline.1 may))
      have none := viewsAll_eq_nil fun i hi => views_of_isLeaf (leaves i hi)
      rw [loosen, viewsAll, inner, none, List.append_nil, views, views, none]
      rfl

theorem views_copy {run : List Item} (regular : ∀ i ∈ run, i.Regular)
    (inline : allInline run = true) : viewsAll (copy run) = viewsAll run := by
  obtain ⟨front, back, whole, before, behind⟩ := exists_trimGaps (loosenAll run)
  have loose : viewsAll (loosenAll run) = viewsAll run := by
    rw [allInline_eq_all, List.all_eq_true] at inline
    rw [viewsAll_eq_flatMap, loosenAll_eq_flatMap, List.flatMap_assoc, viewsAll_eq_flatMap]
    refine List.flatMap_congr fun i hi => ?_
    rw [← viewsAll_eq_flatMap]
    exact views_loosen (regular i hi) (inline i hi)
  rw [whole, viewsAll_append, viewsAll_append, viewsAll_of_gaps before, viewsAll_of_gaps behind,
    List.nil_append, List.append_nil] at loose
  rw [copy, views_squeezeAll, loose]

variable {sep : Nat → Text}

theorem views_written {tag : Tag} {content body : List Item} {closing closing' : Closing}
    {depth : Nat} (same : viewsAll body = viewsAll content) :
    viewsAll [lineBreak sep depth, element tag.printed body closing'] =
      (element tag content closing).views := by
  rw [viewsAll, viewsAll, viewsAll, List.append_nil, views, same, tag.elementName_printed,
    tag.attributes_printed, views]
  rfl

theorem views_reprint {i : Item} (regular : i.Regular) :
    ∀ depth, viewsAll (i.reprint sep depth) = i.views := by
  induction regular with
  | leaf _ _ _ =>
    intro depth
    rw [reprint]
    split <;> rfl
  | @raw tag raw e own key _ _ _ _ =>
    intro depth
    rw [reprint, body_raw key]
    exact views_written rfl
  | @element tag content closing own _ regular reads _ _ void _ ih =>
    intro depth
    have none := soleRaw?_of_regular regular
    rw [reprint]
    cases kind : shape tag content with
    | bare =>
      have leaves := void (isVoid_key (isVoid_of_shape kind))
      rw [body_bare kind]
      exact views_written (viewsAll_eq_nil fun i hi => views_of_isLeaf (leaves i hi)).symm
    | empty =>
      rw [body_empty kind]
      exact views_written (viewsAll_of_gaps (all_isGap_of_shape kind)).symm
    | inline text =>
      obtain ⟨-, inline, -⟩ := inline_of_shape none kind
      rw [body_inline kind none]
      exact views_written (views_copy regular inline)
    | block =>
      rw [body_block kind none]
      refine views_written ?_
      have each : viewsAll ((rowsOf content).flatMap fun row =>
          (row.map (reprint sep (innerDepth tag depth))).reprinted sep (innerDepth tag depth)) =
          viewsAll ((rowsOf content).flatMap Row.items) := by
        rw [viewsAll_eq_flatMap, viewsAll_eq_flatMap, List.flatMap_assoc, List.flatMap_assoc]
        refine List.flatMap_congr fun row hrow => ?_
        rw [← viewsAll_eq_flatMap, ← viewsAll_eq_flatMap]
        have facts := regular_rows regular reads row hrow
        cases row with
        | alone i =>
          exact (ih i (mem_of_mem_rowsOf hrow (List.mem_singleton_self i)) _).trans
            (List.append_nil _).symm
        | shared run => exact views_copy facts.regular facts.inline
      rw [viewsAll_append, each, flatMap_items]
      exact List.append_nil _

theorem views_absorbAll (items : List Item) : viewsAll (absorbAll items) = viewsAll items := by
  refine absorbAll_eq (fun front tag content t back => ?_) items
  have inner : viewsAll (content ++ [leaf t]) = viewsAll content := by
    rw [viewsAll_append]
    exact List.append_nil _
  have same : (element tag (content ++ [leaf t]) .implied).views =
      (element tag content .implied).views := by
    rw [views, inner, views]
  rw [viewsAll_append, viewsAll_append, viewsAll, viewsAll, viewsAll, same]
  rfl

mutual

theorem views_settle : ∀ i : Item, i.settle.views = i.views
  | leaf t => rfl
  | element tag content closing => by
    rw [settle, views, views_absorbAll, views_settled content, views]

theorem views_settled : ∀ items : List Item, viewsAll (settled items) = viewsAll items
  | [] => rfl
  | i :: rest => by rw [settled, viewsAll, viewsAll, views_settle i, views_settled rest]

end

/-- A layout that is read again shows what the page shows. -/
theorem views_again {items tail : List Item} (regular : ∀ i ∈ items, i.Regular)
    (ends : IsTail sep tail) : viewsAll (again sep items tail) = viewsAll items := by
  have roots : viewsAll (items.flatMap (reprint sep 0)) = viewsAll items := by
    rw [viewsAll_eq_flatMap, List.flatMap_assoc, viewsAll_eq_flatMap]
    refine List.flatMap_congr fun i hi => ?_
    rw [← viewsAll_eq_flatMap]
    exact views_reprint (regular i hi) 0
  have last : viewsAll tail = [] := by
    rcases ends with rfl | rfl <;> rfl
  have whole : viewsAll (absorbAll (settled (items.flatMap (reprint sep 0) ++ tail))) =
      viewsAll items := by
    rw [views_absorbAll, views_settled, viewsAll_append, roots, last, List.append_nil]
  rcases again_eq items ends with ⟨none, empty⟩ | some
  · rw [none] at whole
    rw [empty]
    exact whole
  · rw [some] at whole
    exact whole

end Item
end MarkupGrader.Markup
