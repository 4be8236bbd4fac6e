import MarkupGrader.Proofs.Diagnostic.Again
import MarkupGrader.Proofs.Document.Again
import MarkupGrader.Proofs.Grader.Answer
import MarkupGrader.Proofs.Layout.Skeleton
import MarkupGrader.Proofs.Selector.Values

/-! Laying out a page and reading its layout again. A page without faults is found in its layout with
the same elements and no new faults, if each of its tags is read from the layout as it was put there. -/

namespace MarkupGrader.Grader

open Markup (Item)

variable {g : Grader} {code : Text}

/-- A page without faults whose elements are read from its layout as they were put there. -/
structure Printable (g : Grader) (code : Text) : Prop where
  marks : g.recovery.Marks
  whole : (Markup.parse g.recovery code).isWhole = true
  clean : Diagnostic.collect code (Markup.parse g.recovery code) false = []
  valid : g.options.layout.validate = .ok ()
  printable : ∀ i ∈ Markup.itemsOf code, i.isPrintable = true

namespace Printable

theorem parse_eq (h : g.Printable code) :
    Markup.parse g.recovery code = Markup.documentNode code (Markup.itemsOf code) ∧
      Markup.ReadAs code (Markup.itemsOf code) :=
  Markup.parse_of_whole h.marks h.whole

theorem regular (h : g.Printable code) :
    Markup.AllRead [] (Item.tokensOf (Markup.itemsOf code)) ∧
      ∀ i ∈ Markup.itemsOf code, i.Regular := by
  obtain ⟨tree, read⟩ := h.parse_eq
  have clean := h.clean
  rw [tree] at clean
  exact Item.regular_of_read (Markup.items_of_whole h.marks h.whole) read clean h.printable

theorem plain (h : g.Printable code) : ∀ i ∈ Markup.itemsOf code, i.Plain :=
  fun i hi => (h.regular.2 i hi).plain

abbrev sep (g : Grader) (code : Text) : Nat → Text :=
  Layout.breakBefore g.options.layout (g.options.layout.lineEnding.resolve code)

theorem breaks (g : Grader) (code : Text) : Markup.Breaks (sep g code) :=
  Layout.breaks_breakBefore _ (Layout.break_resolve _ _)

abbrev lines (code : Text) : List Layout.Line := (Markup.itemsOf code).flatMap (·.lines 0)

abbrev newline (g : Grader) (source : Text) : Text := g.options.layout.lineEnding.resolve source

abbrev rendered (g : Grader) (code newline : Text) : Text :=
  (lines code).flatMap (Layout.Line.render g.options.layout newline)

theorem format_eq (h : g.Printable code) :
    g.format code = .ok (rendered g code (newline g code)) :=
  g.format_of_items h.parse_eq.2 h.parse_eq.1 h.plain h.valid

/-- The items that are written for a page, as they are read again. -/
abbrev again (g : Grader) (code : Text) : List Item :=
  Item.again (sep g code) (Markup.itemsOf code) [Item.lineBreak (sep g code) 0]

theorem parse_rendered (h : g.Printable code)
    (tags : ∀ i ∈ Markup.itemsOf code, i.hasSpacedTags = true) :
    let out := rendered g code (newline g code)
    ∃ items, Markup.parse g.recovery out = Markup.documentNode out items ∧
      Markup.ReadAs out items ∧ (∀ i ∈ items, i.Plain) ∧
        Item.pruneAll items = Item.pruneAll (again g code) :=
  Item.parse_render g.recovery (Layout.break_resolve code g.options.layout.lineEnding) h.regular.2
    tags

theorem paragraph :
    Printable ⟨.default, .atEnd⟩
      "<!DOCTYPE html><P id='a'>Hi\u00A0<b>you</b><br>and all</P><script>\n let a;\n</script><li>end"
    where
  marks := Markup.Recovery.marks_atEnd
  whole := by decide +kernel
  clean := by decide +kernel
  valid := by decide +kernel
  printable := by decide +kernel

end Printable

/-- The layout of a page answers each query as the page does. -/
theorem evaluate_format (h : g.Printable code)
    (tags : ∀ i ∈ Markup.itemsOf code, i.hasSpacedTags = true) (command : Text) :
    ∃ out, g.format code = .ok out ∧ g.evaluate out command = g.evaluate code command := by
  refine ⟨_, h.format_eq, ?_⟩
  obtain ⟨tree, read⟩ := h.parse_eq
  obtain ⟨items, tree', read', plain', pruned⟩ := h.parse_rendered tags
  have seen : Item.viewsAll items = Item.viewsAll (Markup.itemsOf code) := by
    rw [← Item.viewsAll_pruneAll, pruned, Item.viewsAll_pruneAll,
      Item.views_again h.regular.2 (.inl rfl)]
  rw [evaluate, evaluate, document, document, Document.parse, Document.parse, tree, tree']
  cases chain : Selector.Chain.read command g.options.policy with
  | error failure => rfl
  | ok c =>
    have solid : ∀ s ∈ c.toList, Document.Solid s := fun s hs pair hp x hx =>
      Text.isSpace_of_solid (Selector.Chain.solid_of_mem_read chain hs pair hp x hx)
    have same := Item.follow_items read' plain' solid
    rw [seen, ← Item.follow_items read h.plain solid] at same
    exact congrArg Except.ok same

theorem evaluate_format_paragraph :
    let g : Grader := ⟨.default, .atEnd⟩
    let code : Text :=
      "<!DOCTYPE html><P id='a'>Hi\u00A0<b>you</b><br>and all</P><script>\n let a;\n</script><li>end"
    ∃ out, g.format code = .ok out ∧ g.evaluate code "contains(body>p(id=\"a\"))" = .ok ⟨2, 2, none⟩ ∧
      g.evaluate out "contains(body>p(id=\"a\"))" = .ok ⟨2, 2, none⟩ := by
  intro g code
  obtain ⟨out, formatted, same⟩ :=
    evaluate_format Printable.paragraph (by decide +kernel) "contains(body>p(id=\"a\"))"
  have found : g.evaluate code "contains(body>p(id=\"a\"))" = .ok ⟨2, 2, none⟩ := by decide +kernel
  exact ⟨out, formatted, found, same.trans found⟩

/-- A script that stays on one line takes its end tag into the line, where a bracket at the end of
the text joins it. The script then goes on to the next end tag, over the elements between. -/
theorem not_evaluate_format_script :
    let g : Grader := ⟨.default, .atEnd⟩
    let code : Text := "<script>a <\n</script><p></p><script>b</script>"
    let out : Text := "<script>a <</script>\n<p></p>\n<script>b</script>\n"
    (g.recovery.Marks ∧ (Markup.parse g.recovery code).isWhole = true ∧
        Diagnostic.collect code (Markup.parse g.recovery code) false = [] ∧
        g.options.layout.validate = .ok () ∧
        (∀ c ∈ code, Text.isBlank c = true → c ∈ [' ', '\t', '\n', '\r']) ∧
        ∀ i ∈ Markup.itemsOf code, i.everyElement (fun tag _ _ => tag.isQuotable) = true) ∧
      g.format code = .ok out ∧ (Markup.parse g.recovery out).isWhole = true ∧
      g.evaluate code "contains(body>p)" = .ok ⟨2, 2, none⟩ ∧
      g.evaluate out "contains(body>p)" = .ok ⟨1, 2, some "p"⟩ := by
  intro g code out
  have spaces : ∀ c ∈ code, Text.isBlank c = true → c ∈ [' ', '\t', '\n', '\r'] := by
    rw [← List.all_iff_forall_prop]
    rfl
  refine ⟨⟨Markup.Recovery.marks_atEnd, ?_, ?_, ?_, spaces, ?_⟩, ?_, ?_, ?_, ?_⟩ <;>
    decide +kernel

/-- The layout of a page has no faults, and has a doctype if one of the page shows. -/
theorem clean_format (h : g.Printable code)
    (tags : ∀ i ∈ Markup.itemsOf code, i.hasSpacedTags = true) {requireDoctype : Bool}
    (shows : requireDoctype = true → Markup.showsDoctype false (Markup.itemsOf code) = true) :
    ∃ out, g.format code = .ok out ∧ (Markup.parse g.recovery out).isWhole = true ∧
      Diagnostic.collect out (Markup.parse g.recovery out) requireDoctype = [] := by
  refine ⟨_, h.format_eq, ?_⟩
  obtain ⟨items, tree, read, plain, pruned⟩ := h.parse_rendered tags
  rw [tree]
  refine ⟨Markup.isWhole_documentNode _ _, (Diagnostic.collect_eq_nil read plain _).mpr ⟨?_, ?_⟩⟩
  · intro required
    rw [← Item.any_isDoctype_pruneAll, pruned, Item.any_isDoctype_pruneAll]
    exact Item.any_isDoctype_again (.inl rfl) (shows required)
  · rw [← List.all_eq_true, ← Item.all_isFaultless_pruneAll, pruned, Item.all_isFaultless_pruneAll,
      List.all_eq_true]
    exact Item.faultless_again h.regular.2 (.inl rfl)

theorem clean_format_paragraph :
    let g : Grader := ⟨.default, .atEnd⟩
    let code : Text :=
      "<!DOCTYPE html><P id='a'>Hi\u00A0<b>you</b><br>and all</P><script>\n let a;\n</script><li>end"
    ∃ out, g.format code = .ok out ∧ (Markup.parse g.recovery out).isWhole = true ∧
      Diagnostic.collect out (Markup.parse g.recovery out) true = [] :=
  @clean_format _ _ Printable.paragraph (by decide +kernel) true (by decide +kernel)

/-- A value that holds a double quote is printed between double quotes. What stands behind it is read
as another attribute. -/
theorem not_clean_format_quote :
    let g : Grader := ⟨.default, .atEnd⟩
    let code : Text := "<p a='x\" a=\"y'></p>"
    let out : Text := "<p a=\"x\" a=\"y\"></p>\n"
    (g.recovery.Marks ∧ (Markup.parse g.recovery code).isWhole = true ∧
        Diagnostic.collect code (Markup.parse g.recovery code) false = [] ∧
        g.options.layout.validate = .ok ()) ∧
      g.format code = .ok out ∧ (Markup.parse g.recovery out).isWhole = true ∧
      Diagnostic.collect out (Markup.parse g.recovery out) false =
        [⟨1, 10, .warning, "<p> dropping value \"y\" for repeated attribute \"a\""⟩] := by
  intro g code out
  refine ⟨⟨Markup.Recovery.marks_atEnd, ?_, ?_, ?_⟩, ?_, ?_, ?_⟩ <;> decide +kernel

end MarkupGrader.Grader
