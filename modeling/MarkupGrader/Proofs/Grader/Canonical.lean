import MarkupGrader.Proofs.Grader.Reformat
import MarkupGrader.Proofs.Layout.LineEnding
import MarkupGrader.Proofs.Layout.Relaid

/-! The canonical form of a page. Its layout is laid out as it is, and without the line end behind the
last line it is canonical, unless a void element of the page is not written bare or takes something
out of a row. -/

namespace MarkupGrader.Grader

open Markup (Item)

variable {g : Grader} {code : Text}

/-- A page without faults whose pieces are all read from its layout as they were put there. -/
structure Reprintable (g : Grader) (code : Text) : Prop extends Printable g code where
  spaced : Text.Spaced code
  /-- No byte order mark would come to stand at the beginning. -/
  unmarked : (Text.trimLeft (Markup.markupOf code).2).head? ≠ some Markup.byteOrderMark

open Printable (sep breaks lines newline rendered)

namespace Reprintable

theorem spaced_sources (h : g.Reprintable code) :
    Text.Spaced (Item.sources (Markup.itemsOf code)) := by
  obtain ⟨mark, eq, -⟩ := Document.exists_mark code
  rw [h.parse_eq.2.sources]
  refine h.spaced.of_subset ?_
  intro c hc
  rw [eq]
  exact List.mem_append_right mark hc

theorem firstShown_ne (h : g.Reprintable code) :
    Markup.firstShown (Item.sources (Markup.itemsOf code)) ≠ some Markup.byteOrderMark := by
  rw [Markup.firstShown, ← h.spaced_sources.trimLeft_eq, h.parse_eq.2.sources]
  exact h.unmarked

/-- The layout is read into the items that were laid out. -/
theorem parse_page (h : g.Reprintable code) {tail : List Item}
    (ends : Item.IsTail (sep g code) tail) :
    let out := Item.sources (Item.page (sep g code) (Markup.itemsOf code) tail)
    let again := Item.again (sep g code) (Markup.itemsOf code) tail
    Markup.parse g.recovery out = Markup.documentNode out again ∧ Markup.ReadAs out again ∧
      ∀ j ∈ again, j.Plain :=
  Item.parse_page g.recovery (breaks g code) h.regular.2 h.spaced_sources h.regular.1 ends
    h.firstShown_ne

theorem settled (h : g.Reprintable code) : Item.Settled (Markup.itemsOf code) :=
  (Markup.allRead_of_items (Markup.items_of_whole h.marks h.whole)).2.2

theorem clean_lines (h : g.Reprintable code) (none : hasCarriageReturn code = false) :
    ∀ l ∈ lines code, l.Clean := by
  obtain ⟨tree, read⟩ := h.parse_eq
  have solid := Layout.endsSolid_lines
    (Document.ofSyntax code (Markup.documentNode code (Markup.itemsOf code)))
  rw [Layout.lines_ofSyntax read h.plain] at solid
  have within : Item.sources (Markup.itemsOf code) <:+: code := by
    obtain ⟨mark, eq, -⟩ := Document.exists_mark code
    rw [read.sources]
    exact ⟨mark, [], by rw [List.append_nil]; exact eq.symm⟩
  intro l hl
  refine ⟨?_, solid l hl⟩
  obtain ⟨i, hi, hl⟩ := List.mem_flatMap.mp hl
  have part : i.source <:+: code := (Markup.infix_flatMap_of_mem hi).trans within
  exact Item.unpaired_lines (h.regular.2 i hi) (hasCarriageReturn_of_part part none) 0 l hl

theorem format_page (h : g.Reprintable code)
    (steady : ∀ i ∈ Markup.itemsOf code, i.isSteady = true) {tail : List Item}
    (ends : Item.IsTail (sep g code) tail) {out : Text}
    (page : out = Item.sources (Item.page (sep g code) (Markup.itemsOf code) tail)) :
    g.format out = .ok (rendered g code (newline g out)) := by
  subst page
  obtain ⟨tree, read, plain⟩ := h.parse_page ends
  have cuts := Item.cutsAgain_breakBefore g.options.layout
    (Layout.break_resolve code g.options.layout.lineEnding)
  rw [g.format_of_items read tree plain h.valid,
    Item.lines_again (breaks g code) cuts h.regular.2 h.spaced_sources h.settled steady ends]

theorem exists_front (h : g.Reprintable code) (nonempty : lines code ≠ []) :
    ∃ front, front = Item.sources (Item.page (sep g code) (Markup.itemsOf code) []) ∧
      rendered g code (newline g code) = front ++ newline g code ∧
      front.getLast? ≠ some '\r' := by
  have break_ := Layout.break_resolve code g.options.layout.lineEnding
  have whole : Item.sources (Item.page (sep g code) (Markup.itemsOf code) []) ++ newline g code =
      rendered g code (newline g code) :=
    Item.sources_page_append break_ h.regular.2 h.spaced_sources nonempty
  refine ⟨_, rfl, whole.symm, ?_⟩
  have layout := h.format_eq.symm.trans (g.format_eq h.valid code)
  rw [← whole, Except.ok.injEq] at layout
  have source : (g.document code).source = code := rfl
  rcases Layout.render_eq (g.document code) g.options.layout with none | ⟨front, eq, bare⟩
  · rw [none] at layout
    exact absurd (List.append_eq_nil_iff.mp layout).2 break_.ne_nil
  · rw [eq, source] at layout
    rwa [List.append_cancel_right layout]

theorem paragraph :
    Reprintable ⟨.default, .atEnd⟩
      "<!DOCTYPE html><P id='a'>Hi <b>you</b><br>and all</P><script>\n let a;\n</script><li>end" where
  marks := Markup.Recovery.marks_atEnd
  whole := by decide +kernel
  clean := by decide +kernel
  valid := by decide +kernel
  spaced := by
    rw [Text.Spaced, ← List.all_iff_forall_prop]
    decide +kernel
  unmarked := by decide +kernel
  printable := by decide +kernel

end Reprintable

/-- The layout of a page is laid out as it is, and is canonical but for the line end it ends with. -/
theorem format_format (h : g.Reprintable code)
    (steady : ∀ i ∈ Markup.itemsOf code, i.isSteady = true) :
    ∃ out, g.format code = .ok out ∧ g.format out = .ok out ∧
      ∃ formatted, g.format (Layout.withoutTerminator out) = .ok formatted ∧
        Layout.isCanonical (Layout.withoutTerminator out) formatted = true := by
  refine ⟨_, h.format_eq, ?_⟩
  have again : g.format (rendered g code (newline g code)) =
      .ok (rendered g code (newline g (rendered g code (newline g code)))) :=
    h.format_page steady (.inl rfl) (Item.sources_page h.regular.2 h.spaced_sources).symm
  by_cases nonempty : lines code = []
  · have empty (newline : Text) : rendered g code newline = [] := by rw [rendered, nonempty]; rfl
    rw [empty, empty] at again
    rw [empty]
    exact ⟨again, [], again, rfl⟩
  · have break_ (source : Text) := Layout.break_resolve source g.options.layout.lineEnding
    obtain ⟨front, page, whole, bare⟩ := h.exists_front nonempty
    have same : newline g (rendered g code (newline g code)) = newline g code :=
      Layout.resolve_render _ h.clean_lines nonempty
    have alone := h.format_page steady (.inr rfl) page
    have cut : Layout.withoutTerminator (rendered g code (newline g code)) = front := by
      rw [whole, Layout.withoutTerminator_append (break_ code) bare]
    refine ⟨by rw [again, same], _, by rw [cut, alone], ?_⟩
    rw [cut, rendered, Layout.render_front _ h.clean_lines nonempty whole, Layout.isCanonical,
      Layout.withoutTerminator_append (break_ front) bare, beq_self_eq_true]

theorem format_format_paragraph :
    let g : Grader := ⟨.default, .atEnd⟩
    let code : Text :=
      "<!DOCTYPE html><P id='a'>Hi <b>you</b><br>and all</P><script>\n let a;\n</script><li>end"
    ∃ out, g.format code = .ok out ∧ g.format out = .ok out ∧
      ∃ formatted, g.format (Layout.withoutTerminator out) = .ok formatted ∧
        Layout.isCanonical (Layout.withoutTerminator out) formatted = true :=
  format_format Reprintable.paragraph (by decide +kernel)

/-- A comment behind a line break keeps it out of the row, and is left out of the layout. -/
theorem not_format_format_break :
    let g : Grader := ⟨.default, .atEnd⟩
    let code : Text := "<div>text<br><!-- c --></div>"
    let out : Text := "<div>\n  text\n  <br>\n</div>\n"
    (g.recovery.Marks ∧ (Markup.parse g.recovery code).isWhole = true ∧
        Diagnostic.collect code (Markup.parse g.recovery code) false = [] ∧
        g.options.layout.validate = .ok () ∧
        (∀ c ∈ code, Text.isBlank c = true → c ∈ [' ', '\t', '\n', '\r']) ∧
        ∀ i ∈ Markup.itemsOf code, i.everyElement (fun tag _ closing =>
          tag.isQuotable && Markup.isBareVoid tag closing) = true) ∧
      g.format code = .ok out ∧ g.format out = .ok "<div>text <br></div>\n" ∧
      g.format (Layout.withoutTerminator out) = .ok "<div>text <br></div>\n" ∧
      Layout.isCanonical (Layout.withoutTerminator out) "<div>text <br></div>\n" = false := by
  intro g code out
  have spaces : ∀ c ∈ code, Text.isBlank c = true → c ∈ [' ', '\t', '\n', '\r'] := by
    rw [← List.all_iff_forall_prop]
    rfl
  refine ⟨⟨Markup.Recovery.marks_atEnd, ?_, ?_, ?_, spaces, ?_⟩, ?_, ?_, ?_, ?_⟩ <;>
    decide +kernel

end MarkupGrader.Grader
