import MarkupGrader.Proofs.Grader.Answer
import MarkupGrader.Proofs.Layout.Spelling

/-! How the layout of a page depends on the spelling of its tags. -/

namespace MarkupGrader.Grader

open Markup (Item)

variable {g : Grader} {code other : Text}

/-- Two pages that differ in the spelling of their tags have the same layout exactly if what the layout
copies of them is the same. Their elements have to nest alike, as they do if no tag gains or loses the
gap right behind its bracket. -/
theorem format_respelled_iff (marks : g.recovery.Marks)
    (whole : (Markup.parse g.recovery code).isWhole = true)
    (whole' : (Markup.parse g.recovery other).isWhole = true)
    (clean : Diagnostic.collect code (Markup.parse g.recovery code) false = [])
    (valid : g.options.layout.validate = .ok ())
    (fixed : g.options.layout.lineEnding ≠ .auto) (respelled : Markup.Respelled code other)
    (nest : (Markup.tokensIn code).map Markup.Token.isTight =
        (Markup.tokensIn other).map Markup.Token.isTight ∨
      List.Forall₂ Item.Respelled (Markup.itemsOf code) (Markup.itemsOf other)) :
    ∃ out out', g.format code = .ok out ∧ g.format other = .ok out' ∧
      (out = out' ↔
        (Markup.itemsOf code).flatMap Item.copies = (Markup.itemsOf other).flatMap Item.copies) := by
  obtain ⟨tree, read⟩ := Markup.parse_of_whole marks whole
  obtain ⟨tree', read'⟩ := Markup.parse_of_whole marks whole'
  have items : List.Forall₂ Item.Respelled (Markup.itemsOf code) (Markup.itemsOf other) := by
    rcases nest with tight | items
    · exact respelled.items tight (Markup.items_of_whole marks whole)
        (Markup.items_of_whole marks whole')
    · exact items
  rw [tree] at clean
  have plain := Diagnostic.plain_of_collect read clean
  have plain' : ∀ j ∈ Markup.itemsOf other, j.Plain := by
    intro j hj
    obtain ⟨i, hi, related⟩ := exists_left_of_mem items hj
    exact related.plain (plain i hi)
  refine ⟨_, _, g.format_of_items read tree plain valid,
    g.format_of_items read' tree' plain' valid, ?_⟩
  rw [LineEnding.resolve_eq fixed other code]
  exact Layout.render_lines_eq_iff items _ (Layout.break_resolve code _)

/-- Tags that begin a line are written anew. -/
theorem format_respelled_iff_page :
    let g : Grader := ⟨{ Options.default with lineEnding := .crlf }, .atEnd⟩
    let code : Text := "<DIV  ID=a><P CLASS='x' >Hi</P ><Br></DIV>"
    let other : Text := "<div id=\"a\"><p class=\"x\">Hi</p><br></div>"
    ∃ out, g.format code = .ok out ∧ g.format other = .ok out := by
  intro g code other
  have respelled : Markup.Respelled code other := by decide +kernel
  have whole : (Markup.parse g.recovery code).isWhole = true := by decide +kernel
  obtain ⟨out, out', formatted, formatted', same⟩ := format_respelled_iff (g := g)
    Markup.Recovery.marks_atEnd whole (by decide +kernel) (by decide +kernel)
    (by decide +kernel) (by decide) respelled (.inl (by decide +kernel))
  have copies : (Markup.itemsOf code).flatMap Item.copies =
      (Markup.itemsOf other).flatMap Item.copies := by decide +kernel
  exact ⟨out, formatted, same.mpr copies ▸ formatted'⟩

/-- Tags within a line are copied with the quotes that they have in the source. -/
theorem not_format_respelled_quotes :
    let g : Grader := ⟨{ Options.default with lineEnding := .lf }, .atEnd⟩
    let code : Text := "<p>x <b class=\"a\">y</b></p>"
    let other : Text := "<p>x <b class='a'>y</b></p>"
    (g.recovery.Marks ∧ (Markup.parse g.recovery code).isWhole = true ∧
        (Markup.parse g.recovery other).isWhole = true ∧
        Diagnostic.collect code (Markup.parse g.recovery code) false = [] ∧
        Diagnostic.collect other (Markup.parse g.recovery other) false = [] ∧
        g.options.layout.validate = .ok () ∧ g.options.layout.lineEnding ≠ .auto ∧
        Markup.Respelled code other) ∧
      g.format code = .ok "<p>x <b class=\"a\">y</b></p>\n" ∧
      g.format other = .ok "<p>x <b class='a'>y</b></p>\n" := by
  intro g code other
  refine ⟨⟨Markup.Recovery.marks_atEnd, ?_, ?_, ?_, ?_, ?_, ?_, ?_⟩, ?_, ?_⟩ <;> decide +kernel

end MarkupGrader.Grader
