import MarkupGrader.Proofs.Grader.Answer
import MarkupGrader.Proofs.Layout.Kept

/-! What of the content of a page is in its layout. -/

namespace MarkupGrader.Grader

open Markup (Item Piece)
open Text (Occurs dropBlanks solid)

variable {g : Grader} {code : Text}

theorem contents_documentNode {items : List Item} (read : Markup.ReadAs code items) :
    (Markup.documentNode code items).contents code = items.flatMap Item.contents := by
  obtain ⟨mark, whole, start⟩ := Document.exists_mark code
  have h : code = mark ++ (Markup.Outline.sourceAll (Item.outlines items) ++ []) := by
    rw [Item.sourceAll_outlines, read.sources, List.append_nil]
    exact whole
  have located := Markup.Outline.allContents_locateAll _ h
  rw [Markup.documentNode, Markup.Node.contents, start, located, Item.allContents_outlines]
  rfl

theorem accounted_items {items : List Item} (plain : ∀ i ∈ items, i.Plain) :
    (solid (Piece.contentOf (items.flatMap Item.printed))).Sublist
        (solid (items.flatMap Item.contents)) ∧
      (solid (Piece.contentOf (items.flatMap Item.printed)) =
        solid (items.flatMap Item.contents) ↔ ∀ i ∈ items, i.isKept = true) := by
  have each : ∀ i ∈ items, Item.Accounted i := fun i hi => Item.accounted_of_plain (plain i hi)
  rw [Piece.contentOf_flatMap, Text.solid_flatMap, Text.solid_flatMap]
  refine ⟨Text.flatMap_sublist fun i hi => (each i hi).sublist, ?_⟩
  rw [Text.flatMap_eq_iff_of_sublist fun i hi => (each i hi).sublist]
  exact forall₂_congr fun i hi => (each i hi).all_iff

/-- The layout of a page without faults is what its items print. The content that is printed is in
order, and it is all content of the page exactly if each item is kept. -/
theorem format_content (marks : g.recovery.Marks)
    (whole : (Markup.parse g.recovery code).isWhole = true)
    (clean : Diagnostic.collect code (Markup.parse g.recovery code) false = [])
    (valid : g.options.layout.validate = .ok ()) :
    ∃ out, g.format code = .ok out ∧
      dropBlanks out = Item.barePieces ((Markup.itemsOf code).flatMap Item.printed) ∧
      (solid (Piece.contentOf ((Markup.itemsOf code).flatMap Item.printed))).Sublist
        (solid ((Markup.parse g.recovery code).contents code)) ∧
      (solid (Piece.contentOf ((Markup.itemsOf code).flatMap Item.printed)) =
        solid ((Markup.parse g.recovery code).contents code) ↔
          ∀ i ∈ Markup.itemsOf code, i.isKept = true) ∧
      ((∀ i ∈ Markup.itemsOf code, i.isKept = true) →
        Occurs (((Markup.parse g.recovery code).contents code).map dropBlanks) (dropBlanks out)) := by
  obtain ⟨tree, read⟩ := Markup.parse_of_whole marks whole
  rw [tree] at clean
  have plain := Diagnostic.plain_of_collect read clean
  obtain ⟨sublist, all_iff⟩ := accounted_items plain
  rw [tree, contents_documentNode read]
  refine ⟨_, g.format_eq valid code, ?_, sublist, all_iff, fun kept => ?_⟩
  · rw [document, Document.parse, tree]
    exact Layout.dropBlanks_render_items read plain _
  · rw [document, Document.parse, tree, Layout.dropBlanks_render_items read plain]
    exact Text.occurs_congr (all_iff.mpr kept) (Piece.occurs_contentOf _)

theorem format_content_paragraph :
    let g : Grader := ⟨.default, .atEnd⟩
    let code : Text := "<!-- a --><P>Hi <b>you</b><br>and all</P>"
    ∃ out, g.format code = .ok out ∧
      Occurs (((Markup.parse g.recovery code).contents code).map dropBlanks) (dropBlanks out) := by
  intro g code
  have whole : (Markup.parse g.recovery code).isWhole = true := by decide +kernel
  obtain ⟨out, formatted, -, -, -, occurs⟩ := format_content (g := g)
    Markup.Recovery.marks_atEnd whole (by decide +kernel) (by decide +kernel)
  exact ⟨out, formatted, occurs (by decide +kernel)⟩

/-- Text right behind a void element is read as its content, and is not printed. -/
theorem not_occurs_format_rule :
    let g : Grader := ⟨.default, .atEnd⟩
    let root := Markup.parse g.recovery "<hr>text"
    (g.recovery.Marks ∧ root.isWhole = true ∧ Diagnostic.collect "<hr>text" root false = [] ∧
        g.options.layout.validate = .ok ()) ∧
      root.contents "<hr>text" = ["text"] ∧ g.format "<hr>text" = .ok "<hr>\n" ∧
      ¬ Occurs ((root.contents "<hr>text").map dropBlanks) (dropBlanks "<hr>\n") := by
  intro g root
  have contents : root.contents "<hr>text" = ["text"] := by decide +kernel
  refine ⟨⟨Markup.Recovery.marks_atEnd, by decide +kernel, by decide +kernel,
    by decide +kernel⟩, contents, by decide +kernel, ?_⟩
  rw [contents]
  intro occurs
  exact absurd occurs.infix (by decide)

end MarkupGrader.Grader
