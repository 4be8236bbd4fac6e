import MarkupGrader.Proofs.Diagnostic.Cut
import MarkupGrader.Proofs.Layout.Cut

/-! Reading a source never cuts through a character or past an end. Whatever tree a parser gives,
with errors in it or without, as long as its nodes stand in their places on the characters of the
source. -/

namespace MarkupGrader.Grader

open Document (Holds Node)

variable {source : Text} {root : Markup.Node}

theorem placed_ofSyntax {fits : Nat → Prop} (placed : root.Placed fits) :
    ∀ n ∈ (Document.ofSyntax source root).roots, n.Placed fits :=
  Document.placed_allNodesOf root.children placed.parts.2

theorem content_inside {fits : Nat → Prop} (placed : root.Placed fits) {e : Document.Element}
    {children : List Node} (held : Holds (Document.ofSyntax source root).roots (.element e children))
    {content : Span} (found : e.content = some content) : content.Inside e.span := by
  cases held.placed (placed_ofSyntax placed) with
  | element _ _ inside _ _ => exact (inside content found).1

/-- Every text that building a document, collecting diagnostics or laying out asks for can be cut out
of the source, and the content of every element lies in it. -/
theorem cut_eq_ok (placed : root.Placed source.IsBoundary) :
    Document.Cut.ofSyntax source root = .ok (Document.ofSyntax source root) ∧
    (∀ requireDoctype, Diagnostic.Cut.collect source root requireDoctype =
      .ok (Diagnostic.collect source root requireDoctype)) ∧
    (∀ o, Layout.Cut.format (Document.ofSyntax source root) o =
      .ok (Layout.format (Document.ofSyntax source root) o)) ∧
    ∀ e children, Holds (Document.ofSyntax source root).roots (.element e children) →
      ∀ content, e.content = some content → content.Inside e.span :=
  ⟨Document.Cut.ofSyntax_eq placed, Diagnostic.Cut.collect_eq placed,
    Layout.Cut.format_eq (placed_ofSyntax placed), fun _ _ held _ => content_inside placed held⟩

/-- A paragraph with an error in it: its text and the text that was recovered behind a tag share a
line, and the tag that the source lacks ends where the paragraph does. -/
theorem cut_eq_ok_recovered :
    let root := Markup.Node.node .document ⟨0, 9⟩ false [.node .element ⟨0, 9⟩ false
      [.node .startTag ⟨0, 3⟩ false [.node .tagName ⟨1, 2⟩ false []],
        .node .error ⟨3, 9⟩ false [.node .text ⟨3, 5⟩ false [],
          .node .startTag ⟨5, 8⟩ false [.node .tagName ⟨6, 7⟩ false []],
          .node .text ⟨8, 9⟩ false []],
        .node .endTag ⟨9, 9⟩ true []]]
    root.Placed (Text.IsBoundary "<p>é<b>x") ∧
      Document.Cut.ofSyntax "<p>é<b>x" root = .ok (Document.ofSyntax "<p>é<b>x" root) := by
  intro root
  have placed : root.Placed (Text.IsBoundary "<p>é<b>x") :=
    Markup.Node.placed_of_isPlaced _ (by decide)
  exact ⟨placed, (cut_eq_ok placed).1⟩

end MarkupGrader.Grader
