import MarkupGrader.Document.Build
import MarkupGrader.Text.Cut

/-! Building a document part by part, with every text cut out of the source where it is met, also
those that a later part replaces. It fails with the first span that is none of the source's. -/

namespace MarkupGrader.Document.Cut

open Markup (Kind)

variable (source : Text)

/-- The name and the value of an attribute after one more part of it. -/
def attributePart (held : Option Text × Option Text) (part : Markup.Node) :
    Except Span (Option Text × Option Text) :=
  match part.kind with
  | .attributeName => do
    let name ← Text.cut source part.span
    return (some name.lower, held.2)
  | .attributeValue => do
    let value ← Text.cut source part.span
    return (held.1, some value)
  | .quotedAttributeValue => do
    let value ← match part.child? .attributeValue with
      | some inner => Text.cut source inner.span
      | none => pure []
    return (held.1, some value)
  | _ => return held

def attribute? (n : Markup.Node) : Except Span (Option Attribute) := do
  let (name, value) ← n.children.foldlM (attributePart source) (none, none)
  return name.map (⟨·, value⟩)

/-- The name and the attributes of a tag after one more part of it. -/
def tagPart (held : Option Text × List Attribute) (part : Markup.Node) :
    Except Span (Option Text × List Attribute) :=
  match part.kind with
  | .tagName => do
    let name ← Text.cut source part.span
    return (some name.lower, held.2)
  | .attribute => do
    let more ← attribute? source part
    return (held.1, held.2 ++ more.toList)
  | _ => return held

def tag (n : Markup.Node) : Except Span (Option Text × List Attribute) :=
  n.children.foldlM (tagPart source) (none, [])

structure Draft where
  name : Option Text
  attributes : List Attribute
  start : Nat
  stop : Nat
  hasEndTag : Bool
  children : List Node

def Draft.empty (span : Span) : Draft := ⟨none, [], span.stop, span.stop, false, []⟩

def Draft.finish (d : Draft) (span : Span) : Node :=
  .element ⟨d.name, d.attributes, span, some ⟨d.start, max d.stop d.start⟩, d.hasEndTag⟩ d.children

mutual

def nodesOf : Markup.Node → Except Span (List Node)
  | .node .doctype span _ _ => return [.leaf .doctype span]
  | .node .text span _ _ => return [.leaf .text span]
  | .node .entity span _ _ => return [.leaf .text span]
  | .node .rawText span _ _ => return [.leaf .rawText span]
  | .node .comment span _ _ => return [.leaf .comment span]
  | .node .error _ _ children => allNodesOf children
  | .node kind span _ children =>
    if kind.isElement then do
      let draft ← parts (.empty span) children
      return [draft.finish span]
    else return []

def allNodesOf : List Markup.Node → Except Span (List Node)
  | [] => return []
  | n :: rest => do
    let nodes ← nodesOf n
    let more ← allNodesOf rest
    return nodes ++ more

def parts (draft : Draft) : List Markup.Node → Except Span Draft
  | [] => return draft
  | part :: rest =>
    if part.kind = .startTag ∨ part.kind = .selfClosingTag then do
      let (name, attributes) ← tag source part
      parts { draft with name, attributes, start := part.span.stop } rest
    else if part.kind = .endTag ∧ part.missing = false then
      parts { draft with hasEndTag := true, stop := part.span.start } rest
    else do
      let nodes ← nodesOf part
      parts { draft with children := draft.children ++ nodes } rest

end

def ofSyntax (n : Markup.Node) : Except Span Document := do
  let roots ← allNodesOf source n.children
  return ⟨source, roots⟩

end MarkupGrader.Document.Cut
