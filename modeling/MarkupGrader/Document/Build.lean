import MarkupGrader.Document.Basic
import MarkupGrader.Markup.Reading

/-! Building a document from a syntax tree. What was recovered inside an error is kept in the place
of the error; stray end tags and all else without content are left out. -/

namespace MarkupGrader.Document

open Markup (Kind)

def lastOfKind? (kinds : List Kind) (nodes : List Markup.Node) : Option Markup.Node :=
  (nodes.filter fun n => kinds.contains n.kind).getLast?

def valueOf (source : Text) (n : Markup.Node) : Text :=
  if n.kind = .quotedAttributeValue then
    ((n.child? .attributeValue).map (·.text source)).getD []
  else n.text source

def attributeOf? (source : Text) (n : Markup.Node) : Option Attribute :=
  (lastOfKind? [.attributeName] n.children).map fun name =>
    ⟨(name.text source).lower,
      (lastOfKind? [.attributeValue, .quotedAttributeValue] n.children).map (valueOf source)⟩

def attributesOf (source : Text) (tag : Markup.Node) : List Attribute :=
  (tag.children.filter (·.kind == .attribute)).filterMap (attributeOf? source)

def tagNameOf (source : Text) (tag : Markup.Node) : Option Text :=
  (lastOfKind? [.tagName] tag.children).map fun name => (name.text source).lower

def elementOf (source : Text) (span : Span) (parts : List Markup.Node) : Element :=
  let tag := lastOfKind? [.startTag, .selfClosingTag] parts
  let endTag := lastOfKind? [.endTag] (parts.filter (!·.missing))
  let start := (tag.map (·.span.stop)).getD span.stop
  let stop := (endTag.map (·.span.start)).getD span.stop
  { name := tag.bind (tagNameOf source)
    attributes := (tag.map (attributesOf source)).getD []
    span := span
    content := some ⟨start, max stop start⟩
    hasEndTag := endTag.isSome }

mutual

def nodesOf (source : Text) : Markup.Node → List Node
  | .node .doctype span _ _ => [.leaf .doctype span]
  | .node .text span _ _ => [.leaf .text span]
  | .node .entity span _ _ => [.leaf .text span]
  | .node .rawText span _ _ => [.leaf .rawText span]
  | .node .comment span _ _ => [.leaf .comment span]
  | .node .error _ _ children => allNodesOf source children
  | .node kind span _ children =>
    if kind.isElement then
      [.element (elementOf source span children) (allNodesOf source children)]
    else []

def allNodesOf (source : Text) : List Markup.Node → List Node
  | [] => []
  | n :: rest => nodesOf source n ++ allNodesOf source rest

end

def ofSyntax (source : Text) (n : Markup.Node) : Document := ⟨source, allNodesOf source n.children⟩

def parse (recovery : Markup.Recovery) (source : Text) : Document :=
  ofSyntax source (Markup.parse recovery source)

end MarkupGrader.Document
