import MarkupGrader.ElementClass
import MarkupGrader.Markup.Node
import MarkupGrader.Matching

/-! A document is the tree of elements and texts that a source describes. Tag and attribute names
are in lower case; attribute values are as written, without their quotes. Where the source gives no
head or no body, one is implied that adopts top-level nodes, so that every query has both to start
at. -/

namespace MarkupGrader

namespace Document

inductive LeafKind
  | text
  /-- The content of a script or a style element. -/
  | rawText
  | comment
  | doctype
  deriving DecidableEq

structure Attribute where
  name : Text
  value : Option Text
  deriving DecidableEq

structure Element where
  name : Option Text
  attributes : List Attribute
  span : Span
  /-- From the end of the start tag to the beginning of the end tag; none for an implied element. -/
  content : Option Span
  hasEndTag : Bool
  deriving DecidableEq

inductive Node
  | leaf (kind : LeafKind) (span : Span)
  | element (e : Element) (children : List Node)

namespace Node

def children : Node → List Node
  | leaf _ _ => []
  | element _ children => children

def span : Node → Span
  | leaf _ span => span
  | element e _ => e.span

def tagName : Node → Option Text
  | leaf _ _ => none
  | element e _ => e.name

def attributes : Node → List Attribute
  | leaf _ _ => []
  | element e _ => e.attributes

def isElement (n : Node) (name : Text) : Bool := n.tagName == some name

def isDoctype : Node → Bool
  | leaf .doctype _ => true
  | _ => false

def belongsToHead (n : Node) : Bool := n.tagName.any ElementClass.headOnly.contains

def belongsToBody (n : Node) : Bool :=
  !n.isDoctype && !n.isElement "head" && !n.isElement "body" && !n.belongsToHead

def implied (name : Text) (children : List Node) : Node :=
  .element ⟨some name, [], ⟨0, 0⟩, none, false⟩ children

end Node

end Document

structure Document where
  source : Text
  roots : List Document.Node

namespace Document

def top (d : Document) : List Node :=
  match d.roots.find? (·.isElement "html") with
  | some html => html.children
  | none => d.roots

def head (d : Document) : Node :=
  (d.top.find? (·.isElement "head")).getD
    (.implied "head" (d.top.filter Node.belongsToHead))

def body (d : Document) : Node :=
  (d.top.find? (·.isElement "body")).getD
    (.implied "body" (d.top.filter Node.belongsToBody))

def hasDoctype (d : Document) : Bool := d.roots.any Node.isDoctype

def text (d : Document) (span : Span) : Text := Text.slice d.source span

/-- The document as matching sees it; an attribute without a value counts as empty. -/
def tree (d : Document) : TreeView Node where
  head := d.head
  body := d.body
  children := Node.children
  tagName := Node.tagName
  attributes n := n.attributes.map fun a => (a.name, a.value.getD [])

end Document
end MarkupGrader
