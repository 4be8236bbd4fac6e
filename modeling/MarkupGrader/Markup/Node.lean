import MarkupGrader.Text.Bytes

/-! The syntax tree of a source. A node spans some of the source's bytes, and the trees of faulty
sources also have nodes for what was not understood and for tokens that are missing. -/

namespace MarkupGrader.Markup

inductive Kind
  | document
  | doctype
  | element
  | scriptElement
  | styleElement
  | startTag
  | selfClosingTag
  | endTag
  | erroneousEndTag
  | erroneousEndTagName
  | tagName
  | attribute
  | attributeName
  | attributeValue
  | quotedAttributeValue
  | text
  | entity
  | rawText
  | comment
  | error
  /-- A piece of punctuation or a word of the grammar, which has no name. -/
  | literal (t : Text)
  deriving DecidableEq, Inhabited

namespace Kind

def isNamed : Kind → Bool
  | literal _ => false
  | _ => true

def isElement (k : Kind) : Bool := k == element || k == scriptElement || k == styleElement

def words : Kind → Text
  | document => "document"
  | doctype => "doctype"
  | element => "element"
  | scriptElement => "script element"
  | styleElement => "style element"
  | startTag => "start tag"
  | selfClosingTag => "self closing tag"
  | endTag => "end tag"
  | erroneousEndTag => "erroneous end tag"
  | erroneousEndTagName => "erroneous end tag name"
  | tagName => "tag name"
  | .attribute => "attribute"
  | attributeName => "attribute name"
  | attributeValue => "attribute value"
  | quotedAttributeValue => "quoted attribute value"
  | text => "text"
  | entity => "entity"
  | rawText => "raw text"
  | comment => "comment"
  | error => "ERROR"
  | literal t => t

end Kind

inductive Node
  | node (kind : Kind) (span : Span) (missing : Bool) (children : List Node)
  deriving Inhabited

namespace Node

def kind : Node → Kind
  | node kind _ _ _ => kind

def span : Node → Span
  | node _ span _ _ => span

def missing : Node → Bool
  | node _ _ missing _ => missing

def children : Node → List Node
  | node _ _ _ children => children

def namedChildren (n : Node) : List Node := n.children.filter (·.kind.isNamed)

def text (source : Text) (n : Node) : Text := Text.slice source n.span

def child? (n : Node) (kind : Kind) : Option Node := n.namedChildren.find? (·.kind == kind)

end Node
end MarkupGrader.Markup
