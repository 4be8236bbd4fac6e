import MarkupGrader.ElementClass
import MarkupGrader.Markup.Node
import MarkupGrader.Text.Blank

/-! Diagnostics say what is wrong with a source and where. Nothing is said of what lies inside a
part that was not understood. They are listed by position, and those of one position in the order of
a walk over the tree. -/

namespace MarkupGrader

inductive Severity
  | warning
  | error
  deriving DecidableEq, Repr

def Severity.name : Severity → Text
  | warning => "Warning"
  | error => "Error"

structure Diagnostic where
  line : Nat
  column : Nat
  severity : Severity
  message : Text
  deriving DecidableEq

namespace Diagnostic

open Markup (Node Kind)

def display (d : Diagnostic) : Text :=
  "line " ++ Text.ofNat d.line ++ " column " ++ Text.ofNat d.column ++ " - " ++ d.severity.name ++
    ": " ++ d.message

def render (ds : List Diagnostic) : Text := Text.join "\n" (ds.map display)

def of (source : Text) (n : Node) (severity : Severity) (message : Text) : Diagnostic :=
  let (line, column) := Text.lineAndColumn source n.span.start
  ⟨line + 1, column + 1, severity, message⟩

def excerpt (t : Text) : Text :=
  let t := Text.trim t
  Text.replaceChar '\n' "\\n" (if 20 < t.length then t.take 20 ++ "..." else t)

def isQuote (c : Char) : Bool := c == '"' || c == '\''

/-- What stands behind the first equals sign of an attribute, without blanks and quotes around. -/
def writtenValue (t : Text) : Text :=
  match Text.splitFirst? (· = '=') t with
  | none => []
  | some (_, value) =>
    (((Text.trim value).dropWhile isQuote).reverse.dropWhile isQuote).reverse

/-- A diagnostic for an attribute whose name is among those seen before it in the tag. -/
def ofAttribute (source tagName name : Text) (seen : List Text) (a : Node) : List Diagnostic :=
  if seen.contains name then
    [of source a .warning
      ("<" ++ tagName ++ "> dropping value \"" ++ writtenValue (a.text source) ++
        "\" for repeated attribute \"" ++ name ++ "\"")]
  else []

/-- The repeated attributes among the parts of a tag, and the name of the tag. -/
def ofTag (source tagName : Text) (seen : List Text) : List Node → List Diagnostic × Text
  | [] => ([], tagName)
  | part :: rest =>
    if part.kind = .tagName then ofTag source (part.text source).lower seen rest
    else if part.kind = .attribute then
      match (part.child? .attributeName).map fun n => (n.text source).lower with
      | none => ofTag source tagName seen rest
      | some name =>
        let (more, last) := ofTag source tagName (name :: seen) rest
        (ofAttribute source tagName name seen part ++ more, last)
    else ofTag source tagName seen rest

def ofElement (source : Text) (parts : List Node) : List Diagnostic :=
  let tags := parts.filter fun p => p.kind == .startTag || p.kind == .selfClosingTag
  match tags.getLast? with
  | none => []
  | some tag =>
    let (repeated, name) := ofTag source [] [] tag.children
    let closed := tags.any (·.kind == .selfClosingTag) ||
      parts.any (fun p => p.kind == .endTag && !p.missing) ||
      ElementClass.isVoid name || ElementClass.hasOptionalEnd name
    repeated ++
      if closed then [] else [of source tag .warning ("missing </" ++ name ++ ">")]

mutual

def ofNode (source : Text) : Node → List Diagnostic
  | .node kind span missing children =>
    let n : Node := .node kind span missing children
    if kind = .error then
      [of source n .error ("unexpected markup \"" ++ excerpt (n.text source) ++ "\"")]
    else if missing then
      if kind = .endTag then [] else [of source n .error ("missing " ++ kind.words)]
    else
      let own :=
        if kind = .erroneousEndTag then
          let name := ((n.child? .erroneousEndTagName).map fun c => (c.text source).lower).getD []
          [of source n .warning ("discarding unexpected </" ++ name ++ ">")]
        else if kind.isElement then ofElement source children
        else []
      own ++ ofNodes source children

def ofNodes (source : Text) : List Node → List Diagnostic
  | [] => []
  | n :: rest => ofNode source n ++ ofNodes source rest

end

def precedes (a b : Diagnostic) : Bool :=
  a.line < b.line || (a.line == b.line && a.column ≤ b.column)

def collect (source : Text) (root : Node) (requireDoctype : Bool) : List Diagnostic :=
  let absent : List Diagnostic :=
    if requireDoctype && !root.children.any (·.kind == .doctype) then
      [⟨1, 1, .warning, "missing <!DOCTYPE> declaration"⟩]
    else []
  (absent ++ ofNode source root).mergeSort precedes

end Diagnostic
end MarkupGrader
