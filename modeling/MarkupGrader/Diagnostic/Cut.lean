import MarkupGrader.Diagnostic
import MarkupGrader.Text.Cut

/-! Collecting diagnostics with every text cut out of the source. It fails with the first span that
is none of the source's. -/

namespace MarkupGrader.Diagnostic.Cut

open Markup (Node Kind)

variable (source : Text)

def ofAttribute (tagName name : Text) (seen : List Text) (a : Node) : Except Span (List Diagnostic) :=
  if seen.contains name then do
    let text ← Text.cut source a.span
    return [of source a .warning
      ("<" ++ tagName ++ "> dropping value \"" ++ writtenValue text ++
        "\" for repeated attribute \"" ++ name ++ "\"")]
  else return []

def ofTag (tagName : Text) (seen : List Text) : List Node → Except Span (List Diagnostic × Text)
  | [] => return ([], tagName)
  | part :: rest =>
    if part.kind = .tagName then do
      let name ← Text.cut source part.span
      ofTag name.lower seen rest
    else if part.kind = .attribute then
      match part.child? .attributeName with
      | none => ofTag tagName seen rest
      | some n => do
        let name ← Text.cut source n.span
        let own ← ofAttribute source tagName name.lower seen part
        let (more, last) ← ofTag tagName (name.lower :: seen) rest
        return (own ++ more, last)
    else ofTag tagName seen rest

def ofElement (parts : List Node) : Except Span (List Diagnostic) :=
  let tags := parts.filter fun p => p.kind == .startTag || p.kind == .selfClosingTag
  match tags.getLast? with
  | none => return []
  | some tag => do
    let (repeated, name) ← ofTag source [] [] tag.children
    let closed := tags.any (·.kind == .selfClosingTag) ||
      parts.any (fun p => p.kind == .endTag && !p.missing) ||
      ElementClass.isVoid name || ElementClass.hasOptionalEnd name
    return repeated ++
      if closed then [] else [of source tag .warning ("missing </" ++ name ++ ">")]

def ofSelf (n : Node) : Except Span (List Diagnostic) :=
  if n.kind = .erroneousEndTag then do
    let name ← match n.child? .erroneousEndTagName with
      | some c => Text.cut source c.span
      | none => pure []
    return [of source n .warning ("discarding unexpected </" ++ name.lower ++ ">")]
  else if n.kind.isElement then ofElement source n.children
  else return []

mutual

def ofNode : Node → Except Span (List Diagnostic)
  | .node kind span missing children =>
    let n : Node := .node kind span missing children
    if kind = .error then do
      let text ← Text.cut source span
      return [of source n .error ("unexpected markup \"" ++ excerpt text ++ "\"")]
    else if missing then
      return if kind = .endTag then [] else [of source n .error ("missing " ++ kind.words)]
    else do
      let own ← ofSelf source n
      let more ← ofNodes children
      return own ++ more

def ofNodes : List Node → Except Span (List Diagnostic)
  | [] => return []
  | n :: rest => do
    let first ← ofNode n
    let more ← ofNodes rest
    return first ++ more

end

def collect (root : Node) (requireDoctype : Bool) : Except Span (List Diagnostic) := do
  let absent : List Diagnostic :=
    if requireDoctype && !root.children.any (·.kind == .doctype) then
      [⟨1, 1, .warning, "missing <!DOCTYPE> declaration"⟩]
    else []
  let found ← ofNode source root
  return (absent ++ found).mergeSort precedes

end MarkupGrader.Diagnostic.Cut
