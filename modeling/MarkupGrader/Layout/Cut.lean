import MarkupGrader.Layout
import MarkupGrader.Text.Cut

/-! Laying out a document with every text cut out of the source. It fails with the first span that is
none of the source's. The lines of inline nodes in a row are made only where they are used. -/

namespace MarkupGrader.Layout.Cut

open Document (Node Element)

variable (source : Text)

mutual

def hasText : Node → Except Span Bool
  | .leaf .text span => do
    let text ← Text.cut source span
    return !(Text.trim text).isEmpty
  | .leaf _ _ => return false
  | .element _ children => anyText children

def anyText : List Node → Except Span Bool
  | [] => return false
  | n :: rest => do
    if ← hasText n then return true
    anyText rest

end

def inlineContent (e : Element) (children : List Node) : Except Span (Option Text) :=
  match children with
  | [.leaf .rawText span] => do
    let raw ← Text.cut source span
    return if '\n' ∈ Text.trim raw then none else some (Text.trim raw)
  | _ =>
    if allInline children then do
      if ← anyText source children then
        match e.content with
        | none => return none
        | some span =>
          let text ← Text.cut source span
          return some (Text.collapse text)
      else return none
    else return none

def runLines (depth : Nat) (run : List (Node × Except Span (List Line))) :
    Except Span (List Line) :=
  match run.head?, run.getLast? with
  | some (first, _), some (last, _) => do
    if ← anyText source (run.map Prod.fst) then
      let text ← Text.cut source ⟨first.span.start, last.span.stop⟩
      return [⟨depth, Text.collapse text⟩]
    else
      let own ← run.mapM Prod.snd
      return own.flatten
  | _, _ => return []

def blockLines (depth : Nat) (run : List (Node × Except Span (List Line))) :
    List (Node × Except Span (List Line)) → Except Span (List Line)
  | [] => runLines source depth run
  | (n, lines) :: rest =>
    if isInline n then blockLines depth (run ++ [(n, lines)]) rest
    else do
      let before ← runLines source depth run
      let own ← lines
      let behind ← blockLines depth [] rest
      return before ++ own ++ behind

mutual

def nodeLines (depth : Nat) : Node → Except Span (List Line)
  | .leaf .text span => do
    let text ← Text.cut source span
    return [⟨depth, Text.collapse text⟩]
  | .leaf .rawText span => do
    let text ← Text.cut source span
    return (((Text.lines text).map Text.trim).filter (!·.isEmpty)).map (⟨depth, ·⟩)
  | .leaf _ span => do
    let text ← Text.cut source span
    return [⟨depth, Text.trim text⟩]
  | .element e children =>
    let name := e.name.getD []
    if ElementClass.isVoid name then return [⟨depth, startTag e name⟩]
    else if children.isEmpty then return [⟨depth, startTag e name ++ endTag name⟩]
    else do
      match ← if ElementClass.structurals.contains name then pure none
        else inlineContent source e children with
      | some content => return [⟨depth, startTag e name ++ content ++ endTag name⟩]
      | none =>
        let inner := if name = "html" then depth else depth + 1
        let block ← blockLines source inner [] (eachLines inner children)
        return ⟨depth, startTag e name⟩ :: (block ++ [⟨depth, endTag name⟩])

def eachLines (depth : Nat) : List Node → List (Node × Except Span (List Line))
  | [] => []
  | n :: rest => (n, nodeLines depth n) :: eachLines depth rest

end

def format (d : Document) (o : Options) : Except Span (Except Fault Text) :=
  match o.validate with
  | .error fault => return .error fault
  | .ok _ => do
    let each ← (eachLines d.source 0 d.roots).mapM Prod.snd
    return .ok (each.flatten.flatMap (Line.render o (o.lineEnding.resolve d.source)))

end MarkupGrader.Layout.Cut
