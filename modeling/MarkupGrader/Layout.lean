import MarkupGrader.Document.Basic
import MarkupGrader.Fault
import MarkupGrader.Text.Blank
import MarkupGrader.Text.Lines

/-! The canonical layout of a document. An element whose content is a single line of text and inline
elements stays on one line; any other element has its tags on lines of their own, with its content
indented between them. Inline nodes in a row share a line if there is text among them. -/

namespace MarkupGrader

inductive LineEnding
  /-- That of the source: with a carriage return if any line of it ends so. -/
  | auto
  | lf
  | crlf
  deriving DecidableEq, Repr

def hasCarriageReturn : Text → Bool
  | [] => false
  | c :: rest => (c == '\r' && rest.head? == some '\n') || hasCarriageReturn rest

def LineEnding.resolve (source : Text) : LineEnding → Text
  | lf => "\n"
  | crlf => "\r\n"
  | auto => if hasCarriageReturn source then "\r\n" else "\n"

namespace Layout

open Document (Node Element)

structure Options where
  indent : Nat
  lineEnding : LineEnding
  deriving DecidableEq, Repr

def maxIndent : Nat := 8

def Options.validate (o : Options) : Except Fault Unit :=
  if 1 ≤ o.indent ∧ o.indent ≤ maxIndent then .ok ()
  else
    .error (.moduleConfigurationFailed
      ("indent width " ++ Text.ofNat o.indent ++ " is outside 1..=" ++ Text.ofNat maxIndent))

structure Line where
  depth : Nat
  text : Text
  deriving DecidableEq

mutual

def isInline : Node → Bool
  | .leaf kind _ => kind == .text
  | .element e children => e.name.any ElementClass.inlines.contains && allInline children

def allInline : List Node → Bool
  | [] => true
  | n :: rest => isInline n && allInline rest

end

mutual

def hasText (source : Text) : Node → Bool
  | .leaf kind span => kind == .text && !(Text.trim (Text.slice source span)).isEmpty
  | .element _ children => anyText source children

def anyText (source : Text) : List Node → Bool
  | [] => false
  | n :: rest => hasText source n || anyText source rest

end

def attributeText (a : Document.Attribute) : Text :=
  " " ++ a.name ++ match a.value with
    | none => []
    | some value => "=\"" ++ value ++ "\""

def startTag (e : Element) (name : Text) : Text :=
  "<" ++ name ++ e.attributes.flatMap attributeText ++ ">"

def endTag (name : Text) : Text := "</" ++ name ++ ">"

/-- The content of an element on one line, if it may stand so. -/
def inlineContent (source : Text) (e : Element) (children : List Node) : Option Text :=
  match children with
  | [.leaf .rawText span] =>
    let raw := Text.trim (Text.slice source span)
    if '\n' ∈ raw then none else some raw
  | _ =>
    if allInline children && anyText source children then
      e.content.map fun span => Text.collapse (Text.slice source span)
    else none

/-- The lines of inline nodes in a row. With text among them they share a line, copied from the
source; without, each has its own lines. -/
def runLines (source : Text) (depth : Nat) (run : List (Node × List Line)) : List Line :=
  match run.head?, run.getLast? with
  | some (first, _), some (last, _) =>
    if anyText source (run.map Prod.fst) then
      [⟨depth, Text.collapse (Text.slice source ⟨first.span.start, last.span.stop⟩)⟩]
    else run.flatMap Prod.snd
  | _, _ => []

/-- The lines of the content of an element, from each node's own lines. `run` holds the inline nodes
that stand directly before. -/
def blockLines (source : Text) (depth : Nat) (run : List (Node × List Line)) :
    List (Node × List Line) → List Line
  | [] => runLines source depth run
  | (n, lines) :: rest =>
    if isInline n then blockLines source depth (run ++ [(n, lines)]) rest
    else runLines source depth run ++ lines ++ blockLines source depth [] rest

mutual

def nodeLines (source : Text) (depth : Nat) : Node → List Line
  | .leaf .text span => [⟨depth, Text.collapse (Text.slice source span)⟩]
  | .leaf .rawText span =>
    (((Text.lines (Text.slice source span)).map Text.trim).filter (!·.isEmpty)).map (⟨depth, ·⟩)
  | .leaf _ span => [⟨depth, Text.trim (Text.slice source span)⟩]
  | .element e children =>
    let name := e.name.getD []
    if ElementClass.isVoid name then [⟨depth, startTag e name⟩]
    else if children.isEmpty then [⟨depth, startTag e name ++ endTag name⟩]
    else
      match if ElementClass.structurals.contains name then none
        else inlineContent source e children with
      | some content => [⟨depth, startTag e name ++ content ++ endTag name⟩]
      | none =>
        let inner := if name = "html" then depth else depth + 1
        ⟨depth, startTag e name⟩ ::
          (blockLines source inner [] (eachLines source inner children) ++
            [⟨depth, endTag name⟩])

def eachLines (source : Text) (depth : Nat) : List Node → List (Node × List Line)
  | [] => []
  | n :: rest => (n, nodeLines source depth n) :: eachLines source depth rest

end

def Line.render (o : Options) (newline : Text) (l : Line) : Text :=
  Text.indent o.indent l.depth ++ l.text ++ newline

def lines (d : Document) : List Line := (eachLines d.source 0 d.roots).flatMap Prod.snd

def render (d : Document) (o : Options) : Text :=
  (lines d).flatMap (Line.render o (o.lineEnding.resolve d.source))

def format (d : Document) (o : Options) : Except Fault Text :=
  o.validate.map fun _ => render d o

def withoutTerminator (t : Text) : Text :=
  ((Text.before? "\r\n" t).or (Text.before? "\n" t)).getD t

def isCanonical (source formatted : Text) : Bool := source == withoutTerminator formatted

end Layout
end MarkupGrader
