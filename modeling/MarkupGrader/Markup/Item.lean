import MarkupGrader.Markup.Outline
import MarkupGrader.Markup.TagName
import MarkupGrader.Markup.Token

/-! Nesting the tokens of a source into elements. A tag opens an element; an end tag, a later tag or
the end of the source closes it. An end tag that fits no open element is kept as a stray. -/

namespace MarkupGrader.Markup

inductive Closing
  | endTag (t : EndTag)
  | implied
  | selfClosed

inductive Item
  | leaf (t : Token)
  | element (tag : Tag) (content : List Item) (closing : Closing)

/-- An element that is still open, and what stands before it in its parent, last first. -/
structure Frame where
  tag : Tag
  before : List Item

/-- The open elements, innermost first, and the content of the innermost so far, last first. -/
structure Nest where
  frames : List Frame
  content : List Item

namespace Nest

def empty : Nest := ⟨[], []⟩

def add (n : Nest) (item : Item) : Nest := ⟨n.frames, item :: n.content⟩

def keys (frames : List Frame) : List Text := frames.map (·.tag.key)

/-- Ends open elements, from the innermost, for as long as `ends` says so of their names. -/
def endImplied (ends : List Text → Bool) : List Frame → List Item → Nest
  | [], content => ⟨[], content⟩
  | f :: outer, content =>
    if ends (keys (f :: outer)) then
      endImplied ends outer (.element f.tag content.reverse .implied :: f.before)
    else ⟨f :: outer, content⟩

def bareKey (lead : Gap) (key : Text) : Option Text := if lead.isEmpty then some key else none

def addTag (n : Nest) (t : Tag) : Nest :=
  let n := endImplied (TagName.endsAtTag (bareKey t.lead t.key)) n.frames n.content
  if t.selfClosing then n.add (.element t [] .selfClosed) else ⟨⟨t, n.content⟩ :: n.frames, []⟩

/-- Nothing if there is no open element, or if another element's raw content is open. -/
def addEndTag? (n : Nest) (t : EndTag) : Option Nest :=
  match n.frames with
  | [] => none
  | f :: outer =>
    if f.tag.key = t.key then
      some ⟨outer, .element f.tag n.content.reverse (.endTag t) :: f.before⟩
    else if isRawKey f.tag.key then none
    else
      let n := endImplied (TagName.endsAtEndTag (bareKey t.lead t.key)) n.frames n.content
      match n.frames with
      | [] => none
      | f :: outer =>
        if f.tag.key = t.key then
          some ⟨outer, .element f.tag n.content.reverse (.endTag t) :: f.before⟩
        else some (n.add (.leaf (.endTag t)))

def step? (n : Nest) : Token → Option Nest
  | .tag t => some (n.addTag t)
  | .endTag t => n.addEndTag? t
  | t => some (n.add (.leaf t))

end Nest

def items? (tokens : List Token) : Option (List Item) :=
  (tokens.foldlM Nest.step? Nest.empty).bind fun n =>
    let n := Nest.endImplied TagName.endsAtEnd n.frames n.content
    if n.frames.isEmpty then some n.content.reverse else none

def Item.isSpace : Item → Bool
  | .leaf (.filler (.space _)) => true
  | _ => false

/-- Ends all open elements at the end of the source. An element that should have had an end tag ends
with the last of its content, before white space. -/
def Nest.endAll : List Frame → List Item → List Item
  | [], content => content
  | f :: outer, content =>
    if TagName.endsAtEnd (Nest.keys (f :: outer)) then
      Nest.endAll outer (.element f.tag content.reverse .implied :: f.before)
    else
      Nest.endAll outer (content.takeWhile Item.isSpace ++
        .element f.tag (content.dropWhile Item.isSpace).reverse .implied :: f.before)

def unclosedItems? (tokens : List Token) : Option (List Item) :=
  (tokens.foldlM Nest.step? Nest.empty).map fun n => (Nest.endAll n.frames n.content).reverse

def Filler.outline : Filler → Outline
  | space t => .gap t
  | comment t => .leaf .comment t

def Value.outline : Value → Outline
  | bare t => .leaf .attributeValue t
  | quoted quote lead t =>
    .group .quotedAttributeValue <|
      .literal [quote] :: lead.map Filler.outline ++
        (if t.isEmpty then [] else [.leaf .attributeValue t]) ++ [.literal [quote]]

def Attribute.outline (a : Attribute) : Outline :=
  .group .attribute <| .leaf .attributeName a.name ::
    match a.assigned with
    | none => []
    | some assigned =>
      assigned.before.map Filler.outline ++ .literal "=" ::
        (assigned.after.map Filler.outline ++ [assigned.value.outline])

def TagPart.outline : TagPart → Outline
  | filler f => f.outline
  | attr a => a.outline

def Tag.outline (t : Tag) : Outline :=
  .group (if t.selfClosing then .selfClosingTag else .startTag) <|
    .literal "<" :: (t.lead.map Filler.outline ++ .leaf .tagName t.name ::
      (t.parts.map TagPart.outline ++ [.literal t.closer]))

def EndTag.outline (kind nameKind : Kind) (t : EndTag) : Outline :=
  .group kind <|
    .literal "</" :: (t.lead.map Filler.outline ++ .leaf nameKind t.name ::
      (t.trail.map Filler.outline ++ [.literal ">"]))

def Doctype.outline (d : Doctype) : Outline :=
  .group .doctype <|
    .literal "<!" :: (d.lead.map Filler.outline ++ .leaf (.literal "doctype") d.word ::
      (d.middle.map Filler.outline ++ [.gap d.body, .literal ">"]))

def Token.outline : Token → Outline
  | filler f => f.outline
  | doctype d => d.outline
  | text t => .leaf .text t
  | entity t => .leaf .entity t
  | tag t => t.outline
  | endTag t => t.outline .erroneousEndTag .erroneousEndTagName
  | raw t => .leaf .rawText t

def Closing.outline : Closing → List Outline
  | endTag t => [t.outline .endTag .tagName]
  | implied => []
  | selfClosed => []

def elementKind (key : Text) : Kind :=
  if key = "SCRIPT" then .scriptElement else if key = "STYLE" then .styleElement else .element

namespace Item

mutual

def outline : Item → Outline
  | leaf t => t.outline
  | element tag content closing =>
    .group (elementKind tag.key) (tag.outline :: (outlines content ++ closing.outline))

def outlines : List Item → List Outline
  | [] => []
  | i :: rest => i.outline :: outlines rest

end

end Item
end MarkupGrader.Markup
