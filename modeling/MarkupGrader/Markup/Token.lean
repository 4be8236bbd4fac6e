import MarkupGrader.Text.Basic

/-! Tokens of a well-formed markup source. Each keeps every character it was read from, so that the
sources of the tokens, one after the other, are the source they were read from. White space and
comments may stand between any two pieces of a token and are kept as its gaps. -/

namespace MarkupGrader.Markup

def isSpace (c : Char) : Bool := c == ' ' || (0x09 ≤ c.toNat && c.toNat ≤ 0x0D)

inductive Filler
  | space (t : Text)
  | comment (t : Text)
  deriving DecidableEq

abbrev Gap := List Filler

inductive Value
  | bare (t : Text)
  | quoted (quote : Char) (lead : Gap) (t : Text)
  deriving DecidableEq

/-- The equals sign of an attribute, the gaps around it, and the value. -/
structure Assignment where
  before : Gap
  after : Gap
  value : Value
  deriving DecidableEq

structure Attribute where
  name : Text
  assigned : Option Assignment
  deriving DecidableEq

inductive TagPart
  | filler (f : Filler)
  | attr (a : Attribute)
  deriving DecidableEq

/-- A tag that opens an element, and closes it too if it is self-closing. -/
structure Tag where
  lead : Gap
  name : Text
  parts : List TagPart
  selfClosing : Bool
  deriving DecidableEq

structure EndTag where
  lead : Gap
  name : Text
  trail : Gap
  deriving DecidableEq

structure Doctype where
  lead : Gap
  word : Text
  middle : Gap
  body : Text
  deriving DecidableEq

inductive Token
  | filler (f : Filler)
  | doctype (d : Doctype)
  | text (t : Text)
  | entity (t : Text)
  | tag (t : Tag)
  | endTag (t : EndTag)
  | raw (t : Text)
  deriving DecidableEq

def Filler.source : Filler → Text
  | space t => t
  | comment t => t

def Gap.source (g : Gap) : Text := g.flatMap Filler.source

def Value.source : Value → Text
  | bare t => t
  | quoted quote lead t => quote :: lead.source ++ t ++ [quote]

def Assignment.source (a : Assignment) : Text :=
  a.before.source ++ "=" ++ a.after.source ++ a.value.source

def Attribute.source (a : Attribute) : Text :=
  a.name ++ match a.assigned with
    | none => []
    | some assigned => assigned.source

def TagPart.source : TagPart → Text
  | filler f => f.source
  | attr a => a.source

def Tag.closer (t : Tag) : Text := if t.selfClosing then "/>" else ">"

def Tag.source (t : Tag) : Text :=
  "<" ++ t.lead.source ++ t.name ++ t.parts.flatMap TagPart.source ++ t.closer

def EndTag.source (t : EndTag) : Text := "</" ++ t.lead.source ++ t.name ++ t.trail.source ++ ">"

def Doctype.source (d : Doctype) : Text :=
  "<!" ++ d.lead.source ++ d.word ++ d.middle.source ++ d.body ++ ">"

def Token.source : Token → Text
  | filler f => f.source
  | doctype d => d.source
  | text t => t
  | entity t => t
  | tag t => t.source
  | endTag t => t.source
  | raw t => t

def Tag.key (t : Tag) : Text := t.name.upper

def EndTag.key (t : EndTag) : Text := t.name.upper

/-- The content of a script or style element is text up to its end tag. -/
def isRawKey (key : Text) : Bool := key == "SCRIPT" || key == "STYLE"

end MarkupGrader.Markup
