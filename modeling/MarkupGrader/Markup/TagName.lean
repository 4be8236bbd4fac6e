import MarkupGrader.Text.Basic

/-! Which elements end without an end tag. Tag names are compared in upper case. All names outside
the two tables are alike in what may contain them and in what an end tag may end. -/

namespace MarkupGrader.Markup.TagName

def voids : List Text :=
  ["AREA", "BASE", "BASEFONT", "BGSOUND", "BR", "COL", "COMMAND", "EMBED", "FRAME", "HR", "IMAGE",
    "IMG", "INPUT", "ISINDEX", "KEYGEN", "LINK", "MENUITEM", "META", "NEXTID", "PARAM", "SOURCE",
    "TRACK", "WBR"]

def others : List Text :=
  List.map String.toList ["A", "ABBR", "ADDRESS", "ARTICLE", "ASIDE", "AUDIO", "B", "BDI", "BDO",
    "BLOCKQUOTE", "BODY", "BUTTON", "CANVAS", "CAPTION", "CITE", "CODE", "COLGROUP", "DATA",
    "DATALIST", "DD", "DEL", "DETAILS", "DFN", "DIALOG", "DIV", "DL", "DT", "EM", "FIELDSET",
    "FIGCAPTION", "FIGURE", "FOOTER", "FORM", "H1", "H2", "H3", "H4", "H5", "H6", "HEAD", "HEADER",
    "HGROUP", "HTML", "I", "IFRAME", "INS", "KBD", "LABEL", "LEGEND", "LI", "MAIN", "MAP", "MARK",
    "MATH", "MENU", "METER", "NAV", "NOSCRIPT", "OBJECT", "OL", "OPTGROUP", "OPTION", "OUTPUT", "P",
    "PICTURE", "PRE", "PROGRESS", "Q", "RB", "RP", "RT", "RTC", "RUBY", "S", "SAMP", "SCRIPT",
    "SECTION", "SELECT", "SLOT", "SMALL", "SPAN", "STRONG", "STYLE", "SUB", "SUMMARY", "SUP", "SVG",
    "TABLE", "TBODY", "TD", "TEMPLATE", "TEXTAREA", "TFOOT", "TH", "THEAD", "TIME", "TITLE", "TR",
    "U", "UL", "VAR", "VIDEO"]

def isVoid (name : Text) : Bool := voids.contains name

def isKnown (name : Text) : Bool := isVoid name || others.contains name

def sameKind (a b : Text) : Bool := if isKnown a || isKnown b then a == b else true

def paragraphEnders : List Text :=
  ["ADDRESS", "ARTICLE", "ASIDE", "BLOCKQUOTE", "DETAILS", "DIV", "DL", "FIELDSET", "FIGCAPTION",
    "FIGURE", "FOOTER", "FORM", "H1", "H2", "H3", "H4", "H5", "H6", "HEADER", "HR", "MAIN", "NAV",
    "OL", "P", "PRE", "SECTION"]

def ruby : List Text := ["RB", "RT", "RP"]

def canContain (parent name : Text) : Bool :=
  if parent = "LI" then name != "LI"
  else if parent = "DT" ∨ parent = "DD" then name != "DT" && name != "DD"
  else if parent = "P" then !paragraphEnders.contains name
  else if parent = "COLGROUP" then name == "COL"
  else if parent ∈ ruby then !ruby.contains name
  else if parent = "OPTGROUP" then name != "OPTGROUP"
  else if parent = "TR" then name != "TR"
  else if parent = "TD" ∨ parent = "TH" then name != "TD" && name != "TH" && name != "TR"
  else true

/-- Whether the innermost of the open elements, innermost first, ends where a tag begins. The name
is that right behind the angle bracket, if one stands there. -/
def endsAtTag (name : Option Text) : List Text → Bool
  | [] => false
  | top :: _ => isVoid top || name.any fun name => !canContain top name

def endsAtEndTag (name : Option Text) : List Text → Bool
  | [] => false
  | top :: outer => name.any fun name => name != top && (top :: outer).any (sameKind name)

def endsAtEnd : List Text → Bool
  | [] => false
  | top :: _ =>
    isVoid top || !canContain top [] || top == "HTML" || top == "HEAD" || top == "BODY"

end MarkupGrader.Markup.TagName
