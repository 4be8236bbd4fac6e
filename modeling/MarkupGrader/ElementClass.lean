import MarkupGrader.Text.Basic

/-! Classes of elements, by their lower-case names. -/

namespace MarkupGrader.ElementClass

def voids : List Text :=
  ["area", "base", "br", "col", "embed", "hr", "img", "input", "link", "meta", "param", "source",
    "track", "wbr"]

def optionalEnds : List Text :=
  ["li", "dt", "dd", "option", "optgroup", "tr", "td", "th", "thead", "tbody", "tfoot", "colgroup",
    "html", "head", "body", "rp", "rt"]

def headOnly : List Text := ["title", "meta", "link", "base", "style"]

def inlines : List Text :=
  ["a", "abbr", "b", "bdi", "bdo", "br", "cite", "code", "data", "dfn", "em", "i", "img", "kbd",
    "label", "mark", "q", "s", "samp", "small", "span", "strong", "sub", "sup", "time", "u", "var",
    "wbr"]

def structurals : List Text := ["html", "head", "body"]

def isVoid (name : Text) : Bool := voids.contains name

def hasOptionalEnd (name : Text) : Bool := optionalEnds.contains name

end MarkupGrader.ElementClass
