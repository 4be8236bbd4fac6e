import MarkupGrader.Markup.Item
import MarkupGrader.Markup.Lexer

/-! Parsing a source. A well-formed source has exactly one tree, and a recovery supplies the tree of
any other. -/

namespace MarkupGrader.Markup

/-- A byte order mark at the beginning is no part of the markup. -/
def byteOrderMark : Char := Char.ofNat 0xFEFF

/-- The byte at which the markup of a source begins, and the markup. -/
def markupOf : Text → Nat × Text
  | [] => (0, [])
  | c :: rest => if c = byteOrderMark then (c.utf8Size, rest) else (0, c :: rest)

def documentNode (source : Text) (items : List Item) : Node :=
  .node .document ⟨0, Text.byteLength source⟩ false
    (Outline.locateAll (markupOf source).1 (Item.outlines items))

def read? (source : Text) : Option Node :=
  ((tokens? (markupOf source).2).bind items?).map (documentNode source)

abbrev Recovery := Text → Node

namespace Recovery

def wholeError (source : Text) : Node :=
  let span : Span := ⟨0, Text.byteLength source⟩
  .node .document span false [.node .error span false []]

/-- Ends open elements at the end of the source, and understands nothing else that is wrong. -/
def atEnd : Recovery := fun source =>
  match (tokens? (markupOf source).2).bind unclosedItems? with
  | some items => documentNode source items
  | none => wholeError source

def ofList (trees : List (Text × Node)) : Recovery := fun source =>
  (trees.lookup source).getD (atEnd source)

end Recovery

def parse (recovery : Recovery) (source : Text) : Node := (read? source).getD (recovery source)

end MarkupGrader.Markup
