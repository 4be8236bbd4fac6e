import MarkupGrader.Document.Basic

/-! A cursor is a place in a document: a node and the siblings behind it. -/

namespace MarkupGrader.Document

structure Cursor where
  node : Node
  later : List Node

namespace Cursor

def firstOf? : List Node → Option Cursor
  | [] => none
  | n :: rest => some ⟨n, rest⟩

def firstChild? (c : Cursor) : Option Cursor := firstOf? c.node.children

def nextSibling? (c : Cursor) : Option Cursor := firstOf? c.later

/-- The head and the body are places of their own, apart from the nodes around them. -/
def head (d : Document) : Cursor := ⟨d.head, []⟩

def body (d : Document) : Cursor := ⟨d.body, []⟩

def onward (c : Cursor) : List Node := c.node :: c.later

end Cursor
end MarkupGrader.Document
