import MarkupGrader.Document.Arena

/-! Walking over a document by numbers. A place is a node together with where it stands among the
children of its parent; the head and the body are places without a parent. -/

namespace MarkupGrader.Document

namespace Entry

def span : Entry → Span
  | leaf _ span => span
  | element e _ => e.span

def children : Entry → List Nat
  | leaf _ _ => []
  | element _ children => children

def isElement (entry : Entry) (name : Text) : Bool :=
  match entry with
  | leaf _ _ => false
  | element e _ => e.name == some name

def isDoctype : Entry → Bool
  | leaf .doctype _ => true
  | _ => false

def isImplied : Entry → Bool
  | leaf _ _ => false
  | element e _ => e.content.isNone

end Entry

structure Place where
  number : Nat
  parent : Option Nat
  index : Nat
  deriving DecidableEq

namespace Arena

def childrenOf (a : Arena) (number : Nat) : List Nat :=
  ((a.entries[number]?).map Entry.children).getD []

def headPlace (a : Arena) : Place := ⟨a.head, none, 0⟩

def bodyPlace (a : Arena) : Place := ⟨a.body, none, 0⟩

def child? (a : Arena) (parent index : Nat) : Option Place :=
  (a.childrenOf parent)[index]?.map fun number => ⟨number, some parent, index⟩

def firstChild? (a : Arena) (p : Place) : Option Place := a.child? p.number 0

def nextSibling? (a : Arena) (p : Place) : Option Place :=
  p.parent.bind fun parent => a.child? parent (p.index + 1)

/-- The numbers of the nodes among which the head and the body are sought. -/
def top (a : Arena) : List Nat :=
  match a.roots.find? fun i => a.entries[i]?.any (·.isElement "html") with
  | some html => a.childrenOf html
  | none => a.roots

end Arena
end MarkupGrader.Document
