import MarkupGrader.Selector.Basic

/-! Matching a chain against a tree of elements. Starting at the head or the body, each selector
takes the first child with its tag name and its attribute values, and the match ends where no child
will do. A later sibling is never tried after a deeper selector has failed. -/

namespace MarkupGrader

/-- What matching needs to know of a tree whose nodes have type `ν`. -/
structure TreeView (ν : Type) where
  head : ν
  body : ν
  children : ν → List ν
  /-- Nothing for text, comments and the like. -/
  tagName : ν → Option Text
  /-- In source order; names may repeat. -/
  attributes : ν → List (Text × Text)

/-- How many selectors found their element, out of how many, and the name of the first that did
not. -/
structure ChainMatch where
  matched : Nat
  chainLength : Nat
  missing : Option Text
  deriving DecidableEq

namespace ChainMatch

def isComplete (r : ChainMatch) : Bool := r.matched == r.chainLength

end ChainMatch

namespace TreeView

variable {ν : Type}

def hasAttributes (t : TreeView ν) (node : ν) (s : Selector) : Bool :=
  s.attributes.all fun pair => (t.attributes node).any (· == pair)

def satisfies (t : TreeView ν) (s : Selector) (node : ν) : Bool :=
  t.tagName node == some s.name && t.hasAttributes node s

def childFor (t : TreeView ν) (parent : ν) (s : Selector) : Option ν :=
  (t.children parent).find? (t.satisfies s)

/-- The nodes found below `node`, one for each selector, up to the first without one. -/
def descend (t : TreeView ν) (node : ν) : List Selector → List ν
  | [] => []
  | s :: rest =>
    match t.childFor node s with
    | none => []
    | some child => child :: t.descend child rest

def anchor (t : TreeView ν) (c : Selector.Chain) : ν :=
  if c.startsAtHead then t.head else t.body

def follow (t : TreeView ν) (c : Selector.Chain) : ChainMatch :=
  let matched := 1 + (t.descend (t.anchor c) c.rest).length
  ⟨matched, c.length, (c.toList[matched]?).map Selector.name⟩

end TreeView
end MarkupGrader
