import MarkupGrader.Document.Basic

/-! The nodes of a document numbered and listed: first those of the source, children before their
parent, then the head and the body if these are implied. -/

namespace MarkupGrader.Document

inductive Entry
  | leaf (kind : LeafKind) (span : Span)
  | element (e : Element) (children : List Nat)

mutual

/-- The entries of a node and of all below it, numbered from `start`; its own entry is the last. -/
def entriesOf (start : Nat) : Node → List Entry
  | .leaf kind span => [.leaf kind span]
  | .element e children =>
    let (entries, numbers) := numbered start children
    entries ++ [.element e numbers]

/-- The entries of nodes in a row and below, and the numbers of the nodes. -/
def numbered (start : Nat) : List Node → List Entry × List Nat
  | [] => ([], [])
  | n :: rest =>
    let first := entriesOf start n
    let (entries, numbers) := numbered (start + first.length) rest
    (first ++ entries, (start + first.length - 1) :: numbers)

end

/-- The numbers of the top-level nodes; those below `html` begin after what stands before it. -/
def topNumbers (d : Document) : List Nat :=
  match d.roots.find? (·.isElement "html") with
  | some html =>
    let before := d.roots.takeWhile (!·.isElement "html")
    (numbered (numbered 0 before).1.length html.children).2
  | none => (numbered 0 d.roots).2

structure Arena where
  entries : List Entry
  roots : List Nat
  head : Nat
  body : Nat

/-- Adds the entry of a top-level element, if the document only implies it, and gives its number. -/
def addAnchor (d : Document) (entries : List Entry) (name : Text) (adopts : Node → Bool) :
    List Entry × Nat :=
  let top := d.top.zip (topNumbers d)
  match top.find? (·.1.isElement name) with
  | some (_, number) => (entries, number)
  | none =>
    let children := (top.filter fun pair => adopts pair.1).map Prod.snd
    (entries ++ [.element ⟨some name, [], ⟨0, 0⟩, none, false⟩ children], entries.length)

def arena (d : Document) : Arena :=
  let (entries, roots) := numbered 0 d.roots
  let (entries, head) := addAnchor d entries "head" Node.belongsToHead
  let (entries, body) := addAnchor d entries "body" Node.belongsToBody
  ⟨entries, roots, head, body⟩

end MarkupGrader.Document
