import MarkupGrader.Proofs.Document.Items
import MarkupGrader.Proofs.Text.Squeeze

/-! What a query can see of a document: its elements with their names and attributes. A selector's
values hold no white space, so that it does not matter how much of it is in the values of a tag. -/

namespace MarkupGrader.Document

open Text (squeeze)
open Markup (isSpace)

inductive View
  | element (name : Option Text) (attributes : List (Text × Text)) (children : List View)

def Attribute.view (a : Attribute) : Text × Text := (a.name, squeeze (a.value.getD []))

namespace View

def name : View → Option Text
  | element name _ _ => name

def attributes : View → List (Text × Text)
  | element _ attributes _ => attributes

def children : View → List View
  | element _ _ children => children

def isElement (v : View) (name : Text) : Bool := v.name == some name

def belongsToHead (v : View) : Bool := v.name.any ElementClass.headOnly.contains

def belongsToBody (v : View) : Bool :=
  !v.isElement "head" && !v.isElement "body" && !v.belongsToHead

def top (roots : List View) : List View :=
  match roots.find? (·.isElement "html") with
  | some html => html.children
  | none => roots

/-- The anchor of the name; where there is none, it is implied. -/
def anchor (name : Text) (adopts : View → Bool) (top : List View) : View :=
  (top.find? (·.isElement name)).getD (.element (some name) [] (top.filter adopts))

def tree (roots : List View) : TreeView View where
  head := anchor "head" belongsToHead (top roots)
  body := anchor "body" belongsToBody (top roots)
  children := children
  tagName := name
  attributes := attributes

end View

mutual

def Node.view : Node → View
  | .leaf _ _ => .element none [] []
  | .element e children => .element e.name (e.attributes.map Attribute.view) (viewsOf children)

/-- What is seen of nodes in a row; texts and the like are not seen. -/
def viewsOf : List Node → List View
  | [] => []
  | .leaf _ _ :: rest => viewsOf rest
  | n :: rest => n.view :: viewsOf rest

end

theorem viewsOf_leaf (kind : LeafKind) (span : Span) (rest : List Node) :
    viewsOf (.leaf kind span :: rest) = viewsOf rest := by
  rw [viewsOf]

theorem viewsOf_element (e : Element) (children rest : List Node) :
    viewsOf (.element e children :: rest) = (Node.element e children).view :: viewsOf rest := by
  rw [viewsOf]
  exact fun kind span h => by cases h

theorem viewsOf_append (ns ms : List Node) : viewsOf (ns ++ ms) = viewsOf ns ++ viewsOf ms := by
  induction ns with
  | nil => rfl
  | cons n ns ih =>
    cases n with
    | leaf kind span => rw [List.cons_append, viewsOf_leaf, viewsOf_leaf, ih]
    | element e children => rw [List.cons_append, viewsOf_element, viewsOf_element, ih,
        List.cons_append]

section Lists

variable {p : Node → Bool} {q : View → Bool}

theorem find?_viewsOf (same : ∀ e children, p (.element e children) = q (Node.element e children).view)
    (leaf : ∀ kind span, p (.leaf kind span) = false) (ns : List Node) :
    (viewsOf ns).find? q = (ns.find? p).map Node.view := by
  induction ns with
  | nil => rfl
  | cons n ns ih =>
    cases n with
    | leaf kind span =>
      rw [viewsOf_leaf, ih, List.find?_cons_of_neg (by rw [leaf]; exact Bool.false_ne_true)]
    | element e children =>
      rw [viewsOf_element, List.find?_cons, List.find?_cons, ← same e children, ih]
      cases p (.element e children) <;> rfl

theorem filter_viewsOf
    (same : ∀ e children, p (.element e children) = q (Node.element e children).view)
    (ns : List Node) : viewsOf (ns.filter p) = (viewsOf ns).filter q := by
  induction ns with
  | nil => rfl
  | cons n ns ih =>
    cases n with
    | leaf kind span =>
      rw [viewsOf_leaf, ← ih, List.filter_cons]
      split
      · rw [viewsOf_leaf]
      · rfl
    | element e children =>
      rw [viewsOf_element, List.filter_cons, List.filter_cons, ← same e children, ← ih]
      split
      · rw [viewsOf_element]
      · rfl

end Lists

theorem any_isSpace_squeeze (t : Text) : (squeeze t).any isSpace = t.any isSpace := by
  induction t with
  | nil => rfl
  | cons c t ih =>
    cases space : isSpace c with
    | false => rw [Text.squeeze_cons_of_solid space, List.any_cons, List.any_cons, ih]
    | true =>
      rw [List.any_cons, space, Bool.true_or]
      cases led : Text.isLed t with
      | true =>
        rw [Text.squeeze_cons_of_led space led, ih]
        cases t with
        | nil => cases led
        | cons d t =>
          have next : isSpace d = true := led
          rw [List.any_cons, next, Bool.true_or]
      | false =>
        rw [Text.squeeze_cons_of_space space led, List.any_cons, Text.isSpace_space, Bool.true_or]

theorem squeeze_squeeze (t : Text) : squeeze (squeeze t) = squeeze t := by
  induction t with
  | nil => rfl
  | cons c t ih =>
    cases space : isSpace c with
    | false => rw [Text.squeeze_cons_of_solid space, Text.squeeze_cons_of_solid space, ih]
    | true =>
      cases led : Text.isLed t with
      | true => rw [Text.squeeze_cons_of_led space led, ih]
      | false =>
        rw [Text.squeeze_cons_of_space space led,
          Text.squeeze_cons_of_space Text.isSpace_space (by rw [Text.isLed_squeeze, led]), ih]

theorem squeeze_eq_iff {v w : Text} (solid : ∀ c ∈ w, isSpace c = false) :
    squeeze v = w ↔ v = w := by
  constructor
  · intro eq
    have none : v.any isSpace = false := by
      rw [← any_isSpace_squeeze, eq, List.any_eq_false]
      simpa using solid
    rw [List.any_eq_false] at none
    rwa [Text.squeeze_of_solid (by simpa using none)] at eq
  · rintro rfl
    exact Text.squeeze_of_solid solid

section Follow

variable {d : Document} {s : Selector}

abbrev Solid (s : Selector) : Prop := ∀ pair ∈ s.attributes, ∀ c ∈ pair.2, isSpace c = false

theorem satisfies_view (solid : Solid s) (roots : List View) (e : Element) (children : List Node) :
    d.tree.satisfies s (.element e children) =
      (View.tree roots).satisfies s (Node.element e children).view := by
  have attributes : d.tree.hasAttributes (.element e children) s =
      (View.tree roots).hasAttributes (Node.element e children).view s := by
    unfold TreeView.hasAttributes
    rw [Bool.eq_iff_iff, List.all_eq_true, List.all_eq_true]
    refine forall₂_congr fun pair mem => ?_
    have each (a : Attribute) : ((a.name, a.value.getD []) == pair) = (a.view == pair) := by
      obtain ⟨key, value⟩ := pair
      rw [Bool.eq_iff_iff, beq_iff_eq, beq_iff_eq, Attribute.view, Prod.mk.injEq, Prod.mk.injEq,
        squeeze_eq_iff (solid _ mem)]
    have left : d.tree.attributes (.element e children) =
        e.attributes.map fun a => (a.name, a.value.getD []) := rfl
    have right : (View.tree roots).attributes (Node.element e children).view =
        e.attributes.map Attribute.view := rfl
    rw [left, right, List.any_map, List.any_map]
    exact iff_of_eq (congrArg (· = true) (congrArg e.attributes.any (funext each)))
  rw [TreeView.satisfies, TreeView.satisfies, attributes]
  rfl

theorem childFor_view (solid : Solid s) (roots : List View) (n : Node) :
    (View.tree roots).childFor n.view s = (d.tree.childFor n s).map Node.view := by
  have leaf : ∀ kind span, d.tree.satisfies s (.leaf kind span) = false := fun kind span => rfl
  have found := find?_viewsOf (satisfies_view (d := d) solid roots) leaf n.children
  have children : (View.tree roots).children n.view = viewsOf n.children := by cases n <;> rfl
  rw [TreeView.childFor, children, found]
  rfl

theorem descend_view {ss : List Selector} (solid : ∀ s ∈ ss, Solid s) (roots : List View) (n : Node) :
    (View.tree roots).descend n.view ss = (d.tree.descend n ss).map Node.view := by
  induction ss generalizing n with
  | nil => rfl
  | cons s ss ih =>
    obtain ⟨own, others⟩ := List.forall_mem_cons.mp solid
    rw [TreeView.descend, TreeView.descend, childFor_view (d := d) own]
    cases d.tree.childFor n s with
    | none => rfl
    | some child => exact congrArg (List.cons child.view) (ih others child)

theorem find?_isElement (name : Text) (ns : List Node) :
    (viewsOf ns).find? (·.isElement name) = (ns.find? (·.isElement name)).map Node.view :=
  find?_viewsOf (fun _ _ => rfl) (fun _ _ => rfl) ns

theorem viewsOf_top (d : Document) : viewsOf d.top = View.top (viewsOf d.roots) := by
  have found := find?_isElement "html" d.roots
  rw [top, View.top, found]
  cases eq : d.roots.find? (·.isElement "html") with
  | none => rfl
  | some html => cases html <;> rfl

theorem view_head (d : Document) :
    d.head.view = View.anchor "head" View.belongsToHead (View.top (viewsOf d.roots)) := by
  have found := find?_isElement "head" d.top
  have adopted := @filter_viewsOf Node.belongsToHead View.belongsToHead (fun _ _ => rfl) d.top
  rw [head, View.anchor, ← viewsOf_top, found, ← adopted]
  cases d.top.find? (·.isElement "head") <;> rfl

theorem view_body (d : Document) :
    d.body.view = View.anchor "body" View.belongsToBody (View.top (viewsOf d.roots)) := by
  have found := find?_isElement "body" d.top
  have adopted := @filter_viewsOf Node.belongsToBody View.belongsToBody (fun _ _ => rfl) d.top
  rw [body, View.anchor, ← viewsOf_top, found, ← adopted]
  cases d.top.find? (·.isElement "body") <;> rfl

theorem follow_view (d : Document) {c : Selector.Chain} (solid : ∀ s ∈ c.toList, Solid s) :
    d.tree.follow c = (View.tree (viewsOf d.roots)).follow c := by
  have rest : ∀ s ∈ c.rest, Solid s := fun s hs => solid s (List.mem_cons_of_mem _ hs)
  have start : (View.tree (viewsOf d.roots)).anchor c = (d.tree.anchor c).view := by
    unfold TreeView.anchor
    split
    · exact (view_head d).symm
    · exact (view_body d).symm
  rw [TreeView.follow, TreeView.follow, start, descend_view (d := d) rest, List.length_map]

end Follow

end MarkupGrader.Document

namespace MarkupGrader.Markup.Item

open Document (View viewsOf)

mutual

def views : Item → List View
  | leaf _ => []
  | element tag content _ =>
    [.element (some tag.elementName) (tag.attributes.map Document.Attribute.view)
      (viewsAll content)]

def viewsAll : List Item → List View
  | [] => []
  | i :: rest => i.views ++ viewsAll rest

end

theorem viewsAll_eq_flatMap (items : List Item) : viewsAll items = items.flatMap views := by
  induction items with
  | nil => rfl
  | cons i items ih => rw [viewsAll, ih, List.flatMap_cons]

theorem viewsAll_append (items more : List Item) :
    viewsAll (items ++ more) = viewsAll items ++ viewsAll more := by
  rw [viewsAll_eq_flatMap, viewsAll_eq_flatMap, viewsAll_eq_flatMap, List.flatMap_append]

mutual

theorem viewsOf_nodesAt (start : Nat) : ∀ i : Item, viewsOf (i.nodesAt start) = i.views
  | leaf t => by
    rw [nodesAt, views]
    split <;> rfl
  | element tag content closing => by
    rw [nodesAt, Document.viewsOf_element, Document.Node.view, viewsOf_nodesAtAll _ content, views]
    rfl

theorem viewsOf_nodesAtAll (start : Nat) :
    ∀ items : List Item, viewsOf (nodesAtAll start items) = viewsAll items
  | [] => rfl
  | i :: rest => by
    rw [nodesAtAll, Document.viewsOf_append, viewsOf_nodesAt start i, viewsOf_nodesAtAll _ rest,
      viewsAll]

end

/-- How far a chain matches in a page is told from what is seen of its items. -/
theorem follow_items {source : Text} {items : List Item} (read : ReadAs source items)
    (plain : ∀ i ∈ items, i.Plain) {c : Selector.Chain}
    (solid : ∀ s ∈ c.toList, Document.Solid s) :
    (Document.ofSyntax source (documentNode source items)).tree.follow c =
      (View.tree (viewsAll items)).follow c := by
  rw [Document.follow_view _ solid, Document.roots_ofSyntax read plain, viewsOf_nodesAtAll]

end MarkupGrader.Markup.Item
