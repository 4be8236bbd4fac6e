import MarkupGrader.Document.Cut
import MarkupGrader.Proofs.Document.Placed
import MarkupGrader.Proofs.Text.Cut

/-! Building with cut texts. Where the nodes of a source begin and end at its characters, every text
can be cut out, and what the parts of an element leave behind one after the other is what the last of
each kind says. -/

namespace MarkupGrader

theorem Markup.Node.Placed.cut {source : Text} {m : Markup.Node}
    (placed : m.Placed source.IsBoundary) : Text.cut source m.span = .ok (m.text source) := by
  cases placed with
  | node start stop row _ => exact Text.cut_of_isBoundary row.le start stop

theorem Markup.Node.Placed.child? {fits : Nat → Prop} {m part : Markup.Node} {kind : Markup.Kind}
    (placed : m.Placed fits) (found : m.child? kind = some part) : part.Placed fits :=
  placed.parts.2 part (List.mem_of_mem_filter (List.mem_of_find?_eq_some found))

namespace Document

open Markup (Kind)

variable {source : Text} {part m : Markup.Node} {ps : List Markup.Node}

namespace Cut

theorem attributePart_eq (held : Option Text × Option Text) (placed : part.Placed source.IsBoundary) :
    attributePart source held part =
      .ok (((if [Kind.attributeName].contains part.kind then some part else none).map
          fun n => (n.text source).lower).or held.1,
        ((if [Kind.attributeValue, .quotedAttributeValue].contains part.kind then some part
          else none).map (valueOf source)).or held.2) := by
  have own := placed.cut
  have inner : ∀ v, part.child? .attributeValue = some v → v.Placed source.IsBoundary :=
    fun v => placed.child?
  obtain ⟨kind, span, missing, children⟩ := part
  cases kind with
  | attributeName => simp [attributePart, Markup.Node.kind, own]
  | attributeValue => simp [attributePart, Markup.Node.kind, own, valueOf]
  | quotedAttributeValue =>
    rw [attributePart, Markup.Node.kind]
    cases found : (Markup.Node.node .quotedAttributeValue span missing children).child?
        .attributeValue with
    | none =>
      simp [valueOf, Markup.Node.kind, found]
      rfl
    | some v => simp [valueOf, Markup.Node.kind, found, (inner v found).cut]
  | _ => rfl

theorem foldlM_attributePart (placed : ∀ p ∈ ps, p.Placed source.IsBoundary)
    (held : Option Text × Option Text) :
    ps.foldlM (attributePart source) held =
      .ok (((lastOfKind? [.attributeName] ps).map fun n => (n.text source).lower).or held.1,
        ((lastOfKind? [.attributeValue, .quotedAttributeValue] ps).map (valueOf source)).or
          held.2) := by
  induction ps generalizing held with
  | nil => rfl
  | cons p rest ih =>
    obtain ⟨own, others⟩ := List.forall_mem_cons.mp placed
    rw [List.foldlM_cons, attributePart_eq held own]
    refine (ih others _).trans ?_
    rw [lastOfKind?_cons, lastOfKind?_cons, Option.map_or, Option.map_or, Option.or_assoc,
      Option.or_assoc]

theorem attribute?_eq (placed : m.Placed source.IsBoundary) :
    attribute? source m = .ok (attributeOf? source m) := by
  rw [attribute?, foldlM_attributePart placed.parts.2, Option.or_none, Option.or_none, attributeOf?]
  cases lastOfKind? [.attributeName] m.children <;> rfl

theorem tagPart_eq (held : Option Text × List Attribute) (placed : part.Placed source.IsBoundary) :
    tagPart source held part =
      .ok (((if [Kind.tagName].contains part.kind then some part else none).map
          fun n => (n.text source).lower).or held.1,
        held.2 ++ ([part].filter (·.kind == .attribute)).filterMap (attributeOf? source)) := by
  have own := placed.cut
  have inner := attribute?_eq placed
  obtain ⟨kind, span, missing, children⟩ := part
  cases kind with
  | tagName => simp [tagPart, Markup.Node.kind, own]
  | «attribute» =>
    simp only [tagPart, Markup.Node.kind, inner]
    cases found : attributeOf? source (.node .attribute span missing children) with
    | none => simp [found]
    | some own => simp [found]
  | _ => simp [tagPart, Markup.Node.kind]; rfl

theorem foldlM_tagPart (placed : ∀ p ∈ ps, p.Placed source.IsBoundary)
    (held : Option Text × List Attribute) :
    ps.foldlM (tagPart source) held =
      .ok (((lastOfKind? [.tagName] ps).map fun n => (n.text source).lower).or held.1,
        held.2 ++ (ps.filter (·.kind == .attribute)).filterMap (attributeOf? source)) := by
  induction ps generalizing held with
  | nil => simp [lastOfKind?]; rfl
  | cons p rest ih =>
    obtain ⟨own, others⟩ := List.forall_mem_cons.mp placed
    rw [List.foldlM_cons, tagPart_eq held own]
    refine (ih others _).trans ?_
    rw [lastOfKind?_cons, Option.map_or, Option.or_assoc, List.append_assoc,
      ← List.filterMap_append, ← List.filter_append]
    rfl

theorem tag_eq (placed : m.Placed source.IsBoundary) :
    tag source m = .ok (tagNameOf source m, attributesOf source m) := by
  rw [tag, foldlM_tagPart placed.parts.2, Option.or_none]
  rfl

def lastTag? : List Markup.Node → Option Markup.Node := lastOfKind? [.startTag, .selfClosingTag]

def lastEndTag? (ps : List Markup.Node) : Option Markup.Node :=
  lastOfKind? [.endTag] (ps.filter (!·.missing))

theorem lastTag?_cons (part : Markup.Node) (rest : List Markup.Node) :
    lastTag? (part :: rest) = (lastTag? rest).or
      (if part.kind = .startTag ∨ part.kind = .selfClosingTag then some part else none) := by
  rw [lastTag?, lastOfKind?_cons]
  simp

theorem lastEndTag?_cons (part : Markup.Node) (rest : List Markup.Node) :
    lastEndTag? (part :: rest) = (lastEndTag? rest).or
      (if part.kind = .endTag ∧ part.missing = false then some part else none) := by
  rw [lastEndTag?, List.filter_cons]
  cases part.missing with
  | true => simp [lastEndTag?]
  | false => simp [lastEndTag?, lastOfKind?_cons]

/-- A draft after some more parts. -/
def Draft.after (source : Text) (d : Draft) (ps : List Markup.Node) : Draft where
  name := ((lastTag? ps).map (tagNameOf source)).getD d.name
  attributes := ((lastTag? ps).map (attributesOf source)).getD d.attributes
  start := ((lastTag? ps).map (·.span.stop)).getD d.start
  stop := ((lastEndTag? ps).map (·.span.start)).getD d.stop
  hasEndTag := (lastEndTag? ps).isSome || d.hasEndTag
  children := d.children ++ Document.allNodesOf source ps

theorem Draft.after_nil (d : Draft) : d.after source [] = d := by
  simp [Draft.after, lastTag?, lastEndTag?, lastOfKind?, Document.allNodesOf]

theorem nodesOf_tag
    (tag : part.kind = .startTag ∨ part.kind = .selfClosingTag ∨ part.kind = .endTag) :
    Document.nodesOf source part = [] := by
  obtain ⟨kind, span, missing, children⟩ := part
  rcases tag with rfl | rfl | rfl <;> rfl

theorem Draft.after_tag (d : Draft) (tag : part.kind = .startTag ∨ part.kind = .selfClosingTag)
    (rest : List Markup.Node) :
    Draft.after source { d with name := tagNameOf source part,
                                attributes := attributesOf source part,
                                start := part.span.stop } rest = d.after source (part :: rest) := by
  have noEnd : ¬(part.kind = .endTag ∧ part.missing = false) := by
    rintro ⟨kind, -⟩
    rcases tag with own | own <;> cases own.symm.trans kind
  have nodes : Document.nodesOf source part = [] := nodesOf_tag (tag.imp_right .inl)
  simp only [Draft.after, lastTag?_cons, lastEndTag?_cons, if_pos tag, if_neg noEnd, Option.or_none,
    Document.allNodesOf, nodes, List.nil_append]
  cases lastTag? rest <;> rfl

theorem Draft.after_endTag (d : Draft) (tag : part.kind = .endTag ∧ part.missing = false)
    (rest : List Markup.Node) :
    Draft.after source { d with hasEndTag := true, stop := part.span.start } rest =
      d.after source (part :: rest) := by
  have noTag : ¬(part.kind = .startTag ∨ part.kind = .selfClosingTag) := by
    rintro (own | own) <;> cases own.symm.trans tag.1
  have nodes : Document.nodesOf source part = [] := nodesOf_tag (.inr (.inr tag.1))
  simp only [Draft.after, lastTag?_cons, lastEndTag?_cons, if_neg noTag, if_pos tag, Option.or_none,
    Document.allNodesOf, nodes, List.nil_append]
  cases lastEndTag? rest <;> simp

theorem Draft.after_other (d : Draft)
    (noTag : ¬(part.kind = .startTag ∨ part.kind = .selfClosingTag))
    (noEnd : ¬(part.kind = .endTag ∧ part.missing = false)) (rest : List Markup.Node) :
    Draft.after source { d with children := d.children ++ Document.nodesOf source part } rest =
      d.after source (part :: rest) := by
  simp only [Draft.after, lastTag?_cons, lastEndTag?_cons, if_neg noTag, if_neg noEnd,
    Option.or_none, Document.allNodesOf, List.append_assoc]

theorem Draft.finish_after (span : Span) (ps : List Markup.Node) :
    ((Draft.empty span).after source ps).finish span =
      .element (elementOf source span ps) (Document.allNodesOf source ps) := by
  rw [Draft.finish, Draft.after, elementOf, ← lastEndTag?, ← lastTag?]
  simp only [Draft.empty]
  cases lastTag? ps <;> simp

mutual

theorem nodesOf_eq : ∀ m : Markup.Node, m.Placed source.IsBoundary →
    nodesOf source m = .ok (Document.nodesOf source m)
  | .node kind span missing children => by
    intro placed
    have each := placed.parts.2
    have all := allNodesOf_eq children each
    have draft := parts_eq (.empty span) children each
    have element : (do
        let draft ← parts source (.empty span) children
        return [draft.finish span]) =
        .ok [.element (elementOf source span children) (Document.allNodesOf source children)] := by
      rw [draft, ← Draft.finish_after]
      rfl
    cases kind with
    | error => exact all
    | element => exact element
    | scriptElement => exact element
    | styleElement => exact element
    | _ => rfl

theorem allNodesOf_eq : ∀ ms : List Markup.Node, (∀ m ∈ ms, m.Placed source.IsBoundary) →
    allNodesOf source ms = .ok (Document.allNodesOf source ms)
  | [] => fun _ => rfl
  | m :: rest => by
    intro placed
    obtain ⟨own, others⟩ := List.forall_mem_cons.mp placed
    rw [allNodesOf, nodesOf_eq m own, allNodesOf_eq rest others]
    rfl

theorem parts_eq (d : Draft) : ∀ ps : List Markup.Node, (∀ p ∈ ps, p.Placed source.IsBoundary) →
    parts source d ps = .ok (d.after source ps)
  | [] => fun _ => by
    rw [parts, Draft.after_nil]
    rfl
  | part :: rest => by
    intro placed
    obtain ⟨own, others⟩ := List.forall_mem_cons.mp placed
    -- The tests are those of the loop: a tag, an end tag that is there, anything else.
    rw [parts]
    split
    · next tag =>
      rw [tag_eq own, ← Draft.after_tag d tag]
      exact parts_eq _ rest others
    · next other =>
      split
      · next ending =>
        rw [← Draft.after_endTag d ending]
        exact parts_eq _ rest others
      · next noEnd =>
        rw [nodesOf_eq part own, ← Draft.after_other d other noEnd]
        exact parts_eq _ rest others

end

theorem ofSyntax_eq {root : Markup.Node} (placed : root.Placed source.IsBoundary) :
    ofSyntax source root = .ok (Document.ofSyntax source root) := by
  rw [ofSyntax, allNodesOf_eq root.children placed.parts.2]
  rfl

end Cut
end Document
end MarkupGrader
