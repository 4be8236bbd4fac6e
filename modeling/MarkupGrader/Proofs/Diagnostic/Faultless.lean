import MarkupGrader.Proofs.Document.Items
import MarkupGrader.Proofs.Document.Subject
import MarkupGrader.Proofs.Markup.Printable

/-! What makes a page free of diagnostics, told from its items: every element is closed, or may be left
open, and no tag repeats the name of an attribute. -/

namespace MarkupGrader.Markup

namespace Outline

mutual

def every (p : Kind → Bool) : Outline → Bool
  | gap _ => true
  | leaf kind _ => p kind
  | group kind parts => p kind && everyOf p parts

def everyOf (p : Kind → Bool) : List Outline → Bool
  | [] => true
  | o :: rest => o.every p && everyOf p rest

end

variable {p : Kind → Bool}

theorem everyOf_eq_all (os : List Outline) : everyOf p os = os.all (every p) := by
  induction os with
  | nil => rfl
  | cons o os ih => rw [everyOf, ih, List.all_cons]

theorem everyOf_append (os ps : List Outline) :
    everyOf p (os ++ ps) = (everyOf p os && everyOf p ps) := by
  simp only [everyOf_eq_all, List.all_append]

theorem everyOf_gap (comment : p .comment = true) (g : Gap) :
    everyOf p (g.map Filler.outline) = true := by
  rw [everyOf_eq_all, List.all_eq_true, List.forall_mem_map]
  intro f _
  cases f with
  | space t => rfl
  | comment t => exact comment

theorem allWhole_append (ns ms : List Node) :
    Node.allWhole (ns ++ ms) = (Node.allWhole ns && Node.allWhole ms) := by
  induction ns with
  | nil => rfl
  | cons n ns ih => rw [List.cons_append, Node.allWhole, Node.allWhole, ih, Bool.and_assoc]

mutual

theorem allWhole_locate (start : Nat) : ∀ o : Outline, o.every (· != .error) = true →
    Node.allWhole (o.locate start) = true
  | gap _, _ => rfl
  | leaf kind t, h => by
    rw [every] at h
    rw [locate, Node.allWhole, Node.isWhole, h]
    rfl
  | group kind parts, h => by
    rw [every, Bool.and_eq_true] at h
    rw [locate, Node.allWhole, Node.isWhole, h.1, allWhole_locateAll start parts h.2]
    rfl

theorem allWhole_locateAll (start : Nat) : ∀ os : List Outline, everyOf (· != .error) os = true →
    Node.allWhole (locateAll start os) = true
  | [], _ => rfl
  | o :: rest, h => by
    rw [everyOf, Bool.and_eq_true] at h
    rw [locateAll, allWhole_append, allWhole_locate start o h.1, allWhole_locateAll _ rest h.2]
    rfl

end

end Outline

section Kinds

variable {p : Kind → Bool}

abbrev partKinds : List Kind :=
  [.comment, .attribute, .attributeName, .attributeValue, .quotedAttributeValue, .tagName]

theorem Value.every_outline (parts : ∀ k ∈ partKinds, p k = true)
    (literals : ∀ t, p (.literal t) = true) (v : Value) : v.outline.every p = true := by
  have gap (g : Gap) := Outline.everyOf_gap (p := p) (parts .comment (by simp)) g
  cases v with
  | bare t => exact parts _ (by simp)
  | quoted quote lead t =>
    have inner : Outline.everyOf p (if t.isEmpty then [] else [.leaf .attributeValue t]) = true := by
      split
      · rfl
      · rw [Outline.everyOf, Outline.every, parts _ (by simp)]
        rfl
    simp only [outline, Outline.every, Outline.everyOf, Outline.everyOf_append, Outline.literal,
      literals, gap, inner, parts .quotedAttributeValue (by simp), Bool.and_self]

theorem Attribute.every_outline (parts : ∀ k ∈ partKinds, p k = true)
    (literals : ∀ t, p (.literal t) = true) (a : Attribute) : a.outline.every p = true := by
  have gap (g : Gap) := Outline.everyOf_gap (p := p) (parts .comment (by simp)) g
  obtain ⟨name, assigned⟩ := a
  cases assigned with
  | none =>
    simp only [outline, Outline.every, Outline.everyOf, parts .attribute (by simp),
      parts .attributeName (by simp), Bool.and_self]
  | some b =>
    simp only [outline, Outline.every, Outline.everyOf, Outline.everyOf_append, Outline.literal,
      literals, gap, parts .attribute (by simp), parts .attributeName (by simp),
      Value.every_outline parts literals, Bool.and_self]

theorem Tag.every_outline (parts : ∀ k ∈ partKinds, p k = true)
    (literals : ∀ t, p (.literal t) = true) (tags : p .startTag = true ∧ p .selfClosingTag = true)
    (t : Tag) : t.outline.every p = true := by
  have gap (g : Gap) := Outline.everyOf_gap (p := p) (parts .comment (by simp)) g
  have each : Outline.everyOf p (t.parts.map TagPart.outline) = true := by
    rw [Outline.everyOf_eq_all, List.all_eq_true, List.forall_mem_map]
    intro part _
    cases part with
    | filler f => cases f <;> first | rfl | exact parts .comment (by simp)
    | attr a => exact Attribute.every_outline parts literals a
  have own : p (if t.selfClosing then .selfClosingTag else .startTag) = true := by
    split
    · exact tags.2
    · exact tags.1
  simp only [outline, Outline.every, Outline.everyOf, Outline.everyOf_append, Outline.literal,
    literals, gap, own, each, parts .tagName (by simp), Bool.and_self]

theorem EndTag.every_outline (comment : p .comment = true) (literals : ∀ t, p (.literal t) = true)
    {kind nameKind : Kind} (own : p kind = true) (name : p nameKind = true) (t : EndTag) :
    (t.outline kind nameKind).every p = true := by
  have gap (g : Gap) := Outline.everyOf_gap (p := p) comment g
  simp only [outline, Outline.every, Outline.everyOf, Outline.everyOf_append, Outline.literal,
    literals, gap, own, name, Bool.and_self]

theorem Doctype.every_outline (comment : p .comment = true) (literals : ∀ t, p (.literal t) = true)
    (own : p .doctype = true) (d : Doctype) : d.outline.every p = true := by
  have gap (g : Gap) := Outline.everyOf_gap (p := p) comment g
  simp only [outline, Outline.every, Outline.everyOf, Outline.everyOf_append, Outline.literal,
    literals, gap, own, Bool.and_self]

theorem ne_error_elementKind (key : Text) : (elementKind key != .error) = true := by
  unfold elementKind
  split
  · rfl
  · split <;> rfl

mutual

theorem Item.every_outline : ∀ i : Item, i.outline.every (· != .error) = true
  | .leaf t => by
    rw [Item.outline]
    cases t with
    | filler f => cases f <;> rfl
    | doctype d => exact Doctype.every_outline rfl (fun _ => rfl) rfl d
    | text t => rfl
    | entity t => rfl
    | tag t => exact Tag.every_outline (by decide) (fun _ => rfl) ⟨rfl, rfl⟩ t
    | endTag t => exact EndTag.every_outline rfl (fun _ => rfl) rfl rfl t
    | raw t => rfl
  | .element tag content closing => by
    have closed : Outline.everyOf (· != .error) closing.outline = true := by
      cases closing with
      | endTag e =>
        rw [Closing.outline, Outline.everyOf,
          EndTag.every_outline rfl (fun _ => rfl) rfl rfl e]
        rfl
      | implied => rfl
      | selfClosed => rfl
    rw [Item.outline, Outline.every, ne_error_elementKind, Outline.everyOf, Outline.everyOf_append,
      Tag.every_outline (by decide) (fun _ => rfl) ⟨rfl, rfl⟩ tag, Item.everyOf_outlines content,
      closed]
    rfl

theorem Item.everyOf_outlines : ∀ items : List Item,
    Outline.everyOf (· != .error) (Item.outlines items) = true
  | [] => rfl
  | i :: rest => by
    rw [Item.outlines, Outline.everyOf, Item.every_outline i, Item.everyOf_outlines rest]
    rfl

end

theorem isWhole_documentNode (source : Text) (items : List Item) :
    (documentNode source items).isWhole = true := by
  rw [documentNode, Node.isWhole, Outline.allWhole_locateAll _ _ (Item.everyOf_outlines items)]
  rfl

end Kinds

end MarkupGrader.Markup

namespace MarkupGrader.Markup

def Tag.isDistinct (t : Tag) : Bool := decide (t.attributes.map (·.name)).Nodup

def isClosed (tag : Tag) (closing : Closing) : Bool :=
  tag.selfClosing || closing.isEndTag || ElementClass.isVoid tag.elementName ||
    ElementClass.hasOptionalEnd tag.elementName

abbrev Item.isFaultless : Item → Bool :=
  Item.everyElement fun tag _ closing => tag.isDistinct && isClosed tag closing

def Item.isDoctype : Item → Bool
  | leaf (.doctype _) => true
  | _ => false

end MarkupGrader.Markup

namespace MarkupGrader.Diagnostic

open Markup (Node Kind Item Tag TagPart Closing Outline)

variable {source pre post : Text}

def isQuiet (k : Kind) : Bool := k != .error && k != .erroneousEndTag && !k.isElement

mutual

theorem ofNodes_locate_of_quiet (start : Nat) : ∀ o : Outline, o.every isQuiet = true →
    ofNodes source (o.locate start) = []
  | .gap _, _ => rfl
  | .leaf kind t, h => by
    rw [Outline.every] at h
    simp only [isQuiet, Bool.and_eq_true, bne_iff_ne, Bool.not_eq_true'] at h
    rw [Outline.locate, ofNodes, ofNode, if_neg h.1.1]
    simp [h.1.2, h.2, ofNodes]
  | .group kind parts, h => by
    rw [Outline.every, Bool.and_eq_true] at h
    have inner := ofNodes_locateAll_of_quiet start parts h.2
    simp only [isQuiet, Bool.and_eq_true, bne_iff_ne, Bool.not_eq_true'] at h
    rw [Outline.locate, ofNodes, ofNode, if_neg h.1.1.1]
    simp [h.1.1.2, h.1.2, inner, ofNodes]

theorem ofNodes_locateAll_of_quiet (start : Nat) : ∀ os : List Outline,
    Outline.everyOf isQuiet os = true → ofNodes source (Outline.locateAll start os) = []
  | [], _ => rfl
  | o :: rest, h => by
    rw [Outline.everyOf, Bool.and_eq_true] at h
    rw [Outline.locateAll, ofNodes_append, ofNodes_locate_of_quiet start o h.1,
      ofNodes_locateAll_of_quiet _ rest h.2]
    rfl

end

theorem ofNodes_leaf {t : Markup.Token} (plain : t.Plain) (start : Nat) :
    ofNodes source ((Item.leaf t).outline.locate start) = [] := by
  refine ofNodes_locate_of_quiet start _ ?_
  rw [Item.outline]
  cases t with
  | filler f => cases f <;> rfl
  | doctype d => exact Markup.Doctype.every_outline rfl (fun _ => rfl) rfl d
  | text t => rfl
  | entity t => rfl
  | tag t => exact absurd plain id
  | endTag t => exact absurd plain id
  | raw t => rfl

theorem attributeName_locate {a : Markup.Attribute} (h : source = pre ++ (a.source ++ post)) :
    ∃ n, a.outline.locate (Text.byteLength pre) = [n] ∧ n.kind = .attribute ∧
      (n.child? .attributeName).map (fun n => (n.text source).lower) = some a.name.lower := by
  obtain ⟨name, assigned⟩ := a
  have whole : ∃ rest, source = pre ++ (name ++ rest) := by
    rw [Markup.Attribute.source, List.append_assoc] at h
    exact ⟨_, h⟩
  obtain ⟨rest, whole⟩ := whole
  refine ⟨_, rfl, rfl, ?_⟩
  rw [Node.child?, Node.namedChildren, Node.children, Outline.locateAll, Outline.locate,
    List.singleton_append, List.filter_cons_of_pos (by rfl), List.find?_cons_of_pos (by rfl),
    Option.map_some, Node.text, Node.span, Outline.slice_eq whole]

theorem ofTag_append_of_lacks {ns : List Node} (tagName : Text) (seen : List Text)
    (names : ns.filter (·.kind == .tagName) = []) (attributes : ns.filter (·.kind == .attribute) = [])
    (ms : List Node) : ofTag source tagName seen (ns ++ ms) = ofTag source tagName seen ms := by
  induction ns with
  | nil => rfl
  | cons n ns ih =>
    rw [List.filter_cons] at names attributes
    split at names
    · cases names
    · next noName =>
      split at attributes
      · cases attributes
      · next noAttribute =>
        rw [beq_iff_eq] at noName noAttribute
        rw [List.cons_append, ofTag, if_neg noName, if_neg noAttribute, ih names attributes]

theorem ofAttribute_eq_nil {tagName name : Text} {seen : List Text} {a : Node} :
    ofAttribute source tagName name seen a = [] ↔ name ∉ seen := by
  unfold ofAttribute
  split
  · next repeated => simpa using repeated
  · next new => simpa using new

theorem ofTag_parts {parts : List TagPart} {tagName : Text} {seen : List Text} {tail : List Node}
    (h : source = pre ++ (parts.flatMap TagPart.source ++ post))
    (names : tail.filter (·.kind == .tagName) = [])
    (attributes : tail.filter (·.kind == .attribute) = []) :
    (ofTag source tagName seen
        (Outline.locateAll (Text.byteLength pre) (parts.map TagPart.outline) ++ tail)).2 = tagName ∧
      ((ofTag source tagName seen
          (Outline.locateAll (Text.byteLength pre) (parts.map TagPart.outline) ++ tail)).1 = [] ↔
        (∀ a ∈ parts.filterMap TagPart.attribute?, a.name ∉ seen) ∧
          ((parts.filterMap TagPart.attribute?).map (·.name)).Nodup) := by
  induction parts generalizing pre seen with
  | nil =>
    have none := @ofTag_append_of_lacks source tail tagName seen names attributes []
    rw [List.append_nil] at none
    simp only [List.map_nil, Outline.locateAll, List.nil_append, none]
    simp [ofTag]
  | cons part parts ih =>
    have here : source = pre ++ (part.source ++ (parts.flatMap TagPart.source ++ post)) := by
      rw [h, List.flatMap_cons, List.append_assoc]
    have there : source = (pre ++ part.source) ++ (parts.flatMap TagPart.source ++ post) := by
      rw [here, List.append_assoc]
    have more (seen : List Text) := @ih (pre ++ part.source) seen there
    simp only [Text.byteLength_append] at more
    rw [List.map_cons, Outline.locateAll, TagPart.source_outline, List.append_assoc]
    cases part with
    | filler f =>
      have skip := @ofTag_append_of_lacks source
        ((TagPart.filler f).outline.locate (Text.byteLength pre)) tagName seen
        (by cases f <;> rfl) (by cases f <;> rfl)
      rw [skip]
      exact more seen
    | attr a =>
      obtain ⟨n, located, kind, name⟩ := attributeName_locate (a := a) here
      obtain ⟨last, none⟩ := more (a.name.lower :: seen)
      rw [TagPart.outline, located, List.singleton_append, ofTag,
        if_neg (by rw [kind]; exact Kind.noConfusion), if_pos kind, name]
      refine ⟨last, ?_⟩
      have own : TagPart.attribute? (.attr a) = some ⟨a.name.lower, a.assigned.map (·.value.text)⟩ :=
        rfl
      rw [List.append_eq_nil_iff, ofAttribute_eq_nil, none, List.filterMap_cons_some own,
        List.map_cons, List.nodup_cons, List.forall_mem_cons]
      simp only [List.mem_map, List.mem_cons, not_or, not_exists, not_and]
      constructor
      · rintro ⟨new, others, distinct⟩
        exact ⟨⟨new, fun b hb => (others b hb).2⟩, fun b hb => (others b hb).1, distinct⟩
      · rintro ⟨⟨new, others⟩, other, distinct⟩
        exact ⟨new, fun b hb => ⟨other b hb, others b hb⟩, distinct⟩

theorem ofTag_front {t : Tag} (h : source = pre ++ (t.source ++ post)) (ms : List Node) :
    ofTag source [] [] (Outline.locateAll (Text.byteLength pre) (Document.tagFront t) ++ ms) =
      ofTag source t.elementName [] ms := by
  have lacks (p : Kind → Bool) (literals : ∀ t, p (.literal t) = false)
      (comment : p .comment = false) :
      ∀ x ∈ .literal "<" :: t.lead.map Markup.Filler.outline, Outline.Lacks p x := by
    rw [List.forall_mem_cons]
    exact ⟨literals _, Outline.lacks_gap comment⟩
  have noName := Outline.filter_locateAll_of_lacks (Text.byteLength pre)
    (lacks (· == .tagName) (fun _ => rfl) rfl)
  have noAttribute := Outline.filter_locateAll_of_lacks (Text.byteLength pre)
    (lacks (· == .attribute) (fun _ => rfl) rfl)
  have named : source = (pre ++ Outline.sourceAll (.literal "<" ::
      t.lead.map Markup.Filler.outline)) ++ (t.name ++ (t.parts.flatMap TagPart.source ++
        (t.closer ++ post))) := by
    rw [h]
    simp [Tag.source]
  have text := Outline.slice_eq named
  have split : Document.tagFront t = (.literal "<" :: t.lead.map Markup.Filler.outline) ++
      [.leaf .tagName t.name] := rfl
  rw [Text.byteLength_append] at text
  rw [split, Outline.locateAll_append, List.append_assoc,
    ofTag_append_of_lacks [] [] noName noAttribute, Outline.locateAll, Outline.locate,
    List.singleton_append, List.cons_append, ofTag, if_pos (by rfl), Node.text, Node.span, text]
  rfl

theorem ofTag_children {t : Tag} (h : source = pre ++ (t.source ++ post)) :
    (ofTag source [] [] (Outline.locateAll (Text.byteLength pre) (Document.tagFront t ++
        (t.parts.map TagPart.outline ++ [.literal t.closer])))).2 = t.elementName ∧
      ((ofTag source [] [] (Outline.locateAll (Text.byteLength pre) (Document.tagFront t ++
        (t.parts.map TagPart.outline ++ [.literal t.closer])))).1 = [] ↔ t.isDistinct = true) := by
  have behind : source = (pre ++ Outline.sourceAll (Document.tagFront t)) ++
      (t.parts.flatMap TagPart.source ++ (t.closer ++ post)) := by
    rw [h, Document.tag_source_eq]
    simp only [List.append_assoc]
  rw [Outline.locateAll_append, Outline.locateAll_append, ofTag_front h]
  obtain ⟨name, none⟩ := @ofTag_parts source _ _ t.parts t.elementName []
    (Outline.locateAll (Text.byteLength pre +
      Text.byteLength (Outline.sourceAll (Document.tagFront t)) +
      Text.byteLength (Outline.sourceAll (t.parts.map TagPart.outline))) [.literal t.closer])
    behind rfl rfl
  rw [Text.byteLength_append] at name none
  refine ⟨name, none.trans ?_⟩
  simp only [List.not_mem_nil, not_false_eq_true, implies_true, true_and, Tag.isDistinct,
    decide_eq_true_eq]
  rfl

theorem any_endTag (tag : Tag) {content : List Item} (closing : Closing)
    (plain : ∀ i ∈ content, i.Plain) (start : Nat) :
    (Outline.locateAll start (tag.outline :: (Item.outlines content ++ closing.outline))).any
      (fun p => p.kind == .endTag && !p.missing) = closing.isEndTag := by
  have found := (Document.endTag_of_children plain start
    (Outline.locateAll start (tag.outline :: (Item.outlines content ++ closing.outline))) rfl).1
  rw [← found, Document.isSome_lastOfKind?_there]

theorem filter_tags (tag : Tag) {content : List Item} (closing : Closing)
    (plain : ∀ i ∈ content, i.Plain) (start : Nat) :
    (Outline.locateAll start (tag.outline :: (Item.outlines content ++ closing.outline))).filter
        (fun p => p.kind == .startTag || p.kind == .selfClosingTag) = tag.outline.locate start := by
  have back : ∀ x ∈ Item.outlines content ++ closing.outline,
      x.Lacks Document.tagKinds.contains := by
    rw [List.forall_mem_append]
    refine ⟨fun x hx => (Document.lacks_outlines plain x hx).mono ?_, Document.lacks_closing closing⟩
    intro k hk
    rw [List.contains_cons, hk, Bool.or_true]
  have test : (fun p : Node => p.kind == .startTag || p.kind == .selfClosingTag) =
      fun p => Document.tagKinds.contains p.kind := by
    funext p
    simp only [List.contains_cons, List.contains_nil, Bool.or_false]
  have none : ∀ x ∈ ([] : List Outline), x.Lacks Document.tagKinds.contains := by simp
  have only := Outline.filter_locateAll start tag.outline none back
  rw [List.nil_append] at only
  rw [test, only, Document.tag_outline_eq]
  cases tag.selfClosing <;> rfl

theorem ofElement_eq_nil {tag : Tag} {content : List Item} {closing : Closing}
    (plain : ∀ i ∈ content, i.Plain)
    (h : source = pre ++ ((Item.element tag content closing).source ++ post)) :
    ofElement source (Outline.locateAll (Text.byteLength pre)
        (tag.outline :: (Item.outlines content ++ closing.outline))) = [] ↔
      (tag.isDistinct && Markup.isClosed tag closing) = true := by
  obtain ⟨name, none⟩ := ofTag_children (Document.split_element h).1
  have ended := any_endTag tag closing plain (Text.byteLength pre)
  have tags := filter_tags tag closing plain (Text.byteLength pre)
  have single : tag.outline.locate (Text.byteLength pre) = [.node
      (if tag.selfClosing then .selfClosingTag else .startTag)
      ⟨Text.byteLength pre, Text.byteLength pre + Text.byteLength tag.source⟩ false
      (Outline.locateAll (Text.byteLength pre) (Document.tagFront tag ++
        (tag.parts.map TagPart.outline ++ [.literal tag.closer])))] := by
    rw [← Tag.source_outline, Document.tag_outline_eq]
    rfl
  have kind : ((if tag.selfClosing then .selfClosingTag else .startTag : Kind) == .selfClosingTag) =
      tag.selfClosing := by
    cases tag.selfClosing <;> rfl
  have closed (more : List Diagnostic) (ne : more ≠ []) (b : Bool) :
      (if b then [] else more) = [] ↔ b = true := by
    cases b
    · simpa using ne
    · simp
  unfold ofElement
  rw [tags, single, ended]
  simp only [List.getLast?_singleton, List.any_cons, List.any_nil, Bool.or_false, Node.kind, kind]
  rw [List.append_eq_nil_iff, Node.children, none, name, closed _ (List.cons_ne_nil _ _),
    Bool.and_eq_true]
  rfl

theorem ofNodes_outlines {items : List Item} {p : Item → Bool}
    (each : ∀ i ∈ items, ∀ pre post, source = pre ++ (i.source ++ post) →
      (ofNodes source (i.outline.locate (Text.byteLength pre)) = [] ↔ p i = true))
    (h : source = pre ++ (Item.sources items ++ post)) :
    ofNodes source (Outline.locateAll (Text.byteLength pre) (Item.outlines items)) = [] ↔
      items.all p = true := by
  induction items generalizing pre with
  | nil => simp [Item.outlines, Outline.locateAll, ofNodes]
  | cons i items ih =>
    obtain ⟨here, there⟩ := Document.split_cons h
    have more := ih (fun j hj => each j (List.mem_cons_of_mem _ hj)) there
    rw [Text.byteLength_append] at more
    rw [Item.outlines, Outline.locateAll, ofNodes_append, List.append_eq_nil_iff,
      each i List.mem_cons_self pre _ here, List.all_cons, Bool.and_eq_true, ← more]
    rfl

theorem ofNodes_eq_nil {i : Item} (plain : i.Plain) : ∀ pre post,
    source = pre ++ (i.source ++ post) →
      (ofNodes source (i.outline.locate (Text.byteLength pre)) = [] ↔ i.isFaultless = true) := by
  induction plain with
  | @leaf t plain =>
    intro pre post _
    exact iff_of_true (ofNodes_leaf plain _) rfl
  | @element tag content closing plain ih =>
    intro pre post h
    have own := ofElement_eq_nil plain h
    obtain ⟨-, there⟩ := Document.split_element h
    have inner := ofNodes_outlines ih there
    rw [Text.byteLength_append] at inner
    have quietTag := @ofNodes_locate_of_quiet source (Text.byteLength pre) tag.outline
      (Tag.every_outline (by decide) (fun _ => rfl) ⟨rfl, rfl⟩ tag)
    have quietEnd : ∀ start, ofNodes source (Outline.locateAll start closing.outline) = [] := by
      intro start
      refine ofNodes_locateAll_of_quiet start _ ?_
      cases closing with
      | endTag e =>
        rw [Closing.outline, Outline.everyOf,
          Markup.EndTag.every_outline rfl (fun _ => rfl) rfl rfl e]
        rfl
      | implied => rfl
      | selfClosed => rfl
    have element := Document.isElement_elementKind tag.key
    have noError : Markup.elementKind tag.key ≠ .error := by
      simpa using Markup.ne_error_elementKind tag.key
    have noStray : Markup.elementKind tag.key ≠ .erroneousEndTag := by
      intro eq
      rw [eq] at element
      cases element
    rw [Item.isFaultless, Item.everyElement, Item.every_element, Bool.and_eq_true, ← own, ← inner]
    rw [Item.outline, Outline.locate, ofNodes, ofNodes, List.append_nil, ofNode, if_neg noError]
    simp only [Bool.false_eq_true, if_false, if_neg noStray, element, if_true,
      List.append_eq_nil_iff]
    refine and_congr_right fun _ => ?_
    rw [Outline.locateAll, ofNodes_append, quietTag, List.nil_append, Outline.locateAll_append,
      ofNodes_append, quietEnd, List.append_nil, Tag.source_outline]

theorem any_doctype (start : Nat) (items : List Item) :
    (Outline.locateAll start (Item.outlines items)).any (·.kind == .doctype) =
      items.any Item.isDoctype := by
  induction items generalizing start with
  | nil => rfl
  | cons i items ih =>
    rw [Item.outlines, Outline.locateAll, List.any_append, ih, List.any_cons]
    congr 1
    cases i with
    | leaf t =>
      cases t with
      | filler f => cases f <;> rfl
      | tag t => cases single : t.selfClosing <;> simp [Item.outline, Markup.Token.outline,
          Markup.Tag.outline, Outline.locate, single, Item.isDoctype, Node.kind]
      | _ => rfl
    | element tag content closing =>
      have element := Document.isElement_elementKind tag.key
      have other : (Markup.elementKind tag.key == .doctype) = false := by
        rw [beq_eq_false_iff_ne]
        intro eq
        rw [eq] at element
        cases element
      simp [Item.outline, Outline.locate, Item.isDoctype, Node.kind, other]

/-- A page has no diagnostics exactly if its items are faultless and it has the doctype that is
asked for. -/
theorem collect_eq_nil {items : List Item} (read : Markup.ReadAs source items)
    (plain : ∀ i ∈ items, i.Plain) (requireDoctype : Bool) :
    collect source (Markup.documentNode source items) requireDoctype = [] ↔
      (requireDoctype = true → items.any Item.isDoctype = true) ∧
        ∀ i ∈ items, i.isFaultless = true := by
  obtain ⟨mark, whole, start⟩ := Document.exists_mark source
  have h : source = mark ++ (Item.sources items ++ []) := by
    rw [read.sources, List.append_nil]
    exact whole
  have all := ofNodes_outlines (fun i hi => ofNodes_eq_nil (plain i hi)) h
  have inner : ofNode source (Markup.documentNode source items) = [] ↔
      ∀ i ∈ items, i.isFaultless = true := by
    rw [← List.all_eq_true, ← all, ← start, Markup.documentNode, ofNode, if_neg (by decide)]
    rfl
  have found : (Markup.documentNode source items).children.any (·.kind == .doctype) =
      items.any Item.isDoctype := any_doctype _ items
  rw [collect, ← List.length_eq_zero_iff, List.length_mergeSort, List.length_eq_zero_iff,
    List.append_eq_nil_iff, inner, found]
  refine and_congr_left fun _ => ?_
  cases requireDoctype <;> cases items.any Item.isDoctype <;> simp

end MarkupGrader.Diagnostic
