import MarkupGrader.Proofs.Document.Tag

/-! The document of plain items. Every item but white space is one node of it, an element carries
the name and the attributes of its tag, and its content lies between its tags. -/

namespace MarkupGrader

open Document (LeafKind)

namespace Markup

def Token.leafKind? : Token → Option LeafKind
  | filler (.comment _) => some .comment
  | doctype _ => some .doctype
  | text _ => some .text
  | entity _ => some .text
  | raw _ => some .rawText
  | _ => none

def Closing.isEndTag : Closing → Bool
  | endTag _ => true
  | _ => false

namespace Item

mutual

def nodesAt (start : Nat) : Item → List Document.Node
  | leaf t =>
    match t.leafKind? with
    | some kind => [.leaf kind ⟨start, start + Text.byteLength t.source⟩]
    | none => []
  | element tag content closing =>
    let inner := start + Text.byteLength tag.source
    let stop := inner + Text.byteLength (sources content)
    [.element
      ⟨some tag.elementName, tag.attributes, ⟨start, stop + Text.byteLength closing.source⟩,
        some ⟨inner, stop⟩, closing.isEndTag⟩
      (nodesAtAll inner content)]

def nodesAtAll (start : Nat) : List Item → List Document.Node
  | [] => []
  | i :: rest => i.nodesAt start ++ nodesAtAll (start + Text.byteLength i.source) rest

end

end Item
end Markup

namespace Document

open Markup (Kind Item Tag Closing Token Outline)

variable {source pre post : Text}

theorem split_cons {i : Item} {items : List Item}
    (h : source = pre ++ (Item.sources (i :: items) ++ post)) :
    source = pre ++ (i.source ++ (Item.sources items ++ post)) ∧
      source = (pre ++ i.source) ++ (Item.sources items ++ post) := by
  rw [Item.sources_cons, List.append_assoc] at h
  exact ⟨h, by rw [h, List.append_assoc]⟩

theorem split_append {items more : List Item}
    (h : source = pre ++ (Item.sources (items ++ more) ++ post)) :
    source = pre ++ (Item.sources items ++ (Item.sources more ++ post)) ∧
      source = (pre ++ Item.sources items) ++ (Item.sources more ++ post) := by
  rw [Item.sources_append, List.append_assoc] at h
  exact ⟨h, by rw [h, List.append_assoc]⟩

theorem split_element {tag : Tag} {content : List Item} {closing : Closing}
    (h : source = pre ++ ((Item.element tag content closing).source ++ post)) :
    source = pre ++ (tag.source ++ (Item.sources content ++ (closing.source ++ post))) ∧
      source = (pre ++ tag.source) ++ (Item.sources content ++ (closing.source ++ post)) := by
  rw [Item.source_element, List.append_assoc, List.append_assoc] at h
  exact ⟨h, by rw [h, List.append_assoc]⟩

theorem lacks_outlines {items : List Item} (plain : ∀ i ∈ items, i.Plain) :
    ∀ o ∈ Item.outlines items, o.Lacks (Kind.endTag :: tagKinds).contains := by
  rw [Item.outlines_eq_map, List.forall_mem_map]
  intro i hi
  cases plain i hi with
  | @leaf t plain =>
    cases t with
    | filler f => cases f <;> trivial
    | tag t => exact absurd plain id
    | endTag t => exact absurd plain id
    | doctype d => rfl
    | text t => rfl
    | entity t => rfl
    | raw t => rfl
  | @element tag content closing _ =>
    show (Kind.endTag :: tagKinds).contains (Markup.elementKind tag.key) = false
    unfold Markup.elementKind
    split
    · rfl
    · split <;> rfl

theorem lacks_closing (closing : Closing) : ∀ o ∈ closing.outline, o.Lacks tagKinds.contains := by
  cases closing with
  | endTag t =>
    simp only [Closing.outline, List.forall_mem_cons]
    exact ⟨rfl, by simp⟩
  | implied => simp [Closing.outline]
  | selfClosed => simp [Closing.outline]

theorem endTag_of_children {tag : Tag} {content : List Item} {closing : Closing}
    (plain : ∀ i ∈ content, i.Plain) (start : Nat) (parts : List Markup.Node)
    (located : parts = Outline.locateAll start
      (tag.outline :: (Item.outlines content ++ closing.outline))) :
    (lastOfKind? [.endTag] (parts.filter (!·.missing))).isSome = closing.isEndTag ∧
      ((lastOfKind? [.endTag] (parts.filter (!·.missing))).map (·.span.start)).getD
        (start + Text.byteLength (tag.source ++ (Item.sources content ++ closing.source))) =
          start + Text.byteLength (tag.source ++ Item.sources content) := by
  subst located
  -- Nothing is missing from a well-formed source, so that all of its nodes are looked at.
  have present : (Outline.locateAll start (tag.outline :: (Item.outlines content ++
      closing.outline))).filter (!·.missing) =
        Outline.locateAll start (tag.outline :: (Item.outlines content ++ closing.outline)) := by
    rw [List.filter_eq_self]
    intro n hn
    rw [Outline.missing_locateAll start _ n hn]
    rfl
  have front : ∀ x ∈ tag.outline :: Item.outlines content, x.Lacks [Kind.endTag].contains := by
    rw [List.forall_mem_cons]
    refine ⟨?_, fun x hx => (lacks_outlines plain x hx).mono ?_⟩
    · rw [tag_outline_eq]
      show [Kind.endTag].contains _ = false
      cases tag.selfClosing <;> rfl
    · intro k hk
      rw [List.contains_cons, Bool.or_eq_true]
      exact .inl (by simpa using hk)
  rw [present]
  cases closing with
  | endTag t =>
    have back : ∀ x ∈ ([] : List Outline), x.Lacks [Kind.endTag].contains := by simp
    have found := lastOfKind?_locateAll start (o := t.outline .endTag .tagName) front back rfl rfl
    rw [List.cons_append] at found
    rw [Closing.outline, found]
    refine ⟨rfl, ?_⟩
    rw [Option.map_some, Option.getD_some, Markup.Node.span, Outline.sourceAll_cons,
      Item.sourceAll_outlines, Tag.source_outline]
  | implied =>
    have none := Outline.filter_locateAll_of_lacks start front
    rw [Closing.outline, List.append_nil, lastOfKind?, none, Closing.source, List.append_nil]
    exact ⟨rfl, rfl⟩
  | selfClosed =>
    have none := Outline.filter_locateAll_of_lacks start front
    rw [Closing.outline, List.append_nil, lastOfKind?, none, Closing.source, List.append_nil]
    exact ⟨rfl, rfl⟩

theorem elementOf_children {tag : Tag} {content : List Item} {closing : Closing}
    (plain : ∀ i ∈ content, i.Plain)
    (h : source = pre ++ ((Item.element tag content closing).source ++ post)) :
    elementOf source ⟨Text.byteLength pre,
        Text.byteLength pre + Text.byteLength (Item.element tag content closing).source⟩
      (Outline.locateAll (Text.byteLength pre)
        (tag.outline :: (Item.outlines content ++ closing.outline))) =
      ⟨some tag.elementName, tag.attributes, ⟨Text.byteLength pre,
          Text.byteLength pre + Text.byteLength (Item.element tag content closing).source⟩,
        some ⟨Text.byteLength pre + Text.byteLength tag.source,
          Text.byteLength pre + Text.byteLength (tag.source ++ Item.sources content)⟩,
        closing.isEndTag⟩ := by
  rw [Item.source_element]
  obtain ⟨n, located, span, kind, name, attributes⟩ := exists_locate_tag (split_element h).1
  have front : ∀ x ∈ ([] : List Outline), x.Lacks tagKinds.contains := by simp
  have back : ∀ x ∈ Item.outlines content ++ closing.outline, x.Lacks tagKinds.contains := by
    rw [List.forall_mem_append]
    refine ⟨fun x hx => (lacks_outlines plain x hx).mono ?_, lacks_closing closing⟩
    intro k hk
    rw [List.contains_cons, hk, Bool.or_true]
  have found := lastOfKind?_locateAll (Text.byteLength pre) front back located
    (List.contains_iff_mem.mpr kind)
  rw [List.nil_append] at found
  obtain ⟨closed, stop⟩ := endTag_of_children plain (Text.byteLength pre) _ rfl
  rw [elementOf, found]
  have inside : Text.byteLength pre + Text.byteLength tag.source ≤
      Text.byteLength pre + Text.byteLength (tag.source ++ Item.sources content) := by
    rw [Text.byteLength_append]
    omega
  simp only [Option.bind_some, Option.map_some, Option.getD_some, name, attributes, span]
  rw [stop, closed, Nat.max_eq_left inside]

theorem allNodesOf_append (ns ms : List Markup.Node) :
    allNodesOf source (ns ++ ms) = allNodesOf source ns ++ allNodesOf source ms := by
  induction ns with
  | nil => rfl
  | cons n ns ih => rw [List.cons_append, allNodesOf, allNodesOf, ih, List.append_assoc]

def Shown (source : Text) (i : Item) : Prop :=
  ∀ pre post, source = pre ++ (i.source ++ post) →
    allNodesOf source (i.outline.locate (Text.byteLength pre)) = i.nodesAt (Text.byteLength pre)

theorem allNodesOf_outlines {items : List Item} (shown : ∀ i ∈ items, Shown source i)
    (h : source = pre ++ (Item.sources items ++ post)) :
    allNodesOf source (Outline.locateAll (Text.byteLength pre) (Item.outlines items)) =
      Item.nodesAtAll (Text.byteLength pre) items := by
  induction items generalizing pre with
  | nil => rfl
  | cons i items ih =>
    obtain ⟨here, there⟩ := split_cons h
    have more := ih (fun j hj => shown j (List.mem_cons_of_mem _ hj)) there
    rw [Text.byteLength_append] at more
    rw [Item.outlines, Outline.locateAll, allNodesOf_append, shown i List.mem_cons_self pre _ here,
      Item.nodesAtAll, ← more]
    rfl

theorem allNodesOf_closing (closing : Closing) (start : Nat) :
    allNodesOf source (Outline.locateAll start closing.outline) = [] := by
  cases closing <;> rfl

theorem shown_leaf {t : Token} (plain : t.Plain) : Shown source (.leaf t) := by
  intro pre post h
  cases t with
  | filler f => cases f <;> rfl
  | tag t => exact absurd plain id
  | endTag t => exact absurd plain id
  | doctype d =>
    have size := Markup.Doctype.source_outline d
    rw [Markup.Doctype.outline, Outline.source] at size
    rw [Item.outline, Token.outline, Markup.Doctype.outline, Outline.locate, size]
    rfl
  | text t => rfl
  | entity t => rfl
  | raw t => rfl

theorem isElement_elementKind (key : Text) : (Markup.elementKind key).isElement = true := by
  unfold Markup.elementKind
  split
  · rfl
  · split <;> rfl

theorem nodesOf_of_isElement {kind : Kind} (h : kind.isElement = true) (span : Span)
    (missing : Bool) (children : List Markup.Node) :
    nodesOf source (.node kind span missing children) =
      [.element (elementOf source span children) (allNodesOf source children)] := by
  cases kind with
  | element => rfl
  | scriptElement => rfl
  | styleElement => rfl
  | _ => cases h

theorem shown_element {tag : Tag} {content : List Item} (closing : Closing)
    (plain : ∀ i ∈ content, i.Plain) (shown : ∀ i ∈ content, Shown source i) :
    Shown source (.element tag content closing) := by
  intro pre post h
  have properties := elementOf_children plain h
  have size : Outline.sourceAll (tag.outline :: (Item.outlines content ++ closing.outline)) =
      (Item.element tag content closing).source := rfl
  obtain ⟨here, there⟩ := split_element h
  obtain ⟨n, located, -, kind, -⟩ := exists_locate_tag here
  have bare : allNodesOf source [n] = [] := by
    obtain ⟨k, span, missing, children⟩ := n
    rcases List.mem_cons.mp kind with rfl | kind
    · rfl
    · rw [List.mem_singleton] at kind
      obtain rfl : k = .selfClosingTag := kind
      rfl
  have inner := allNodesOf_outlines shown there
  rw [Text.byteLength_append] at inner
  rw [Item.outline, Outline.locate, allNodesOf, size,
    nodesOf_of_isElement (isElement_elementKind tag.key), properties, Outline.locateAll, located,
    allNodesOf_append, Outline.locateAll_append, allNodesOf_append, allNodesOf_closing,
    Tag.source_outline, inner, bare, allNodesOf, Item.nodesAt]
  simp only [Item.source_element, Text.byteLength_append, List.append_nil, List.nil_append,
    Nat.add_assoc]

theorem shown_of_plain {i : Item} (plain : i.Plain) : Shown source i := by
  induction plain with
  | leaf plain => exact shown_leaf plain
  | @element tag content closing plain shown => exact shown_element closing plain shown

theorem exists_mark (source : Text) :
    ∃ mark, source = mark ++ (Markup.markupOf source).2 ∧
      (Markup.markupOf source).1 = Text.byteLength mark := by
  cases source with
  | nil => exact ⟨[], rfl, rfl⟩
  | cons c rest =>
    unfold Markup.markupOf
    by_cases marked : c = Markup.byteOrderMark
    · exact ⟨[c], by simp [marked], by simp [marked, Text.byteLength]⟩
    · exact ⟨[], by simp [marked], by simp [marked, Text.byteLength]⟩

theorem roots_ofSyntax {items : List Item} (read : Markup.ReadAs source items)
    (plain : ∀ i ∈ items, i.Plain) :
    (ofSyntax source (Markup.documentNode source items)).roots =
      Item.nodesAtAll (Markup.markupOf source).1 items := by
  obtain ⟨mark, whole, start⟩ := exists_mark source
  have h : source = mark ++ (Item.sources items ++ []) := by
    rw [read.sources, List.append_nil]
    exact whole
  have shown : ∀ i ∈ items, Shown source i := fun i hi => shown_of_plain (plain i hi)
  have roots := allNodesOf_outlines shown h
  rw [ofSyntax, Markup.documentNode, start]
  exact roots

end Document
end MarkupGrader
