import MarkupGrader.Document.Build
import MarkupGrader.Proofs.Markup.Plain

/-! What the document reads off a tag: the name of its element and the attributes, each as the tag
writes it. -/

namespace MarkupGrader

namespace Markup

/-- The value as written, without its quotes. -/
def Value.text : Value → Text
  | bare t => t
  | quoted _ _ t => t

def TagPart.attribute? : TagPart → Option Document.Attribute
  | filler _ => none
  | attr a => some ⟨a.name.lower, a.assigned.map (·.value.text)⟩

def Tag.attributes (t : Tag) : List Document.Attribute := t.parts.filterMap TagPart.attribute?

def Tag.elementName (t : Tag) : Text := t.name.lower

end Markup

namespace Document

open Markup (Kind Tag TagPart Value Gap Outline Filler)

variable {source pre post : Text}

theorem lastOfKind?_locateAll (start : Nat) {kinds : List Kind} {front back : List Outline}
    {o : Outline} {n : Markup.Node} (before : ∀ x ∈ front, x.Lacks kinds.contains)
    (behind : ∀ x ∈ back, x.Lacks kinds.contains)
    (located : o.locate (start + Text.byteLength (Outline.sourceAll front)) = [n])
    (kind : kinds.contains n.kind = true) :
    lastOfKind? kinds (Outline.locateAll start (front ++ o :: back)) = some n := by
  have found := Outline.filter_locateAll start o before behind
  rw [located, List.filter_cons_of_pos (by exact kind), List.filter_nil] at found
  rw [lastOfKind?, found]
  rfl

theorem text_lastOfKind? (kind : Kind) {kinds : List Kind} {front back : List Outline} {t : Text}
    (before : ∀ x ∈ front, x.Lacks kinds.contains) (behind : ∀ x ∈ back, x.Lacks kinds.contains)
    (member : kinds.contains kind = true)
    (h : source = pre ++ (Outline.sourceAll front ++ (t ++ post))) :
    (lastOfKind? kinds (Outline.locateAll (Text.byteLength pre)
      (front ++ .leaf kind t :: back))).map (·.text source) = some t := by
  have whole : source = (pre ++ Outline.sourceAll front) ++ (t ++ post) := by
    rw [h, List.append_assoc]
  have found := lastOfKind?_locateAll (Text.byteLength pre) (o := .leaf kind t) before behind rfl
    member
  rw [found, Option.map_some, Markup.Node.text, Markup.Node.span, ← Text.byteLength_append,
    Outline.slice_eq whole]

theorem child?_eq (n : Markup.Node) (kind : Kind) :
    n.child? kind = (n.children.filter fun m => m.kind.isNamed && m.kind == kind).head? := by
  rw [Markup.Node.child?, Markup.Node.namedChildren, ← List.head?_filter, List.filter_filter]
  simp only [Bool.and_comm]

theorem valueOf_of_quoted {n : Markup.Node} (h : n.kind = .quotedAttributeValue) :
    valueOf source n = ((n.child? .attributeValue).map (·.text source)).getD [] := if_pos h

theorem valueOf_quoted {quote : Char} {lead : Gap} {t : Text} {span : Span}
    (h : source = pre ++ ((Value.quoted quote lead t).source ++ post)) :
    valueOf source (.node .quotedAttributeValue span false (Outline.locateAll (Text.byteLength pre)
      (.literal [quote] :: lead.map Filler.outline ++
        (if t.isEmpty then [] else [.leaf .attributeValue t]) ++ [.literal [quote]]))) = t := by
  let p (kind : Kind) : Bool := kind.isNamed && kind == .attributeValue
  have before : ∀ o ∈ .literal [quote] :: lead.map Filler.outline, Outline.Lacks p o := by
    intro o ho
    rcases List.mem_cons.mp ho with rfl | ho
    · rfl
    · exact Outline.lacks_gap rfl o ho
  have behind : ∀ o ∈ [Outline.literal [quote]], Outline.Lacks p o := by
    intro o ho
    rw [List.mem_singleton.mp ho]
    rfl
  rw [valueOf_of_quoted rfl, child?_eq, Markup.Node.children]
  cases t with
  | nil =>
    have none := Outline.filter_locateAll_of_lacks (Text.byteLength pre)
      (List.forall_mem_append.mpr ⟨before, behind⟩)
    simp only [List.isEmpty_nil, if_true, List.append_nil]
    rw [none]
    rfl
  | cons c t =>
    have found := Outline.filter_locateAll (Text.byteLength pre) (.leaf .attributeValue (c :: t))
      before behind
    have whole : source = (pre ++ Outline.sourceAll (.literal [quote] :: lead.map Filler.outline)) ++
        ((c :: t) ++ ([quote] ++ post)) := by
      rw [h]
      simp [Value.source]
    simp only [List.isEmpty_cons, Bool.false_eq_true, if_false, List.append_assoc,
      List.cons_append, List.nil_append] at found ⊢
    rw [found]
    have text := Outline.slice_eq whole
    rw [Text.byteLength_append] at text
    exact text

theorem valueOf_locate {v : Value} (h : source = pre ++ (v.source ++ post)) :
    (v.outline.locate (Text.byteLength pre)).map (valueOf source) = [v.text] := by
  cases v with
  | bare t =>
    have text := Outline.slice_eq h
    exact congrArg (fun t => [t]) text
  | quoted quote lead t => exact congrArg (fun t => [t]) (valueOf_quoted h)

abbrev valueKinds : List Kind := [.attributeValue, .quotedAttributeValue]

theorem exists_locate_value (v : Value) (start : Nat) :
    ∃ n, v.outline.locate start = [n] ∧ valueKinds.contains n.kind = true := by
  cases v with
  | bare t => exact ⟨_, rfl, rfl⟩
  | quoted quote lead t => exact ⟨_, rfl, rfl⟩

theorem valueOf_lastOfKind? {front : List Outline} {v : Value}
    (before : ∀ x ∈ front, x.Lacks valueKinds.contains)
    (h : source = pre ++ (Outline.sourceAll front ++ (v.source ++ post))) :
    (lastOfKind? valueKinds (Outline.locateAll (Text.byteLength pre)
      (front ++ [v.outline]))).map (valueOf source) = some v.text := by
  have last : ∀ x ∈ ([] : List Outline), x.Lacks valueKinds.contains := by simp
  obtain ⟨n, located, kind⟩ := exists_locate_value v
    (Text.byteLength pre + Text.byteLength (Outline.sourceAll front))
  rw [lastOfKind?_locateAll (Text.byteLength pre) before last located kind]
  have whole : source = (pre ++ Outline.sourceAll front) ++ (v.source ++ post) := by
    rw [h, List.append_assoc]
  have values := valueOf_locate whole
  rw [Text.byteLength_append, located] at values
  exact congrArg List.head? values

theorem attributeOf?_children {kind : Kind} {span : Span} {missing : Bool} {name : Text}
    {rest : List Outline} (behind : ∀ x ∈ rest, x.Lacks [Kind.attributeName].contains)
    (h : source = pre ++ (name ++ post)) :
    attributeOf? source (.node kind span missing
        (Outline.locateAll (Text.byteLength pre) (.leaf .attributeName name :: rest))) =
      some ⟨name.lower, (lastOfKind? valueKinds (Outline.locateAll (Text.byteLength pre)
        (.leaf .attributeName name :: rest))).map (valueOf source)⟩ := by
  have first : ∀ x ∈ ([] : List Outline), x.Lacks [Kind.attributeName].contains := by simp
  have whole : source = pre ++ (Outline.sourceAll [] ++ (name ++ post)) := h
  have text := text_lastOfKind? .attributeName first behind rfl whole
  rw [List.nil_append] at text
  obtain ⟨n, found, own⟩ := Option.map_eq_some_iff.mp text
  rw [attributeOf?, Markup.Node.children, found, Option.map_some, own]

theorem valueOf_assigned {name : Text} {before after : Gap} {value : Value}
    (h : source = pre ++ ((Markup.Attribute.mk name (some ⟨before, after, value⟩)).source ++ post)) :
    (lastOfKind? valueKinds (Outline.locateAll (Text.byteLength pre)
      (.leaf .attributeName name :: (before.map Filler.outline ++ .literal "=" ::
        (after.map Filler.outline ++ [value.outline]))))).map (valueOf source) =
      some value.text := by
  have front : ∀ x ∈ .leaf .attributeName name :: (before.map Filler.outline ++
      .literal "=" :: after.map Filler.outline), x.Lacks valueKinds.contains := by
    simp only [List.forall_mem_append, List.forall_mem_cons]
    exact ⟨rfl, Outline.lacks_gap rfl, rfl, Outline.lacks_gap rfl⟩
  have split : source = pre ++ (Outline.sourceAll (.leaf .attributeName name ::
      (before.map Filler.outline ++ .literal "=" :: after.map Filler.outline)) ++
        (value.source ++ post)) := by
    rw [h]
    simp [Markup.Attribute.source, Markup.Assignment.source, Outline.source]
  have last := valueOf_lastOfKind? front split
  simpa only [List.cons_append, List.append_assoc] using last

theorem attributeOf?_locate {a : Markup.Attribute} (h : source = pre ++ (a.source ++ post)) :
    (a.outline.locate (Text.byteLength pre)).filterMap (attributeOf? source) =
      [⟨a.name.lower, a.assigned.map (·.value.text)⟩] := by
  obtain ⟨name, assigned⟩ := a
  rw [Markup.Attribute.outline, Outline.locate, List.filterMap_cons]
  cases assigned with
  | none =>
    have whole : source = pre ++ (name ++ post) := by
      rw [h]
      simp [Markup.Attribute.source]
    rw [attributeOf?_children (by simp) whole]
    rfl
  | some assigned =>
    obtain ⟨before, after, value⟩ := assigned
    have gaps : ∀ g : Gap, ∀ x ∈ g.map Filler.outline, x.Lacks [Kind.attributeName].contains :=
      fun g => Outline.lacks_gap rfl
    have behind : ∀ x ∈ before.map Filler.outline ++ .literal "=" ::
        (after.map Filler.outline ++ [value.outline]), x.Lacks [Kind.attributeName].contains := by
      simp only [List.forall_mem_append, List.forall_mem_cons]
      refine ⟨gaps before, rfl, gaps after, ?_, by simp⟩
      cases value <;> rfl
    have whole : source = pre ++ (name ++
        ((Markup.Assignment.mk before after value).source ++ post)) := by
      rw [h]
      simp [Markup.Attribute.source]
    rw [attributeOf?_children behind whole, valueOf_assigned h]
    rfl

theorem attributesOf_parts {parts : List TagPart}
    (h : source = pre ++ (parts.flatMap TagPart.source ++ post)) :
    ((Outline.locateAll (Text.byteLength pre) (parts.map TagPart.outline)).filter
      (·.kind == .attribute)).filterMap (attributeOf? source) =
      parts.filterMap TagPart.attribute? := by
  induction parts generalizing pre with
  | nil => rfl
  | cons part parts ih =>
    have here : source = pre ++ (part.source ++ (parts.flatMap TagPart.source ++ post)) := by
      rw [h, List.flatMap_cons, List.append_assoc]
    have there : source = (pre ++ part.source) ++ (parts.flatMap TagPart.source ++ post) := by
      rw [here, List.append_assoc]
    have more := ih there
    rw [Text.byteLength_append] at more
    rw [List.map_cons, Outline.locateAll, List.filter_append, List.filterMap_append,
      TagPart.source_outline, more]
    cases part with
    | filler f => cases f <;> rfl
    | attr a =>
      have values := attributeOf?_locate (a := a) here
      rw [List.filterMap_cons_some (by rfl), ← List.singleton_append, ← values]
      rfl

/-- What stands in a tag in front of its name, and the name. -/
def tagFront (t : Tag) : List Outline :=
  .literal "<" :: (t.lead.map Filler.outline ++ [.leaf .tagName t.name])

theorem tag_outline_eq (t : Tag) :
    t.outline = .group (if t.selfClosing then .selfClosingTag else .startTag)
      (tagFront t ++ (t.parts.map TagPart.outline ++ [.literal t.closer])) := by
  simp [Tag.outline, tagFront]

theorem tag_source_eq (t : Tag) :
    t.source = Outline.sourceAll (tagFront t) ++ (t.parts.flatMap TagPart.source ++ t.closer) := by
  simp [Tag.source, tagFront, Outline.source]

theorem attributesOf_children {t : Tag} {kind : Kind} {span : Span} {missing : Bool}
    (h : source = pre ++ (t.source ++ post)) :
    attributesOf source (.node kind span missing (Outline.locateAll (Text.byteLength pre)
      (tagFront t ++ (t.parts.map TagPart.outline ++ [.literal t.closer])))) = t.attributes := by
  have front : ∀ x ∈ tagFront t, x.Lacks (· == Kind.attribute) := by
    simp only [tagFront, List.forall_mem_append, List.forall_mem_cons]
    exact ⟨rfl, Outline.lacks_gap rfl, rfl, by simp⟩
  have back : ∀ x ∈ [Outline.literal t.closer], x.Lacks (· == Kind.attribute) := by
    simp only [List.forall_mem_cons]
    exact ⟨rfl, by simp⟩
  have whole : source = (pre ++ Outline.sourceAll (tagFront t)) ++
      (t.parts.flatMap TagPart.source ++ (t.closer ++ post)) := by
    rw [h, tag_source_eq]
    simp only [List.append_assoc]
  have values := attributesOf_parts whole
  rw [Text.byteLength_append] at values
  rw [attributesOf, Markup.Node.children, Outline.locateAll_append, Outline.locateAll_append,
    List.filter_append, List.filter_append, Outline.filter_locateAll_of_lacks _ front,
    Outline.filter_locateAll_of_lacks _ back, List.nil_append, List.append_nil, values]
  rfl

theorem tagNameOf_children {t : Tag} {kind : Kind} {span : Span} {missing : Bool}
    (h : source = pre ++ (t.source ++ post)) :
    tagNameOf source (.node kind span missing (Outline.locateAll (Text.byteLength pre)
      (tagFront t ++ (t.parts.map TagPart.outline ++ [.literal t.closer])))) =
      some t.elementName := by
  have front : ∀ x ∈ .literal "<" :: t.lead.map Filler.outline,
      x.Lacks [Kind.tagName].contains := by
    simp only [List.forall_mem_cons]
    exact ⟨rfl, Outline.lacks_gap rfl⟩
  have back : ∀ x ∈ t.parts.map TagPart.outline ++ [.literal t.closer],
      x.Lacks [Kind.tagName].contains := by
    simp only [List.forall_mem_append, List.forall_mem_map, List.forall_mem_cons]
    refine ⟨fun part _ => ?_, rfl, by simp⟩
    cases part with
    | filler f => cases f <;> trivial
    | attr a => rfl
  have whole : source = pre ++ (Outline.sourceAll (.literal "<" :: t.lead.map Filler.outline) ++
      (t.name ++ (t.parts.flatMap TagPart.source ++ (t.closer ++ post)))) := by
    rw [h]
    simp [Tag.source]
  have text := text_lastOfKind? .tagName front back rfl whole
  obtain ⟨n, found, text⟩ := Option.map_eq_some_iff.mp text
  have same : tagFront t ++ (t.parts.map TagPart.outline ++ [.literal t.closer]) =
      (.literal "<" :: t.lead.map Filler.outline) ++ .leaf .tagName t.name ::
        (t.parts.map TagPart.outline ++ [.literal t.closer]) := by
    simp [tagFront]
  rw [tagNameOf, Markup.Node.children, same, found, Option.map_some, text]
  rfl

abbrev tagKinds : List Kind := [.startTag, .selfClosingTag]

theorem exists_locate_tag {t : Tag} (h : source = pre ++ (t.source ++ post)) :
    ∃ n, t.outline.locate (Text.byteLength pre) = [n] ∧
      n.span = ⟨Text.byteLength pre, Text.byteLength pre + Text.byteLength t.source⟩ ∧
      n.kind ∈ tagKinds ∧ tagNameOf source n = some t.elementName ∧
      attributesOf source n = t.attributes := by
  have size : Outline.sourceAll (tagFront t ++
      (t.parts.map TagPart.outline ++ [.literal t.closer])) = t.source := by
    have := Tag.source_outline t
    rwa [tag_outline_eq] at this
  rw [tag_outline_eq, Outline.locate, size]
  refine ⟨_, rfl, rfl, ?_, tagNameOf_children h, attributesOf_children h⟩
  rw [Markup.Node.kind]
  cases t.selfClosing <;> simp [tagKinds]

end Document
end MarkupGrader
