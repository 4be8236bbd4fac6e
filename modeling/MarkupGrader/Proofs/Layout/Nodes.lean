import MarkupGrader.Proofs.Layout.Rows

/-! The nodes that the document has of plain items: whether they are inline and have text, and how
far they reach in the source. -/

namespace MarkupGrader.Layout

open Document (Node)
open Markup (Item Token)

variable {source pre post : Text}

theorem blank_of_isGap {i : Item} (plain : i.Plain) (gap : i.isGap = true) :
    Text.IsBlankText i.source := by
  cases plain with
  | @leaf t plain =>
    rw [Item.source_leaf]
    cases t with
    | filler f =>
      cases f with
      | space t => exact plain
      | comment t => cases gap
    | tag t => exact absurd plain id
    | endTag t => exact absurd plain id
    | doctype d => cases gap
    | text t => cases gap
    | entity t => cases gap
    | raw t => cases gap
  | element => cases gap

theorem nodesAt_of_isGap {i : Item} (gap : i.isGap = true) (start : Nat) : i.nodesAt start = [] := by
  cases i with
  | leaf t =>
    have none : t.leafKind? = none := by simpa [Item.isGap] using gap
    rw [Item.nodesAt, none]
  | element => cases gap

theorem exists_nodesAt {i : Item} (visible : i.isGap = false) (start : Nat) :
    ∃ n, i.nodesAt start = [n] ∧ n.span = ⟨start, start + Text.byteLength i.source⟩ := by
  cases i with
  | leaf t =>
    obtain ⟨kind, found⟩ : ∃ kind, t.leafKind? = some kind := by
      cases found : t.leafKind? with
      | none => simp [Item.isGap, found] at visible
      | some kind => exact ⟨kind, rfl⟩
    rw [Item.nodesAt, found, Item.source_leaf]
    exact ⟨_, rfl, rfl⟩
  | element tag content closing =>
    rw [Item.nodesAt]
    refine ⟨_, rfl, ?_⟩
    rw [Document.Node.span, Item.source_element, Text.byteLength_append, Text.byteLength_append,
      Nat.add_assoc, Nat.add_assoc]

theorem nodesAtAll_append (start : Nat) (items more : List Item) :
    Item.nodesAtAll start (items ++ more) = Item.nodesAtAll start items ++
      Item.nodesAtAll (start + Text.byteLength (Item.sources items)) more := by
  induction items generalizing start with
  | nil => rfl
  | cons i items ih =>
    rw [List.cons_append, Item.nodesAtAll, Item.nodesAtAll, ih, Item.sources_cons,
      Text.byteLength_append, List.append_assoc, Nat.add_assoc]

theorem nodesAtAll_of_gaps {items : List Item} (gaps : items.all Item.isGap = true) (start : Nat) :
    Item.nodesAtAll start items = [] := by
  induction items generalizing start with
  | nil => rfl
  | cons i items ih =>
    rw [List.all_cons, Bool.and_eq_true] at gaps
    rw [Item.nodesAtAll, nodesAt_of_isGap gaps.1, ih gaps.2]
    rfl

theorem nodesAtAll_eq_nil {items : List Item} {start : Nat} :
    Item.nodesAtAll start items = [] ↔ items.all Item.isGap = true := by
  refine ⟨fun none => ?_, fun gaps => nodesAtAll_of_gaps gaps start⟩
  rw [List.all_eq_true]
  intro i hi
  obtain ⟨front, back, rfl⟩ := List.append_of_mem hi
  cases visible : i.isGap with
  | true => rfl
  | false =>
    rw [nodesAtAll_append, Item.nodesAtAll] at none
    obtain ⟨n, located, -⟩ := exists_nodesAt visible
      (start + Text.byteLength (Item.sources front))
    simp [located] at none

theorem allInline_append (ns ms : List Node) :
    allInline (ns ++ ms) = (allInline ns && allInline ms) := by
  induction ns with
  | nil => rfl
  | cons n ns ih => rw [List.cons_append, allInline, allInline, ih, Bool.and_assoc]

theorem anyText_append (ns ms : List Node) :
    anyText source (ns ++ ms) = (anyText source ns || anyText source ms) := by
  induction ns with
  | nil => rfl
  | cons n ns ih => rw [List.cons_append, anyText, anyText, ih, Bool.or_assoc]

mutual

theorem allInline_nodesAt (start : Nat) : ∀ i : Item, allInline (i.nodesAt start) = i.isInline
  | .leaf t => by
    rw [Item.nodesAt, Item.isInline]
    cases t.leafKind? with
    | none => rfl
    | some kind => rw [allInline, isInline, allInline, Bool.and_true, Option.all_some]
  | .element tag content closing => by
    rw [Item.nodesAt, Item.isInline, allInline, isInline, allInline, Bool.and_true,
      allInline_nodesAtAll _ content]
    rfl

theorem allInline_nodesAtAll (start : Nat) :
    ∀ items : List Item, allInline (Item.nodesAtAll start items) = Item.allInline items
  | [] => rfl
  | i :: rest => by
    rw [Item.nodesAtAll, Item.allInline, allInline_append, allInline_nodesAt start i,
      allInline_nodesAtAll _ rest]

end

theorem slice_leaf {t : Token} (h : source = pre ++ ((Item.leaf t).source ++ post)) :
    Text.slice source ⟨Text.byteLength pre, Text.byteLength pre + Text.byteLength t.source⟩ =
      t.source := by
  rw [Item.source_leaf] at h
  exact Markup.Outline.slice_eq h

mutual

theorem anyText_nodesAt {pre post : Text} :
    ∀ i : Item, source = pre ++ (i.source ++ post) →
      anyText source (i.nodesAt (Text.byteLength pre)) = i.hasText
  | .leaf t => by
    intro h
    have text := slice_leaf h
    rw [Item.nodesAt, Item.hasText]
    cases t.leafKind? with
    | none => rfl
    | some kind =>
      rw [anyText, hasText, anyText, Bool.or_false, text]
      cases kind <;> rfl
  | .element tag content closing => by
    intro h
    rw [Item.nodesAt, Item.hasText, anyText, hasText, anyText, Bool.or_false,
      ← Text.byteLength_append]
    exact anyText_nodesAtAll content (Document.split_element h).2

theorem anyText_nodesAtAll {pre post : Text} :
    ∀ items : List Item, source = pre ++ (Item.sources items ++ post) →
      anyText source (Item.nodesAtAll (Text.byteLength pre) items) = Item.anyText items
  | [] => fun _ => rfl
  | i :: rest => by
    intro h
    obtain ⟨here, there⟩ := Document.split_cons h
    rw [Item.nodesAtAll, Item.anyText, anyText_append, anyText_nodesAt i here,
      ← Text.byteLength_append, anyText_nodesAtAll rest there]

end

theorem blank_sources {items : List Item} (plain : ∀ i ∈ items, i.Plain)
    (gaps : items.all Item.isGap = true) : Text.IsBlankText (Item.sources items) := by
  intro c hc
  obtain ⟨i, hi, hc⟩ := List.mem_flatMap.mp hc
  exact blank_of_isGap (plain i hi) (List.all_eq_true.mp gaps i hi) c hc

/-- The nodes of the items reach over `mid`, and there is only blank text in front of it and
behind. -/
structure Extent (items : List Item) (start : Nat) (front mid back : Text) : Prop where
  sources : Item.sources items = front ++ (mid ++ back)
  blankFront : Text.IsBlankText front
  blankBack : Text.IsBlankText back
  first : ∃ n, (Item.nodesAtAll start items).head? = some n ∧
    n.span.start = start + Text.byteLength front
  last : ∃ n, (Item.nodesAtAll start items).getLast? = some n ∧
    n.span.stop = start + Text.byteLength front + Text.byteLength mid

section Extent

variable {i : Item} {items : List Item} {start : Nat} {front mid back : Text}

theorem Extent.cons_gap (plain : i.Plain) (gap : i.isGap = true)
    (h : Extent items (start + Text.byteLength i.source) front mid back) :
    Extent (i :: items) start (i.source ++ front) mid back := by
  have same : Item.nodesAtAll start (i :: items) =
      Item.nodesAtAll (start + Text.byteLength i.source) items := by
    rw [Item.nodesAtAll, nodesAt_of_isGap gap, List.nil_append]
  obtain ⟨first, head, low⟩ := h.first
  obtain ⟨last, tail, high⟩ := h.last
  rw [← same] at head tail
  refine ⟨?_, Text.isBlankText_append.mpr ⟨blank_of_isGap plain gap, h.blankFront⟩, h.blankBack,
    ⟨first, head, ?_⟩, ⟨last, tail, ?_⟩⟩
  · rw [Item.sources_cons, h.sources, List.append_assoc]
  · rw [low, Text.byteLength_append, Nat.add_assoc]
  · rw [high, Text.byteLength_append, Nat.add_assoc start]

theorem extent_of_gaps (plain : ∀ j ∈ items, j.Plain) (visible : i.isGap = false)
    (gaps : items.all Item.isGap = true) :
    Extent (i :: items) start [] i.source (Item.sources items) := by
  obtain ⟨n, located, span⟩ := exists_nodesAt visible start
  have sole : Item.nodesAtAll start (i :: items) = [n] := by
    rw [Item.nodesAtAll, located, nodesAtAll_of_gaps gaps]
    rfl
  refine ⟨Item.sources_cons i items, Text.isBlankText_nil, blank_sources plain gaps, ⟨n, ?_, ?_⟩,
    ⟨n, ?_, ?_⟩⟩
  · rw [sole]
    rfl
  · rw [span]
    rfl
  · rw [sole]
    rfl
  · rw [span]
    rfl

theorem Extent.cons (visible : i.isGap = false)
    (h : Extent items (start + Text.byteLength i.source) front mid back) :
    Extent (i :: items) start [] (i.source ++ (front ++ mid)) back := by
  obtain ⟨n, located, span⟩ := exists_nodesAt visible start
  have nodes : Item.nodesAtAll start (i :: items) =
      n :: Item.nodesAtAll (start + Text.byteLength i.source) items := by
    rw [Item.nodesAtAll, located, List.singleton_append]
  obtain ⟨last, tail, high⟩ := h.last
  refine ⟨?_, Text.isBlankText_nil, h.blankBack, ⟨n, ?_, ?_⟩, ⟨last, ?_, ?_⟩⟩
  · rw [Item.sources_cons, h.sources]
    simp only [List.nil_append, List.append_assoc]
  · rw [nodes]
    rfl
  · rw [span]
    rfl
  · rw [nodes, List.getLast?_cons, tail]
    rfl
  · rw [high, Text.byteLength_append, Text.byteLength_append]
    simp only [Text.byteLength, Nat.add_assoc, Nat.zero_add]

theorem exists_extent (plain : ∀ i ∈ items, i.Plain) (start : Nat)
    (visible : items.all Item.isGap = false) :
    ∃ front mid back, Extent items start front mid back := by
  induction items generalizing start with
  | nil => cases visible
  | cons i items ih =>
    have plainRest : ∀ j ∈ items, j.Plain := fun j hj => plain j (List.mem_cons_of_mem _ hj)
    cases gap : i.isGap with
    | true =>
      rw [List.all_cons, gap, Bool.true_and] at visible
      obtain ⟨front, mid, back, extent⟩ := ih plainRest (start + Text.byteLength i.source) visible
      exact ⟨_, mid, back, extent.cons_gap (plain i List.mem_cons_self) gap⟩
    | false =>
      cases gaps : items.all Item.isGap with
      | true => exact ⟨[], _, _, extent_of_gaps plainRest gap gaps⟩
      | false =>
        obtain ⟨front, mid, back, extent⟩ := ih plainRest (start + Text.byteLength i.source) gaps
        exact ⟨[], _, back, extent.cons gap⟩

end Extent

end MarkupGrader.Layout
