import MarkupGrader.Proofs.Layout.Nodes

/-! The layout of plain items. It is the layout of their document, but made from the texts of the
items and not from positions in a source. -/

namespace MarkupGrader

open Layout (Line)

namespace Markup

def Tag.opening (t : Tag) : Text :=
  "<" ++ t.elementName ++ t.attributes.flatMap Layout.attributeText ++ ">"

inductive Shape
  /-- The start tag alone. -/
  | bare
  | empty
  /-- On one line, with this content. -/
  | inline (text : Text)
  | block

def Token.lines (depth : Nat) : Token → List Line
  | filler (.comment t) => [⟨depth, Text.trim t⟩]
  | doctype d => [⟨depth, Text.trim d.source⟩]
  | text t => [⟨depth, Text.collapse t⟩]
  | entity t => [⟨depth, Text.collapse t⟩]
  | raw t => (((Text.lines t).map Text.trim).filter (!·.isEmpty)).map (⟨depth, ·⟩)
  | _ => []

namespace Item

def soleRaw? (content : List Item) : Option Text :=
  match content.filter (!·.isGap) with
  | [leaf t] => if t.leafKind? = some .rawText then some t.source else none
  | _ => none

def inlineContent? (content : List Item) : Option Text :=
  match soleRaw? content with
  | some raw => if '\n' ∈ Text.trim raw then none else some (Text.trim raw)
  | none =>
    if allInline content && anyText content then some (Text.collapse (sources content)) else none

def shape (tag : Tag) (content : List Item) : Shape :=
  if ElementClass.isVoid tag.elementName then .bare
  else if content.all isGap then .empty
  else
    match if ElementClass.structurals.contains tag.elementName then none
      else inlineContent? content with
    | some text => .inline text
    | none => .block

def innerDepth (tag : Tag) (depth : Nat) : Nat :=
  if tag.elementName = "html" then depth else depth + 1

def Row.lines (depth : Nat) : Row (List Line) → List Line
  | .shared run => [⟨depth, Text.collapse (sources run)⟩]
  | .alone ls => ls

mutual

def lines (depth : Nat) : Item → List Line
  | leaf t => t.lines depth
  | element tag content _ =>
    match shape tag content with
    | .bare => [⟨depth, tag.opening⟩]
    | .empty => [⟨depth, tag.opening ++ Layout.endTag tag.elementName⟩]
    | .inline text => [⟨depth, tag.opening ++ text ++ Layout.endTag tag.elementName⟩]
    | .block =>
      ⟨depth, tag.opening⟩ ::
        ((rows [] (eachLines (innerDepth tag depth) content)).flatMap
            (Row.lines (innerDepth tag depth)) ++
          [⟨depth, Layout.endTag tag.elementName⟩])

def eachLines (depth : Nat) : List Item → List (Item × List Line)
  | [] => []
  | i :: rest => (i, i.lines depth) :: eachLines depth rest

end

theorem eachLines_eq_map (depth : Nat) (items : List Item) :
    eachLines depth items = items.map fun i => (i, i.lines depth) := by
  induction items with
  | nil => rfl
  | cons i items ih => rw [eachLines, ih, List.map_cons]

theorem flatMap_rows_eachLines (depth : Nat) (content : List Item) :
    (rows [] (eachLines depth content)).flatMap (Row.lines depth) =
      (rowsOf content).flatMap fun row => Row.lines depth (row.map (·.lines depth)) := by
  rw [eachLines_eq_map, rows_eq, List.flatMap_map]

end Item
end Markup

namespace Layout

open Document (Node)
open Markup (Item Tag Token)

variable {source pre post : Text}

theorem eachLines_eq_map (depth : Nat) (ns : List Node) :
    eachLines source depth ns = ns.map fun n => (n, nodeLines source depth n) := by
  induction ns with
  | nil => rfl
  | cons n ns ih => rw [eachLines, ih, List.map_cons]

theorem eachLines_append (depth : Nat) (ns ms : List Node) :
    eachLines source depth (ns ++ ms) = eachLines source depth ns ++ eachLines source depth ms := by
  simp only [eachLines_eq_map, List.map_append]

theorem map_fst_eachLines (depth : Nat) (ns : List Node) :
    (eachLines source depth ns).map Prod.fst = ns := by
  rw [eachLines_eq_map, List.map_map]
  exact List.map_id ns

theorem map_fst_itemLines (depth : Nat) (items : List Item) :
    (Item.eachLines depth items).map Prod.fst = items := by
  rw [Item.eachLines_eq_map, List.map_map]
  exact List.map_id items

/-- The item's nodes have the item's lines, wherever it stands in the source. -/
def Laid (source : Text) (i : Item) : Prop :=
  ∀ pre post depth, source = pre ++ (i.source ++ post) →
    (eachLines source depth (i.nodesAt (Text.byteLength pre))).flatMap Prod.snd = i.lines depth

theorem flatMap_eachLines {items : List Item} (laid : ∀ i ∈ items, Laid source i) (depth : Nat)
    (h : source = pre ++ (Item.sources items ++ post)) :
    (eachLines source depth (Item.nodesAtAll (Text.byteLength pre) items)).flatMap Prod.snd =
      (Item.eachLines depth items).flatMap Prod.snd := by
  induction items generalizing pre with
  | nil => rfl
  | cons i items ih =>
    obtain ⟨here, there⟩ := Document.split_cons h
    have more := ih (fun j hj => laid j (List.mem_cons_of_mem _ hj)) there
    rw [Text.byteLength_append] at more
    rw [Item.nodesAtAll, eachLines_append, List.flatMap_append,
      laid i List.mem_cons_self pre _ depth here, more, Item.eachLines, List.flatMap_cons]

theorem flatMap_flush (depth : Nat) (run : List Item) :
    (Item.flush (Item.eachLines depth run)).flatMap (Item.Row.lines depth) =
      if Item.anyText run then [⟨depth, Text.collapse (Item.sources run)⟩]
      else (Item.eachLines depth run).flatMap Prod.snd := by
  rw [Item.flush, map_fst_itemLines]
  split
  · rfl
  · rw [List.flatMap_map]
    rfl

theorem runLines_eq {run : List Item} (plain : ∀ i ∈ run, i.Plain)
    (laid : ∀ i ∈ run, Laid source i) (depth : Nat)
    (h : source = pre ++ (Item.sources run ++ post)) :
    runLines source depth
        (eachLines source depth (Item.nodesAtAll (Text.byteLength pre) run)) =
      (Item.flush (Item.eachLines depth run)).flatMap (Item.Row.lines depth) := by
  have text := anyText_nodesAtAll run h
  have each := flatMap_eachLines laid depth h
  rw [flatMap_flush, ← text, ← each]
  cases gaps : run.all Item.isGap with
  | true =>
    rw [nodesAtAll_of_gaps gaps]
    rfl
  | false =>
    obtain ⟨front, mid, back, extent⟩ := exists_extent plain (Text.byteLength pre) gaps
    obtain ⟨first, head, low⟩ := extent.first
    obtain ⟨last, tail, high⟩ := extent.last
    have middle : source = (pre ++ front) ++ (mid ++ (back ++ post)) := by
      rw [h, extent.sources]
      simp only [List.append_assoc]
    have slice := Markup.Outline.slice_eq middle
    rw [Text.byteLength_append] at slice
    rw [runLines, eachLines_eq_map, List.head?_map, List.getLast?_map, head, tail,
      ← eachLines_eq_map, map_fst_eachLines]
    simp only [Option.map_some, low, high, slice, extent.sources,
      Text.collapse_around extent.blankFront extent.blankBack]

theorem blockLines_of_block (depth : Nat) (run : List (Node × List Line)) {n : Node}
    (block : isInline n = false) (rest : List (Node × List Line)) :
    blockLines source depth run (eachLines source depth [n] ++ rest) =
      runLines source depth run ++ (nodeLines source depth n ++ blockLines source depth [] rest) := by
  rw [eachLines, List.cons_append, blockLines, block, if_neg Bool.false_ne_true, List.append_assoc]
  rfl

theorem blockLines_of_inline (depth : Nat) (run : List (Node × List Line)) {ns : List Node}
    (inline : allInline ns = true) (rest : List (Node × List Line)) :
    blockLines source depth run (eachLines source depth ns ++ rest) =
      blockLines source depth (run ++ eachLines source depth ns) rest := by
  induction ns generalizing run with
  | nil => rw [eachLines, List.nil_append, List.append_nil]
  | cons n ns ih =>
    rw [allInline, Bool.and_eq_true] at inline
    rw [eachLines, List.cons_append, blockLines, if_pos inline.1, ih _ inline.2, List.append_assoc]
    rfl

/-- The nodes of `rest`, behind inline nodes of `run`, have the lines of their rows. -/
def BlockLaid (source : Text) (start depth : Nat) (run rest : List Item) : Prop :=
  blockLines source depth (eachLines source depth (Item.nodesAtAll start run))
      (eachLines source depth
        (Item.nodesAtAll (start + Text.byteLength (Item.sources run)) rest)) =
    (Item.rows (Item.eachLines depth run) (Item.eachLines depth rest)).flatMap
      (Item.Row.lines depth)

section BlockLaid

variable {start depth : Nat} {i : Item} {run rest : List Item}

theorem blockLaid_of_inline (inline : i.isInline = true)
    (longer : BlockLaid source start depth (run ++ [i]) rest) :
    BlockLaid source start depth run (i :: rest) := by
  have nodes : Item.nodesAtAll start (run ++ [i]) =
      Item.nodesAtAll start run ++
        i.nodesAt (start + Text.byteLength (Item.sources run)) := by
    rw [nodesAtAll_append, Item.nodesAtAll, Item.nodesAtAll, List.append_nil]
  have pairs : Item.eachLines depth (run ++ [i]) =
      Item.eachLines depth run ++ [(i, i.lines depth)] := by
    simp only [Item.eachLines_eq_map, List.map_append, List.map_cons, List.map_nil]
  have size : Text.byteLength (Item.sources (run ++ [i])) =
      Text.byteLength (Item.sources run) + Text.byteLength i.source := by
    rw [Item.sources_append, Item.sources_cons, Item.sources_nil, List.append_nil,
      Text.byteLength_append]
  have nodesInline : allInline (i.nodesAt (start + Text.byteLength (Item.sources run))) = true :=
    (allInline_nodesAt _ i).trans inline
  rw [BlockLaid, nodes, pairs, size, eachLines_append, ← Nat.add_assoc] at longer
  rw [BlockLaid, Item.nodesAtAll, Item.eachLines, Item.rows, eachLines_append, if_pos inline,
    blockLines_of_inline depth _ nodesInline, longer]

theorem blockLaid_of_block (block : i.isInline = false)
    (flushed : runLines source depth (eachLines source depth (Item.nodesAtAll start run)) =
      (Item.flush (Item.eachLines depth run)).flatMap (Item.Row.lines depth))
    (own : (eachLines source depth
      (i.nodesAt (start + Text.byteLength (Item.sources run)))).flatMap Prod.snd = i.lines depth)
    (others : BlockLaid source
      (start + Text.byteLength (Item.sources run) + Text.byteLength i.source) depth [] rest) :
    BlockLaid source start depth run (i :: rest) := by
  have visible : i.isGap = false := by
    rw [← Bool.not_eq_true]
    intro gap
    rw [Item.isInline_of_isGap gap] at block
    cases block
  have inline := allInline_nodesAt (start + Text.byteLength (Item.sources run)) i
  obtain ⟨n, located, -⟩ := exists_nodesAt visible
    (start + Text.byteLength (Item.sources run))
  rw [located] at inline own
  have blockNode : isInline n = false := by
    rwa [block, allInline, allInline, Bool.and_true] at inline
  have lines : nodeLines source depth n = i.lines depth := by
    rw [← own]
    exact (List.append_nil _).symm
  rw [BlockLaid, Item.nodesAtAll, Item.sources_nil, Item.eachLines] at others
  rw [BlockLaid, Item.nodesAtAll, Item.eachLines, Item.rows, block, if_neg Bool.false_ne_true,
    eachLines_append, located, blockLines_of_block depth _ blockNode, flushed, lines,
    List.flatMap_append, List.flatMap_cons, ← others]
  rfl

end BlockLaid

theorem blockLaid {run rest : List Item} (plain : ∀ i ∈ run ++ rest, i.Plain)
    (laid : ∀ i ∈ run ++ rest, Laid source i) (depth : Nat)
    (h : source = pre ++ (Item.sources (run ++ rest) ++ post)) :
    BlockLaid source (Text.byteLength pre) depth run rest := by
  -- `run` grows by inline items until a block or the end of the content flushes it.
  induction rest generalizing run pre with
  | nil =>
    rw [List.append_nil] at plain laid h
    exact runLines_eq plain laid depth h
  | cons i rest ih =>
    cases inline : i.isInline with
    | true =>
      have join : (run ++ [i]) ++ rest = run ++ i :: rest := by simp
      rw [← join] at plain laid h
      exact blockLaid_of_inline inline (ih plain laid h)
    | false =>
      obtain ⟨first, there⟩ := Document.split_append h
      obtain ⟨here, behind⟩ := Document.split_cons there
      rw [List.forall_mem_append, List.forall_mem_cons] at plain laid
      have own := laid.2.1 (pre ++ Item.sources run) _ depth here
      have plainRest : ∀ j ∈ [] ++ rest, j.Plain := plain.2.2
      have others := ih plainRest laid.2.2 behind
      rw [Text.byteLength_append] at own
      rw [Text.byteLength_append, Text.byteLength_append] at others
      exact blockLaid_of_block inline (runLines_eq plain.1 laid.1 depth first) own others

theorem soleRaw?_eq_some {content : List Item} {raw : Text}
    (h : Item.soleRaw? content = some raw) :
    ∃ front t back, content = front ++ .leaf t :: back ∧ front.all Item.isGap = true ∧
      back.all Item.isGap = true ∧ t.leafKind? = some .rawText ∧ t.source = raw := by
  unfold Item.soleRaw? at h
  split at h
  · next t only =>
    split at h
    · next kind =>
      cases h
      obtain ⟨front, back, rfl, gaps, -, none⟩ := List.filter_eq_cons_iff.mp only
      refine ⟨front, t, back, rfl, ?_, ?_, kind, rfl⟩
      · simpa using gaps
      · simpa using none
    · cases h
  · cases h

theorem soleRaw?_cons_of_gap {i : Item} (gap : i.isGap = true) (rest : List Item) :
    Item.soleRaw? (i :: rest) = Item.soleRaw? rest := by
  have skip : (i :: rest).filter (!·.isGap) = rest.filter (!·.isGap) :=
    List.filter_cons_of_neg (by simp [gap])
  rw [Item.soleRaw?, Item.soleRaw?, skip]

theorem exists_soleRaw? {content : List Item} {start : Nat} {span : Span}
    (h : Item.nodesAtAll start content = [.leaf .rawText span]) :
    ∃ raw, Item.soleRaw? content = some raw := by
  induction content generalizing start with
  | nil => cases h
  | cons i rest ih =>
    rw [Item.nodesAtAll] at h
    cases gap : i.isGap with
    | true =>
      rw [nodesAt_of_isGap gap] at h
      rw [soleRaw?_cons_of_gap gap]
      exact ih h
    | false =>
      obtain ⟨n, located, -⟩ := exists_nodesAt gap start
      rw [located, List.singleton_append, List.cons.injEq, nodesAtAll_eq_nil] at h
      obtain ⟨rfl, gaps⟩ := h
      have only : (i :: rest).filter (!·.isGap) = [i] := by
        rw [List.filter_cons_of_pos (by simp [gap]), List.filter_eq_nil_iff.mpr]
        simpa using gaps
      cases i with
      | leaf t =>
        rw [Item.nodesAt] at located
        cases kind : t.leafKind? with
        | none =>
          rw [kind] at located
          cases located
        | some k =>
          rw [kind] at located
          cases located
          refine ⟨t.source, ?_⟩
          rw [Item.soleRaw?, only]
          exact if_pos kind
      | element tag content closing => cases located

theorem inlineContent_eq {content : List Item} (h : source = pre ++ (Item.sources content ++ post))
    {e : Document.Element} (span : e.content = some ⟨Text.byteLength pre,
      Text.byteLength pre + Text.byteLength (Item.sources content)⟩) :
    inlineContent source e (Item.nodesAtAll (Text.byteLength pre) content) =
      Item.inlineContent? content := by
  have text := anyText_nodesAtAll content h
  have whole := Markup.Outline.slice_eq h
  rw [Item.inlineContent?]
  cases sole : Item.soleRaw? content with
  | some raw =>
    obtain ⟨front, t, back, rfl, gaps, none, kind, rfl⟩ := soleRaw?_eq_some sole
    obtain ⟨-, there⟩ := Document.split_append h
    have slice := slice_leaf (Document.split_cons there).1
    rw [Text.byteLength_append] at slice
    rw [nodesAtAll_append, nodesAtAll_of_gaps gaps, Item.nodesAtAll, nodesAtAll_of_gaps none,
      Item.nodesAt, kind, List.nil_append, List.append_nil, inlineContent, slice]
  | none =>
    unfold inlineContent
    split
    · next span' only =>
      obtain ⟨raw, found⟩ := exists_soleRaw? only
      rw [sole] at found
      cases found
    · rw [allInline_nodesAtAll, text, span, Option.map_some, whole]

theorem laid_leaf (t : Token) : Laid source (.leaf t) := by
  intro pre post depth h
  have text := slice_leaf h
  rw [Item.nodesAt, Item.lines]
  cases t with
  | filler f =>
    cases f with
    | space t => rfl
    | comment t =>
      simp only [Token.leafKind?, eachLines, nodeLines, List.flatMap_cons, List.flatMap_nil,
        List.append_nil, text]
      rfl
  | tag t => rfl
  | endTag t => rfl
  | doctype d =>
    simp only [Token.leafKind?, eachLines, nodeLines, List.flatMap_cons, List.flatMap_nil,
      List.append_nil, text]
    rfl
  | text t =>
    simp only [Token.leafKind?, eachLines, nodeLines, List.flatMap_cons, List.flatMap_nil,
      List.append_nil, text]
    rfl
  | entity t =>
    simp only [Token.leafKind?, eachLines, nodeLines, List.flatMap_cons, List.flatMap_nil,
      List.append_nil, text]
    rfl
  | raw t =>
    simp only [Token.leafKind?, eachLines, nodeLines, List.flatMap_cons, List.flatMap_nil,
      List.append_nil, text]
    rfl

theorem nodeLines_element (tag : Tag) (content : List Item) (closing : Markup.Closing)
    (plain : ∀ i ∈ content, i.Plain) (laid : ∀ i ∈ content, Laid source i) (depth : Nat)
    (h : source = pre ++ (Item.sources content ++ post)) {e : Document.Element}
    (name : e.name = some tag.elementName) (attributes : e.attributes = tag.attributes)
    (span : e.content = some ⟨Text.byteLength pre,
      Text.byteLength pre + Text.byteLength (Item.sources content)⟩) :
    nodeLines source depth (.element e (Item.nodesAtAll (Text.byteLength pre) content)) =
      (Item.element tag content closing).lines depth := by
  have opening : startTag e tag.elementName = tag.opening := by
    rw [startTag, attributes]
    rfl
  have empty : (Item.nodesAtAll (Text.byteLength pre) content).isEmpty =
      content.all Item.isGap := by
    rw [Bool.eq_iff_iff, List.isEmpty_iff, nodesAtAll_eq_nil]
  have block : blockLines source (Item.innerDepth tag depth) []
      (eachLines source (Item.innerDepth tag depth)
        (Item.nodesAtAll (Text.byteLength pre) content)) =
      (Item.rows [] (Item.eachLines (Item.innerDepth tag depth) content)).flatMap
        (Item.Row.lines (Item.innerDepth tag depth)) := by
    have plainAll : ∀ i ∈ [] ++ content, i.Plain := plain
    have all := blockLaid plainAll laid (Item.innerDepth tag depth) h
    rwa [BlockLaid, Item.nodesAtAll, Item.eachLines] at all
  rw [nodeLines, Item.lines, name, Option.getD_some, opening, empty, inlineContent_eq h span,
    Item.shape]
  split
  · rfl
  · split
    · rfl
    · cases (if ElementClass.structurals.contains tag.elementName then none
        else Item.inlineContent? content) with
      | some text => rfl
      | none =>
        rw [← block]
        rfl

theorem laid_element {tag : Tag} {content : List Item} (closing : Markup.Closing)
    (plain : ∀ i ∈ content, i.Plain) (laid : ∀ i ∈ content, Laid source i) :
    Laid source (.element tag content closing) := by
  intro pre post depth h
  obtain ⟨-, there⟩ := Document.split_element h
  rw [Item.nodesAt, eachLines, eachLines, List.flatMap_cons, List.flatMap_nil, List.append_nil,
    ← Text.byteLength_append]
  exact nodeLines_element tag content closing plain laid depth there rfl rfl rfl

theorem laid_of_plain {i : Item} (plain : i.Plain) : Laid source i := by
  induction plain with
  | @leaf t _ => exact laid_leaf t
  | @element tag content closing plain laid => exact laid_element closing plain laid

/-- The lines of a document are the lines of its items, each root on its own. -/
theorem lines_ofSyntax {items : List Item} (read : Markup.ReadAs source items)
    (plain : ∀ i ∈ items, i.Plain) :
    lines (Document.ofSyntax source (Markup.documentNode source items)) =
      items.flatMap (·.lines 0) := by
  obtain ⟨mark, whole, start⟩ := Document.exists_mark source
  have h : source = mark ++ (Item.sources items ++ []) := by
    rw [read.sources, List.append_nil]
    exact whole
  have laid : ∀ i ∈ items, Laid source i := fun i hi => laid_of_plain (plain i hi)
  have each := flatMap_eachLines laid 0 h
  rw [lines, Document.roots_ofSyntax read plain, start]
  rw [Item.eachLines_eq_map, List.flatMap_map] at each
  exact each

end Layout
end MarkupGrader
