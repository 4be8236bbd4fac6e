import MarkupGrader.Proofs.Layout.Printed

/-! What the layout keeps of the content of a page. Text, comments and doctypes are printed in order
and at places of their own, but for three kinds of loss: what stands in a void element that has a
line of its own, comments inside the tags of an element that has lines of its own, and comments
inside a doctype, which are printed only as a part of it. -/

namespace MarkupGrader.Markup.Item

open Piece (contentOf)
open Text (allBlank solid)

def contents (i : Item) : List Text := i.outline.contents

def Row.isKept : Row Bool → Bool
  | .shared _ => true
  | .alone kept => kept

mutual

/-- Of an item that has lines of its own no content is lost but blanks: no content stands inside a
doctype or inside the tags of an element, no content stands in a void element, and what stands in a
block is kept, row by row. -/
def isKept : Item → Bool
  | leaf t => allBlank t.outline.inner
  | element tag content closing =>
    allBlank tag.outline.contents && allBlank (Outline.allContents closing.outline) &&
      match shape tag content with
      | .bare => allBlank (Outline.allContents (outlines content))
      | .empty => true
      | .inline _ => true
      | .block => (rows [] (eachKept content)).all Row.isKept

def eachKept : List Item → List (Item × Bool)
  | [] => []
  | i :: rest => (i, i.isKept) :: eachKept rest

end

theorem eachKept_eq_map (items : List Item) :
    eachKept items = items.map fun i => (i, i.isKept) := by
  induction items with
  | nil => rfl
  | cons i items ih => rw [eachKept, ih, List.map_cons]

theorem isKept_rows (content : List Item) :
    (rows [] (eachKept content)).all Row.isKept = true ↔
      ∀ row ∈ rowsOf content, (row.map isKept).isKept = true := by
  rw [eachKept_eq_map, rows_eq, List.all_eq_true, List.forall_mem_map]

theorem flat_leaf {t : Token} (noDoctype : ∀ d, t ≠ .doctype d) : t.outline.Flat := by
  cases t with
  | filler f => exact Outline.flat_filler f
  | doctype d => exact absurd rfl (noDoctype d)
  | text t => exact .leaf _ t
  | entity t => exact .leaf _ t
  | tag t => exact Outline.flat_tag t
  | endTag t => exact Outline.flat_endTag rfl _ t
  | raw t => exact .leaf _ t

theorem isContent_elementKind (key : Text) : (elementKind key).isContent = false := by
  unfold elementKind
  split
  · rfl
  · split <;> rfl

theorem flat_of_isInline {i : Item} (plain : i.Plain) (inline : i.isInline = true) :
    i.outline.Flat := by
  induction plain with
  | @leaf t _ =>
    refine flat_leaf fun d eq => ?_
    subst eq
    cases inline
  | @element tag content closing _ ih =>
    rw [isInline, Bool.and_eq_true, allInline_eq_all, List.all_eq_true] at inline
    refine .group (isContent_elementKind tag.key) ?_
    rw [List.forall_mem_cons, List.forall_mem_append, outlines_eq_map, List.forall_mem_map]
    exact ⟨Outline.flat_tag tag, fun i hi => ih i hi (inline.2 i hi), Outline.flat_closing closing⟩

theorem flat_of_inlineContent? {content : List Item} (plain : ∀ i ∈ content, i.Plain) {text : Text}
    (h : inlineContent? content = some text) : ∀ i ∈ content, i.outline.Flat := by
  intro i hi
  unfold inlineContent? at h
  split at h
  · next raw sole =>
    obtain ⟨front, t, back, rfl, before, behind, kind, -⟩ := Layout.soleRaw?_eq_some sole
    have gap : i.isGap = true → i.outline.Flat := fun gap =>
      flat_of_isInline (plain i hi) (isInline_of_isGap gap)
    rcases List.mem_append.mp hi with hi | hi
    · exact gap (List.all_eq_true.mp before i hi)
    · rcases List.mem_cons.mp hi with rfl | hi
      · refine flat_leaf fun d eq => ?_
        subst eq
        cases kind
      · exact gap (List.all_eq_true.mp behind i hi)
  · split at h
    · next inline =>
      rw [Bool.and_eq_true, allInline_eq_all, List.all_eq_true] at inline
      exact flat_of_isInline (plain i hi) (inline.1 i hi)
    · cases h

theorem contentOf_copied {items : List Item} (flat : ∀ i ∈ items, i.outline.Flat) :
    contentOf (Outline.allPieces (outlines items)) = Outline.allContents (outlines items) := by
  induction items with
  | nil => rfl
  | cons i items ih =>
    rw [outlines, Outline.allPieces, Outline.allContents, Piece.contentOf_append,
      Outline.contentOf_pieces (flat i List.mem_cons_self),
      ih fun j hj => flat j (List.mem_cons_of_mem _ hj)]

theorem contents_of_isGap {i : Item} (plain : i.Plain) (gap : i.isGap = true) :
    i.contents = [] := by
  cases plain with
  | @leaf t plain =>
    cases t with
    | filler f =>
      cases f with
      | space t => rfl
      | comment t => cases gap
    | tag t => exact absurd plain id
    | endTag t => exact absurd plain id
    | doctype d => cases gap
    | text t => cases gap
    | entity t => cases gap
    | raw t => cases gap
  | element => cases gap

theorem allContents_outlines (items : List Item) :
    Outline.allContents (outlines items) = items.flatMap contents := by
  rw [outlines_eq_map, Outline.allContents_eq_flatMap, List.flatMap_map]
  rfl

/-- The content that is printed of an item is among the item's content, and it is all of it exactly
if the item is kept. -/
structure Accounted (i : Item) : Prop where
  sublist : (solid (contentOf i.printed)).Sublist (solid i.contents)
  all_iff : solid (contentOf i.printed) = solid i.contents ↔ i.isKept = true

theorem accounted_leaf {t : Token} (plain : t.Plain) : Accounted (leaf t) := by
  by_cases doctype : ∃ d, t = .doctype d
  · obtain ⟨d, rfl⟩ := doctype
    have own : contentOf (leaf (.doctype d)).printed = [d.source] := by
      rw [← Doctype.source_outline d]
      rfl
    have all : (leaf (.doctype d)).contents = [d.source] ++ d.outline.inner := by
      rw [← Doctype.source_outline d]
      rfl
    constructor
    · rw [own, all, Text.solid_append]
      exact List.sublist_append_left _ _
    · rw [own, all, Text.solid_append, List.self_eq_append_right, Text.solid_eq_nil, isKept]
      rfl
  · have flat := flat_leaf fun d eq => doctype ⟨d, eq⟩
    have same : contentOf (leaf t).printed = (leaf t).contents := by
      rw [printed, contents, outline, Outline.contentOf_pieces flat]
    have kept : (leaf t).isKept = true := by
      rw [isKept]
      cases t with
      | filler f => cases f <;> rfl
      | tag t => exact absurd plain id
      | endTag t => exact absurd plain id
      | doctype d => exact absurd ⟨d, rfl⟩ doctype
      | text t => rfl
      | entity t => rfl
      | raw t => rfl
    constructor
    · rw [same]
    · rw [same]
      exact iff_of_true rfl kept

theorem contents_element (tag : Tag) (content : List Item) (closing : Closing) :
    (element tag content closing).contents =
      tag.outline.contents ++ (content.flatMap contents ++ Outline.allContents closing.outline) := by
  rw [contents, outline, Outline.contents, isContent_elementKind, if_neg Bool.false_ne_true,
    List.nil_append, Outline.allContents, Outline.allContents_append, allContents_outlines]

theorem accounted_of_content {tag : Tag} {content : List Item} {closing : Closing} {p : Prop}
    (sublist : (solid (contentOf (element tag content closing).printed)).Sublist
      (solid (content.flatMap contents)))
    (all_iff : solid (contentOf (element tag content closing).printed) =
      solid (content.flatMap contents) ↔ p)
    (kept : (element tag content closing).isKept = true ↔
      (allBlank tag.outline.contents = true ∧
        allBlank (Outline.allContents closing.outline) = true) ∧ p) :
    Accounted (element tag content closing) := by
  have whole : solid (element tag content closing).contents =
      solid tag.outline.contents ++ (solid (content.flatMap contents) ++
        solid (Outline.allContents closing.outline)) := by
    rw [contents_element, Text.solid_append, Text.solid_append]
  have inner := sublist.trans
    (List.sublist_append_left _ (solid (Outline.allContents closing.outline)))
  constructor
  · rw [whole]
    exact inner.trans (List.sublist_append_right _ _)
  · have outer := Text.append_eq_iff_of_sublist (List.nil_sublist (solid tag.outline.contents)) inner
    have behind := Text.append_eq_iff_of_sublist sublist
      (List.nil_sublist (solid (Outline.allContents closing.outline)))
    rw [List.nil_append] at outer
    rw [List.append_nil] at behind
    rw [whole, outer, behind, all_iff, kept, eq_comm, Text.solid_eq_nil, @eq_comm _ [],
      Text.solid_eq_nil, and_comm (a := p), and_assoc]

structure AccountedRow (row : Row Item) : Prop where
  sublist : (solid (contentOf (row.map printed).printed)).Sublist
    (solid (row.items.flatMap contents))
  all_iff : solid (contentOf (row.map printed).printed) = solid (row.items.flatMap contents) ↔
    (row.map isKept).isKept = true

theorem accountedRow_alone {i : Item} (accounted : i.Accounted) : AccountedRow (.alone i) := by
  have own : (Row.alone i).items.flatMap contents = i.contents := List.flatMap_singleton _ _
  constructor
  · rw [own]
    exact accounted.sublist
  · rw [own]
    exact accounted.all_iff

theorem accountedRow_shared {run : List Item} (plain : ∀ i ∈ run, i.Plain)
    (inline : allInline run = true) : AccountedRow (.shared run) := by
  rw [allInline_eq_all, List.all_eq_true] at inline
  have copied : contentOf (Outline.allPieces (outlines run)) =
      Outline.allContents (outlines run) :=
    contentOf_copied fun i hi => flat_of_isInline (plain i hi) (inline i hi)
  have same : contentOf ((Row.shared run).map printed).printed =
      (Row.shared run).items.flatMap contents := by
    rw [Row.map, Row.printed, copied, allContents_outlines]
    rfl
  constructor
  · rw [same]
  · rw [same]
    exact iff_of_true rfl rfl

theorem accounted_of_mem_rowsOf {content : List Item} (plain : ∀ i ∈ content, i.Plain)
    (accounted : ∀ i ∈ content, Accounted i) : ∀ row ∈ rowsOf content, AccountedRow row := by
  intro row hrow
  cases row with
  | shared run =>
    have inline := (shared_of_mem_rows rfl hrow).1
    exact accountedRow_shared (fun i hi => plain i (mem_of_mem_rowsOf hrow hi)) inline
  | alone i =>
    have mem := mem_of_mem_rowsOf hrow (List.mem_singleton_self i)
    exact accountedRow_alone (accounted i mem)

theorem accounted_block {tag : Tag} {content : List Item} (closing : Closing)
    (kind : shape tag content = .block) (accounted : ∀ row ∈ rowsOf content, AccountedRow row) :
    Accounted (element tag content closing) := by
  have own : solid (contentOf (element tag content closing).printed) =
      (rowsOf content).flatMap fun row => solid (contentOf (row.map printed).printed) := by
    rw [printed, kind, ← Text.solid_flatMap, ← Piece.contentOf_flatMap, ← flatMap_rows_eachPrinted]
    simp
  have all : solid (content.flatMap contents) =
      (rowsOf content).flatMap fun row => solid (row.items.flatMap contents) := by
    rw [← Text.solid_flatMap, ← List.flatMap_assoc, flatMap_items]
  have sublists := fun row hrow => (accounted row hrow).sublist
  refine accounted_of_content
    (p := ∀ row ∈ rowsOf content, (row.map isKept).isKept = true) ?_ ?_ ?_
  · rw [own, all]
    exact Text.flatMap_sublist sublists
  · rw [own, all, Text.flatMap_eq_iff_of_sublist sublists]
    exact forall₂_congr fun row hrow => (accounted row hrow).all_iff
  · rw [isKept, kind, Bool.and_eq_true, Bool.and_eq_true, ← isKept_rows]

theorem accounted_element {tag : Tag} {content : List Item} (closing : Closing)
    (plain : ∀ i ∈ content, i.Plain) (accounted : ∀ i ∈ content, Accounted i) :
    Accounted (element tag content closing) := by
  cases kind : shape tag content with
  | bare =>
    -- A void element is printed as its start tag, whatever it contains.
    have own : contentOf (element tag content closing).printed = [] := by
      rw [printed, kind]
      rfl
    refine accounted_of_content (p := allBlank (content.flatMap contents) = true) ?_ ?_ ?_
    · rw [own]
      exact List.nil_sublist _
    · rw [own, eq_comm]
      exact Text.solid_eq_nil
    · rw [isKept, kind, allContents_outlines, Bool.and_eq_true, Bool.and_eq_true]
  | empty =>
    have own : contentOf (element tag content closing).printed = [] := by
      rw [printed, kind]
      rfl
    -- Of an element without children there is only white space to lose.
    have none : content.flatMap contents = [] := by
      rw [List.flatMap_eq_nil_iff]
      intro i hi
      exact contents_of_isGap (plain i hi) (List.all_eq_true.mp (all_isGap_of_shape kind) i hi)
    refine accounted_of_content (p := True) ?_ ?_ ?_
    · rw [own]
      exact List.nil_sublist _
    · rw [own, none]
      exact iff_of_true rfl trivial
    · rw [isKept, kind, Bool.and_eq_true, Bool.and_eq_true]
      simp only
  | inline text =>
    have flat := flat_of_inlineContent? plain (inlineContent?_of_shape kind)
    have own : contentOf (element tag content closing).printed = content.flatMap contents := by
      rw [printed, kind, ← allContents_outlines, ← contentOf_copied flat]
      simp
    refine accounted_of_content (p := True) ?_ ?_ ?_
    · rw [own]
    · rw [own]
      exact iff_of_true rfl trivial
    · rw [isKept, kind, Bool.and_eq_true, Bool.and_eq_true]
      simp only
  | block => exact accounted_block closing kind (accounted_of_mem_rowsOf plain accounted)

theorem accounted_of_plain {i : Item} (plain : i.Plain) : Accounted i := by
  induction plain with
  | leaf plain => exact accounted_leaf plain
  | @element tag content closing plain accounted =>
    exact accounted_element closing plain accounted

end MarkupGrader.Markup.Item
