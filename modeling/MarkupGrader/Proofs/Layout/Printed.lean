import MarkupGrader.Proofs.Layout.Items
import MarkupGrader.Proofs.Markup.Content

/-! What the layout prints, piece by piece, with the content told from the markup around it. But for
blanks, the pieces make up the layout. -/

namespace MarkupGrader.Markup.Item

open Piece (contentOf)

def Row.printed : Row (List Piece) → List Piece
  | .shared run => Outline.allPieces (outlines run)
  | .alone ps => ps

mutual

/-- The pieces printed of an item that has lines of its own. An item that shares a line is printed
as it stands in the source. -/
def printed : Item → List Piece
  | leaf t => t.outline.pieces
  | element tag content _ =>
    match shape tag content with
    | .bare => [.markup tag.opening]
    | .empty => [.markup tag.opening, .markup (Layout.endTag tag.elementName)]
    | .inline _ =>
      .markup tag.opening ::
        (Outline.allPieces (outlines content) ++ [.markup (Layout.endTag tag.elementName)])
    | .block =>
      .markup tag.opening ::
        ((rows [] (eachPrinted content)).flatMap Row.printed ++
          [.markup (Layout.endTag tag.elementName)])

def eachPrinted : List Item → List (Item × List Piece)
  | [] => []
  | i :: rest => (i, i.printed) :: eachPrinted rest

end

theorem eachPrinted_eq_map (items : List Item) :
    eachPrinted items = items.map fun i => (i, i.printed) := by
  induction items with
  | nil => rfl
  | cons i items ih => rw [eachPrinted, ih, List.map_cons]

theorem flatMap_rows_eachPrinted (content : List Item) :
    (rows [] (eachPrinted content)).flatMap Row.printed =
      (rowsOf content).flatMap fun row => (row.map printed).printed := by
  rw [eachPrinted_eq_map, rows_eq, List.flatMap_map]

def bareLines (ls : List Layout.Line) : Text := ls.flatMap fun l => Text.dropBlanks l.text

def barePieces (ps : List Piece) : Text := Text.dropBlanks (ps.flatMap Piece.text)

theorem bareLines_append (ls ms : List Layout.Line) :
    bareLines (ls ++ ms) = bareLines ls ++ bareLines ms := List.flatMap_append

theorem bareLines_cons (l : Layout.Line) (ls : List Layout.Line) :
    bareLines (l :: ls) = Text.dropBlanks l.text ++ bareLines ls := List.flatMap_cons

theorem bareLines_flatMap {α : Type} (f : α → List Layout.Line) (as : List α) :
    bareLines (as.flatMap f) = as.flatMap fun a => bareLines (f a) := List.flatMap_assoc

theorem barePieces_flatMap {α : Type} (f : α → List Piece) (as : List α) :
    barePieces (as.flatMap f) = as.flatMap fun a => barePieces (f a) := by
  rw [barePieces, List.flatMap_assoc, Text.dropBlanks_flatMap]
  rfl

theorem barePieces_append (ps qs : List Piece) :
    barePieces (ps ++ qs) = barePieces ps ++ barePieces qs := by
  rw [barePieces, List.flatMap_append, Text.dropBlanks_append]
  rfl

theorem barePieces_markup (t : Text) (ps : List Piece) :
    barePieces (.markup t :: ps) = Text.dropBlanks t ++ barePieces ps := by
  rw [barePieces, List.flatMap_cons, Text.dropBlanks_append]
  rfl

theorem barePieces_outlines (items : List Item) :
    barePieces (Outline.allPieces (outlines items)) = Text.dropBlanks (sources items) := by
  rw [barePieces, Outline.flatMap_text_allPieces, sourceAll_outlines]

def Prints (i : Item) : Prop := ∀ depth, bareLines (i.lines depth) = barePieces i.printed

theorem prints_leaf {t : Token} (plain : t.Plain) : Prints (leaf t) := by
  intro depth
  have whole : barePieces (leaf t).printed = Text.dropBlanks t.source := by
    rw [printed, barePieces, Outline.flatMap_text_pieces, Token.source_outline]
  rw [whole, lines]
  cases t with
  | filler f =>
    cases f with
    | space t => exact (Text.dropBlanks_eq_nil.mpr plain).symm
    | comment t =>
      rw [Token.lines, bareLines_cons, Text.dropBlanks_trim]
      exact List.append_nil _
  | tag t => exact absurd plain id
  | endTag t => exact absurd plain id
  | doctype d =>
    rw [Token.lines, bareLines_cons, Text.dropBlanks_trim]
    exact List.append_nil _
  | text t =>
    rw [Token.lines, bareLines_cons, Text.dropBlanks_collapse]
    exact List.append_nil _
  | entity t =>
    rw [Token.lines, bareLines_cons, Text.dropBlanks_collapse]
    exact List.append_nil _
  | raw t =>
    rw [Token.lines, bareLines, List.flatMap_map, Token.source, ← Text.flatMap_dropBlanks_lines t]
    -- Each line is trimmed, and the lines that are dropped are blank.
    induction Text.lines t with
    | nil => rfl
    | cons line more ih =>
      rw [List.map_cons, List.flatMap_cons, ← ih]
      cases empty : Text.trim line with
      | nil =>
        rw [Text.dropBlanks_eq_nil.mpr (Text.trim_eq_nil.mp empty)]
        rfl
      | cons c rest =>
        rw [List.filter_cons_of_pos (by simp), List.flatMap_cons, ← empty, Text.dropBlanks_trim]

theorem dropBlanks_inlineContent? {content : List Item} (plain : ∀ i ∈ content, i.Plain)
    {text : Text} (h : inlineContent? content = some text) :
    Text.dropBlanks text = Text.dropBlanks (sources content) := by
  unfold inlineContent? at h
  split at h
  · next raw sole =>
    split at h
    · cases h
    · cases h
      obtain ⟨front, t, back, rfl, before, behind, -, rfl⟩ := Layout.soleRaw?_eq_some sole
      have blankFront := Layout.blank_sources
        (fun i hi => plain i (List.mem_append_left _ hi)) before
      have blankBack := Layout.blank_sources
        (fun i hi => plain i (List.mem_append_right _ (List.mem_cons_of_mem _ hi))) behind
      rw [Text.dropBlanks_trim, sources_append, sources_cons, Text.dropBlanks_append,
        Text.dropBlanks_append, Text.dropBlanks_eq_nil.mpr blankFront,
        Text.dropBlanks_eq_nil.mpr blankBack, source_leaf, List.append_nil, List.nil_append]
  · split at h
    · cases h
      exact Text.dropBlanks_collapse _
    · cases h

theorem inlineContent?_of_shape {tag : Tag} {content : List Item} {text : Text}
    (h : shape tag content = .inline text) : inlineContent? content = some text := by
  unfold shape at h
  split at h
  · cases h
  · split at h
    · cases h
    · split at h
      · next found =>
        cases h
        split at found
        · cases found
        · exact found
      · cases h

theorem all_isGap_of_shape {tag : Tag} {content : List Item} (h : shape tag content = .empty) :
    content.all isGap = true := by
  unfold shape at h
  split at h
  · cases h
  · split at h
    · assumption
    · split at h <;> cases h

theorem bareLines_row (depth : Nat) {row : Row Item} (prints : ∀ i ∈ row.items, Prints i) :
    bareLines (Row.lines depth (row.map (·.lines depth))) =
      barePieces (row.map printed).printed := by
  cases row with
  | shared run =>
    rw [Row.map, Row.map, Row.lines, Row.printed, barePieces_outlines, bareLines_cons,
      Text.dropBlanks_collapse]
    exact List.append_nil _
  | alone i => exact prints i (List.mem_singleton_self i) depth

theorem prints_element {tag : Tag} {content : List Item} (closing : Closing)
    (plain : ∀ i ∈ content, i.Plain) (prints : ∀ i ∈ content, Prints i) :
    Prints (element tag content closing) := by
  intro depth
  rw [lines, printed]
  cases kind : shape tag content with
  | bare =>
    simp only [bareLines_cons, barePieces_markup]
    rfl
  | empty =>
    simp only [bareLines_cons, barePieces_markup, Text.dropBlanks_append, List.append_assoc]
    rfl
  | inline text =>
    have same := dropBlanks_inlineContent? plain (inlineContent?_of_shape kind)
    simp only [bareLines_cons, barePieces_markup, barePieces_append, barePieces_outlines,
      Text.dropBlanks_append, List.append_assoc, same]
    rfl
  | block =>
    have each : bareLines ((rows [] (eachLines (innerDepth tag depth) content)).flatMap
        (Row.lines (innerDepth tag depth))) =
          barePieces ((rows [] (eachPrinted content)).flatMap Row.printed) := by
      rw [flatMap_rows_eachLines, flatMap_rows_eachPrinted, bareLines_flatMap, barePieces_flatMap]
      exact List.flatMap_congr fun row hrow => bareLines_row _ fun i hi =>
        prints i (mem_of_mem_rowsOf hrow hi)
    simp only [bareLines_cons, bareLines_append, barePieces_markup, barePieces_append, each]
    rfl

theorem prints_of_plain {i : Item} (plain : i.Plain) : Prints i := by
  induction plain with
  | leaf plain => exact prints_leaf plain
  | @element tag content closing plain prints => exact prints_element closing plain prints

end MarkupGrader.Markup.Item

namespace MarkupGrader.Layout

open Markup (Item)

theorem dropBlanks_newline (source : Text) (e : LineEnding) :
    Text.dropBlanks (e.resolve source) = [] := by
  cases e with
  | auto =>
    rw [LineEnding.resolve]
    cases hasCarriageReturn source <;> rfl
  | lf => rfl
  | crlf => rfl

theorem dropBlanks_render (d : Document) (o : Options) :
    Text.dropBlanks (render d o) = Item.bareLines (lines d) := by
  rw [render, Text.dropBlanks_flatMap]
  refine congrArg (List.flatMap · (lines d)) (funext fun l => ?_)
  rw [Line.render, Text.dropBlanks_append, Text.dropBlanks_append, dropBlanks_newline,
    Text.indent, Text.dropBlanks_eq_nil.mpr (Text.isBlankText_replicate _), List.nil_append,
    List.append_nil]

/-- But for blanks, the layout of plain items is what the items print. -/
theorem dropBlanks_render_items {source : Text} {items : List Item}
    (read : Markup.ReadAs source items) (plain : ∀ i ∈ items, i.Plain) (o : Options) :
    Text.dropBlanks (render (Document.ofSyntax source (Markup.documentNode source items)) o) =
      Item.barePieces (items.flatMap Item.printed) := by
  rw [dropBlanks_render, lines_ofSyntax read plain, Item.bareLines_flatMap, Item.barePieces_flatMap]
  exact List.flatMap_congr fun i hi => Item.prints_of_plain (plain i hi) 0

end MarkupGrader.Layout
