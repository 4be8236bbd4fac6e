import MarkupGrader.Proofs.Layout.Printed
import MarkupGrader.Proofs.Markup.PrintedTag
import MarkupGrader.Proofs.Text.Lines

/-! The items that a layout is made of: each row of a block behind the white space that breaks it off,
with its tags written anew and what shares a line copied. Their sources are the lines of the layout. -/

namespace MarkupGrader.Markup

open Text (isLed isTrailed IsTrim Spaced IsBlankText)
open Layout (Line)

/-- A token on a line of its own, as the layout writes it. -/
def Token.reprinted : Token → Token
  | filler f => filler f
  | t => t.squeeze

theorem getLast?_of_closeComment? {s t rest : Text} {dashes : Nat}
    (h : closeComment? dashes s = some (t, rest)) : t.getLast? = some '>' := by
  induction s generalizing dashes t with
  | nil => cases h
  | cons c s ih =>
    unfold closeComment? at h
    split at h
    · next closes =>
      cases h
      rw [closes.1]
      rfl
    · obtain ⟨⟨u, v⟩, found, eq⟩ := Option.map_eq_some_iff.mp h
      cases eq
      rw [List.getLast?_cons, ih found]
      rfl

theorem isTrim_comment {r t : Text} (h : (Filler.comment t).Reads r) : IsTrim t := by
  obtain ⟨u, eq, -⟩ | ⟨u, eq, found⟩ := readFiller?_eq_some h
  · cases eq
  · cases eq
    obtain ⟨inner, -, h⟩ := Option.bind_eq_some_iff.mp found
    obtain ⟨⟨u, v⟩, found, eq⟩ := Option.map_eq_some_iff.mp h
    cases eq
    have last := getLast?_of_closeComment? found
    refine ⟨fun c hc => ?_, fun c hc => ?_⟩
    · cases hc
      rfl
    · rw [List.getLast?_append, last] at hc
      cases hc
      rfl

theorem Doctype.isTrim_source (d : Doctype) : IsTrim d.source := by
  have nonempty : (">" : Text) ≠ [] := List.cons_ne_nil _ _
  refine ⟨fun c hc => ?_, fun c hc => ?_⟩
  · cases hc
    rfl
  · rw [Doctype.source, List.getLast?_append_of_ne_nil _ nonempty] at hc
    cases hc
    rfl

def Token.isText : Token → Bool
  | text _ => true
  | _ => false

theorem Token.lines_of_visible {t : Token} {r : Text} (reads : t.Reads r) (plain : t.Plain)
    (spaced : t.isText = true → Spaced t.source) (visible : t.leafKind?.isNone = false)
    (depth : Nat) :
    t.lines depth = [⟨depth, t.reprinted.source⟩] := by
  cases t with
  | filler f =>
    cases f with
    | space t => cases visible
    | comment t =>
      rw [lines, (isTrim_comment reads).trim]
      rfl
  | doctype d =>
    rw [lines, d.isTrim_source.trim]
    rfl
  | text t =>
    have same : Text.collapse t = Text.squeeze t :=
      Text.collapse_eq_squeeze (spaced rfl) (TextReads.begins reads) (TextReads.ends reads)
    rw [lines, same]
    rfl
  | entity t =>
    rw [lines, Text.collapse_of_solid reads.1.visible reads.source_ne_nil]
    rfl
  | tag t => exact absurd plain id
  | endTag t => exact absurd plain id
  | raw t => exact absurd reads id

theorem Token.lines_of_gap {t : Token} (gap : t.leafKind?.isNone = true) (depth : Nat) :
    t.lines depth = [] := by
  cases t with
  | filler f =>
    cases f with
    | space t => rfl
    | comment t => cases gap
  | tag t => rfl
  | endTag t => rfl
  | _ => cases gap

/-- White space that breaks off lines, for each depth of the line behind it. -/
structure Breaks (sep : Nat → Text) : Prop where
  nonempty : ∀ depth, sep depth ≠ []
  spaces : ∀ depth, ∀ c ∈ sep depth, isSpace c = true

def lineText (sep : Nat → Text) (l : Line) : Text := sep l.depth ++ l.text

def Shape.closing (tag : Tag) : Shape → Closing
  | .bare => .implied
  | .empty | .inline _ | .block => .endTag tag.printedEnd

namespace Item

section Reprint

variable (sep : Nat → Text)

def lineBreak (depth : Nat) : Item := leaf (.filler (.space (sep depth)))

/-- Raw text on lines of its own, between the lines of its tags. -/
def rawBlock (inner depth : Nat) (raw : Text) : Text :=
  (Text.solidLines raw).flatMap (sep inner ++ ·) ++ sep depth

def Row.reprinted (depth : Nat) : Row (List Item) → List Item
  | .shared run => lineBreak sep depth :: copy run
  | .alone is => is

/-- What is written between the tags of an element, from what is written of each item there. -/
def body (tag : Tag) (depth : Nat) (content : List Item) (each : List (Item × List Item)) :
    List Item :=
  match shape tag content, soleRaw? content with
  | .bare, _ => []
  | .empty, _ => []
  | .inline text, some _ => [leaf (.raw text)]
  | .inline _, none => copy content
  | .block, some raw => [leaf (.raw (rawBlock sep (innerDepth tag depth) depth raw))]
  | .block, none =>
    (rows [] each).flatMap (Row.reprinted sep (innerDepth tag depth)) ++ [lineBreak sep depth]

mutual

/-- An item that has lines of its own, as it is written. -/
def reprint (depth : Nat) : Item → List Item
  | leaf t => if t.leafKind?.isNone then [] else [lineBreak sep depth, leaf t.reprinted]
  | element tag content _ =>
    [lineBreak sep depth,
      element tag.printed
        (body sep tag depth content (eachReprinted (innerDepth tag depth) content))
        ((shape tag content).closing tag)]

def eachReprinted (depth : Nat) : List Item → List (Item × List Item)
  | [] => []
  | i :: rest => (i, reprint depth i) :: eachReprinted depth rest

end

end Reprint

variable {sep : Nat → Text}

theorem eachReprinted_eq_map (depth : Nat) (items : List Item) :
    eachReprinted sep depth items = items.map fun i => (i, i.reprint sep depth) := by
  induction items with
  | nil => rfl
  | cons i items ih => rw [eachReprinted, ih, List.map_cons]

theorem flatMap_rows_eachReprinted (depth : Nat) (content : List Item) :
    (rows [] (eachReprinted sep depth content)).flatMap (Row.reprinted sep depth) =
      (rowsOf content).flatMap fun row => (row.map (reprint sep depth)).reprinted sep depth := by
  rw [eachReprinted_eq_map, rows_eq, List.flatMap_map]

/-- Items that share a line, with all that is known of how they were read. -/
structure Run (run : List Item) : Prop where
  regular : ∀ i ∈ run, i.Regular
  inline : allInline run = true
  text : anyText run = true
  reads : ∃ r, AllRead r (tokensOf run)

def Row.Regular : Row Item → Prop
  | .shared run => Run run
  | .alone i => i.Regular ∧ (i.isInline = true → i.hasText = false)

theorem infix_of_mem_rowsOf {content : List Item} {row : Row Item} (h : row ∈ rowsOf content) :
    ∃ front back, content = front ++ (row.items ++ back) := by
  obtain ⟨front, back, split⟩ := List.append_of_mem h
  refine ⟨front.flatMap Row.items, back.flatMap Row.items, ?_⟩
  rw [← List.flatMap_cons, ← List.flatMap_append, ← split, flatMap_items]

theorem hasText_of_mem_flush {run : List (Item × Item)} {i : Item}
    (same : ∀ pair ∈ run, pair.1 = pair.2) (h : Row.alone i ∈ flush run) : i.hasText = false := by
  unfold flush at h
  split at h
  · simp at h
  · next none =>
    obtain ⟨pair, mem, eq⟩ := List.mem_map.mp h
    cases eq
    rw [Bool.not_eq_true, anyText_eq_any, List.any_map, List.any_eq_false] at none
    rw [← same pair mem]
    exact Bool.eq_false_iff.mpr (none pair mem)

theorem hasText_of_mem_rows {run rest : List (Item × Item)} {i : Item}
    (same : ∀ pair ∈ run ++ rest, pair.1 = pair.2) (h : Row.alone i ∈ rows run rest)
    (inline : i.isInline = true) : i.hasText = false := by
  induction rest generalizing run with
  | nil =>
    rw [List.append_nil] at same
    exact hasText_of_mem_flush same h
  | cons pair rest ih =>
    obtain ⟨j, a⟩ := pair
    unfold rows at h
    split at h
    · refine ih ?_ h
      rwa [List.append_assoc]
    · next block =>
      obtain ⟨first, here, others⟩ := List.forall_mem_append.mp same |>.imp id
        List.forall_mem_cons.mp
      rcases List.mem_append.mp h with h | h
      · exact hasText_of_mem_flush first h
      · rcases List.mem_cons.mp h with eq | h
        · cases eq
          rw [show j = i from here] at block
          exact absurd inline block
        · exact ih (by simpa using others) h

theorem head?_tokensOf_of_regular {items : List Item} (regular : ∀ i ∈ items, i.Regular) :
    ∀ raw, (tokensOf items).head? ≠ some (.raw raw) := by
  cases items with
  | nil => exact fun raw h => by cases h
  | cons i items =>
    intro raw h
    cases regular i List.mem_cons_self with
    | leaf _ reads _ =>
      cases h
      exact reads.elim fun _ h => h
    | raw _ _ _ _ _ _ => cases h
    | element _ _ _ _ _ _ _ _ => cases h

theorem regular_rows {content : List Item} (regular : ∀ i ∈ content, i.Regular)
    (reads : ∃ r, AllRead r (tokensOf content)) : ∀ row ∈ rowsOf content, row.Regular := by
  intro row hrow
  cases row with
  | alone i =>
    refine ⟨regular i (mem_of_mem_rowsOf hrow (List.mem_singleton_self i)), fun inline => ?_⟩
    exact hasText_of_mem_rows (by simp) hrow inline
  | shared run =>
    obtain ⟨inline, text⟩ := shared_of_mem_rows rfl hrow
    obtain ⟨r, reads⟩ := reads
    obtain ⟨front, back, rfl⟩ := infix_of_mem_rowsOf hrow
    have items : Row.items (.shared run) = run := rfl
    rw [items] at regular reads
    rw [List.forall_mem_append, List.forall_mem_append] at regular
    obtain ⟨-, own, others⟩ := regular
    rw [tokensOf_append] at reads
    obtain ⟨-, reads⟩ := reads.of_append
      (head?_tokensOf_of_regular (List.forall_mem_append.mpr ⟨own, others⟩))
    rw [tokensOf_append] at reads
    exact ⟨own, inline, text, _, (reads.of_append (head?_tokensOf_of_regular others)).1⟩

/-- A regular row in which all blanks are white space. -/
structure Row.Spaced (row : Row Item) : Prop where
  regular : row.Regular
  spaced : Text.Spaced (sources row.items)

theorem source_subset {items : List Item} {i : Item} (hi : i ∈ items) : i.source ⊆ sources items :=
  fun _ hc => List.mem_flatMap.mpr ⟨i, hi, hc⟩

theorem sources_subset {tag : Tag} {content : List Item} {closing : Closing} :
    sources content ⊆ (element tag content closing).source := by
  rw [source_element]
  exact List.subset_append_of_subset_right _ (List.subset_append_left _ _)

theorem sources_row_subset {content : List Item} {row : Row Item} (hrow : row ∈ rowsOf content) :
    sources row.items ⊆ sources content := by
  obtain ⟨front, back, eq⟩ := infix_of_mem_rowsOf hrow
  rw [eq, sources_append, sources_append]
  exact List.subset_append_of_subset_right _ (List.subset_append_left _ _)

theorem spaced_rows {content : List Item} (regular : ∀ i ∈ content, i.Regular)
    (reads : ∃ r, AllRead r (tokensOf content)) (spaced : Text.Spaced (sources content)) :
    ∀ row ∈ rowsOf content, row.Spaced := fun row hrow =>
  ⟨regular_rows regular reads row hrow, spaced.of_subset (sources_row_subset hrow)⟩

theorem soleRaw?_of_regular {content : List Item} (regular : ∀ i ∈ content, i.Regular) :
    soleRaw? content = none := by
  cases sole : soleRaw? content with
  | none => rfl
  | some raw =>
    obtain ⟨front, t, back, rfl, -, -, kind, -⟩ := Layout.soleRaw?_eq_some sole
    have own := regular (leaf t) (by simp)
    cases own with
    | leaf plain reads _ =>
      cases t with
      | raw t => exact reads.elim fun _ h => h.elim
      | filler f => cases f <;> cases kind
      | _ => cases kind

theorem inline_of_shape {tag : Tag} {content : List Item} {text : Text}
    (none : soleRaw? content = none) (h : shape tag content = .inline text) :
    text = Text.collapse (sources content) ∧ allInline content = true ∧ anyText content = true := by
  have found := inlineContent?_of_shape h
  rw [inlineContent?, none] at found
  simp only at found
  split at found
  · next both =>
    rw [Bool.and_eq_true] at both
    exact ⟨(Option.some.inj found).symm, both⟩
  · cases found

theorem isVoid_of_shape {tag : Tag} {content : List Item} (h : shape tag content = .bare) :
    ElementClass.isVoid tag.elementName = true := by
  unfold shape at h
  split at h
  · assumption
  · split at h
    · cases h
    · split at h <;> cases h

theorem shape_raw {tag : Tag} (key : isRawKey tag.key = true) (raw : Text) :
    shape tag [leaf (.raw raw)] =
      if '\n' ∈ Text.trim raw then .block else .inline (Text.trim raw) := by
  have solid : ElementClass.isVoid tag.elementName = false := by
    rw [← Bool.not_eq_true]
    intro void
    rw [Nest.isRawKey_of_isVoid (isVoid_key void)] at key
    cases key
  have free : ElementClass.structurals.contains tag.elementName = false := by
    have none : ∀ name ∈ ElementClass.structurals, isRawKey name.upper = false := by decide
    rw [← Bool.not_eq_true]
    intro mem
    rw [← tag.upper_elementName, none _ (List.contains_iff_mem.mp mem)] at key
    cases key
  have visible : [leaf (.raw raw)].all isGap = false := rfl
  have sole : soleRaw? [leaf (.raw raw)] = some raw := rfl
  rw [shape, solid, visible, free, inlineContent?, sole]
  simp only [Bool.false_eq_true, if_false]
  by_cases breaks : '\n' ∈ Text.trim raw
  · simp only [breaks, if_true]
  · simp only [breaks, if_false]

section Body

variable {tag : Tag} {content : List Item} {each : List (Item × List Item)} {depth : Nat}

theorem body_bare (h : shape tag content = .bare) : body sep tag depth content each = [] := by
  rw [body, h]

theorem body_empty (h : shape tag content = .empty) : body sep tag depth content each = [] := by
  rw [body, h]

theorem body_inline {text : Text} (h : shape tag content = .inline text)
    (none : soleRaw? content = none) : body sep tag depth content each = copy content := by
  rw [body, h, none]

theorem body_block (h : shape tag content = .block) (none : soleRaw? content = none) :
    body sep tag depth content (eachReprinted sep (innerDepth tag depth) content) =
      ((rowsOf content).flatMap fun row =>
        (row.map (reprint sep (innerDepth tag depth))).reprinted sep (innerDepth tag depth)) ++
          [lineBreak sep depth] := by
  rw [body, h, none, ← flatMap_rows_eachReprinted]

def reprintedRaw (sep : Nat → Text) (tag : Tag) (depth : Nat) (raw : Text) : Text :=
  if '\n' ∈ Text.trim raw then rawBlock sep (innerDepth tag depth) depth raw else Text.trim raw

theorem body_raw (key : isRawKey tag.key = true) (raw : Text) :
    body sep tag depth [leaf (.raw raw)] each = [leaf (.raw (reprintedRaw sep tag depth raw))] := by
  have sole : soleRaw? [leaf (.raw raw)] = some raw := rfl
  rw [body, shape_raw key, sole, reprintedRaw]
  by_cases breaks : '\n' ∈ Text.trim raw
  · simp only [breaks, if_true]
  · simp only [breaks, if_false]

end Body

theorem reprint_raw {tag : Tag} {closing : Closing} (key : isRawKey tag.key = true) (raw : Text)
    (depth : Nat) :
    (element tag [leaf (.raw raw)] closing).reprint sep depth =
      [lineBreak sep depth, element tag.printed [leaf (.raw (reprintedRaw sep tag depth raw))]
        (.endTag tag.printedEnd)] := by
  have closed : (shape tag [leaf (.raw raw)]).closing tag = .endTag tag.printedEnd := by
    rw [shape_raw key]
    split <;> rfl
  rw [reprint, body_raw key, closed]

theorem source_lineBreak (depth : Nat) : (lineBreak sep depth).source = sep depth :=
  source_leaf _

theorem source_reprinted {tag : Tag} (body : List Item) :
    (element tag.printed body (.endTag tag.printedEnd)).source =
      tag.opening ++ (sources body ++ Layout.endTag tag.elementName) := by
  rw [source_element, Closing.source, tag.source_printed, tag.source_printedEnd]

theorem source_lines {l : Line} : [l].flatMap (lineText sep) = sep l.depth ++ l.text :=
  List.append_nil _

theorem sources_reprint_raw {tag : Tag} {closing : Closing} (key : isRawKey tag.key = true)
    (raw : Text) (depth : Nat) :
    sources ((element tag [leaf (.raw raw)] closing).reprint sep depth) =
      ((element tag [leaf (.raw raw)] closing).lines depth).flatMap (lineText sep) := by
  rw [reprint_raw key, sources_cons, sources_cons, sources_nil, List.append_nil, source_lineBreak,
    source_reprinted, sources_cons, sources_nil, List.append_nil, source_leaf, lines, shape_raw key,
    reprintedRaw]
  by_cases breaks : '\n' ∈ Text.trim raw
  · have row : (rows [] (eachLines (innerDepth tag depth) [leaf (.raw raw)])).flatMap
        (Row.lines (innerDepth tag depth)) =
        (Text.solidLines raw).map (⟨innerDepth tag depth, ·⟩) := by
      rw [flatMap_rows_eachLines]
      exact List.append_nil _
    simp only [breaks, if_true, row]
    rw [List.flatMap_cons, List.flatMap_append, List.flatMap_map, source_lines, rawBlock, lineText,
      Token.source]
    simp only [lineText, List.append_assoc]
  · simp only [breaks, if_false, source_lines, Token.source, List.append_assoc]

theorem sources_reprint {i : Item} (regular : i.Regular) (spaced : Spaced i.source) :
    ∀ depth, sources (i.reprint sep depth) = (i.lines depth).flatMap (lineText sep) := by
  induction regular with
  | @leaf t plain reads _ =>
    intro depth
    obtain ⟨r, reads⟩ := reads
    rw [source_leaf] at spaced
    rw [reprint, lines]
    cases gap : t.leafKind?.isNone with
    | true =>
      rw [if_pos rfl, Token.lines_of_gap gap]
      rfl
    | false =>
      rw [if_neg Bool.false_ne_true,
        Token.lines_of_visible reads plain (fun _ => spaced) gap, source_lines,
        sources_cons, sources_cons, source_lineBreak, source_leaf, sources_nil, List.append_nil]
  | raw _ key _ _ _ _ => exact fun depth => sources_reprint_raw key _ depth
  | @element tag content closing own key regular reads _ _ _ _ ih =>
    intro depth
    have none := soleRaw?_of_regular regular
    have within := spaced.of_subset sources_subset
    rw [reprint, lines, sources_cons, sources_cons, sources_nil, List.append_nil, source_lineBreak]
    cases kind : shape tag content with
    | bare =>
      rw [body_bare kind, source_lines, source_element, tag.source_printed]
      simp [Shape.closing, Closing.source]
    | empty =>
      rw [body_empty kind, source_lines, Shape.closing, source_reprinted]
      rfl
    | inline text =>
      obtain ⟨rfl, inline, -⟩ := inline_of_shape none kind
      rw [body_inline kind none, source_lines, Shape.closing, source_reprinted,
        (copy_reads regular inline reads within).1, List.append_assoc]
    | block =>
      have each : sources ((rowsOf content).flatMap fun row =>
          (row.map (reprint sep (innerDepth tag depth))).reprinted sep (innerDepth tag depth)) =
          ((rowsOf content).flatMap fun row => Row.lines (innerDepth tag depth)
            (row.map (·.lines (innerDepth tag depth)))).flatMap (lineText sep) := by
        rw [sources, List.flatMap_assoc, List.flatMap_assoc]
        refine List.flatMap_congr fun row hrow => ?_
        have facts := spaced_rows regular reads within row hrow
        cases row with
        | alone i =>
          have mem := mem_of_mem_rowsOf hrow (List.mem_singleton_self i)
          exact ih i mem (within.of_subset (source_subset mem)) (innerDepth tag depth)
        | shared run =>
          obtain ⟨own, spaced⟩ := facts
          have copied := (copy_reads own.regular own.inline own.reads spaced).1
          rw [Row.map, Row.map, Row.reprinted, Row.lines, source_lines, List.flatMap_cons,
            source_lineBreak, ← copied]
          rfl
      rw [body_block kind none, Shape.closing, source_reprinted, sources_append, each,
        flatMap_rows_eachLines, List.flatMap_cons, List.flatMap_append, source_lines, sources_cons,
        sources_nil, List.append_nil, source_lineBreak, lineText]
      simp only [List.append_assoc]

end Item
end MarkupGrader.Markup
