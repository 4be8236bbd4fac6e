import MarkupGrader.Proofs.Layout.Page
import MarkupGrader.Proofs.Markup.Pruned

/-! The skeleton of a layout. Texts with other blanks than white space are not read as they were
printed, but the layout has the tags of the items that are written for the page, in their order. -/

namespace MarkupGrader.Markup

open Text (Spaced)

variable {r : Text} {sep : Nat → Text}

theorem map_skeleton_append (ts us : List Token) (o : Option (List Token)) :
    (o.map (us ++ ·)).map (ts ++ ·) = o.map (ts ++ us ++ ·) := by
  rw [Option.map_map]
  exact Option.map_congr fun vs _ => (List.append_assoc ts us vs).symm

theorem skeleton?_break (breaks : Breaks sep) (depth : Nat) (r : Text) :
    skeleton? (sep depth ++ r) = skeleton? r :=
  skeleton?_append (fun c hc => isTextChar_of_isSpace (breaks.spaces depth c hc)) r

theorem Tag.Regular.skeleton?_opening {tag : Tag} (own : tag.Regular)
    (key : isRawKey tag.key = false) (r : Text) :
    skeleton? (tag.opening ++ r) = (skeleton? r).map ([.tag tag.printed] ++ ·) := by
  have reads : (Token.tag tag.printed).Reads r :=
    ⟨tag.reads_printed own r, by rwa [tag.key_printed]⟩
  rw [← tag.source_printed]
  exact reads.skeleton?

theorem Tag.Regular.skeleton?_ending {tag : Tag} (own : tag.Regular) (r : Text) :
    skeleton? (Layout.endTag tag.elementName ++ r) =
      (skeleton? r).map ([.endTag tag.printedEnd] ++ ·) := by
  have reads : (Token.endTag tag.printedEnd).Reads r := tag.reads_printedEnd own r
  rw [← tag.source_printedEnd]
  exact reads.skeleton?

namespace Item

theorem spaced_of_inline {i : Item} (regular : i.Regular) (inline : i.isInline = true)
    (tags : i.hasSpacedTags = true) :
    ∀ t ∈ i.tokens, t.isMarkup = true → Spaced t.source := by
  induction regular with
  | @leaf t plain _ _ =>
    intro u hu markup
    rw [List.mem_singleton.mp hu] at markup
    cases t with
    | doctype d => cases inline
    | raw t => cases inline
    | tag t => exact absurd plain id
    | endTag t => exact absurd plain id
    | _ => cases markup
  | raw _ _ _ _ _ _ =>
    rw [isInline, Bool.and_eq_true] at inline
    cases inline.2
  | @element tag content closing _ _ _ _ _ _ _ _ ih =>
    rw [isInline, Bool.and_eq_true, allInline_eq_all, List.all_eq_true] at inline
    obtain ⟨blanks, tags⟩ := every_element_iff.mp tags
    rw [inline.1] at blanks
    have own : Spaced (tag.source ++ closing.source) := by
      intro c hc blank
      have test := List.all_eq_true.mp blanks c hc
      rw [blank] at test
      exact test
    have front : Spaced tag.source := own.of_subset (List.subset_append_left _ _)
    have back : Spaced closing.source := own.of_subset (List.subset_append_right _ _)
    rw [tokens, List.forall_mem_cons, List.forall_mem_append, tokensOf_eq_flatMap,
      List.forall_mem_flatMap]
    refine ⟨fun _ => front, fun i hi => ih i hi (inline.2 i hi) (tags i hi), ?_⟩
    cases closing with
    | endTag e => exact List.forall_mem_singleton.mpr fun _ => back
    | implied => simp [Closing.tokens]
    | selfClosed => simp [Closing.tokens]

theorem skeleton_gaps {items : List Item} (plain : ∀ i ∈ items, i.Plain)
    (gaps : items.all isGap = true) : skeleton (tokensOf items) = [] := by
  induction items with
  | nil => rfl
  | cons i items ih =>
    rw [List.all_cons, Bool.and_eq_true] at gaps
    obtain ⟨own, others⟩ := List.forall_mem_cons.mp plain
    rw [tokensOf, skeleton_append, ih others gaps.2, List.append_nil]
    cases own with
    | @leaf t own =>
      cases t with
      | filler f => rfl
      | tag t => exact absurd own id
      | endTag t => exact absurd own id
      | _ => cases gaps.1
    | element _ => cases gaps.1

variable {run : List Item}

theorem skeleton_copy (regular : ∀ i ∈ run, i.Regular) :
    skeleton (tokensOf (copy run)) = skeleton ((tokensOf run).map Token.squeeze) := by
  obtain ⟨front, back, whole, before, behind⟩ := exists_trimGaps (loosenAll run)
  have plain := plain_loosenAll regular
  have loose := tokensOf_loosenAll run
  rw [whole, List.forall_mem_append, List.forall_mem_append] at plain
  rw [whole, tokensOf_append, tokensOf_append] at loose
  rw [copy, tokensOf_squeezeAll, skeleton_squeeze, skeleton_squeeze, ← loose, skeleton_append,
    skeleton_append, skeleton_gaps plain.1 before, skeleton_gaps plain.2.2 behind, List.append_nil,
    List.nil_append]

theorem skeleton?_run (own : Run run) (tags : ∀ i ∈ run, i.hasSpacedTags = true)
    (stops : r.head?.any (fun c => c.isAlphanum || c == ';') = false) :
    skeleton? (Text.collapse (sources run) ++ r) =
      (skeleton? r).map (skeleton (tokensOf (copy run)) ++ ·) := by
  obtain ⟨rest, reads⟩ := own.reads
  have inline := own.inline
  have spaced : ∀ t ∈ tokensOf run, t.isMarkup = true → Spaced t.source := by
    rw [allInline_eq_all, List.all_eq_true] at inline
    rw [tokensOf_eq_flatMap, List.forall_mem_flatMap]
    exact fun i hi => spaced_of_inline (own.regular i hi) (inline i hi) (tags i hi)
  rw [skeleton_copy own.regular, ← sources_tokensOf]
  exact reads.skeleton?_collapse (phrase_of_allInline own.regular own.inline) spaced stops

/-- The lines of the item have the skeleton of what is written of it. -/
def Keeps (sep : Nat → Text) (i : Item) : Prop :=
  ∀ depth r, Apart r → skeleton? ((i.lines depth).flatMap (lineText sep) ++ r) =
    (skeleton? r).map (skeleton (tokensOf (i.reprint sep depth)) ++ ·)

theorem keeps_leaf (breaks : Breaks sep) {t : Token} (plain : t.Plain) (reads : ∃ r, t.Reads r)
    (clear : t.isClear = true) : (leaf t).Keeps sep := by
  intro depth r apart
  obtain ⟨rest, reads⟩ := reads
  rw [reprint, lines]
  cases gap : t.leafKind?.isNone with
  | true =>
    rw [if_pos rfl, Token.lines_of_gap gap]
    exact Option.map_id'.symm
  | false =>
    rw [if_neg Bool.false_ne_true]
    cases text : t.isText with
    | true =>
      cases t with
      | text t =>
        -- With other blanks in it, the text may be read as several texts.
        have chars := isTextChar_collapse (TextReads.chars reads)
        rw [Token.lines, source_lines, List.append_assoc, skeleton?_break breaks,
          skeleton?_append chars]
        exact Option.map_id'.symm
      | _ => cases text
    | false =>
      have other : t.isText ≠ true := Bool.eq_false_iff.mp text
      have own := Token.reads_reprinted reads plain clear gap apart fun h => absurd h other
      rw [Token.lines_of_visible reads plain (fun h => absurd h other) gap, source_lines,
        List.append_assoc, skeleton?_break breaks, own.skeleton?]
      rfl

theorem keeps_raw (breaks : Breaks sep) {tag : Tag} {raw : Text} {closing : Closing}
    (own : tag.Regular) (key : isRawKey tag.key = true)
    (scanned : scanRaw (rawDelimiter tag.key) (rawDelimiter tag.key) raw =
      some (rawDelimiter tag.key))
    (safe : isSafe tag.key [leaf (.raw raw)] = true) :
    (element tag [leaf (.raw raw)] closing).Keeps sep := by
  intro depth r apart
  have reads : (element tag [leaf (.raw raw)] closing).Rereads sep :=
    rereads_raw breaks own key scanned safe
  rw [← sources_reprint_raw key, ← sources_tokensOf]
  exact (reads depth r apart fun text => by cases text).skeleton?

theorem skeleton_written (tag : Tag) (body : List Item) (closing : Closing) (depth : Nat) :
    skeleton (tokensOf [lineBreak sep depth, element tag.printed body closing]) =
      [.tag tag.printed] ++ (skeleton (tokensOf body) ++ closing.tokens) := by
  have ended : skeleton closing.tokens = closing.tokens := by cases closing <;> rfl
  rw [tokensOf_lineBreak, tokensOf_singleton, tokens]
  refine Eq.trans ?_ (congrArg (Token.tag tag.printed :: ·)
    ((skeleton_append _ _).trans (congrArg (skeleton (tokensOf body) ++ ·) ended)))
  rfl

theorem skeleton?_written (breaks : Breaks sep) {tag : Tag} {u : Text} {body : List Item}
    (own : tag.Regular) (key : isRawKey tag.key = false)
    (inner : ∀ s, skeleton? (u ++ '<' :: s) =
      (skeleton? ('<' :: s)).map (skeleton (tokensOf body) ++ ·)) (depth : Nat) (r : Text) :
    skeleton? (sep depth ++ (tag.opening ++ (u ++ (Layout.endTag tag.elementName ++ r)))) =
      (skeleton? r).map (skeleton (tokensOf
        [lineBreak sep depth, element tag.printed body (.endTag tag.printedEnd)]) ++ ·) := by
  have within : skeleton? (u ++ (Layout.endTag tag.elementName ++ r)) =
      (skeleton? (Layout.endTag tag.elementName ++ r)).map (skeleton (tokensOf body) ++ ·) := inner _
  rw [skeleton?_break breaks, own.skeleton?_opening key, within, own.skeleton?_ending,
    map_skeleton_append, map_skeleton_append, skeleton_written]
  rfl

theorem apart_lines (breaks : Breaks sep) (ls : List Layout.Line) (apart : Apart r) :
    Apart (ls.flatMap (lineText sep) ++ r) := by
  cases ls with
  | nil => exact apart
  | cons l ls =>
    rw [List.flatMap_cons, lineText, List.append_assoc, List.append_assoc]
    exact apart_break breaks l.depth _

theorem skeleton?_rows (breaks : Breaks sep) {depth : Nat} {rows : List (Row Item)}
    (regular : ∀ row ∈ rows, row.Regular)
    (tags : ∀ row ∈ rows, ∀ i ∈ row.items, i.hasSpacedTags = true)
    (keeps : ∀ i, Row.alone i ∈ rows → i.Keeps sep) (apart : Apart r) :
    skeleton? ((rows.flatMap fun row =>
        Row.lines depth (row.map (·.lines depth))).flatMap (lineText sep) ++ r) =
      (skeleton? r).map (skeleton (tokensOf (rows.flatMap fun row =>
        (row.map (reprint sep depth)).reprinted sep depth)) ++ ·) := by
  induction rows with
  | nil => exact Option.map_id'.symm
  | cons row rows ih =>
    obtain ⟨own, others⟩ := List.forall_mem_cons.mp regular
    obtain ⟨tagged, more⟩ := List.forall_mem_cons.mp tags
    have behind := ih others more fun i hi => keeps i (List.mem_cons_of_mem _ hi)
    have next := apart_lines breaks (rows.flatMap fun row =>
      Row.lines depth (row.map (·.lines depth))) apart
    rw [List.flatMap_cons, List.flatMap_append, List.append_assoc, List.flatMap_cons,
      tokensOf_append, skeleton_append, ← map_skeleton_append, ← behind]
    cases row with
    | alone i => exact keeps i List.mem_cons_self depth _ next
    | shared run =>
      rw [Row.map, Row.map, Row.lines, source_lines, List.append_assoc, skeleton?_break breaks,
        skeleton?_run own tagged next.entity]
      rfl

theorem skeleton?_block (breaks : Breaks sep) {content : List Item} (inner depth : Nat)
    (regular : ∀ i ∈ content, i.Regular) (reads : ∃ r, AllRead r (tokensOf content))
    (tags : ∀ i ∈ content, i.hasSpacedTags = true) (keeps : ∀ i ∈ content, i.Keeps sep) (s : Text) :
    skeleton? (((rowsOf content).flatMap fun row =>
        Row.lines inner (row.map (·.lines inner))).flatMap (lineText sep) ++ sep depth ++ '<' :: s) =
      (skeleton? ('<' :: s)).map (skeleton (tokensOf (((rowsOf content).flatMap fun row =>
        (row.map (reprint sep inner)).reprinted sep inner) ++ [lineBreak sep depth])) ++ ·) := by
  have last : skeleton (tokensOf [lineBreak sep depth]) = [] := rfl
  rw [List.append_assoc, skeleton?_rows breaks (regular_rows regular reads)
      (fun row hrow i hi => tags i (mem_of_mem_rowsOf hrow hi))
      (fun i hi => keeps i (mem_of_mem_rowsOf hi (List.mem_singleton_self i)))
      (apart_break breaks depth _),
    skeleton?_break breaks, tokensOf_append, skeleton_append, last, List.append_nil]

theorem keeps_of_regular (breaks : Breaks sep) {i : Item} (regular : i.Regular)
    (tags : i.hasSpacedTags = true) : i.Keeps sep := by
  induction regular with
  | leaf plain reads clear => exact keeps_leaf breaks plain reads clear
  | raw own key _ _ scanned safe => exact keeps_raw breaks own key scanned safe
  | @element tag content closing own key regular reads _ _ _ _ ih =>
    intro depth r _
    have none := soleRaw?_of_regular regular
    have within : ∀ i ∈ content, i.hasSpacedTags = true := (every_element_iff.mp tags).2
    rw [reprint, lines]
    cases kind : shape tag content with
    | bare =>
      rw [body_bare kind, source_lines, List.append_assoc, skeleton?_break breaks,
        own.skeleton?_opening key, skeleton_written]
      rfl
    | empty =>
      rw [body_empty kind, source_lines, List.append_assoc, List.append_assoc]
      exact skeleton?_written (u := []) breaks own key (fun s => Option.map_id'.symm) depth r
    | inline text =>
      obtain ⟨rfl, inline, text⟩ := inline_of_shape none kind
      rw [body_inline kind none, source_lines]
      simp only [List.append_assoc]
      exact skeleton?_written breaks own key
        (fun s => skeleton?_run ⟨regular, inline, text, reads⟩ within rfl) depth r
    | block =>
      have whole := skeleton?_written breaks own key (skeleton?_block breaks (innerDepth tag depth)
        depth regular reads within fun i hi => ih i hi (within i hi)) depth r
      rw [body_block kind none, flatMap_rows_eachLines, List.flatMap_cons, List.flatMap_append,
        source_lines, lineText]
      simp only [List.append_assoc] at whole ⊢
      exact whole

section Page

variable {o : Layout.Options} {newline : Text} {items : List Item}

theorem skeleton?_roots (breaks : Breaks sep) (regular : ∀ i ∈ items, i.Regular)
    (tags : ∀ i ∈ items, i.hasSpacedTags = true) (depth : Nat) (apart : Apart r) :
    skeleton? ((items.flatMap (·.lines depth)).flatMap (lineText sep) ++ r) =
      (skeleton? r).map (skeleton (tokensOf (items.flatMap (reprint sep depth))) ++ ·) := by
  induction items with
  | nil => exact Option.map_id'.symm
  | cons i items ih =>
    obtain ⟨own, others⟩ := List.forall_mem_cons.mp regular
    obtain ⟨tagged, more⟩ := List.forall_mem_cons.mp tags
    rw [List.flatMap_cons, List.flatMap_append, List.append_assoc, List.flatMap_cons,
      tokensOf_append, skeleton_append, ← map_skeleton_append, ← ih others more]
    exact keeps_of_regular breaks own tagged depth _ (apart_lines breaks _ apart)

theorem skeleton_page (items : List Item) :
    skeleton (tokensOf (page sep items [lineBreak sep 0])) =
      skeleton (tokensOf (items.flatMap (reprint sep 0))) := by
  have last : skeleton (tokensOf (items.flatMap (reprint sep 0) ++ [lineBreak sep 0])) =
      skeleton (tokensOf (items.flatMap (reprint sep 0))) := by
    rw [tokensOf_append, skeleton_append]
    exact List.append_nil _
  rcases page_eq items (.inl rfl) with ⟨none, -⟩ | some
  · exact absurd none (List.append_ne_nil_of_right_ne_nil _ (List.cons_ne_nil _ _))
  · rw [← last, some]
    rfl

theorem skeleton?_render (break_ : Text.Break newline) (regular : ∀ i ∈ items, i.Regular)
    (tags : ∀ i ∈ items, i.hasSpacedTags = true) :
    skeleton? ((items.flatMap (·.lines 0)).flatMap (Layout.Line.render o newline)) =
      some (skeleton (tokensOf (page (Layout.breakBefore o newline) items
        [lineBreak (Layout.breakBefore o newline) 0]))) := by
  have breaks := Layout.breaks_breakBefore o break_
  have apart := apart_break breaks 0 []
  have chars : ∀ c ∈ newline, isTextChar c = true := fun c hc =>
    isTextChar_of_isSpace (breaks.spaces 0 c (by rwa [Layout.breakBefore_zero]))
  have blank := skeleton?_append chars []
  rw [Layout.breakBefore_zero, List.append_nil] at apart
  rw [List.append_nil, skeleton?_nil] at blank
  have roots := skeleton?_roots breaks regular tags 0 apart
  rw [← Layout.newline_append_render, skeleton?_append chars, blank, ← skeleton_page] at roots
  rw [roots]
  exact congrArg some (List.append_nil _)

theorem skeleton?_markupOf (s : Text) : skeleton? (markupOf s).2 = skeleton? s := by
  cases s with
  | nil => rfl
  | cons c s =>
    rw [markupOf]
    split
    · next mark =>
      have char : isTextChar c = true := by
        rw [mark]
        decide
      exact (skeleton?_append (List.forall_mem_singleton.mpr char) s).symm
    · rfl

/-- A layout is read into items that are, but for texts and the like, those written for the page. -/
theorem parse_render (recovery : Recovery) (break_ : Text.Break newline)
    (regular : ∀ i ∈ items, i.Regular) (tags : ∀ i ∈ items, i.hasSpacedTags = true) :
    let out := (items.flatMap (·.lines 0)).flatMap (Layout.Line.render o newline)
    let sep := Layout.breakBefore o newline
    ∃ js, parse recovery out = documentNode out js ∧ ReadAs out js ∧ (∀ j ∈ js, j.Plain) ∧
      pruneAll js = pruneAll (again sep items [lineBreak sep 0]) := by
  intro out sep
  have found := (skeleton?_markupOf out).trans (skeleton?_render break_ regular tags)
  obtain ⟨ts, lexed, same⟩ := Option.map_eq_some_iff.mp found
  obtain ⟨js, nested, pruned⟩ := items?_of_skeleton same
    (items?_tokensOf (nests_page regular (.inl rfl)))
  obtain ⟨tree, read⟩ := @parse_of_items recovery out js (by rw [lexed]; exact nested)
  refine ⟨js, tree, read, fun j hj => ?_, pruned⟩
  have leaves := leaves_pruneAll (@leaves_again sep _ _ regular (.inl rfl))
  have all := leaves_of_pruneAll (fun t markup => ?_) js (pruned ▸ leaves)
  · exact plain_of_leaves (all j hj) (read.loose j hj)
  · constructor <;> rintro u rfl <;> cases markup

end Page

end Item
end MarkupGrader.Markup
