import MarkupGrader.Proofs.Layout.Page

/-! The lines of a block, told from its content. Inline items in a row are a run, which makes one line
if there is text in it. White space at the ends of a run does not show, and of what a void element
takes in it does not show whether it stands in the element or behind it. -/

namespace MarkupGrader

open Text (IsBlankText)
open Layout (Line)

namespace Markup.Item

theorem allInline_append (items more : List Item) :
    allInline (items ++ more) = (allInline items && allInline more) := by
  simp only [allInline_eq_all, List.all_append]

theorem anyText_append (items more : List Item) :
    anyText (items ++ more) = (anyText items || anyText more) := by
  simp only [anyText_eq_any, List.any_append]

theorem allInline_singleton (i : Item) : allInline [i] = i.isInline := Bool.and_true _

theorem anyText_singleton (i : Item) : anyText [i] = i.hasText := Bool.or_false _

theorem hasText_of_isGap {i : Item} (gap : i.isGap = true) : i.hasText = false := by
  cases i with
  | leaf t =>
    have none : t.leafKind? = none := by simpa [isGap] using gap
    unfold hasText
    rw [none]
    rfl
  | element => cases gap

variable {depth : Nat}

def block (depth : Nat) (content : List Item) : List Line :=
  (rows [] (eachLines depth content)).flatMap (Row.lines depth)

def runLines (depth : Nat) (run : List Item) : List Line :=
  if anyText run then [⟨depth, Text.collapse (sources run)⟩] else run.flatMap (·.lines depth)

theorem flatMap_flush_eachLines (depth : Nat) (run : List Item) :
    (flush (eachLines depth run)).flatMap (Row.lines depth) = runLines depth run := by
  have own : (eachLines depth run).flatMap Prod.snd = run.flatMap (·.lines depth) := by
    rw [eachLines_eq_map, List.flatMap_map]
  rw [Layout.flatMap_flush, own, runLines]

theorem rows_of_inline {α : Type} {f : Item → α} {a : List Item} (inline : allInline a = true)
    (run rest : List (Item × α)) :
    rows run (a.map (fun i => (i, f i)) ++ rest) = rows (run ++ a.map fun i => (i, f i)) rest := by
  induction a generalizing run with
  | nil => rw [List.map_nil, List.nil_append, List.append_nil]
  | cons i a ih =>
    rw [allInline, Bool.and_eq_true] at inline
    rw [List.map_cons, List.cons_append, rows, if_pos inline.1, ih inline.2, List.append_assoc]
    rfl

theorem block_of_inline {run : List Item} (inline : allInline run = true) :
    block depth run = runLines depth run := by
  have all := rows_of_inline (f := lines depth) inline [] []
  rw [List.append_nil, List.nil_append, ← eachLines_eq_map] at all
  rw [block, all, rows, flatMap_flush_eachLines]

theorem block_append_cons {run : List Item} (inline : allInline run = true) {i : Item}
    (block_ : i.isInline = false) (rest : List Item) :
    block depth (run ++ i :: rest) = runLines depth run ++ (i.lines depth ++ block depth rest) := by
  have all := rows_of_inline (f := lines depth) inline [] (eachLines depth (i :: rest))
  have split : eachLines depth (run ++ i :: rest) =
      run.map (fun i => (i, i.lines depth)) ++ eachLines depth (i :: rest) := by
    rw [eachLines_eq_map, eachLines_eq_map, List.map_append]
  rw [List.nil_append, ← eachLines_eq_map] at all
  rw [block, split, ← eachLines_eq_map, all, eachLines, rows, block_, if_neg Bool.false_ne_true,
    List.flatMap_append, flatMap_flush_eachLines, List.flatMap_cons]
  rfl

theorem exists_run (items : List Item) : ∃ run rest, items = run ++ rest ∧ allInline run = true ∧
    (rest = [] ∨ ∃ i more, rest = i :: more ∧ i.isInline = false) := by
  refine ⟨items.takeWhile isInline, items.dropWhile isInline, List.takeWhile_append_dropWhile.symm,
    ?_, ?_⟩
  · rw [allInline_eq_all, List.all_eq_true]
    exact fun i hi => List.mem_takeWhile_imp hi
  · cases eq : items.dropWhile isInline with
    | nil => exact .inl rfl
    | cons i more =>
      have head := List.head?_dropWhile_not isInline items
      rw [eq] at head
      exact .inr ⟨i, more, rfl, by simpa using head⟩

/-- Beginnings of a run that give the same lines, whatever comes behind. -/
structure SameRun (depth : Nat) (a b : List Item) : Prop where
  inline : allInline a = true ∧ allInline b = true
  text : anyText a = anyText b
  collapse : ∀ s, Text.collapse (sources a ++ s) = Text.collapse (sources b ++ s)
  lines : anyText a = false → a.flatMap (·.lines depth) = b.flatMap (·.lines depth)

theorem SameRun.block_append {a b : List Item} (h : SameRun depth a b) (rest : List Item) :
    block depth (a ++ rest) = block depth (b ++ rest) := by
  obtain ⟨run, tail, rfl, inline, ends⟩ := exists_run rest
  have both : allInline (a ++ run) = true ∧ allInline (b ++ run) = true := by
    rw [allInline_append, allInline_append, h.inline.1, h.inline.2, inline]
    exact ⟨rfl, rfl⟩
  have same : runLines depth (a ++ run) = runLines depth (b ++ run) := by
    rw [runLines, runLines, anyText_append, anyText_append, ← h.text, sources_append, sources_append,
      h.collapse, List.flatMap_append, List.flatMap_append]
    split
    · rfl
    · next none =>
      rw [Bool.not_eq_true, Bool.or_eq_false_iff] at none
      rw [h.lines none.1]
  rw [← List.append_assoc, ← List.append_assoc]
  rcases ends with rfl | ⟨i, more, rfl, block_⟩
  · rw [List.append_nil, List.append_nil, block_of_inline both.1, block_of_inline both.2, same]
  · rw [block_append_cons both.1 block_, block_append_cons both.2 block_, same]

theorem exists_block_append (depth : Nat) (front : List Item) :
    ∃ ls run, allInline run = true ∧ ∀ rest,
      block depth (front ++ rest) = ls ++ block depth (run ++ rest) := by
  have each : ∀ run : List Item, allInline run = true → ∃ ls run', allInline run' = true ∧
      ∀ rest, block depth (run ++ (front ++ rest)) = ls ++ block depth (run' ++ rest) := by
    induction front with
    | nil => exact fun run inline => ⟨[], run, inline, fun rest => rfl⟩
    | cons i front ih =>
      intro run inline
      cases own : i.isInline with
      | true =>
        have longer : allInline (run ++ [i]) = true := by
          rw [allInline_append, inline, allInline_singleton, own]
          rfl
        obtain ⟨ls, run', inline', eq⟩ := ih _ longer
        refine ⟨ls, run', inline', fun rest => ?_⟩
        rw [← eq, List.append_assoc]
        rfl
      | false =>
        obtain ⟨ls, run', inline', eq⟩ := ih [] rfl
        refine ⟨runLines depth run ++ (i.lines depth ++ ls), run', inline', fun rest => ?_⟩
        rw [List.cons_append, block_append_cons inline own, List.append_assoc, List.append_assoc,
          ← eq]
        rfl
  exact each [] rfl

structure Idle (tag : Tag) (t : Token) : Prop where
  void : ElementClass.isVoid tag.elementName = true
  gap : (leaf t).isGap = true
  blank : IsBlankText t.source

/-- A void element takes in text of the row in which it stands. -/
structure Joins (tag : Tag) (content : List Item) (t : Token) : Prop where
  void : ElementClass.isVoid tag.elementName = true
  inline : ElementClass.inlines.contains tag.elementName = true
  content : allInline content = true
  text : (leaf t).isInline = true ∧ (leaf t).hasText = true

variable {tag : Tag} {content : List Item} {t : Token}

theorem Idle.isInline (h : Idle tag t) : (leaf t).isInline = true := isInline_of_isGap h.gap

theorem lines_of_void (void : ElementClass.isVoid tag.elementName = true) (content : List Item)
    (closing : Closing) (depth : Nat) :
    (element tag content closing).lines depth = [⟨depth, tag.opening⟩] := by
  have kind : shape tag content = .bare := by rw [shape, if_pos void]
  rw [lines, kind]

theorem lines_of_isGap (gap : (leaf t).isGap = true) (depth : Nat) : (leaf t).lines depth = [] :=
  Token.lines_of_gap gap depth

theorem isInline_take (inline : (leaf t).isInline = true) (closing : Closing) :
    (element tag (content ++ [leaf t]) closing).isInline =
      (element tag content closing).isInline := by
  rw [isInline, allInline_append, allInline_singleton, inline, Bool.and_true, isInline]

theorem hasText_take (closing : Closing) :
    (element tag (content ++ [leaf t]) closing).hasText =
      anyText [element tag content closing, leaf t] := by
  have split : anyText [element tag content closing, leaf t] =
      (anyText content || anyText [leaf t]) := rfl
  rw [split, ← anyText_append, hasText]

theorem sources_take (back : List Item) :
    sources (element tag (content ++ [leaf t]) .implied :: back) =
      sources (element tag content .implied :: leaf t :: back) := by
  have closed : Closing.source .implied = [] := rfl
  rw [sources_cons, sources_cons, sources_cons, source_element, source_element, sources_append,
    sources_cons, sources_nil, closed]
  simp only [List.append_nil, List.append_assoc]

theorem sources_absorbAll (items : List Item) : sources (absorbAll items) = sources items :=
  absorbAll_eq (f := sources) (fun front tag content t back => by
    rw [sources_append, sources_append, sources_take]) items

theorem anyText_absorbAll (items : List Item) : anyText (absorbAll items) = anyText items :=
  absorbAll_eq (f := anyText) (fun front tag content t back => by
    rw [anyText_append, anyText_append, anyText, hasText_take, ← anyText_append]
    rfl) items

theorem all_isGap_absorbAll (items : List Item) :
    (absorbAll items).all isGap = items.all isGap :=
  absorbAll_eq (f := (·.all isGap)) (fun front tag content t back => by
    have visible (content : List Item) : (element tag content .implied).isGap = false := rfl
    simp only [List.all_append, List.all_cons, visible, Bool.false_and]) items

/-- What a void element may take in without a trace in the lines of a block. -/
abbrev Fades (tag : Tag) (content : List Item) (t : Token) : Prop :=
  Idle tag t ∨ Joins tag content t

theorem Fades.isInline (h : Fades tag content t) : (leaf t).isInline = true :=
  h.elim Idle.isInline fun h => h.text.1

theorem allInline_absorbAll {items : List Item} (absorbs : Absorbs Fades [] items) :
    allInline (absorbAll items) = allInline items := by
  refine absorbAll_eq_of_absorbs (f := allInline) (fun front tag content t back fades => ?_) absorbs
  rw [allInline_append, allInline_append, allInline, isInline_take fades.isInline, allInline,
    allInline, fades.isInline, Bool.true_and]

theorem sameRun_gap (gap : (leaf t).isGap = true) (blank : IsBlankText t.source) :
    SameRun depth [leaf t] [] where
  inline := ⟨(allInline_singleton _).trans (isInline_of_isGap gap), rfl⟩
  text := (anyText_singleton _).trans (hasText_of_isGap gap)
  collapse s := by
    have around := Text.collapse_around blank (b := []) (fun _ h => by cases h) s
    rw [List.append_nil] at around
    rw [sources_cons, source_leaf, sources_nil, List.append_nil, around, List.nil_append]
  lines _ := by
    rw [List.flatMap_singleton, lines_of_isGap gap]
    rfl

theorem sameRun_take {run : List Item} (inline : allInline run = true)
    (own : (element tag content .implied).isInline = true) (h : Fades tag content t) :
    SameRun depth (run ++ [element tag (content ++ [leaf t]) .implied])
      (run ++ [element tag content .implied, leaf t]) where
  inline := by
    rw [allInline_append, allInline_append, inline, allInline_singleton,
      isInline_take h.isInline, allInline, allInline_singleton, own, h.isInline]
    exact ⟨rfl, rfl⟩
  text := by
    rw [anyText_append, anyText_append, anyText_singleton, hasText_take]
  collapse s := by rw [sources_append, sources_append, sources_take]
  lines none := by
    have void : ElementClass.isVoid tag.elementName = true := h.elim Idle.void Joins.void
    have gap : (leaf t).isGap = true := by
      refine h.elim Idle.gap fun joins => ?_
      rw [anyText_append, anyText_singleton, hasText_take, anyText, anyText_singleton,
        joins.text.2, Bool.or_true, Bool.or_true] at none
      cases none
    simp only [List.flatMap_append, List.flatMap_cons, List.flatMap_nil, lines_of_void void,
      lines_of_isGap gap, List.append_nil]

theorem block_absorbAll {items : List Item} (absorbs : Absorbs Fades [] items) :
    block depth (absorbAll items) = block depth items := by
  refine absorbAll_eq_of_absorbs (f := block depth) (fun front tag content t back fades => ?_) absorbs
  obtain ⟨ls, run, inline, split⟩ := exists_block_append depth front
  rw [split, split]
  refine congrArg (ls ++ ·) ?_
  cases own : (element tag content .implied).isInline with
  | true =>
    have same := (@sameRun_take depth tag content t run inline own fades).block_append back
    simpa using same
  | false =>
    -- Only white space may fade here, and it begins the next run.
    have idle : Idle tag t := fades.resolve_right fun joins => by
      rw [Item.isInline, joins.inline, joins.content] at own
      cases own
    have taken := (isInline_take idle.isInline .implied).trans own
    rw [block_append_cons inline taken, block_append_cons inline own, lines_of_void idle.void,
      lines_of_void idle.void]
    exact congrArg (fun more => runLines depth run ++ ([⟨depth, tag.opening⟩] ++ more))
      ((sameRun_gap idle.gap idle.blank).block_append back).symm

end Markup.Item
end MarkupGrader
