import MarkupGrader.Proofs.Layout.Reread

/-! The layout of a page as a source. It is made of the items that are written for those of the page,
and these are what it is read into again, but for what void elements take in. -/

namespace MarkupGrader

open Text (Spaced)

namespace Layout

/-- The white space before a line: the end of the line above, and the indent. -/
def breakBefore (o : Options) (newline : Text) (depth : Nat) : Text :=
  newline ++ Text.indent o.indent depth

theorem break_resolve (source : Text) (e : LineEnding) : Text.Break (e.resolve source) := by
  cases e with
  | auto =>
    rw [LineEnding.resolve]
    split
    · exact .crlf
    · exact .lf
  | lf => exact .lf
  | crlf => exact .crlf

theorem breaks_breakBefore (o : Options) {newline : Text} (h : Text.Break newline) :
    Markup.Breaks (breakBefore o newline) := by
  refine ⟨fun depth => List.append_ne_nil_of_left_ne_nil h.ne_nil _, fun depth c hc => ?_⟩
  rcases List.mem_append.mp hc with hc | hc
  · cases h with
    | lf =>
      rw [List.mem_singleton.mp hc]
      rfl
    | crlf =>
      rcases List.mem_cons.mp hc with rfl | hc
      · rfl
      · rw [List.mem_singleton.mp hc]
        rfl
  · rw [List.eq_of_mem_replicate hc]
    rfl

theorem breakBefore_zero (o : Options) (newline : Text) : breakBefore o newline 0 = newline := by
  rw [breakBefore, Text.indent, Nat.zero_mul, List.replicate_zero, List.append_nil]

theorem newline_append_render (o : Options) (newline : Text) (ls : List Line) :
    newline ++ ls.flatMap (Line.render o newline) =
      ls.flatMap (Markup.lineText (breakBefore o newline)) ++ newline := by
  induction ls with
  | nil => rw [List.flatMap_nil, List.flatMap_nil, List.append_nil, List.nil_append]
  | cons l ls ih =>
    rw [List.flatMap_cons, List.flatMap_cons, List.append_assoc, ← ih, Line.render, Markup.lineText,
      breakBefore]
    simp only [List.append_assoc]

end Layout

namespace Markup

namespace Item

theorem leaves_push {P : Token → Prop} {before : List Item} {i : Item}
    (all : ∀ j ∈ before, j.Leaves P) (own : i.Leaves P) : ∀ j ∈ push before i, j.Leaves P := by
  unfold push
  split
  · next tag content outer t =>
    obtain ⟨first, others⟩ := List.forall_mem_cons.mp all
    refine List.forall_mem_cons.mpr ⟨?_, others⟩
    cases first with
    | element inner =>
      exact .element (List.forall_mem_append.mpr ⟨inner, List.forall_mem_singleton.mpr own⟩)
  · exact List.forall_mem_cons.mpr ⟨own, all⟩

theorem leaves_absorbAll {P : Token → Prop} {items : List Item} (all : ∀ j ∈ items, j.Leaves P) :
    ∀ j ∈ absorbAll items, j.Leaves P := by
  have each : ∀ before : List Item, (∀ j ∈ before, j.Leaves P) →
      ∀ j ∈ items.foldl push before, j.Leaves P := by
    induction items with
    | nil => exact fun _ h => h
    | cons i items ih =>
      obtain ⟨own, others⟩ := List.forall_mem_cons.mp all
      exact fun before h => ih others _ (leaves_push h own)
  intro j hj
  exact each [] (by simp) j (List.mem_reverse.mp hj)

theorem settled_eq_map (items : List Item) : settled items = items.map settle := by
  induction items with
  | nil => rfl
  | cons i items ih => rw [settled, ih, List.map_cons]

theorem leaves_settle {parent : Option Text} {i : Item} (nests : i.Nests parent) :
    i.settle.Leaves fun t => (∀ u, t ≠ .tag u) ∧ ∀ u, t ≠ .endTag u := by
  induction nests with
  | leaf tag endTag => exact .leaf ⟨tag, endTag⟩
  | void _ _ _ => exact .element (by simp [settled, absorbAll])
  | selfClosed _ _ => exact .element (by simp [settled, absorbAll])
  | endTag _ _ _ _ _ ih =>
    refine .element (leaves_absorbAll ?_)
    rw [settled_eq_map, List.forall_mem_map]
    exact ih

/-- The items that are written for a page, with the line end behind the last. -/
def page (sep : Nat → Text) (items tail : List Item) : List Item :=
  (items.flatMap (reprint sep 0) ++ tail).drop 1

def again (sep : Nat → Text) (items tail : List Item) : List Item :=
  absorbAll (settled (page sep items tail))

section Page

variable {sep : Nat → Text} {items tail : List Item}

def IsTail (sep : Nat → Text) (tail : List Item) : Prop := tail = [lineBreak sep 0] ∨ tail = []

theorem reprint_eq (sep : Nat → Text) (depth : Nat) (i : Item) :
    i.reprint sep depth = [] ∨ ∃ j, i.reprint sep depth = [lineBreak sep depth, j] := by
  cases i with
  | leaf t =>
    rw [reprint]
    split
    · exact .inl rfl
    · exact .inr ⟨_, rfl⟩
  | element tag content closing =>
    rw [reprint]
    exact .inr ⟨_, rfl⟩

theorem page_eq (items : List Item) (ends : IsTail sep tail) :
    (items.flatMap (reprint sep 0) ++ tail = [] ∧ page sep items tail = []) ∨
      items.flatMap (reprint sep 0) ++ tail = lineBreak sep 0 :: page sep items tail := by
  have begins : items.flatMap (reprint sep 0) = [] ∨
      ∃ more, items.flatMap (reprint sep 0) = lineBreak sep 0 :: more := by
    induction items with
    | nil => exact .inl rfl
    | cons i items ih =>
      rw [List.flatMap_cons]
      rcases reprint_eq sep 0 i with none | ⟨j, some⟩
      · rwa [none, List.nil_append]
      · exact .inr ⟨j :: items.flatMap (reprint sep 0), by rw [some]; rfl⟩
  rw [page]
  rcases begins with none | ⟨more, some⟩
  · rw [none, List.nil_append]
    rcases ends with rfl | rfl
    · exact .inr rfl
    · exact .inl ⟨rfl, rfl⟩
  · rw [some]
    exact .inr rfl

theorem absorbAll_leaf (t : Token) (items : List Item) :
    absorbAll (leaf t :: items) = leaf t :: absorbAll items := by
  have below : ∀ before : List Item,
      items.foldl push (before ++ [leaf t]) = items.foldl push before ++ [leaf t] := by
    induction items with
    | nil => exact fun _ => rfl
    | cons i items ih =>
      intro before
      have first : push (before ++ [leaf t]) i = push before i ++ [leaf t] := by
        cases before with
        | nil => cases i <;> rfl
        | cons j before =>
          cases i with
          | element tag content closing => rw [push_element, List.cons_append, push_element]; rfl
          | leaf u =>
            cases j with
            | leaf v => rfl
            | element tag content closing => cases closing <;> rfl
      rw [List.foldl_cons, List.foldl_cons, first, ih]
  rw [absorbAll, List.foldl_cons]
  have all := below []
  rw [List.nil_append] at all
  rw [show push [] (leaf t) = [leaf t] from rfl, all, List.reverse_append, absorbAll]
  rfl

/-- The line end before the page does not matter for what the page is read into. -/
theorem again_eq (items : List Item) (ends : IsTail sep tail) :
    (items.flatMap (reprint sep 0) ++ tail = [] ∧ again sep items tail = []) ∨
      absorbAll (settled (items.flatMap (reprint sep 0) ++ tail)) =
        lineBreak sep 0 :: again sep items tail := by
  rcases page_eq items ends with ⟨none, empty⟩ | some
  · refine .inl ⟨none, ?_⟩
    rw [again, empty]
    rfl
  · refine .inr ?_
    rw [some, settled]
    exact absorbAll_leaf _ _

theorem nests_page (regular : ∀ i ∈ items, i.Regular) (ends : IsTail sep tail) :
    ∀ j ∈ page sep items tail, j.Nests none := by
  have all : ∀ j ∈ items.flatMap (reprint sep 0) ++ tail, j.Nests none := by
    rw [List.forall_mem_append, List.forall_mem_flatMap]
    refine ⟨fun i hi => renests_of_regular (regular i hi) 0 none ?_, ?_⟩
    · cases i with
      | leaf t => trivial
      | element tag content closing => exact fun k hk => by cases hk
    · rcases ends with rfl | rfl
      · exact List.forall_mem_singleton.mpr (nests_space none _)
      · simp
  exact fun j hj => all j (List.mem_of_mem_drop hj)

theorem allRead_page (breaks : Breaks sep) (regular : ∀ i ∈ items, i.Regular)
    (spaced : Spaced (sources items)) (reads : AllRead [] (tokensOf items)) (ends : IsTail sep tail) :
    AllRead [] (tokensOf (page sep items tail)) ∧
      (sources (page sep items tail)).head? = firstShown (sources items) := by
  have last : AllRead [] (tokensOf tail) := by
    rcases ends with rfl | rfl
    · exact allRead_break breaks 0 .nil rfl
    · exact .nil
  have apart : Apart (sources tail) := by
    rcases ends with rfl | rfl
    · rw [sources_cons, source_lineBreak]
      exact apart_break breaks 0 []
    · exact .inl rfl
  have blank : firstShown (sources tail) = firstShown [] := by
    rcases ends with rfl | rfl
    · rw [sources_cons, source_lineBreak]
      exact firstShown_spaces (breaks.spaces 0) []
    · rfl
  have first := firstShown_roots breaks regular 0 blank
  have all := (allRead_roots breaks regular spaced reads 0 apart blank).1
  rw [← List.append_nil (sources tail), ← sources_tokensOf] at all
  have whole := all.append last
  rw [List.append_nil, ← sources_append] at first
  rw [← tokensOf_append] at whole
  rcases page_eq items ends with ⟨none, empty⟩ | some
  · rw [none] at first
    rw [empty]
    exact ⟨.nil, first⟩
  · rw [some] at first whole
    rw [sources_cons, source_lineBreak, firstShown_spaces (breaks.spaces 0)] at first
    rw [tokensOf_lineBreak] at whole
    cases whole with
    | cons h more =>
      obtain ⟨-, -, led⟩ := Filler.Reads.space h
      rw [List.append_nil, sources_tokensOf] at led
      refine ⟨more, ?_⟩
      rw [← first, firstShown]
      cases eq : sources (page sep items tail) with
      | nil => rfl
      | cons c u =>
        rw [eq] at led
        have solid : Markup.isSpace c = false := led
        rw [List.dropWhile_cons_of_neg (Bool.eq_false_iff.mp solid)]

theorem sources_roots (regular : ∀ i ∈ items, i.Regular) (spaced : Spaced (sources items)) :
    sources (items.flatMap (reprint sep 0)) =
      (items.flatMap (·.lines 0)).flatMap (lineText sep) := by
  rw [sources, List.flatMap_assoc, List.flatMap_assoc]
  exact List.flatMap_congr fun i hi =>
    sources_reprint (regular i hi) (spaced.of_subset (source_subset hi)) 0

end Page

section Render

variable {o : Layout.Options} {newline : Text} {items : List Item}

theorem sources_page (regular : ∀ i ∈ items, i.Regular) (spaced : Spaced (sources items)) :
    sources (page (Layout.breakBefore o newline) items [lineBreak (Layout.breakBefore o newline) 0]) =
      (items.flatMap (·.lines 0)).flatMap (Layout.Line.render o newline) := by
  have whole := Layout.newline_append_render o newline (items.flatMap (·.lines 0))
  rw [← sources_roots regular spaced] at whole
  rcases @page_eq (Layout.breakBefore o newline) _ items (.inl rfl) with ⟨none, -⟩ | some
  · exact absurd none (List.append_ne_nil_of_right_ne_nil _ (List.cons_ne_nil _ _))
  · have split := congrArg sources some
    rw [sources_append, sources_cons, sources_nil, List.append_nil, sources_cons, source_lineBreak,
      Layout.breakBefore_zero, ← whole] at split
    exact (List.append_cancel_left split).symm

theorem sources_page_append (break_ : Text.Break newline) (regular : ∀ i ∈ items, i.Regular)
    (spaced : Spaced (sources items)) (nonempty : items.flatMap (·.lines 0) ≠ []) :
    sources (page (Layout.breakBefore o newline) items []) ++ newline =
      (items.flatMap (·.lines 0)).flatMap (Layout.Line.render o newline) := by
  have whole := Layout.newline_append_render o newline (items.flatMap (·.lines 0))
  have roots := @sources_roots (Layout.breakBefore o newline) _ regular spaced
  rcases @page_eq (Layout.breakBefore o newline) [] items (.inr rfl) with ⟨none, -⟩ | some
  · rw [List.append_nil] at none
    obtain ⟨l, ls, eq⟩ := List.exists_cons_of_ne_nil nonempty
    have filled := (Layout.breaks_breakBefore o break_).nonempty l.depth
    rw [none, eq, List.flatMap_cons, lineText, sources_nil] at roots
    simp [filled] at roots
  · rw [List.append_nil] at some
    rw [← roots, some, sources_cons, source_lineBreak, Layout.breakBefore_zero,
      List.append_assoc] at whole
    exact (List.append_cancel_left whole).symm

end Render

section Again

variable {sep : Nat → Text} {items tail : List Item}

theorem markupOf_of_head? {t : Text} (h : t.head? ≠ some byteOrderMark) : (markupOf t).2 = t := by
  cases t with
  | nil => rfl
  | cons c t =>
    rw [markupOf, if_neg]
    rintro rfl
    exact h rfl

/-- The source of a page is read into the items that were written, with what void elements take
in. -/
theorem items_page (breaks : Breaks sep) (regular : ∀ i ∈ items, i.Regular)
    (spaced : Spaced (sources items)) (reads : AllRead [] (tokensOf items)) (ends : IsTail sep tail)
    (unmarked : firstShown (sources items) ≠ some byteOrderMark) :
    (tokens? (markupOf (sources (page sep items tail))).2).bind items? =
      some (again sep items tail) := by
  obtain ⟨read, first⟩ := allRead_page breaks regular spaced reads ends
  rw [← first] at unmarked
  have tokens := read.tokens?
  rw [sources_tokensOf] at tokens
  rw [markupOf_of_head? unmarked, tokens, Option.bind_some,
    items?_tokensOf (nests_page regular ends)]
  rfl

theorem plain_of_leaves {i : Item} (nested : i.Leaves fun t => (∀ u, t ≠ .tag u) ∧ ∀ u, t ≠ .endTag u)
    (loose : i.Leaves fun t => t.Lexed ∧ ∀ tag, t ≠ .tag tag) : i.Plain := by
  induction nested with
  | @leaf t h =>
    cases loose with
    | leaf lexed =>
      refine .leaf ?_
      cases t with
      | filler f => cases f with
        | space t => exact lexed.1
        | comment t => trivial
      | tag t => exact absurd rfl (h.1 t)
      | endTag t => exact absurd rfl (h.2 t)
      | _ => trivial
  | element _ ih =>
    cases loose with
    | element loose => exact .element fun j hj => ih j hj (loose j hj)

theorem leaves_again (regular : ∀ i ∈ items, i.Regular) (ends : IsTail sep tail) :
    ∀ j ∈ again sep items tail, j.Leaves fun t => (∀ u, t ≠ .tag u) ∧ ∀ u, t ≠ .endTag u := by
  refine leaves_absorbAll ?_
  rw [settled_eq_map, List.forall_mem_map]
  exact fun i hi => leaves_settle (nests_page regular ends i hi)

theorem plain_again {source : Text} (regular : ∀ i ∈ items, i.Regular) (ends : IsTail sep tail)
    (read : ReadAs source (again sep items tail)) : ∀ j ∈ again sep items tail, j.Plain := by
  exact fun j hj => plain_of_leaves (leaves_again regular ends j hj) (read.loose j hj)

theorem parse_page (r : Recovery) (breaks : Breaks sep) (regular : ∀ i ∈ items, i.Regular)
    (spaced : Spaced (sources items)) (reads : AllRead [] (tokensOf items)) (ends : IsTail sep tail)
    (unmarked : firstShown (sources items) ≠ some byteOrderMark) :
    let out := sources (page sep items tail)
    parse r out = documentNode out (again sep items tail) ∧ ReadAs out (again sep items tail) ∧
      ∀ j ∈ again sep items tail, j.Plain := by
  intro out
  obtain ⟨tree, read⟩ := parse_of_items r (items_page breaks regular spaced reads ends unmarked)
  exact ⟨tree, read, plain_again regular ends read⟩

end Again

end Item
end Markup
end MarkupGrader
