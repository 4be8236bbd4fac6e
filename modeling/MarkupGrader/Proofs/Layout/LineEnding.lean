import MarkupGrader.Proofs.Layout.Terminator

/-! The line end that a layout is given when it is laid out again. Nothing that is written puts a line
feed behind a carriage return that was not there. So a layout has the line ends of its source, if it
has any. -/

namespace MarkupGrader

theorem hasCarriageReturn_append (a b : Text) :
    hasCarriageReturn (a ++ b) = (hasCarriageReturn a || hasCarriageReturn b ||
      (a.getLast? == some '\r' && b.head? == some '\n')) := by
  induction a with
  | nil => simp [hasCarriageReturn]
  | cons c a ih =>
    cases a with
    | nil => simp [hasCarriageReturn, Bool.or_comm]
    | cons d a =>
      have first (t : Text) : hasCarriageReturn (c :: t) =
          ((c == '\r' && t.head? == some '\n') || hasCarriageReturn t) := rfl
      have same : (d :: a ++ b).head? = (d :: a).head? := rfl
      rw [List.cons_append, first, first, ih, same, List.getLast?_cons_cons, Bool.or_assoc,
        Bool.or_assoc, Bool.or_assoc]

theorem hasCarriageReturn_of_part {a b : Text} (h : a <:+: b) (none : hasCarriageReturn b = false) :
    hasCarriageReturn a = false := by
  obtain ⟨s, t, rfl⟩ := h
  simp only [hasCarriageReturn_append, Bool.or_eq_false_iff] at none
  exact none.1.1.1.2

namespace Text

variable {a b t : Text}

/-- No line feed stands behind a carriage return in the text, and none begins it. -/
structure Unpaired (t : Text) : Prop where
  within : hasCarriageReturn t = false
  begins : t.head? ≠ some '\n'

theorem unpaired_of_free (free : '\n' ∉ t) : Unpaired t := by
  refine ⟨?_, fun first => free (List.mem_of_mem_head? first)⟩
  induction t with
  | nil => rfl
  | cons c t ih =>
    rw [List.mem_cons, not_or] at free
    have next : (t.head? == some '\n') = false := by
      rw [beq_eq_false_iff_ne]
      exact fun first => free.2 (List.mem_of_mem_head? first)
    rw [hasCarriageReturn, ih free.2, next, Bool.and_false]
    rfl

theorem Unpaired.append (ha : Unpaired a) (hb : Unpaired b) : Unpaired (a ++ b) := by
  constructor
  · rw [hasCarriageReturn_append, ha.within, hb.within, beq_eq_false_iff_ne.mpr hb.begins,
      Bool.and_false]
    rfl
  · rw [List.head?_append]
    intro first
    rcases Option.or_eq_some_iff.mp first with first | ⟨-, first⟩
    · exact ha.begins first
    · exact hb.begins first

theorem Unpaired.of_isTrim (trimmed : IsTrim t) (none : hasCarriageReturn t = false) :
    Unpaired t := by
  refine ⟨none, fun first => ?_⟩
  have solid : isBlank '\n' = false := trimmed.begins '\n' first
  cases solid

theorem trim_part (t : Text) : trim t <:+: t := by
  obtain ⟨a, b, whole, -, -⟩ := exists_trim t
  exact ⟨a, b, by rw [List.append_assoc]; exact whole.symm⟩

end Text

open Text (Unpaired)

namespace Markup

theorem infix_flatMap_of_mem {α : Type} {f : α → Text} {x : α} {xs : List α} (mem : x ∈ xs) :
    f x <:+: xs.flatMap f :=
  List.infix_of_mem_flatten (List.mem_map_of_mem mem)

theorem Value.text_part (v : Value) : v.text <:+: v.source := by
  cases v with
  | bare t => exact List.infix_refl t
  | quoted quote lead t => exact ⟨quote :: lead.source, [quote], rfl⟩

theorem Tag.value_part {t : Tag} {a : Document.Attribute} (mem : a ∈ t.attributes) {v : Text}
    (hv : a.value = some v) : v <:+: t.source := by
  obtain ⟨part, inside, eq⟩ := List.mem_filterMap.mp mem
  cases part with
  | filler f => cases eq
  | attr b =>
    cases eq
    obtain ⟨assigned, some, rfl⟩ := Option.map_eq_some_iff.mp hv
    have own : assigned.value.text <:+: (TagPart.attr b).source := by
      rw [TagPart.source, Attribute.source, some]
      exact assigned.value.text_part.trans
        ((List.suffix_append _ _).isInfix.trans (List.suffix_append _ _).isInfix)
    refine (own.trans (infix_flatMap_of_mem inside)).trans ?_
    exact ⟨_, t.closer, rfl⟩

theorem newline_notMem_elementName {t : Tag} (own : t.Regular) : '\n' ∉ t.elementName := by
  intro mem
  have chars := (t.nameReads_elementName (r := []) own rfl).chars
  have solid : isSpace '\n' = false := (isNameChar_ne (chars '\n' mem)).1
  cases solid

theorem unpaired_attributeText {a : Document.Attribute} (writable : Writable a)
    (value : ∀ v, a.value = some v → hasCarriageReturn v = false) :
    Unpaired (Layout.attributeText a) := by
  have named : Unpaired (" " ++ a.name) := by
    refine Text.unpaired_of_free fun mem => ?_
    rcases List.mem_cons.mp mem with eq | mem
    · cases eq
    · have solid : isSpace '\n' = false := (isAttributeNameChar_ne (writable.chars '\n' mem)).1
      cases solid
  rw [Layout.attributeText]
  refine named.append ?_
  split
  · exact Text.unpaired_of_free (by simp)
  · next v eq =>
    have quoted : Unpaired ("=\"" ++ v) := by
      refine ⟨?_, fun first => by cases first⟩
      have opens : ("=\"" : Text) = ['=', '"'] := rfl
      rw [opens, hasCarriageReturn_append, value v eq]
      rfl
    exact quoted.append (Text.unpaired_of_free (by decide))

theorem unpaired_flatMap {α : Type} {f : α → Text} {xs : List α} (each : ∀ x ∈ xs, Unpaired (f x)) :
    Unpaired (xs.flatMap f) := by
  induction xs with
  | nil => exact Text.unpaired_of_free (by simp)
  | cons x xs ih =>
    obtain ⟨own, others⟩ := List.forall_mem_cons.mp each
    exact own.append (ih others)

theorem unpaired_opening {t : Tag} (own : t.Regular) (none : hasCarriageReturn t.source = false) :
    Unpaired t.opening := by
  have bracket : Unpaired ("<" ++ t.elementName) := by
    refine Text.unpaired_of_free fun mem => ?_
    rcases List.mem_cons.mp mem with eq | mem
    · cases eq
    · exact newline_notMem_elementName own mem
  have attributes : Unpaired (t.attributes.flatMap Layout.attributeText) :=
    unpaired_flatMap fun a mem => unpaired_attributeText (own.writable a mem) fun v eq =>
      hasCarriageReturn_of_part (Tag.value_part mem eq) none
  exact (bracket.append attributes).append (Text.unpaired_of_free (by decide))

theorem unpaired_endTag {t : Tag} (own : t.Regular) : Unpaired (Layout.endTag t.elementName) := by
  refine Text.unpaired_of_free fun mem => ?_
  simp only [Layout.endTag, List.mem_append] at mem
  rcases mem with (mem | mem) | mem
  · exact absurd mem (by decide)
  · exact newline_notMem_elementName own mem
  · exact absurd mem (by decide)

namespace Item

theorem unpaired_leaf {t : Token} (none : hasCarriageReturn t.source = false) (depth : Nat) :
    ∀ l ∈ t.lines depth, Unpaired l.text := by
  have trimmed : Unpaired (Text.trim t.source) :=
    .of_isTrim (Text.isTrim_trim _) (hasCarriageReturn_of_part (Text.trim_part _) none)
  have collapsed : Unpaired (Text.collapse t.source) :=
    Text.unpaired_of_free (Text.newline_notMem_collapse _)
  cases t with
  | filler f =>
    cases f with
    | space t => exact List.forall_mem_nil _
    | comment t => exact List.forall_mem_singleton.mpr trimmed
  | doctype d => exact List.forall_mem_singleton.mpr trimmed
  | text t => exact List.forall_mem_singleton.mpr collapsed
  | entity t => exact List.forall_mem_singleton.mpr collapsed
  | tag t => exact List.forall_mem_nil _
  | endTag t => exact List.forall_mem_nil _
  | raw t =>
    refine List.forall_mem_map.mpr fun line mem => Text.unpaired_of_free ?_
    exact (Text.exists_of_mem_solidLines mem).2.1

theorem source_part {tag : Tag} {content : List Item} {closing : Closing} :
    tag.source <:+: (element tag content closing).source ∧
      sources content <:+: (element tag content closing).source := by
  rw [source_element]
  exact ⟨(List.prefix_append _ _).isInfix,
    (List.prefix_append _ _).isInfix.trans (List.suffix_append _ _).isInfix⟩

theorem unpaired_element {tag : Tag} {content : List Item} {closing : Closing} (own : tag.Regular)
    (none : hasCarriageReturn (element tag content closing).source = false)
    (inline : ∀ text, shape tag content = .inline text → Unpaired text)
    (inner : ∀ depth, ∀ i ∈ content, ∀ l ∈ i.lines depth, Unpaired l.text) (depth : Nat) :
    ∀ l ∈ (element tag content closing).lines depth, Unpaired l.text := by
  have opening := unpaired_opening own (hasCarriageReturn_of_part source_part.1 none)
  have ending := unpaired_endTag own
  rw [lines]
  cases kind : shape tag content with
  | bare => exact List.forall_mem_singleton.mpr opening
  | empty => exact List.forall_mem_singleton.mpr (opening.append ending)
  | inline text =>
    exact List.forall_mem_singleton.mpr ((opening.append (inline text kind)).append ending)
  | block =>
    refine List.forall_mem_cons.mpr ⟨opening, List.forall_mem_append.mpr
      ⟨?_, List.forall_mem_singleton.mpr ending⟩⟩
    rw [flatMap_rows_eachLines, List.forall_mem_flatMap]
    intro row hrow
    cases row with
    | alone i => exact inner _ i (mem_of_mem_rowsOf hrow (List.mem_singleton_self i))
    | shared run =>
      exact List.forall_mem_singleton.mpr
        (Text.unpaired_of_free (Text.newline_notMem_collapse (sources run)))

theorem unpaired_lines {i : Item} (regular : i.Regular)
    (none : hasCarriageReturn i.source = false) :
    ∀ depth, ∀ l ∈ i.lines depth, Unpaired l.text := by
  induction regular with
  | leaf _ _ _ =>
    rw [source_leaf] at none
    exact unpaired_leaf none
  | @raw tag raw e own key _ _ _ _ =>
    have within := hasCarriageReturn_of_part source_part.2 none
    rw [sources_cons, sources_nil, List.append_nil, source_leaf] at within
    refine unpaired_element own none (fun text kind => ?_) fun depth => ?_
    · rw [shape_raw key] at kind
      split at kind
      · cases kind
      · next free =>
        cases kind
        exact Text.unpaired_of_free free
    · exact List.forall_mem_singleton.mpr (unpaired_leaf within depth)
  | @element tag content closing own _ regular _ _ _ _ _ ih =>
    have within := hasCarriageReturn_of_part source_part.2 none
    refine unpaired_element own none (fun text kind => ?_) fun depth i hi => ?_
    · obtain ⟨rfl, -⟩ := inline_of_shape (soleRaw?_of_regular regular) kind
      exact Text.unpaired_of_free (Text.newline_notMem_collapse _)
    · exact ih i hi (hasCarriageReturn_of_part (infix_flatMap_of_mem hi) within) depth

end Item
end Markup

namespace Layout

variable {o : Options} {source front : Text} {ls : List Line} {l : Line}

/-- The text of a line may stand in a layout without bringing a line end of its own. -/
structure Line.Clean (l : Line) : Prop where
  unpaired : Unpaired l.text
  solid : Text.EndsSolid l.text

theorem hasCarriageReturn_indent (width depth : Nat) (t : Text) :
    hasCarriageReturn (Text.indent width depth ++ t) = hasCarriageReturn t := by
  have spaces : Unpaired (Text.indent width depth) := Text.unpaired_of_free fun mem => by
    cases List.eq_of_mem_replicate mem
  have last : ((Text.indent width depth).getLast? == some '\r') = false := by
    rw [beq_eq_false_iff_ne]
    intro last
    cases List.eq_of_mem_replicate (List.mem_of_getLast? last)
  rw [hasCarriageReturn_append, spaces.within, last, Bool.false_or, Bool.false_and, Bool.or_false]

theorem Line.Clean.hasCarriageReturn_render (clean : l.Clean) :
    hasCarriageReturn (l.render o "\n") = false := by
  have last : (l.text.getLast? == some '\r') = false :=
    beq_eq_false_iff_ne.mpr clean.solid.getLast?_ne
  rw [Line.render, List.append_assoc, hasCarriageReturn_indent, hasCarriageReturn_append,
    clean.unpaired.within, last]
  rfl

theorem hasCarriageReturn_lf (clean : ∀ l ∈ ls, l.Clean) :
    hasCarriageReturn (ls.flatMap (Line.render o "\n")) = false := by
  induction ls with
  | nil => rfl
  | cons l ls ih =>
    obtain ⟨own, others⟩ := List.forall_mem_cons.mp clean
    have last : (l.render o "\n").getLast? = some '\n' := List.getLast?_concat
    rw [List.flatMap_cons, hasCarriageReturn_append, own.hasCarriageReturn_render, ih others, last]
    rfl

theorem hasCarriageReturn_crlf (l : Line) (rest : Text) :
    hasCarriageReturn (l.render o "\r\n" ++ rest) = true := by
  have pair : hasCarriageReturn "\r\n" = true := rfl
  simp only [Line.render, hasCarriageReturn_append, pair, Bool.or_true, Bool.true_or]

theorem exists_front (o : Options) (newline : Text) (nonempty : ls ≠ []) :
    ∃ front, ls.flatMap (Line.render o newline) = front ++ newline := by
  obtain ⟨before, l, rfl⟩ := (List.eq_nil_or_concat' ls).resolve_left nonempty
  refine ⟨before.flatMap (Line.render o newline) ++ (Text.indent o.indent l.depth ++ l.text), ?_⟩
  simp only [List.flatMap_append, List.flatMap_singleton, Line.render, List.append_assoc]

/-- A layout has the line ends of its source, if it has any. -/
theorem resolve_render (e : LineEnding)
    (clean : hasCarriageReturn source = false → ∀ l ∈ ls, l.Clean) (nonempty : ls ≠ []) :
    e.resolve (ls.flatMap (Line.render o (e.resolve source))) = e.resolve source := by
  cases e with
  | lf => rfl
  | crlf => rfl
  | auto =>
    obtain ⟨l, ls, rfl⟩ := List.exists_cons_of_ne_nil nonempty
    cases ending : hasCarriageReturn source with
    | false =>
      have newline : LineEnding.auto.resolve source = "\n" := if_neg (by simp [ending])
      rw [newline, LineEnding.resolve, hasCarriageReturn_lf (clean ending)]
      rfl
    | true =>
      have newline : LineEnding.auto.resolve source = "\r\n" := if_pos ending
      rw [newline, LineEnding.resolve, List.flatMap_cons, hasCarriageReturn_crlf]
      rfl

theorem resolve_front (e : LineEnding)
    (clean : hasCarriageReturn source = false → ∀ l ∈ ls, l.Clean) (several : 2 ≤ ls.length)
    (whole : ls.flatMap (Line.render o (e.resolve source)) = front ++ e.resolve source) :
    e.resolve front = e.resolve source := by
  cases e with
  | lf => rfl
  | crlf => rfl
  | auto =>
    cases ending : hasCarriageReturn source with
    | false =>
      have newline : LineEnding.auto.resolve source = "\n" := if_neg (by simp [ending])
      rw [newline] at whole ⊢
      have none := hasCarriageReturn_lf (o := o) (clean ending)
      rw [whole] at none
      rw [LineEnding.resolve, hasCarriageReturn_of_part (List.prefix_append _ _).isInfix none]
      rfl
    | true =>
      have newline : LineEnding.auto.resolve source = "\r\n" := if_pos ending
      obtain ⟨l, rest, rfl⟩ := List.exists_cons_of_length_pos (Nat.lt_of_lt_of_le Nat.two_pos several)
      obtain ⟨m, ls, rfl⟩ := List.exists_cons_of_length_pos (Nat.le_of_succ_le_succ several)
      rw [newline] at whole ⊢
      obtain ⟨back, eq⟩ := exists_front o "\r\n" (List.cons_ne_nil m ls)
      rw [List.flatMap_cons, eq, ← List.append_assoc] at whole
      rw [LineEnding.resolve, ← List.append_cancel_right whole, hasCarriageReturn_crlf]
      rfl

theorem render_front (e : LineEnding)
    (clean : hasCarriageReturn source = false → ∀ l ∈ ls, l.Clean) (nonempty : ls ≠ [])
    (whole : ls.flatMap (Line.render o (e.resolve source)) = front ++ e.resolve source) :
    ls.flatMap (Line.render o (e.resolve front)) = front ++ e.resolve front := by
  obtain ⟨l, ls, rfl⟩ := List.exists_cons_of_ne_nil nonempty
  cases ls with
  | cons m ls =>
    have several : 2 ≤ (l :: m :: ls).length := Nat.le_add_left 2 ls.length
    rw [resolve_front e clean several whole, whole]
  | nil =>
    -- One line has no line end but the last, and any may be put there.
    rw [List.flatMap_singleton, Line.render] at whole ⊢
    rw [List.append_cancel_right whole]

end Layout
end MarkupGrader
