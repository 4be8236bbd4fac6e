import MarkupGrader.Proofs.Layout.Sheltered

/-! A row that is copied, when the copy is read again: it is inline, and has the same text. Its void
elements take in what they had taken in, but for white space at the end of the row. -/

namespace MarkupGrader

open Text (IsBlankText)

theorem Text.isBlankText_squeeze {t : Text} : IsBlankText (Text.squeeze t) ↔ IsBlankText t := by
  rw [← Text.words_eq_nil, Text.words_squeeze, Text.words_eq_nil]

namespace Markup

theorem Token.leafKind?_squeeze (t : Token) : t.squeeze.leafKind? = t.leafKind? := by
  cases t with
  | filler f => cases f <;> rfl
  | _ => rfl

namespace Item

theorem hasText_leaf_squeeze (t : Token) : (leaf t.squeeze).hasText = (leaf t).hasText := by
  cases t with
  | text t =>
    have same : (Text.trim (Text.squeeze t)).isEmpty = (Text.trim t).isEmpty := by
      rw [Bool.eq_iff_iff, List.isEmpty_iff, List.isEmpty_iff, Text.trim_eq_nil, Text.trim_eq_nil,
        Text.isBlankText_squeeze]
    exact congrArg (fun b => true && !b) same
  | filler f => cases f <;> rfl
  | _ => rfl

mutual

theorem isInline_squeeze : ∀ i : Item, i.squeeze.isInline = i.isInline
  | leaf t => by rw [squeeze, isInline, t.leafKind?_squeeze, isInline]
  | element tag content closing => by
    rw [squeeze, isInline, allInline_squeezeAll content, isInline]
    rfl

theorem allInline_squeezeAll : ∀ items : List Item, allInline (squeezeAll items) = allInline items
  | [] => rfl
  | i :: rest => by
    rw [squeezeAll, allInline, isInline_squeeze i, allInline_squeezeAll rest, allInline]

end

mutual

theorem hasText_squeeze : ∀ i : Item, i.squeeze.hasText = i.hasText
  | leaf t => hasText_leaf_squeeze t
  | element tag content closing => by
    rw [squeeze, hasText, anyText_squeezeAll content, hasText]

theorem anyText_squeezeAll : ∀ items : List Item, anyText (squeezeAll items) = anyText items
  | [] => rfl
  | i :: rest => by
    rw [squeezeAll, anyText, hasText_squeeze i, anyText_squeezeAll rest, anyText]

end

mutual

theorem anyText_loosen : ∀ i : Item, anyText i.loosen = i.hasText
  | leaf t => anyText_singleton _
  | element tag content .implied => by
    rw [loosen, anyText, anyText_loosenAll content, hasText, hasText]
    rfl
  | element tag content (.endTag e) => by
    have loose : (element tag content (.endTag e)).loosen =
        [element tag (loosenAll content) (.endTag e)] := rfl
    rw [loose, anyText_singleton, hasText, anyText_loosenAll content, hasText]
  | element tag content .selfClosed => by
    have loose : (element tag content .selfClosed).loosen =
        [element tag (loosenAll content) .selfClosed] := rfl
    rw [loose, anyText_singleton, hasText, anyText_loosenAll content, hasText]

theorem anyText_loosenAll : ∀ items : List Item, anyText (loosenAll items) = anyText items
  | [] => rfl
  | i :: rest => by
    rw [loosenAll, anyText_append, anyText_loosen i, anyText_loosenAll rest, anyText]

end

mutual

theorem hasText_settle : ∀ i : Item, i.settle.hasText = i.hasText
  | leaf t => rfl
  | element tag content closing => by
    rw [settle, hasText, anyText_absorbAll, anyText_settled content, hasText]

theorem anyText_settled : ∀ items : List Item, anyText (settled items) = anyText items
  | [] => rfl
  | i :: rest => by rw [settled, anyText, hasText_settle i, anyText_settled rest, anyText]

end

mutual

theorem source_settle : ∀ i : Item, i.settle.source = i.source
  | leaf t => rfl
  | element tag content closing => by
    rw [settle, source_element, sources_absorbAll, sources_settled content, source_element]

theorem sources_settled : ∀ items : List Item, sources (settled items) = sources items
  | [] => rfl
  | i :: rest => by
    rw [settled, sources_cons, source_settle i, sources_settled rest, sources_cons]

end

variable {items run : List Item}

theorem anyText_of_gaps (gaps : items.all isGap = true) : anyText items = false := by
  rw [anyText_eq_any, List.any_eq_false]
  intro i hi
  rw [hasText_of_isGap (List.all_eq_true.mp gaps i hi)]
  exact Bool.false_ne_true

theorem allInline_of_gaps (gaps : items.all isGap = true) : allInline items = true := by
  rw [allInline_eq_all, List.all_eq_true]
  exact fun i hi => isInline_of_isGap (List.all_eq_true.mp gaps i hi)

theorem anyText_copy (run : List Item) : anyText (settled (copy run)) = anyText run := by
  obtain ⟨front, back, whole, frontGaps, backGaps⟩ := exists_trimGaps (loosenAll run)
  have loose := anyText_loosenAll run
  rw [whole, anyText_append, anyText_append, anyText_of_gaps frontGaps, anyText_of_gaps backGaps,
    Bool.false_or, Bool.or_false] at loose
  rw [anyText_settled, copy, anyText_squeezeAll, loose]

structure Copied (j : Item) : Prop where
  inline : j.isInline = true
  leaf : ∀ t, j = leaf t → j.isGap = true ∧ IsBlankText t.source ∨ j.hasText = true
  void : ∀ tag content, j = element tag content .implied →
    ElementClass.isVoid tag.elementName = true

theorem exists_space_or_hasText {t : Token} (regular : (leaf t).Regular)
    (spaced : Text.Spaced (leaf t).source) (inline : (leaf t).isInline = true) :
    (∃ s, t = .filler (.space s) ∧ IsBlankText s) ∨ (leaf t).hasText = true := by
  cases regular with
  | leaf plain reads clear =>
    cases t with
    | filler f => cases f with
      | space s => exact .inl ⟨s, rfl, plain⟩
      | comment s => cases inline
    | doctype d => cases inline
    | raw s => cases inline
    | tag t => exact absurd plain id
    | endTag t => exact absurd plain id
    | text s => exact .inr (hasText_of_isText (.leaf plain reads clear) spaced rfl).2
    | entity s =>
      obtain ⟨r, -, b, rfl⟩ := reads
      have bracket : Text.isBlank '&' = false := rfl
      have some : Text.trim ('&' :: b) ≠ [] := fun none => by
        rw [(Text.isBlankText_cons.mp (Text.trim_eq_nil.mp none)).1] at bracket
        cases bracket
      refine .inr ?_
      rw [hasText, Token.source, List.isEmpty_eq_false_iff.mpr some]
      rfl

theorem copied_leaf {t : Token} (regular : (leaf t).Regular)
    (spaced : Text.Spaced (leaf t).source) (inline : (leaf t).isInline = true) :
    (leaf t).squeeze.settle.Copied := by
  refine ⟨(isInline_squeeze (leaf t)).trans inline, fun u eq => ?_, fun _ _ eq => by cases eq⟩
  cases eq
  rcases exists_space_or_hasText regular spaced inline with ⟨s, rfl, blank⟩ | text
  · exact .inl ⟨rfl, Text.isBlankText_squeeze.mpr blank⟩
  · exact .inr ((hasText_leaf_squeeze t).trans text)

theorem copied_element {tag : Tag} {content : List Item} {closing : Closing}
    (inline : (element tag content closing).isInline = true)
    (void : closing = .implied → ElementClass.isVoid tag.elementName = true) :
    (element tag content closing).Copied := by
  refine ⟨inline, fun _ eq => (nomatch eq), fun _ _ eq => ?_⟩
  cases eq
  exact void rfl

theorem copied_of_regular {i : Item} (regular : i.Regular) (spaced : Text.Spaced i.source)
    (inline : i.isInline = true) :
    ∀ j ∈ settled (squeezeAll i.loosen), j.Copied := by
  have whole := inline
  rw [← isInline_squeeze] at whole
  cases regular with
  | leaf plain reads clear =>
    exact List.forall_mem_singleton.mpr (copied_leaf (.leaf plain reads clear) spaced inline)
  | raw _ _ _ _ _ _ =>
    rw [isInline, Bool.and_eq_true] at inline
    cases inline.2
  | @element tag content closing own key regular reads settled_ fits void ends =>
    have parts := inline
    rw [isInline, Bool.and_eq_true, allInline_eq_all, List.all_eq_true] at parts
    have back := absorbAll_copies (fun i hi => returns_of_regular (regular i hi) (parts.2 i hi))
      (rowed_of_settled regular parts.2 settled_)
    cases ends with
    | @endTag e _ _ _ =>
      have loose : settled (squeezeAll (element tag content (.endTag e)).loosen) =
          [element tag.squeeze (absorbAll (settled (squeezeAll (loosenAll content))))
            (.endTag e.squeeze)] := rfl
      rw [loose, back]
      exact List.forall_mem_singleton.mpr (copied_element whole fun eq => by cases eq)
    | selfClosed _ none =>
      subst none
      exact List.forall_mem_singleton.mpr (copied_element whole fun eq => by cases eq)
    | implied opens may =>
      have isVoid := isVoid_of_inline parts.1 may
      have leaves := void (isVoid_key isVoid)
      rw [loosen, loosenAll_of_leaves leaves, squeezeAll, settled]
      refine List.forall_mem_cons.mpr ⟨copied_element ?_ fun _ => isVoid, ?_⟩
      · exact (Bool.and_true _).trans parts.1
      · rw [settled_eq_map, squeezeAll_eq_map, List.forall_mem_map, List.forall_mem_map]
        intro i hi
        have own := leaves i hi
        cases i with
        | leaf t =>
          exact copied_leaf (regular _ hi) (spaced.of_subset (List.Subset.trans (source_subset hi)
            sources_subset)) (parts.2 _ hi)
        | element tag content closing => cases own

section Row

variable {run : List Item} (regular : ∀ i ∈ run, i.Regular) (spaced : Text.Spaced (sources run))
  (inline : allInline run = true)

include regular spaced inline

theorem copied_of_mem : ∀ j ∈ settled (copy run), j.Copied := by
  rw [allInline_eq_all, List.all_eq_true] at inline
  rw [settled_eq_map, List.forall_mem_map]
  intro j hj
  obtain ⟨i, hi, mem⟩ := exists_of_mem_copy hj
  refine copied_of_regular (regular i hi) (spaced.of_subset (source_subset hi)) (inline i hi) _ ?_
  rw [settled_eq_map]
  exact List.mem_map_of_mem mem

theorem allInline_copy : allInline (settled (copy run)) = true := by
  rw [allInline_eq_all, List.all_eq_true]
  exact fun j hj => (copied_of_mem regular spaced inline j hj).inline

end Row

/-- The last element before, if it is open, is void and may share a line. -/
def StandsInRow (before : List Item) : Prop :=
  ∀ tag content outer, before = element tag content .implied :: outer →
    ElementClass.isVoid tag.elementName = true ∧
      (element tag content .implied).isInline = true

theorem standsInRow_element {before : List Item} {tag : Tag} {content : List Item}
    {closing : Closing} (copied : (element tag content closing).Copied) :
    StandsInRow (push before (element tag content closing)) := by
  intro tag' content' outer eq
  rw [push_element] at eq
  cases eq
  exact ⟨copied.void _ _ rfl, copied.inline⟩

theorem standsInRow_push {before : List Item} {j : Item} (copied : j.Copied)
    (stands : StandsInRow before) : StandsInRow (push before j) := by
  cases j with
  | element tag content closing => exact standsInRow_element copied
  | leaf t =>
    intro tag content outer eq
    unfold push at eq
    split at eq
    · next same =>
      cases same
      cases eq
      obtain ⟨void, inline⟩ := stands _ _ _ rfl
      exact ⟨void, (isInline_take copied.inline .implied).trans inline⟩
    · cases eq

theorem absorbs_copied {items before : List Item} (copied : ∀ j ∈ items, j.Copied)
    (stands : StandsInRow before) :
    Absorbs Fades before items ∧ StandsInRow (items.foldl push before) := by
  induction items generalizing before with
  | nil => exact ⟨trivial, stands⟩
  | cons j items ih =>
    obtain ⟨own, others⟩ := List.forall_mem_cons.mp copied
    obtain ⟨absorbs, last⟩ := ih others (standsInRow_push own stands)
    refine ⟨⟨fun tag content outer t eq same => ?_, absorbs⟩, last⟩
    obtain ⟨void, inline⟩ := stands tag content outer eq
    rw [isInline, Bool.and_eq_true] at inline
    subst same
    rcases own.leaf t rfl with ⟨gap, blank⟩ | text
    · exact .inl ⟨void, gap, blank⟩
    · exact .inr ⟨void, inline.1, inline.2, own.inline, text⟩

theorem exists_trimGaps_cons {i : Item} (visible : i.isGap = false) (items : List Item) :
    ∃ more, trimGaps (i :: items) = i :: more := by
  rw [trimGaps, List.dropWhile_cons_of_neg (Bool.eq_false_iff.mp visible), List.reverse_cons,
    List.dropWhile_append]
  split
  · rw [List.dropWhile_cons_of_neg (Bool.eq_false_iff.mp visible)]
    exact ⟨[], rfl⟩
  · rw [List.reverse_append]
    exact ⟨_, rfl⟩

theorem exists_copy_of_element {i : Item} (other : i.isLeaf = false) (rest : List Item) :
    ∃ j more, settled (copy (i :: rest)) = j :: more ∧ j.isLeaf = false := by
  cases i with
  | leaf t => cases other
  | element tag content closing =>
    obtain ⟨inner, more, eq⟩ : ∃ inner more,
        loosenAll (element tag content closing :: rest) = element tag inner closing :: more := by
      cases closing <;> exact ⟨_, _, rfl⟩
    obtain ⟨more', trimmed⟩ := @exists_trimGaps_cons (element tag inner closing) rfl more
    rw [copy, eq, trimmed]
    exact ⟨_, _, rfl, rfl⟩

theorem Stands.of_openVoidAt {o : Bool} {before : List Item} (stands : Stands o before)
    (open_ : openVoidAt before = true) : o = true := by
  cases before with
  | nil => cases open_
  | cons i before =>
    cases i with
    | leaf t => cases open_
    | element tag content closing =>
      cases closing with
      | implied => exact (stands tag content before rfl).1
      | endTag e => cases open_
      | selfClosed => cases open_

theorem Stands.closed {o : Bool} {before : List Item} (stands : Stands o before)
    (closed : openVoidAt before = false) : StandsInRow before := by
  rintro tag content outer rfl
  cases closed.symm.trans (isVoid_key (stands tag content outer rfl).2)

/-- A row that is copied passes behind what may be open. -/
theorem passes_copy {o : Bool} {run : List Item} (regular : ∀ i ∈ run, i.Regular)
    (spaced : Text.Spaced (sources run)) (inline : allInline run = true) (sheltered : Sheltered o run) :
    Passes Fades o (settled (copy run)) (openAfter o run) := by
  intro before stands
  have copied := copied_of_mem regular spaced inline
  obtain ⟨absorbs, void⟩ : Absorbs Fades before (settled (copy run)) ∧
      ∀ tag content outer, (settled (copy run)).foldl push before =
        element tag content .implied :: outer → ElementClass.isVoid tag.elementName = true := by
    cases open_ : openVoidAt before with
    | false =>
      obtain ⟨absorbs, last⟩ := absorbs_copied copied (stands.closed open_)
      exact ⟨absorbs, fun tag content outer eq => (last tag content outer eq).1⟩
    | true =>
      cases run with
      | nil => exact ⟨trivial, fun tag content outer eq => (stands tag content outer eq).2⟩
      | cons i rest =>
        -- What is open takes nothing in, for the row begins with an element.
        obtain ⟨j, more, eq, other⟩ :=
          exists_copy_of_element (sheltered.1 (stands.of_openVoidAt open_)) rest
        rw [eq] at copied ⊢
        obtain ⟨own, others⟩ := List.forall_mem_cons.mp copied
        cases j with
        | leaf t => cases other
        | element tag content closing =>
          obtain ⟨absorbs, last⟩ := absorbs_copied others (standsInRow_element own)
          exact ⟨⟨fun _ _ _ _ _ same => (nomatch same), absorbs⟩,
            fun tag content outer eq => (last tag content outer eq).1⟩
  refine ⟨absorbs, fun tag content outer eq => ⟨?_, void tag content outer eq⟩⟩
  have open_ := openVoidAt_foldl_push (settled (copy run)) before
  rw [openAfter_copy regular inline, eq] at open_
  exact openAfter_mono stands.of_openVoidAt (open_.symm.trans (isVoid_key (void tag content outer eq)))

end Item
end Markup
end MarkupGrader
