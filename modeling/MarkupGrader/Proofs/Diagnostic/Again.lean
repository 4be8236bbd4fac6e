import MarkupGrader.Proofs.Layout.Page

/-! A layout that is read again has no faults. All of its tags come from the page, and each element is
ended as it may; a doctype is found again unless a void element before it takes it in. -/

namespace MarkupGrader.Markup

theorem Tag.names_squeeze (t : Tag) :
    t.squeeze.attributes.map (·.name) = t.attributes.map (·.name) := by
  have each : ∀ ps : List TagPart,
      ((ps.map TagPart.squeeze).filterMap TagPart.attribute?).map (·.name) =
        (ps.filterMap TagPart.attribute?).map (·.name) := by
    intro ps
    induction ps with
    | nil => rfl
    | cons p ps ih =>
      cases p with
      | filler f => exact ih
      | attr a => exact congrArg (List.cons a.name.lower) ih
  exact each t.parts

namespace Item

/-- The test of an element that looks at its tag and its end. -/
abbrev faultlessTag (tag : Tag) (closing : Closing) : Bool := tag.isDistinct && isClosed tag closing

theorem isFaultless_element {tag : Tag} {content : List Item} {closing : Closing} :
    (element tag content closing).isFaultless = true ↔
      faultlessTag tag closing = true ∧ ∀ i ∈ content, i.isFaultless = true :=
  every_element_iff

theorem faultlessTag_of_ends {tag : Tag} {content : List Item} {closing : Closing}
    (own : tag.Regular) (ends : Ends tag content closing) : faultlessTag tag closing = true := by
  rw [faultlessTag, own.distinct, isClosed]
  cases ends with
  | endTag _ _ _ => simp [Closing.isEndTag]
  | selfClosed closes _ => simp [closes]
  | implied opens may =>
    have open_ : Closing.implied.isEndTag = false := rfl
    rw [opens, open_, Bool.false_or, Bool.false_or, may]
    rfl

theorem faultlessTag_squeeze (tag : Tag) (closing : Closing) :
    faultlessTag tag.squeeze closing.squeeze = faultlessTag tag closing := by
  have ended : closing.squeeze.isEndTag = closing.isEndTag := by cases closing <;> rfl
  have name : tag.squeeze.elementName = tag.elementName := rfl
  have closes : tag.squeeze.selfClosing = tag.selfClosing := rfl
  rw [faultlessTag, faultlessTag, Tag.isDistinct, tag.names_squeeze, Tag.isDistinct, isClosed,
    isClosed, ended, name, closes]

theorem faultless_squeeze {i : Item} (regular : i.Regular) :
    ∀ j ∈ squeezeAll i.loosen, j.isFaultless = true := by
  induction regular with
  | leaf _ _ _ => exact List.forall_mem_singleton.mpr rfl
  | @raw tag raw e own _ opens same _ _ =>
    have ends : Ends tag [] (.endTag e) := .endTag opens same (.inr fun i hi => by cases hi)
    have tagged := (faultlessTag_squeeze tag (.endTag e)).trans (faultlessTag_of_ends own ends)
    exact List.forall_mem_singleton.mpr (isFaultless_element.mpr
      ⟨tagged, List.forall_mem_singleton.mpr rfl⟩)
  | @element tag content closing own _ _ _ _ _ _ ends ih =>
    have tagged := (faultlessTag_squeeze tag closing).trans (faultlessTag_of_ends own ends)
    have inner : ∀ j ∈ squeezeAll (loosenAll content), j.isFaultless = true := by
      rw [squeezeAll_eq_map, loosenAll_eq_flatMap, List.forall_mem_map, List.forall_mem_flatMap]
      intro i hi j hj
      refine ih i hi _ ?_
      rw [squeezeAll_eq_map]
      exact List.mem_map_of_mem hj
    cases ends with
    | endTag _ _ _ =>
      exact List.forall_mem_singleton.mpr (isFaultless_element.mpr ⟨tagged, inner⟩)
    | selfClosed _ _ =>
      exact List.forall_mem_singleton.mpr (isFaultless_element.mpr ⟨tagged, inner⟩)
    | implied _ _ =>
      exact List.forall_mem_cons.mpr ⟨isFaultless_element.mpr ⟨tagged, fun i hi => by cases hi⟩, inner⟩

theorem faultless_copy {run : List Item} (regular : ∀ i ∈ run, i.Regular) :
    ∀ j ∈ copy run, j.isFaultless = true := by
  intro j hj
  obtain ⟨i, hi, mem⟩ := exists_of_mem_copy hj
  exact faultless_squeeze (regular i hi) j mem

variable {sep : Nat → Text}

theorem faultless_written {tag : Tag} {body : List Item} {closing : Closing} {depth : Nat}
    (own : tag.Regular) (closed : isClosed tag.printed closing = true)
    (inner : ∀ j ∈ body, j.isFaultless = true) :
    ∀ j ∈ [lineBreak sep depth, element tag.printed body closing], j.isFaultless = true := by
  refine List.forall_mem_cons.mpr ⟨rfl, List.forall_mem_singleton.mpr
    (isFaultless_element.mpr ⟨?_, inner⟩)⟩
  rw [faultlessTag, closed, Tag.isDistinct, tag.attributes_printed]
  exact (Bool.and_true _).trans own.distinct

theorem faultless_reprint {i : Item} (regular : i.Regular) :
    ∀ depth, ∀ j ∈ i.reprint sep depth, j.isFaultless = true := by
  have ended (tag : Tag) : isClosed tag.printed (.endTag tag.printedEnd) = true := by
    simp [isClosed, Closing.isEndTag]
  induction regular with
  | @leaf t _ _ _ =>
    intro depth j hj
    rw [reprint] at hj
    split at hj
    · cases hj
    · rcases List.mem_cons.mp hj with rfl | hj
      · rfl
      · rw [List.mem_singleton.mp hj]
        rfl
  | @raw tag raw e own key _ _ _ _ =>
    intro depth
    rw [reprint_raw key]
    exact faultless_written own (ended tag) (List.forall_mem_singleton.mpr rfl)
  | @element tag content closing own _ regular reads _ _ _ _ ih =>
    intro depth
    have none := soleRaw?_of_regular regular
    rw [reprint]
    cases kind : shape tag content with
    | bare =>
      have void := isVoid_of_shape kind
      rw [body_bare kind]
      exact faultless_written own (by simp [isClosed, void]) (by simp)
    | empty =>
      rw [body_empty kind]
      exact faultless_written own (ended tag) (by simp)
    | inline text =>
      rw [body_inline kind none]
      exact faultless_written own (ended tag) (faultless_copy regular)
    | block =>
      rw [body_block kind none]
      refine faultless_written own (ended tag) (List.forall_mem_append.mpr
        ⟨List.forall_mem_flatMap.mpr fun row hrow => ?_, List.forall_mem_singleton.mpr rfl⟩)
      have facts := regular_rows regular reads row hrow
      cases row with
      | alone i => exact ih i (mem_of_mem_rowsOf hrow (List.mem_singleton_self i)) _
      | shared run => exact List.forall_mem_cons.mpr ⟨rfl, faultless_copy facts.regular⟩

theorem faultless_absorbAll (items : List Item) :
    (absorbAll items).all isFaultless = items.all isFaultless := by
  refine absorbAll_eq (f := (·.all isFaultless)) (fun front tag content t back => ?_) items
  have leaf_ : (leaf t).isFaultless = true := rfl
  simp [every_element, leaf_]

mutual

theorem faultless_settle : ∀ i : Item, i.settle.isFaultless = i.isFaultless
  | leaf t => rfl
  | element tag content closing => by
    have inner : (absorbAll (settled content)).all isFaultless = content.all isFaultless :=
      (faultless_absorbAll _).trans (faultless_settled content)
    rw [settle, isFaultless, everyElement, every_element, every_element, inner]

theorem faultless_settled : ∀ items : List Item,
    (settled items).all isFaultless = items.all isFaultless
  | [] => rfl
  | i :: rest => by
    rw [settled, List.all_cons, List.all_cons, faultless_settle i, faultless_settled rest]

end

theorem faultless_again {items tail : List Item} (regular : ∀ i ∈ items, i.Regular)
    (ends : IsTail sep tail) : ∀ j ∈ again sep items tail, j.isFaultless = true := by
  have written : ∀ j ∈ items.flatMap (reprint sep 0) ++ tail, j.isFaultless = true := by
    rw [List.forall_mem_append, List.forall_mem_flatMap]
    refine ⟨fun i hi => faultless_reprint (regular i hi) 0, ?_⟩
    rcases ends with rfl | rfl
    · exact List.forall_mem_singleton.mpr rfl
    · simp
  rw [← List.all_eq_true, again, faultless_absorbAll, faultless_settled, List.all_eq_true]
  exact fun j hj => written j (List.mem_of_mem_drop hj)

theorem any_foldl_push {before : List Item} (found : before.any isDoctype = true)
    (items : List Item) : (items.foldl push before).any isDoctype = true := by
  induction items generalizing before with
  | nil => exact found
  | cons i items ih =>
    refine ih ?_
    unfold push
    split
    · exact found
    · rw [List.any_cons, found, Bool.or_true]

/-- The last element is open at the end of what was read. -/
abbrev openAt (before : List Item) : Bool := before.head?.any isOpenEnded

theorem openAt_push_leaf (before : List Item) (t : Token) :
    openAt (push before (leaf t)) = openAt before := by
  cases before with
  | nil => rfl
  | cons j before =>
    cases j with
    | leaf u => rfl
    | element tag content closing => cases closing <;> rfl

theorem push_leaf_of_closed {before : List Item} (closed : openAt before = false) (t : Token) :
    push before (leaf t) = leaf t :: before :=
  push_leaf (fun i hi => by simpa [openAt, Option.mem_def.mp hi] using closed) t

theorem isOpenEnded_closing (tag : Tag) (content body : List Item) :
    (element tag.printed body ((shape tag content).closing tag)).isOpenEnded =
      ElementClass.isVoid tag.elementName := by
  rw [shape]
  cases void : ElementClass.isVoid tag.elementName with
  | true => rfl
  | false =>
    rw [if_neg Bool.false_ne_true]
    split
    · rfl
    · split <;> rfl

theorem any_isDoctype {items : List Item} (tail before : List Item)
    (shows : showsDoctype (openAt before) items = true) :
    ((settled (items.flatMap (reprint sep 0) ++ tail)).foldl push before).any isDoctype = true := by
  induction items generalizing before with
  | nil => cases shows
  | cons i items ih =>
    rw [List.flatMap_cons, List.append_assoc, settled_append, List.foldl_append]
    cases i with
    | element tag content closing =>
      refine ih _ ?_
      rw [showsDoctype] at shows
      rw [reprint, lineBreak, settled, settled, settled, settle, settle, List.foldl_cons,
        List.foldl_cons, List.foldl_nil, push_element, openAt, List.head?_cons, Option.any_some,
        isOpenEnded_closing]
      exact shows
    | leaf t =>
      rw [reprint]
      cases gap : t.leafKind?.isNone with
      | true =>
        refine ih before ?_
        cases t with
        | doctype d => cases gap
        | _ => exact shows
      | false =>
        rw [if_neg Bool.false_ne_true, lineBreak, settled, settled, settled, settle, settle,
          List.foldl_cons, List.foldl_cons, List.foldl_nil]
        have still : openAt (push (push before (leaf (.filler (.space (sep 0)))))
            (leaf t.reprinted)) = openAt before := by
          rw [openAt_push_leaf, openAt_push_leaf]
        by_cases more : showsDoctype (openAt before) items = true
        · exact ih _ (still.symm ▸ more)
        · cases t with
          | doctype d =>
            rw [showsDoctype, Bool.or_eq_true] at shows
            have closed := shows.resolve_right more
            refine any_foldl_push ?_ _
            rw [push_leaf_of_closed]
            · rfl
            · rw [openAt_push_leaf]
              simpa using closed
          | _ => exact absurd shows more

theorem any_isDoctype_again {items tail : List Item} (ends : IsTail sep tail)
    (shows : showsDoctype false items = true) :
    (again sep items tail).any isDoctype = true := by
  have found := @any_isDoctype sep items tail [] shows
  have whole : (absorbAll (settled (items.flatMap (reprint sep 0) ++ tail))).any isDoctype = true := by
    rw [absorbAll, List.any_reverse]
    exact found
  rcases again_eq items ends with ⟨none, -⟩ | some
  · rw [none] at whole
    cases whole
  · rw [some] at whole
    exact whole

end Item
end MarkupGrader.Markup
