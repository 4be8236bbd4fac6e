import MarkupGrader.Proofs.Diagnostic.Faultless
import MarkupGrader.Proofs.Document.View
import MarkupGrader.Proofs.Markup.Skeleton

/-! Pruned items: elements, doctypes and raw texts alone. They are what the skeleton of a source is
nested into, and whatever is told of elements can be told of them. -/

namespace MarkupGrader.Markup

namespace Item

mutual

def prune? : Item → Option Item
  | leaf t => if t.isMarkup then some (leaf t) else none
  | element tag content closing => some (element tag (pruneAll content) closing)

def pruneAll : List Item → List Item
  | [] => []
  | i :: rest => i.prune?.toList ++ pruneAll rest

end

theorem pruneAll_eq_filterMap (items : List Item) : pruneAll items = items.filterMap prune? := by
  induction items with
  | nil => rfl
  | cons i items ih =>
    rw [pruneAll, ih, List.filterMap_cons]
    cases i.prune? <;> rfl

theorem exists_of_mem_pruneAll {items : List Item} {j : Item} (h : j ∈ pruneAll items) :
    ∃ i ∈ items, j ∈ i.prune?.toList := by
  rw [pruneAll_eq_filterMap] at h
  obtain ⟨i, hi, eq⟩ := List.mem_filterMap.mp h
  exact ⟨i, hi, Option.mem_toList.mpr eq⟩

theorem pruneAll_reverse (items : List Item) :
    pruneAll items.reverse = (pruneAll items).reverse := by
  rw [pruneAll_eq_filterMap, pruneAll_eq_filterMap, List.filterMap_reverse]

theorem pruneAll_element (tag : Tag) (content : List Item) (closing : Closing) (rest : List Item) :
    pruneAll (element tag content closing :: rest) =
      element tag (pruneAll content) closing :: pruneAll rest := by
  rw [pruneAll, prune?]
  rfl

theorem pruneAll_leaf_of_markup {t : Token} (markup : t.isMarkup = true) (rest : List Item) :
    pruneAll (leaf t :: rest) = leaf t :: pruneAll rest := by
  rw [pruneAll, prune?, if_pos markup]
  rfl

theorem pruneAll_leaf {t : Token} (markup : t.isMarkup = false) (rest : List Item) :
    pruneAll (leaf t :: rest) = pruneAll rest := by
  rw [pruneAll, prune?, if_neg (Bool.eq_false_iff.mp markup)]
  rfl

end Item

open Item (pruneAll)

def Frame.prune (f : Frame) : Frame := ⟨f.tag, pruneAll f.before⟩

namespace Nest

def prune (n : Nest) : Nest := ⟨n.frames.map Frame.prune, pruneAll n.content⟩

theorem keys_prune (frames : List Frame) : keys (frames.map Frame.prune) = keys frames := by
  rw [keys, List.map_map]
  rfl

theorem prune_close (f : Frame) (outer : List Frame) (content : List Item) (closing : Closing) :
    prune ⟨outer, .element f.tag content.reverse closing :: f.before⟩ =
      ⟨outer.map Frame.prune, .element f.prune.tag (pruneAll content).reverse closing ::
        f.prune.before⟩ := by
  rw [prune, Item.pruneAll_element, Item.pruneAll_reverse]
  rfl

theorem prune_endImplied (ends : List Text → Bool) (frames : List Frame) (content : List Item) :
    (endImplied ends frames content).prune =
      endImplied ends (frames.map Frame.prune) (pruneAll content) := by
  induction frames generalizing content with
  | nil => rfl
  | cons f outer ih =>
    have same : keys (f.prune :: outer.map Frame.prune) = keys (f :: outer) := keys_prune (f :: outer)
    rw [List.map_cons, endImplied, endImplied, same]
    split
    · have closed := prune_close f outer content .implied
      rw [ih]
      exact congrArg (fun n : Nest => endImplied ends n.frames n.content) closed
    · rfl

theorem prune_addTag (n : Nest) (t : Tag) : (n.addTag t).prune = n.prune.addTag t := by
  have ended := prune_endImplied (TagName.endsAtTag (bareKey t.lead t.key)) n.frames n.content
  rw [addTag, addTag, show n.prune.frames = n.frames.map Frame.prune from rfl,
    show n.prune.content = pruneAll n.content from rfl, ← ended]
  split
  · rw [prune, add, add, Item.pruneAll_element]
    rfl
  · rfl

theorem prune_addEndTag? (n : Nest) (t : EndTag) :
    (n.addEndTag? t).map prune = n.prune.addEndTag? t := by
  obtain ⟨frames, content⟩ := n
  cases frames with
  | nil => rfl
  | cons f outer =>
    -- Which elements end before the tag is told by the names of the open ones alone.
    have ended := prune_endImplied (TagName.endsAtEndTag (bareKey t.lead t.key)) (f :: outer) content
    rw [List.map_cons] at ended
    rw [addEndTag?, addEndTag?]
    simp only [prune, List.map_cons, show f.prune.tag = f.tag from rfl]
    split
    · exact congrArg some (prune_close f outer content (.endTag t))
    · split
      · rfl
      · rw [← ended]
        generalize endImplied (TagName.endsAtEndTag (bareKey t.lead t.key)) (f :: outer) content = m
        obtain ⟨frames', content'⟩ := m
        cases frames' with
        | nil => rfl
        | cons g outer' =>
          simp only [prune, List.map_cons, show g.prune.tag = g.tag from rfl]
          split
          · exact congrArg some (prune_close g outer' content' (.endTag t))
          · exact congrArg some (congrArg (Nest.mk _) (Item.pruneAll_leaf_of_markup rfl content'))

theorem prune_step? (n : Nest) (t : Token) :
    (n.step? t).map prune = if t.isMarkup then n.prune.step? t else some n.prune := by
  have added {t : Token} (markup : t.isMarkup = true) :
      (n.add (.leaf t)).prune = n.prune.add (.leaf t) :=
    congrArg (Nest.mk _) (Item.pruneAll_leaf_of_markup markup n.content)
  have dropped {t : Token} (markup : t.isMarkup = false) : (n.add (.leaf t)).prune = n.prune :=
    congrArg (Nest.mk _) (Item.pruneAll_leaf markup n.content)
  cases t with
  | tag t => exact congrArg some (prune_addTag n t)
  | endTag t => exact prune_addEndTag? n t
  | filler f => exact congrArg some (dropped rfl)
  | text t => exact congrArg some (dropped rfl)
  | entity t => exact congrArg some (dropped rfl)
  | doctype d => exact congrArg some (added rfl)
  | raw t => exact congrArg some (added rfl)

theorem foldlM_skeleton (ts : List Token) (n : Nest) :
    (skeleton ts).foldlM step? n.prune = (ts.foldlM step? n).map prune := by
  induction ts generalizing n with
  | nil => rfl
  | cons t ts ih =>
    have stepped := prune_step? n t
    rw [List.foldlM_cons, skeleton, List.filter_cons]
    cases markup : t.isMarkup with
    | true =>
      rw [markup, if_pos rfl] at stepped
      rw [if_pos rfl, List.foldlM_cons, ← stepped]
      cases n.step? t with
      | none => rfl
      | some m => exact ih m
    | false =>
      rw [markup, if_neg Bool.false_ne_true] at stepped
      obtain ⟨m, found, same⟩ := Option.map_eq_some_iff.mp stepped
      rw [if_neg Bool.false_ne_true, found, ← same]
      exact ih m

end Nest

/-- The skeleton of a source is nested as the source is. -/
theorem items?_skeleton (ts : List Token) : items? (skeleton ts) = (items? ts).map pruneAll := by
  have folded := Nest.foldlM_skeleton ts Nest.empty
  rw [show Nest.empty.prune = Nest.empty from rfl] at folded
  rw [items?, items?, folded]
  cases ts.foldlM Nest.step? Nest.empty with
  | none => rfl
  | some n =>
    have ended := Nest.prune_endImplied TagName.endsAtEnd n.frames n.content
    simp only [Option.map_some, Option.bind_some, Nest.prune, ← ended, List.isEmpty_map,
      ← Item.pruneAll_reverse]
    split <;> rfl

theorem items?_of_skeleton {ts us : List Token} (same : skeleton ts = skeleton us)
    {items : List Item} (h : items? us = some items) :
    ∃ js, items? ts = some js ∧ pruneAll js = pruneAll items := by
  have nested := items?_skeleton ts
  rw [same, items?_skeleton, h] at nested
  exact Option.map_eq_some_iff.mp nested.symm

namespace Item

mutual

theorem isFaultless_prune? : ∀ i : Item, i.prune?.toList.all isFaultless = i.isFaultless
  | leaf t => by
    rw [prune?]
    split <;> rfl
  | element tag content closing => by
    have inner := all_isFaultless_pruneAll content
    rw [prune?, Option.toList_some, List.all_cons, List.all_nil, Bool.and_true, isFaultless,
      everyElement, every_element, every_element, inner]

theorem all_isFaultless_pruneAll : ∀ items : List Item,
    (pruneAll items).all isFaultless = items.all isFaultless
  | [] => rfl
  | i :: rest => by
    rw [pruneAll, List.all_append, List.all_cons, isFaultless_prune? i, all_isFaultless_pruneAll rest]

end

mutual

theorem viewsAll_prune? : ∀ i : Item, viewsAll i.prune?.toList = i.views
  | leaf t => by
    rw [prune?]
    split <;> rfl
  | element tag content closing => by
    rw [prune?, Option.toList_some, viewsAll, viewsAll, List.append_nil, views,
      viewsAll_pruneAll content, views]

theorem viewsAll_pruneAll : ∀ items : List Item, viewsAll (pruneAll items) = viewsAll items
  | [] => rfl
  | i :: rest => by rw [pruneAll, viewsAll_append, viewsAll_prune? i, viewsAll_pruneAll rest, viewsAll]

end

theorem any_isDoctype_pruneAll (items : List Item) :
    (pruneAll items).any isDoctype = items.any isDoctype := by
  induction items with
  | nil => rfl
  | cons i items ih =>
    rw [pruneAll, List.any_append, ih, List.any_cons]
    cases i with
    | leaf t => cases t <;> rfl
    | element tag content closing => rfl

variable {P : Token → Prop}

theorem leaves_prune? {i : Item} (leaves : i.Leaves P) : ∀ j ∈ i.prune?.toList, j.Leaves P := by
  induction leaves with
  | @leaf t own =>
    rw [prune?]
    split
    · exact List.forall_mem_singleton.mpr (.leaf own)
    · simp
  | @element tag content closing _ ih =>
    rw [prune?, Option.toList_some]
    refine List.forall_mem_singleton.mpr (.element fun j hj => ?_)
    obtain ⟨i, hi, kept⟩ := exists_of_mem_pruneAll hj
    exact ih i hi j kept

theorem leaves_pruneAll {items : List Item} (leaves : ∀ i ∈ items, i.Leaves P) :
    ∀ j ∈ pruneAll items, j.Leaves P := by
  intro j hj
  obtain ⟨i, hi, kept⟩ := exists_of_mem_pruneAll hj
  exact leaves_prune? (leaves i hi) j kept

mutual

theorem leaves_of_prune? (others : ∀ t, t.isMarkup = false → P t) :
    ∀ i : Item, (∀ j ∈ i.prune?.toList, j.Leaves P) → i.Leaves P
  | leaf t, all => by
    cases markup : t.isMarkup with
    | true =>
      rw [prune?, if_pos markup] at all
      exact all _ (List.mem_singleton_self _)
    | false => exact .leaf (others t markup)
  | element tag content closing, all => by
    rw [prune?, Option.toList_some] at all
    cases all _ (List.mem_singleton_self _) with
    | element inner => exact .element (leaves_of_pruneAll others content inner)

theorem leaves_of_pruneAll (others : ∀ t, t.isMarkup = false → P t) :
    ∀ items : List Item, (∀ j ∈ pruneAll items, j.Leaves P) → ∀ i ∈ items, i.Leaves P
  | [], _ => by simp
  | i :: rest, all => by
    rw [pruneAll, List.forall_mem_append] at all
    exact List.forall_mem_cons.mpr
      ⟨leaves_of_prune? others i all.1, leaves_of_pruneAll others rest all.2⟩

end

end Item
end MarkupGrader.Markup
