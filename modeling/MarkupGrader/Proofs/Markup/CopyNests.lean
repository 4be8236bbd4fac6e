import MarkupGrader.Proofs.Markup.Copy

/-! Nesting a copy of inline items. They are nested as they were: what a void element had taken in is
taken in by it again. -/

namespace MarkupGrader.Markup

theorem Tag.upper_elementName (t : Tag) : t.elementName.upper = t.key := by
  rw [elementName, Text.lower, Text.upper, List.map_map, Tag.key, Text.upper]
  exact List.map_congr_left fun c _ => c.toUpper_toLower_eq_toUpper

theorem isVoid_key {tag : Tag} (void : ElementClass.isVoid tag.elementName = true) :
    TagName.isVoid tag.key = true := by
  have all : ∀ name ∈ ElementClass.voids, TagName.isVoid name.upper = true := by decide
  rw [← tag.upper_elementName]
  exact all _ (List.contains_iff_mem.mp void)

theorem isVoid_of_inline {name : Text} (inline : ElementClass.inlines.contains name = true)
    (may : (ElementClass.isVoid name || ElementClass.hasOptionalEnd name) = true) :
    ElementClass.isVoid name = true := by
  have none : ∀ name ∈ ElementClass.inlines, ElementClass.hasOptionalEnd name = false := by decide
  rwa [none _ (List.contains_iff_mem.mp inline), Bool.or_false] at may

namespace Item

@[simp] theorem isOpenEnded_squeeze (i : Item) : i.squeeze.isOpenEnded = i.isOpenEnded := by
  cases i with
  | leaf t => rfl
  | element tag content closing => cases closing <;> rfl

theorem push_leaf {before : List Item} (closed : ∀ i ∈ before.head?, i.isOpenEnded = false)
    (t : Token) : push before (leaf t) = leaf t :: before := by
  unfold push
  split
  · cases closed _ rfl
  · rfl

def Returns (i : Item) : Prop :=
  ∀ before : List Item, (∀ j ∈ before.head?, j.isOpenEnded = true → i.endsOther = true) →
    (settled (squeezeAll i.loosen)).foldl push before = i.squeeze :: before

theorem settled_append (items more : List Item) :
    settled (items ++ more) = settled items ++ settled more := by
  induction items with
  | nil => rfl
  | cons i items ih => rw [List.cons_append, settled, ih, settled, List.cons_append]

theorem squeezeAll_append (items more : List Item) :
    squeezeAll (items ++ more) = squeezeAll items ++ squeezeAll more := by
  rw [squeezeAll_eq_map, squeezeAll_eq_map, squeezeAll_eq_map, List.map_append]

/-- Only an element stands right behind one that ended without an end tag. -/
abbrev Rowed (items : List Item) : Prop :=
  items.IsChain fun i j => i.isOpenEnded = true → j.endsOther = true

theorem isOpenVoid_of_isOpenEnded {i : Item} (regular : i.Regular) (inline : i.isInline = true)
    (ended : i.isOpenEnded = true) : i.isOpenVoid = true := by
  cases regular with
  | leaf _ _ _ => cases ended
  | raw _ _ _ _ _ _ => cases ended
  | element _ _ _ _ _ _ _ ends =>
    cases ends with
    | endTag _ _ _ => cases ended
    | selfClosed _ _ => cases ended
    | implied _ may =>
      rw [isInline, Bool.and_eq_true] at inline
      exact isVoid_key (isVoid_of_inline inline.1 may)

theorem rowed_of_settled {items : List Item} (regular : ∀ i ∈ items, i.Regular)
    (inline : ∀ i ∈ items, i.isInline = true) (settled_ : Settled items) : Rowed items :=
  settled_.imp_of_mem_imp fun i _ hi _ ends ended =>
    ends (isOpenVoid_of_isOpenEnded (regular i hi) (inline i hi) ended)

theorem foldl_returns {items before : List Item} (each : ∀ i ∈ items, i.Returns)
    (rowed : Rowed items)
    (first : ∀ i ∈ items.head?, ∀ j ∈ before.head?, j.isOpenEnded = true → i.endsOther = true) :
    (settled (squeezeAll (loosenAll items))).foldl push before =
      (squeezeAll items).reverse ++ before := by
  induction items generalizing before with
  | nil => rfl
  | cons i items ih =>
    obtain ⟨own, others⟩ := List.forall_mem_cons.mp each
    have next : ∀ j ∈ items.head?, ∀ k ∈ (i.squeeze :: before).head?,
        k.isOpenEnded = true → j.endsOther = true := by
      intro j hj k hk ended
      cases hk
      rw [isOpenEnded_squeeze] at ended
      obtain ⟨rest, rfl⟩ := List.head?_eq_some_iff.mp hj
      exact (List.isChain_cons_cons.mp rowed).1 ended
    rw [loosenAll, squeezeAll_append, settled_append, List.foldl_append, own before (first i rfl),
      ih others rowed.tail next, squeezeAll, List.reverse_cons, List.append_assoc,
      List.singleton_append]

theorem absorbAll_copies {items : List Item} (each : ∀ i ∈ items, i.Returns)
    (rowed : Rowed items) :
    absorbAll (settled (squeezeAll (loosenAll items))) = squeezeAll items := by
  rw [absorbAll, foldl_returns each rowed (by simp), List.append_nil, List.reverse_reverse]

theorem foldl_leaves {tag : Tag} (content : List Item) {leaves before : List Item}
    (all : ∀ i ∈ leaves, i.isLeaf = true) :
    (settled (squeezeAll (loosenAll leaves))).foldl push (element tag content .implied :: before) =
      element tag (content ++ squeezeAll leaves) .implied :: before := by
  induction leaves generalizing content with
  | nil =>
    rw [squeezeAll, List.append_nil]
    rfl
  | cons i leaves ih =>
    obtain ⟨own, others⟩ := List.forall_mem_cons.mp all
    cases i with
    | element tag content closing => cases own
    | leaf t =>
      have taken : (settled (squeezeAll (loosenAll (leaf t :: leaves)))).foldl push
          (element tag content .implied :: before) =
        (settled (squeezeAll (loosenAll leaves))).foldl push
          (element tag (content ++ [leaf t.squeeze]) .implied :: before) := rfl
      rw [taken, ih _ others, List.append_assoc]
      rfl

theorem returns_of_regular {i : Item} (regular : i.Regular) (inline : i.isInline = true) :
    i.Returns := by
  induction regular with
  | @leaf t plain _ _ =>
    intro before first
    refine push_leaf (fun j hj => ?_) t.squeeze
    rw [← Bool.not_eq_true]
    intro ended
    have stray := first j hj ended
    cases t with
    | endTag e => exact plain
    | _ => cases stray
  | raw _ _ _ _ _ _ =>
    rw [isInline, Bool.and_eq_true] at inline
    cases inline.2
  | @element tag content closing _ _ regular _ settled_ _ void ends ih =>
    rw [isInline, Bool.and_eq_true, allInline_eq_all, List.all_eq_true] at inline
    have rowed := rowed_of_settled regular inline.2 settled_
    intro before _
    have each : ∀ i ∈ content, i.Returns := fun i hi => ih i hi (inline.2 i hi)
    cases ends with
    | @endTag e _ _ _ =>
      have loose : (element tag content (.endTag e)).loosen =
          [element tag (loosenAll content) (.endTag e)] := rfl
      rw [loose, squeezeAll, squeezeAll, squeeze, settled, settled, settle,
        absorbAll_copies each rowed, List.foldl_cons, push_element, List.foldl_nil, squeeze]
    | selfClosed _ none =>
      subst none
      exact push_element before tag.squeeze [] .selfClosed
    | implied _ may =>
      have leaves := void (isVoid_key (isVoid_of_inline inline.1 may))
      rw [loosen, squeezeAll, squeeze, settled, settle, List.foldl_cons, push_element]
      exact foldl_leaves [] leaves

/-- An element may stand in an element of the name, if that is not none. -/
def Fits (parent : Option Text) : Item → Prop
  | leaf _ => True
  | element tag _ _ => Nest.Fits parent tag.key

theorem fits_of_isLeaf {i : Item} (leaf_ : i.isLeaf = true) (parent : Option Text) :
    i.Fits parent := by
  cases i with
  | leaf t => trivial
  | element tag content closing => cases leaf_

theorem fits_content {key : Text} {content : List Item} (all : content.all (fits key) = true)
    (void : TagName.isVoid key = true → ∀ i ∈ content, i.isLeaf = true) :
    ∀ i ∈ content, i.Fits (some key) := by
  intro i hi
  cases i with
  | leaf t => trivial
  | element tag inner closing =>
    intro k hk
    cases hk
    refine ⟨?_, List.all_eq_true.mp all _ hi⟩
    rw [← Bool.not_eq_true]
    intro isVoid
    cases void isVoid _ hi

theorem nests_squeeze {i : Item} (regular : i.Regular) (inline : i.isInline = true) :
    ∀ parent, i.Fits parent → ∀ j ∈ squeezeAll i.loosen, j.Nests parent := by
  induction regular with
  | @leaf t plain _ _ =>
    intro parent _ j hj
    rw [List.mem_singleton.mp hj]
    cases t with
    | tag t => exact absurd plain id
    | endTag t => exact absurd plain id
    | _ => exact .leaf (fun u h => by cases h) (fun u h => by cases h)
  | raw _ _ _ _ _ _ =>
    rw [isInline, Bool.and_eq_true] at inline
    cases inline.2
  | @element tag content closing _ _ regular _ settled_ all void ends ih =>
    rw [isInline, Bool.and_eq_true, allInline_eq_all, List.all_eq_true] at inline
    intro parent fits
    have inner (parent : Option Text) (fit : ∀ i ∈ content, i.Fits parent) :
        ∀ j ∈ squeezeAll (loosenAll content), j.Nests parent := by
      rw [squeezeAll_eq_map, loosenAll_eq_flatMap, List.forall_mem_map, List.forall_mem_flatMap]
      intro i hi j hj
      refine ih i hi (inline.2 i hi) parent (fit i hi) _ ?_
      rw [squeezeAll_eq_map]
      exact List.mem_map_of_mem hj
    cases ends with
    | @endTag e opens same firm =>
      intro j hj
      rw [List.mem_singleton.mp hj]
      refine .endTag opens fits (inner _ (fits_content all void)) same ?_
      rw [absorbAll_copies (fun i hi => returns_of_regular (regular i hi) (inline.2 i hi))
        (rowed_of_settled regular inline.2 settled_)]
      refine firm.imp (fun none => ?_) fun firm i hi => ?_
      · show Gap.squeeze e.lead = []
        rw [none]
        rfl
      · rw [squeezeAll_eq_map, List.getLast?_map] at hi
        obtain ⟨k, hk, rfl⟩ := Option.map_eq_some_iff.mp hi
        rw [isOpenEnded_squeeze]
        exact firm k hk
    | selfClosed closes none =>
      subst none
      intro j hj
      rw [List.mem_singleton.mp hj]
      exact .selfClosed closes fits
    | implied opens may =>
      have isVoid := isVoid_key (isVoid_of_inline inline.1 may)
      intro j hj
      rcases List.mem_cons.mp hj with rfl | hj
      · exact .void opens isVoid fits
      · exact inner parent (fun i hi => fits_of_isLeaf (void isVoid i hi) parent) j hj

theorem exists_of_mem_copy {run : List Item} {j : Item} (hj : j ∈ copy run) :
    ∃ i ∈ run, j ∈ squeezeAll i.loosen := by
  rw [copy, squeezeAll_eq_map] at hj
  obtain ⟨k, hk, rfl⟩ := List.mem_map.mp hj
  obtain ⟨front, back, whole, -⟩ := exists_trimGaps (loosenAll run)
  have mem : k ∈ loosenAll run := by
    rw [whole]
    exact List.mem_append_right _ (List.mem_append_left _ hk)
  rw [loosenAll_eq_flatMap] at mem
  obtain ⟨i, hi, mem⟩ := List.mem_flatMap.mp mem
  refine ⟨i, hi, ?_⟩
  rw [squeezeAll_eq_map]
  exact List.mem_map_of_mem mem

/-- The copy of inline items is nested as it is written. -/
theorem nests_copy {run : List Item} (regular : ∀ i ∈ run, i.Regular)
    (inline : allInline run = true) {parent : Option Text} (fits : ∀ i ∈ run, i.Fits parent) :
    ∀ j ∈ copy run, j.Nests parent := by
  rw [allInline_eq_all, List.all_eq_true] at inline
  intro j hj
  obtain ⟨i, hi, mem⟩ := exists_of_mem_copy hj
  exact nests_squeeze (regular i hi) (inline i hi) parent (fits i hi) j mem

end Item
end MarkupGrader.Markup
