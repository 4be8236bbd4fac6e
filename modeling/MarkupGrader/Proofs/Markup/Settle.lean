import MarkupGrader.Proofs.Markup.AllRead

/-! Nesting tokens again. Items whose void elements are empty can be written down one after the other,
and are then nested as they were, but for what stands alone behind a void element: it settles in the
element. -/

namespace MarkupGrader.Markup

namespace Item

/-- Adds an item behind others, which are given last first. What stands alone is taken in by an element
that has ended without an end tag. -/
def push : List Item → Item → List Item
  | .element tag content .implied :: before, .leaf t =>
    .element tag (content ++ [.leaf t]) .implied :: before
  | before, i => i :: before

def absorbAll (items : List Item) : List Item := (items.foldl push []).reverse

mutual

def settle : Item → Item
  | leaf t => leaf t
  | element tag content closing => element tag (absorbAll (settled content)) closing

def settled : List Item → List Item
  | [] => []
  | i :: rest => i.settle :: settled rest

end

theorem push_element (before : List Item) (tag : Tag) (content : List Item) (closing : Closing) :
    push before (element tag content closing) = element tag content closing :: before := by
  unfold push
  split
  · next eq => cases eq
  · rfl

/-- Behind the items `before`, last first, whatever is taken in by an element is what it may take
in. -/
def Absorbs (takes : Tag → List Item → Token → Prop) : List Item → List Item → Prop
  | _, [] => True
  | before, i :: rest =>
    (∀ tag content outer t, before = element tag content .implied :: outer → i = leaf t →
      takes tag content t) ∧ Absorbs takes (push before i) rest

theorem absorbAll_eq_of_absorbs {α : Type} {f : List Item → α}
    {takes : Tag → List Item → Token → Prop}
    (absorb : ∀ front tag content t back, takes tag content t →
      f (front ++ element tag (content ++ [leaf t]) .implied :: back) =
        f (front ++ element tag content .implied :: leaf t :: back)) {items : List Item}
    (absorbs : Absorbs takes [] items) : f (absorbAll items) = f items := by
  have all : ∀ before : List Item, Absorbs takes before items →
      f (items.foldl push before).reverse = f (before.reverse ++ items) := by
    clear absorbs
    induction items with
    | nil =>
      intro before _
      rw [List.append_nil]
      rfl
    | cons i items ih =>
      rintro before ⟨here, behind⟩
      rw [List.foldl_cons, ih _ behind]
      unfold push
      split
      · next tag content outer t =>
        rw [List.reverse_cons, List.reverse_cons, List.append_assoc, List.append_assoc,
          List.singleton_append, List.singleton_append, absorb _ _ _ _ _ (here _ _ _ _ rfl rfl)]
      · rw [List.reverse_cons, List.append_assoc, List.singleton_append]
  exact all [] absorbs

theorem absorbAll_eq {α : Type} {f : List Item → α}
    (absorb : ∀ front tag content t back,
      f (front ++ element tag (content ++ [leaf t]) .implied :: back) =
        f (front ++ element tag content .implied :: leaf t :: back)) (items : List Item) :
    f (absorbAll items) = f items := by
  have any : ∀ before : List Item, Absorbs (fun _ _ _ => True) before items := by
    induction items with
    | nil => exact fun _ => trivial
    | cons i items ih => exact fun before => ⟨fun _ _ _ _ _ _ => trivial, ih _⟩
  exact absorbAll_eq_of_absorbs (fun front tag content t back _ => absorb front tag content t back)
    (any [])

end Item

namespace Nest

open Item (push absorbAll settled Firm)

/-- The state in which items have been read among the open elements. -/
def opened (frames : List Frame) : List Item → Nest
  | .element tag content .implied :: before => ⟨⟨tag, before⟩ :: frames, content.reverse⟩
  | before => ⟨frames, before⟩

def EndsVoid (before : List Item) : Prop :=
  ∀ tag content, before.head? = some (.element tag content .implied) →
    TagName.isVoid tag.key = true

theorem opened_eq (frames : List Frame) (before : List Item) :
    (opened frames before = ⟨frames, before⟩ ∧ ∀ i ∈ before.head?, i.isOpenEnded = false) ∨
      ∃ tag content outer, before = .element tag content .implied :: outer ∧
        opened frames before = ⟨⟨tag, outer⟩ :: frames, content.reverse⟩ := by
  unfold opened
  split
  · next tag content outer => exact .inr ⟨tag, content, outer, rfl, rfl⟩
  · next other =>
    refine .inl ⟨rfl, fun i hi => ?_⟩
    obtain ⟨outer, rfl⟩ := List.head?_eq_some_iff.mp hi
    cases i with
    | leaf t => rfl
    | element tag content closing =>
      cases closing with
      | implied => exact absurd rfl (other tag content outer)
      | endTag e => rfl
      | selfClosed => rfl

theorem opened_of_closed {frames : List Frame} {before : List Item} {i : Item}
    (closed : i.isOpenEnded = false) : opened frames (i :: before) = ⟨frames, i :: before⟩ := by
  rcases opened_eq frames (i :: before) with ⟨eq, -⟩ | ⟨tag, content, outer, eq, -⟩
  · exact eq
  · cases eq
    cases closed

theorem add_opened (frames : List Frame) (before : List Item) (t : Token) :
    (opened frames before).add (.leaf t) = opened frames (push before (.leaf t)) := by
  rcases opened_eq frames before with ⟨eq, closed⟩ | ⟨tag, content, outer, rfl, eq⟩
  · have alone : push before (.leaf t) = .leaf t :: before := by
      unfold push
      split
      · next tag content outer u _ => cases closed _ rfl
      · rfl
    rw [eq, alone]
    rfl
  · rw [eq]
    simp [push, opened, add]

theorem endsVoid_push_leaf {before : List Item} (void : EndsVoid before) (t : Token) :
    EndsVoid (push before (.leaf t)) := by
  intro tag content h
  unfold push at h
  split at h
  · cases h
    exact void _ _ rfl
  · cases h

theorem endsVoid_cons_of_closed {i : Item} (closed : i.isOpenEnded = false) (before : List Item) :
    EndsVoid (i :: before) := by
  intro tag content h
  cases h
  cases closed

theorem endImplied_opened {frames : List Frame} {before : List Item} (void : EndsVoid before)
    {ends : List Text → Bool}
    (onVoid : ∀ key, TagName.isVoid key = true → ends (key :: keys frames) = true)
    (stands : frames = [] ∨ ends (keys frames) = false) :
    endImplied ends (opened frames before).frames (opened frames before).content =
      ⟨frames, before⟩ := by
  have still : ∀ content, endImplied ends frames content = ⟨frames, content⟩ := by
    intro content
    cases frames with
    | nil => rfl
    | cons f outer =>
      rcases stands with none | stands
      · cases none
      · rw [endImplied, if_neg (by rw [stands]; exact Bool.false_ne_true)]
  rcases opened_eq frames before with ⟨eq, -⟩ | ⟨tag, content, outer, rfl, eq⟩
  · rw [eq, still]
  · have ended : ends (keys (⟨tag, outer⟩ :: frames)) = true := onVoid _ (void tag content rfl)
    rw [eq, endImplied, if_pos ended, still, List.reverse_reverse]

/-- A tag of the name may stand in the element of the other name, if that is not none. -/
def Fits (parent : Option Text) (key : Text) : Prop :=
  ∀ k ∈ parent, TagName.isVoid k = false ∧ TagName.canContain k key = true

theorem addTag_opened {frames : List Frame} {before : List Item} (void : EndsVoid before) {t : Tag}
    (fits : Fits (frames.head?.map (·.tag.key)) t.key) :
    (opened frames before).addTag t =
      if t.selfClosing then ⟨frames, .element t [] .selfClosed :: before⟩
      else ⟨⟨t, before⟩ :: frames, []⟩ := by
  have stands : frames = [] ∨
      TagName.endsAtTag (bareKey t.lead t.key) (keys frames) = false := by
    cases frames with
    | nil => exact .inl rfl
    | cons f outer =>
      obtain ⟨solid, contains⟩ := fits f.tag.key rfl
      refine .inr ?_
      rw [keys, List.map_cons, TagName.endsAtTag, solid, bareKey]
      split
      · rw [Option.any_some, contains]
        rfl
      · rfl
  have onVoid : ∀ key, TagName.isVoid key = true →
      TagName.endsAtTag (bareKey t.lead t.key) (key :: keys frames) = true := by
    intro key isVoid
    rw [TagName.endsAtTag, isVoid, Bool.true_or]
  unfold addTag
  rw [endImplied_opened void onVoid stands]
  rfl

theorem isRawKey_of_isVoid {key : Text} (isVoid : TagName.isVoid key = true) :
    isRawKey key = false := by
  rw [← Bool.not_eq_true]
  intro raw
  rw [isRawKey, Bool.or_eq_true, beq_iff_eq, beq_iff_eq] at raw
  rcases raw with rfl | rfl <;> cases isVoid

theorem sameKind_self (key : Text) : TagName.sameKind key key = true := by
  unfold TagName.sameKind
  split
  · exact beq_self_eq_true key
  · rfl

theorem addEndTag?_opened {t : Tag} {e : EndTag} {outer before : List Item} {frames : List Frame}
    (void : EndsVoid before) (same : t.key = e.key)
    (solid : (∃ i ∈ before.head?, i.isOpenEnded = true) →
      TagName.isVoid t.key = false ∧ e.lead = []) :
    (opened (⟨t, outer⟩ :: frames) before).addEndTag? e =
      some ⟨frames, .element t before.reverse (.endTag e) :: outer⟩ := by
  rcases opened_eq (⟨t, outer⟩ :: frames) before with ⟨eq, -⟩ | ⟨v, content, inner, rfl, eq⟩
  · rw [eq]
    exact if_pos same
  · have isVoid := void v content rfl
    obtain ⟨notVoid, bare⟩ := solid ⟨_, rfl, rfl⟩
    have other : v.key ≠ e.key := by
      intro eq
      rw [eq, ← same, notVoid] at isVoid
      cases isVoid
    have ended := @endImplied_opened (⟨t, outer⟩ :: frames) _ void
      (TagName.endsAtEndTag (bareKey e.lead e.key)) ?_ ?_
    · rw [eq] at ended ⊢
      have notRaw := isRawKey_of_isVoid isVoid
      rw [addEndTag?]
      simp only
      rw [if_neg other, if_neg (by rw [notRaw]; exact Bool.false_ne_true), ended]
      simp only
      rw [if_pos same]
    · intro key isVoid
      have other : (e.key != key) = true := by
        rw [bne_iff_ne]
        intro eq
        rw [← eq, ← same, notVoid] at isVoid
        cases isVoid
      simp [bare, bareKey, TagName.endsAtEndTag, keys, other, same, sameKind_self]
    · refine .inr ?_
      simp [bare, bareKey, TagName.endsAtEndTag, keys, same]

end Nest

open Nest (Fits EndsVoid opened)

namespace Item

/-- The item, in an element of the name if that is not none, is nested as it is when its tokens are
read. Void elements hold nothing. -/
inductive Nests : Option Text → Item → Prop
  | leaf {parent : Option Text} {t : Token} (tag : ∀ u, t ≠ .tag u) (endTag : ∀ u, t ≠ .endTag u) :
      Nests parent (leaf t)
  | void {parent : Option Text} {tag : Tag} (opens : tag.selfClosing = false)
      (void : TagName.isVoid tag.key = true) (fits : Fits parent tag.key) :
      Nests parent (element tag [] .implied)
  | selfClosed {parent : Option Text} {tag : Tag} (closes : tag.selfClosing = true)
      (fits : Fits parent tag.key) : Nests parent (element tag [] .selfClosed)
  | endTag {parent : Option Text} {tag : Tag} {content : List Item} {e : EndTag}
      (opens : tag.selfClosing = false) (fits : Fits parent tag.key)
      (nests : ∀ i ∈ content, Nests (some tag.key) i) (same : tag.key = e.key)
      (firm : e.lead = [] ∨ Firm (absorbAll (settled content))) :
      Nests parent (element tag content (.endTag e))

/-- The state after the item's tokens is that after the item, nested anew. -/
def Steps (parent : Option Text) (i : Item) : Prop :=
  ∀ frames before, frames.head?.map (·.tag.key) = parent → EndsVoid before →
    i.tokens.foldlM Nest.step? (opened frames before) =
        some (opened frames (push before i.settle)) ∧
      EndsVoid (push before i.settle)

theorem steps_all {parent : Option Text} {items : List Item}
    (steps : ∀ i ∈ items, Steps parent i) {frames : List Frame} {before : List Item}
    (among : frames.head?.map (·.tag.key) = parent) (void : EndsVoid before) :
    (tokensOf items).foldlM Nest.step? (opened frames before) =
        some (opened frames ((settled items).foldl push before)) ∧
      EndsVoid ((settled items).foldl push before) := by
  induction items generalizing before with
  | nil => exact ⟨rfl, void⟩
  | cons i items ih =>
    obtain ⟨first, others⟩ := List.forall_mem_cons.mp steps
    obtain ⟨here, still⟩ := first frames before among void
    obtain ⟨there, last⟩ := ih others still
    refine ⟨?_, last⟩
    rw [tokensOf, List.foldlM_append, here]
    exact there

theorem eq_of_mem_head?_foldl {items : List Item} :
    (items.foldl push []).head? = (absorbAll items).getLast? := by
  rw [absorbAll, List.getLast?_reverse]

theorem isVoid_of_open {key : Text} {content : List Item}
    (nests : ∀ i ∈ content, Nests (some key) i)
    (open_ : ∃ i ∈ ((settled content).foldl push []).head?, i.isOpenEnded = true) :
    TagName.isVoid key = false := by
  obtain ⟨i, hi, ended⟩ := open_
  rw [← Bool.not_eq_true]
  intro isVoid
  -- Among leaves alone nothing is open.
  have leaves : ∀ i ∈ content, i.isLeaf = true := by
    intro i hi
    cases nests i hi with
    | leaf _ _ => rfl
    | void _ _ fits =>
      rw [(fits key rfl).1] at isVoid
      cases isVoid
    | selfClosed _ fits =>
      rw [(fits key rfl).1] at isVoid
      cases isVoid
    | endTag _ fits _ _ _ =>
      rw [(fits key rfl).1] at isVoid
      cases isVoid
  have still : ∀ (items before : List Item), (∀ i ∈ items, i.isLeaf = true) →
      (∀ i ∈ before, i.isLeaf = true) →
      ∀ i ∈ (settled items).foldl push before, i.isLeaf = true := by
    intro items
    induction items with
    | nil => exact fun before _ all => all
    | cons j items ih =>
      intro before leaves all
      obtain ⟨first, others⟩ := List.forall_mem_cons.mp leaves
      rw [settled, List.foldl_cons]
      refine ih _ others ?_
      cases j with
      | element tag content closing => cases first
      | leaf t =>
        rw [settle]
        unfold push
        split
        · cases all _ List.mem_cons_self
        · exact List.forall_mem_cons.mpr ⟨rfl, all⟩
  have leaf := still content [] leaves (by simp) i (List.mem_of_mem_head? hi)
  cases i with
  | leaf t => cases ended
  | element tag content closing => cases leaf

theorem steps_of_nests {parent : Option Text} {i : Item} (nests : Nests parent i) :
    Steps parent i := by
  induction nests with
  | @leaf parent t tag endTag =>
    intro frames before _ void
    refine ⟨?_, Nest.endsVoid_push_leaf void t⟩
    rw [settle, tokens, List.foldlM_cons, Nest.step?_leaf tag endTag, Nest.add_opened]
    rfl
  | @void parent tag opens isVoid fits =>
    intro frames before among void
    rw [← among] at fits
    have added := Nest.addTag_opened void fits
    rw [opens, if_neg Bool.false_ne_true] at added
    have same : (element tag [] .implied).settle = element tag [] .implied := rfl
    rw [same, push_element]
    refine ⟨?_, ?_⟩
    · rw [tokens, tokensOf, Closing.tokens, List.append_nil, List.foldlM_cons, Nest.step?, added]
      rfl
    · intro u content h
      cases h
      exact isVoid
  | @selfClosed parent tag closes fits =>
    intro frames before among void
    rw [← among] at fits
    have added := Nest.addTag_opened void fits
    rw [closes, if_pos rfl] at added
    have same : (element tag [] .selfClosed).settle = element tag [] .selfClosed := rfl
    rw [same, push_element]
    refine ⟨?_, Nest.endsVoid_cons_of_closed rfl before⟩
    rw [tokens, tokensOf, Closing.tokens, List.append_nil, List.foldlM_cons, Nest.step?, added,
      Nest.opened_of_closed rfl]
    rfl
  | @endTag parent tag content e opens fits nests same firm ih =>
    intro frames before among void
    rw [← among] at fits
    have added := Nest.addTag_opened void fits
    rw [opens, if_neg Bool.false_ne_true] at added
    have start : (⟨⟨tag, before⟩ :: frames, []⟩ : Nest) = opened (⟨tag, before⟩ :: frames) [] := rfl
    have none : EndsVoid [] := fun _ _ h => by cases h
    obtain ⟨inner, still⟩ := @steps_all _ content ih (⟨tag, before⟩ :: frames) [] rfl none
    have closed := @Nest.addEndTag?_opened tag e before _ frames still same ?_
    · rw [settle, push_element]
      refine ⟨?_, Nest.endsVoid_cons_of_closed rfl before⟩
      rw [tokens, Closing.tokens, List.foldlM_cons, Nest.step?, added, start, Option.bind_eq_bind,
        Option.bind_some, List.foldlM_append, inner, Option.bind_eq_bind, Option.bind_some,
        List.foldlM_cons, Nest.step?, closed, Nest.opened_of_closed rfl]
      rfl
    · intro open_
      refine ⟨isVoid_of_open nests open_, firm.resolve_right fun firm => ?_⟩
      obtain ⟨i, hi, ended⟩ := open_
      rw [eq_of_mem_head?_foldl] at hi
      rw [firm i hi] at ended
      cases ended

end Item

/-- The tokens of items are nested into the same items, but for what settles in void elements. -/
theorem items?_tokensOf {items : List Item} (nests : ∀ i ∈ items, i.Nests none) :
    items? (Item.tokensOf items) = some (Item.absorbAll (Item.settled items)) := by
  have empty : EndsVoid [] := fun _ _ h => by cases h
  have start : Nest.empty = opened [] [] := rfl
  obtain ⟨read, void⟩ := @Item.steps_all none items (fun i hi => Item.steps_of_nests (nests i hi))
    [] [] rfl empty
  have onVoid : ∀ key, TagName.isVoid key = true →
      TagName.endsAtEnd (key :: Nest.keys []) = true := by
    intro key isVoid
    rw [TagName.endsAtEnd, isVoid]
    rfl
  rw [items?, start, read, Option.bind_some, Nest.endImplied_opened void onVoid (.inl rfl)]
  rfl

end MarkupGrader.Markup
