import MarkupGrader.Proofs.Markup.CopyNests
import MarkupGrader.Proofs.SideBySide

/-! Sources that differ in the spelling of their tags. The names may be in other cases, the values
between other quotes and the gaps of other sizes. Elements nest by the keys of their tags, so that the
items of one source are those of the other, spelled anew. The only gap that counts is the one right
behind the bracket of a tag: a name that stands apart from it does not end the elements before. -/

namespace MarkupGrader.Markup

/-- The tags write the same element. -/
structure Tag.Respelled (t u : Tag) : Prop where
  name : t.elementName = u.elementName
  attributes : t.attributes = u.attributes
  selfClosing : t.selfClosing = u.selfClosing

inductive Token.Respelled : Token → Token → Prop
  | tag {t u : Tag} (h : t.Respelled u) : Respelled (.tag t) (.tag u)
  | endTag {t u : EndTag} (h : t.key = u.key) : Respelled (.endTag t) (.endTag u)
  | same (t : Token) : Respelled t t

/-- The name of a tag stands right behind the bracket. -/
def Token.isTight : Token → Bool
  | tag t => t.lead.isEmpty
  | endTag t => t.lead.isEmpty
  | _ => true

def tokensIn (source : Text) : List Token := (tokens? (markupOf source).2).getD []

/-- The sources have the same tokens, but for the spelling of tags. -/
def Respelled (source other : Text) : Prop :=
  List.Forall₂ Token.Respelled (tokensIn source) (tokensIn other)

inductive Closing.Respelled : Closing → Closing → Prop
  | endTag {t u : EndTag} (h : t.key = u.key) : Respelled (.endTag t) (.endTag u)
  | implied : Respelled .implied .implied
  | selfClosed : Respelled .selfClosed .selfClosed

/-- The items nest alike, and their tags are those of each other, spelled anew. -/
inductive Item.Respelled : Item → Item → Prop
  | leaf {t u : Token} (h : t.Respelled u) : Respelled (leaf t) (leaf u)
  | element {tag tag' : Tag} {content content' : List Item} {closing closing' : Closing}
      (tags : tag.Respelled tag') (size : content.length = content'.length)
      (each : ∀ pair ∈ content.zip content', Respelled pair.1 pair.2)
      (closings : closing.Respelled closing') :
      Respelled (element tag content closing) (element tag' content' closing')

theorem Tag.Respelled.refl (t : Tag) : t.Respelled t := ⟨rfl, rfl, rfl⟩

theorem Tag.Respelled.key {t u : Tag} (h : t.Respelled u) : t.key = u.key := by
  rw [← t.upper_elementName, h.name, u.upper_elementName]

instance (t u : Tag) : Decidable (t.Respelled u) :=
  decidable_of_iff
    (t.elementName = u.elementName ∧ t.attributes = u.attributes ∧ t.selfClosing = u.selfClosing)
    ⟨fun ⟨name, attributes, selfClosing⟩ => ⟨name, attributes, selfClosing⟩,
      fun h => ⟨h.name, h.attributes, h.selfClosing⟩⟩

def Token.respells : Token → Token → Bool
  | tag t, tag u => decide (t.Respelled u)
  | endTag t, endTag u => t.key == u.key
  | t, u => t == u

theorem Token.respells_iff {t u : Token} : t.respells u = true ↔ t.Respelled u := by
  constructor
  · intro h
    unfold respells at h
    split at h
    · exact .tag (of_decide_eq_true h)
    · exact .endTag (beq_iff_eq.mp h)
    · rw [beq_iff_eq.mp h]
      exact .same _
  · intro h
    cases h with
    | tag tags => exact decide_eq_true tags
    | endTag same => exact beq_iff_eq.mpr same
    | same t =>
      cases t with
      | tag t => exact decide_eq_true (.refl t)
      | _ => exact beq_iff_eq.mpr rfl

instance (t u : Token) : Decidable (t.Respelled u) := decidable_of_iff _ Token.respells_iff

instance (source other : Text) : Decidable (Respelled source other) :=
  decidable_of_iff
    ((tokensIn source).length = (tokensIn other).length ∧
      ∀ pair ∈ (tokensIn source).zip (tokensIn other), pair.1.Respelled pair.2)
    ⟨fun h => forall₂_of_zip h.1 h.2,
      fun h => ⟨h.length_eq, fun _ mem => List.forall₂_zip h mem⟩⟩

theorem Item.Respelled.element_of_forall₂ {tag tag' : Tag} {content content' : List Item}
    {closing closing' : Closing} (tags : tag.Respelled tag')
    (contents : List.Forall₂ Item.Respelled content content')
    (closings : closing.Respelled closing') :
    (Item.element tag content closing).Respelled (.element tag' content' closing') :=
  .element tags contents.length_eq (fun _ mem => List.forall₂_zip contents mem) closings

theorem Item.Respelled.plain {i j : Item} (h : i.Respelled j) (plain : i.Plain) : j.Plain := by
  induction h with
  | leaf tokens =>
    cases plain with
    | leaf own =>
      cases tokens with
      | tag => exact absurd own id
      | endTag => exact absurd own id
      | same t => exact .leaf own
  | element _ size _ _ ih =>
    cases plain with
    | element inner =>
      have carry : List.Forall₂ (fun i j : Item => i.Plain → j.Plain) _ _ := forall₂_of_zip size ih
      refine .element fun j hj => ?_
      obtain ⟨i, hi, carries⟩ := exists_left_of_mem carry hj
      exact carries (inner i hi)

theorem Item.Respelled.isSpace_eq {i j : Item} (h : i.Respelled j) : i.isSpace = j.isSpace := by
  cases h with
  | leaf tokens => cases tokens <;> rfl
  | element => rfl

theorem forall₂_spaces {items others : List Item} (h : List.Forall₂ Item.Respelled items others) :
    List.Forall₂ Item.Respelled (items.takeWhile Item.isSpace) (others.takeWhile Item.isSpace) ∧
      List.Forall₂ Item.Respelled (items.dropWhile Item.isSpace)
        (others.dropWhile Item.isSpace) := by
  induction h with
  | nil => exact ⟨.nil, .nil⟩
  | @cons i j items others first rest ih =>
    simp only [List.takeWhile_cons, List.dropWhile_cons, ← first.isSpace_eq]
    split
    · exact ⟨.cons first ih.1, ih.2⟩
    · exact ⟨.nil, .cons first rest⟩

structure Frame.Respelled (f g : Frame) : Prop where
  tag : f.tag.Respelled g.tag
  before : List.Forall₂ Item.Respelled f.before g.before

/-- The open elements are the same, and so is what was read of their content. -/
structure Nest.Respelled (n m : Nest) : Prop where
  frames : List.Forall₂ Frame.Respelled n.frames m.frames
  content : List.Forall₂ Item.Respelled n.content m.content

namespace Nest

variable {n m : Nest} {f g : Frame} {frames frames' : List Frame} {content content' : List Item}

theorem keys_eq (h : List.Forall₂ Frame.Respelled frames frames') : keys frames = keys frames' := by
  induction h with
  | nil => rfl
  | @cons f g outer outer' first _ ih =>
    have rest : outer.map (·.tag.key) = outer'.map (·.tag.key) := ih
    rw [keys, keys, List.map_cons, List.map_cons, first.tag.key, rest]

theorem forall₂_close (frame : f.Respelled g) (contents : List.Forall₂ Item.Respelled content content')
    {closing closing' : Closing} (closings : closing.Respelled closing') :
    List.Forall₂ Item.Respelled (.element f.tag content.reverse closing :: f.before)
      (.element g.tag content'.reverse closing' :: g.before) :=
  .cons (.element_of_forall₂ frame.tag (List.rel_reverse contents) closings) frame.before

theorem Respelled.add (h : n.Respelled m) {i j : Item} (items : i.Respelled j) :
    (n.add i).Respelled (m.add j) :=
  ⟨h.frames, .cons items h.content⟩

theorem Respelled.endImplied (ends : List Text → Bool)
    (open_ : List.Forall₂ Frame.Respelled frames frames')
    (contents : List.Forall₂ Item.Respelled content content') :
    (Nest.endImplied ends frames content).Respelled (Nest.endImplied ends frames' content') := by
  induction open_ generalizing content content' with
  | nil => exact ⟨.nil, contents⟩
  | @cons f g outer outer' first others ih =>
    have names := keys_eq (.cons first others)
    rw [Nest.endImplied, Nest.endImplied, names]
    split
    · exact ih (forall₂_close first contents .implied)
    · exact ⟨.cons first others, contents⟩

theorem forall₂_endAll (open_ : List.Forall₂ Frame.Respelled frames frames')
    (contents : List.Forall₂ Item.Respelled content content') :
    List.Forall₂ Item.Respelled (Nest.endAll frames content) (Nest.endAll frames' content') := by
  induction open_ generalizing content content' with
  | nil => exact contents
  | @cons f g outer outer' first others ih =>
    rw [Nest.endAll, Nest.endAll, keys_eq (.cons first others)]
    split
    · exact ih (forall₂_close first contents .implied)
    · obtain ⟨spaces, rest⟩ := forall₂_spaces contents
      exact ih (List.rel_append spaces (forall₂_close first rest .implied))

theorem bareKey_eq {lead lead' : Gap} {key key' : Text} (tight : lead.isEmpty = lead'.isEmpty)
    (same : key = key') : bareKey lead key = bareKey lead' key' := by
  rw [bareKey, bareKey, tight, same]

theorem Respelled.addTag (h : n.Respelled m) {t u : Tag} (tags : t.Respelled u)
    (tight : t.lead.isEmpty = u.lead.isEmpty) : (n.addTag t).Respelled (m.addTag u) := by
  have ended := Respelled.endImplied (TagName.endsAtTag (bareKey t.lead t.key)) h.frames h.content
  unfold Nest.addTag
  simp only
  rw [← bareKey_eq tight tags.key, ← tags.selfClosing]
  split
  · exact ended.add (.element_of_forall₂ tags .nil .selfClosed)
  · exact ⟨.cons ⟨tags, ended.content⟩ ended.frames, .nil⟩

theorem Respelled.addEndTag? (h : n.Respelled m) {t u : EndTag} (same : t.key = u.key)
    (tight : t.lead.isEmpty = u.lead.isEmpty) :
    Option.Rel Respelled (n.addEndTag? t) (m.addEndTag? u) := by
  obtain ⟨frames, content⟩ := n
  obtain ⟨frames', content'⟩ := m
  obtain ⟨open_, contents⟩ := h
  change List.Forall₂ Frame.Respelled frames frames' at open_
  change List.Forall₂ Item.Respelled content content' at contents
  cases open_ with
  | nil => exact .none
  | @cons f g outer outer' first others =>
    have ended := Respelled.endImplied (TagName.endsAtEndTag (bareKey t.lead t.key))
      (.cons first others) contents
    unfold Nest.addEndTag?
    simp only
    rw [← bareKey_eq tight same, ← first.tag.key, ← same]
    split
    · exact .some ⟨others, forall₂_close first contents (.endTag same)⟩
    · split
      · exact .none
      -- Other elements may end before the one that the tag is for, and they are the same in both.
      · generalize Nest.endImplied (TagName.endsAtEndTag (bareKey t.lead t.key)) (f :: outer)
          content = a at ended ⊢
        generalize Nest.endImplied (TagName.endsAtEndTag (bareKey t.lead t.key)) (g :: outer')
          content' = b at ended ⊢
        obtain ⟨left, inner⟩ := a
        obtain ⟨right, inner'⟩ := b
        obtain ⟨open_, contents⟩ := ended
        change List.Forall₂ Frame.Respelled left right at open_
        cases open_ with
        | nil => exact .none
        | cons first others =>
          simp only
          rw [← first.tag.key]
          split
          · exact .some ⟨others, forall₂_close first contents (.endTag same)⟩
          · exact .some ⟨.cons first others, .cons (.leaf (.endTag same)) contents⟩

theorem Respelled.step? (h : n.Respelled m) {t u : Token} (tokens : t.Respelled u)
    (tight : t.isTight = u.isTight) : Option.Rel Respelled (n.step? t) (m.step? u) := by
  cases tokens with
  | tag tags => exact .some (h.addTag tags tight)
  | endTag same => exact h.addEndTag? same tight
  | same t =>
    cases t with
    | tag t => exact .some (h.addTag (.refl t) rfl)
    | endTag t => exact h.addEndTag? rfl rfl
    | filler f => exact .some (h.add (.leaf (.same _)))
    | doctype d => exact .some (h.add (.leaf (.same _)))
    | text t => exact .some (h.add (.leaf (.same _)))
    | entity t => exact .some (h.add (.leaf (.same _)))
    | raw t => exact .some (h.add (.leaf (.same _)))

theorem Respelled.fold_step? (h : n.Respelled m) {ts us : List Token}
    (tokens : List.Forall₂ Token.Respelled ts us)
    (tight : ts.map Token.isTight = us.map Token.isTight) :
    Option.Rel Respelled (ts.foldlM Nest.step? n) (us.foldlM Nest.step? m) := by
  induction tokens generalizing n m with
  | nil => exact .some h
  | @cons t u ts us first _ ih =>
    rw [List.map_cons, List.map_cons, List.cons.injEq] at tight
    rw [List.foldlM_cons, List.foldlM_cons]
    have stepped := h.step? first tight.1
    generalize n.step? t = a at stepped ⊢
    generalize m.step? u = b at stepped ⊢
    cases stepped with
    | none => exact .none
    | some next => exact ih next tight.2

end Nest

theorem rel_unclosedItems? {ts us : List Token} (tokens : List.Forall₂ Token.Respelled ts us)
    (tight : ts.map Token.isTight = us.map Token.isTight) :
    Option.Rel (List.Forall₂ Item.Respelled) (unclosedItems? ts) (unclosedItems? us) := by
  have empty : Nest.empty.Respelled Nest.empty := ⟨.nil, .nil⟩
  have read := empty.fold_step? tokens tight
  unfold unclosedItems?
  generalize ts.foldlM Nest.step? Nest.empty = a at read ⊢
  generalize us.foldlM Nest.step? Nest.empty = b at read ⊢
  cases read with
  | none => exact .none
  | some related =>
    exact .some (List.rel_reverse (Nest.forall₂_endAll related.frames related.content))

/-- Of two sources that differ in the spelling of tags, one has the items of the other,
spelled anew, if no tag gains or loses the gap right behind its bracket. -/
theorem Respelled.items {source other : Text} (h : Respelled source other)
    (tight : (tokensIn source).map Token.isTight = (tokensIn other).map Token.isTight)
    (read : (tokens? (markupOf source).2).bind unclosedItems? = some (itemsOf source))
    (read' : (tokens? (markupOf other).2).bind unclosedItems? = some (itemsOf other)) :
    List.Forall₂ Item.Respelled (itemsOf source) (itemsOf other) := by
  obtain ⟨ts, lexed, nested⟩ := Option.bind_eq_some_iff.mp read
  obtain ⟨us, lexed', nested'⟩ := Option.bind_eq_some_iff.mp read'
  rw [Respelled, tokensIn, tokensIn, lexed, lexed'] at h
  rw [tokensIn, tokensIn, lexed, lexed'] at tight
  have both := rel_unclosedItems? h tight
  rw [Option.getD_some, Option.getD_some, nested, nested'] at both
  cases both with
  | some related => exact related

end MarkupGrader.Markup
