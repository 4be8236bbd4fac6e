import MarkupGrader.Proofs.Markup.Nest
import MarkupGrader.Proofs.Markup.TokenReads

/-! Which trees nesting can give. An end tag ends the element of its name, a void element holds nothing
but what stands alone, and where one ends without an end tag, another element must follow or its parent
end. -/

namespace MarkupGrader.Markup

def Closing.tokens : Closing → List Token
  | endTag t => [.endTag t]
  | implied => []
  | selfClosed => []

namespace Item

mutual

def tokens : Item → List Token
  | leaf t => [t]
  | element tag content closing => .tag tag :: (tokensOf content ++ closing.tokens)

def tokensOf : List Item → List Token
  | [] => []
  | i :: rest => i.tokens ++ tokensOf rest

end

theorem tokensOf_eq_flatMap (items : List Item) : tokensOf items = items.flatMap tokens := by
  induction items with
  | nil => rfl
  | cons i items ih => rw [tokensOf, ih, List.flatMap_cons]

theorem tokensOf_append (items more : List Item) :
    tokensOf (items ++ more) = tokensOf items ++ tokensOf more := by
  simp only [tokensOf_eq_flatMap, List.flatMap_append]

def isLeaf : Item → Bool
  | leaf _ => true
  | element _ _ _ => false

/-- The element has ended without an end tag, and may have taken in what stands behind it. -/
def isOpenEnded : Item → Bool
  | element _ _ .implied => true
  | _ => false

/-- A void element without an end tag takes in what stands alone behind it. -/
def isOpenVoid : Item → Bool
  | element tag _ .implied => TagName.isVoid tag.key
  | _ => false

theorem isOpenEnded_of_isOpenVoid {i : Item} (open_ : i.isOpenVoid = true) :
    i.isOpenEnded = true := by
  unfold isOpenVoid at open_
  split at open_
  · rfl
  · cases open_

/-- What ends a void element behind which it stands: another element, or a stray end tag. -/
def endsOther : Item → Bool
  | leaf (.endTag _) => true
  | leaf _ => false
  | element _ _ _ => true

/-- Only an element or a stray end tag stands right behind a void element without an end tag. -/
abbrev Settled (items : List Item) : Prop :=
  items.IsChain fun i j => i.isOpenVoid = true → j.endsOther = true

abbrev Firm (items : List Item) : Prop := ∀ i ∈ items.getLast?, i.isOpenEnded = false

inductive Sound : Item → Prop
  | leaf {t : Token} (raw : ∀ u, t ≠ .raw u) : Sound (leaf t)
  | selfClosed {tag : Tag} (closes : tag.selfClosing = true) (plain : isRawKey tag.key = false) :
      Sound (element tag [] .selfClosed)
  | raw {tag : Tag} {e : EndTag} (text : Text) (opens : tag.selfClosing = false)
      (key : isRawKey tag.key = true) (same : tag.key = e.key) :
      Sound (element tag [leaf (.raw text)] (.endTag e))
  | implied {tag : Tag} {content : List Item} (opens : tag.selfClosing = false)
      (plain : isRawKey tag.key = false) (sound : ∀ i ∈ content, Sound i)
      (settled : Settled content)
      (void : TagName.isVoid tag.key = true → ∀ i ∈ content, i.isLeaf = true) :
      Sound (element tag content .implied)
  | endTag {tag : Tag} {content : List Item} {e : EndTag} (opens : tag.selfClosing = false)
      (plain : isRawKey tag.key = false) (sound : ∀ i ∈ content, Sound i)
      (settled : Settled content)
      (void : TagName.isVoid tag.key = true → ∀ i ∈ content, i.isLeaf = true)
      (same : tag.key = e.key) (firm : e.lead = [] ∨ Firm content) :
      Sound (element tag content (.endTag e))

end Item

/-- Raw text stands between the start tag of its element and an end tag, and nowhere else. -/
inductive Chained : List Token → Prop
  | nil : Chained []
  | leaf {t : Token} {ts : List Token} (tag : ∀ u, t ≠ .tag u) (endTag : ∀ u, t ≠ .endTag u)
      (raw : ∀ u, t ≠ .raw u) (h : Chained ts) : Chained (t :: ts)
  | tag {t : Tag} {ts : List Token} (plain : isRawKey t.key = false) (h : Chained ts) :
      Chained (.tag t :: ts)
  | endTag (t : EndTag) {ts : List Token} (h : Chained ts) : Chained (.endTag t :: ts)
  | raw {t : Tag} {ts : List Token} (text : Text) (e : EndTag) (key : isRawKey t.key = true)
      (opens : t.selfClosing = false) (h : Chained ts) :
      Chained (.tag t :: .raw text :: .endTag e :: ts)

structure Frame.Sound (f : Frame) : Prop where
  opens : f.tag.selfClosing = false
  plain : isRawKey f.tag.key = false
  before : ∀ i ∈ f.before, i.Sound
  settled : Item.Settled f.before.reverse

namespace Nest

open Item (Settled Firm)

/-- Only the innermost of the open elements may be void, and nothing was opened in it. -/
structure Sound (n : Nest) : Prop where
  content : ∀ i ∈ n.content, i.Sound
  settled : Settled n.content.reverse
  void : ∀ f ∈ n.frames.head?, TagName.isVoid f.tag.key = true → ∀ i ∈ n.content, i.isLeaf = true
  frames : ∀ f ∈ n.frames, f.Sound
  outer : ∀ f ∈ n.frames.tail, TagName.isVoid f.tag.key = false

/-- What was read before the content of the innermost of the open elements. -/
def frameTokens : List Frame → List Token
  | [] => []
  | f :: outer => frameTokens outer ++ (Item.tokensOf f.before.reverse ++ [.tag f.tag])

def tokens (n : Nest) : List Token := frameTokens n.frames ++ Item.tokensOf n.content.reverse

theorem tokens_add (n : Nest) (i : Item) : (n.add i).tokens = n.tokens ++ i.tokens := by
  simp [tokens, add, Item.tokensOf_append, Item.tokensOf]

theorem tokens_close (f : Frame) (outer : List Frame) (content : List Item) (closing : Closing) :
    tokens ⟨outer, .element f.tag content.reverse closing :: f.before⟩ =
      tokens ⟨f :: outer, content⟩ ++ closing.tokens := by
  simp [tokens, frameTokens, Item.tokensOf_append, Item.tokensOf, Item.tokens]

theorem settled_concat {items : List Item} {i : Item} (settled : Settled items)
    (h : Firm items ∨ i.endsOther = true) : Settled (items ++ [i]) := by
  refine List.isChain_append.mpr ⟨settled, List.isChain_singleton i, ?_⟩
  intro last hlast j hj ended
  obtain rfl : i = j := by simpa using hj
  rcases h with firm | other
  · have open_ := Item.isOpenEnded_of_isOpenVoid ended
    rw [firm last hlast] at open_
    cases open_
  · exact other

theorem Sound.close {f : Frame} {outer : List Frame} {content : List Item}
    (sound : Sound ⟨f :: outer, content⟩) {closing : Closing}
    (element : (Item.element f.tag content.reverse closing).Sound) :
    Sound ⟨outer, .element f.tag content.reverse closing :: f.before⟩ := by
  have frame := sound.frames f List.mem_cons_self
  refine ⟨?_, ?_, ?_, fun g hg => sound.frames g (List.mem_cons_of_mem _ hg),
    fun g hg => sound.outer g (List.mem_of_mem_tail hg)⟩
  · rw [List.forall_mem_cons]
    exact ⟨element, frame.before⟩
  · rw [List.reverse_cons]
    exact settled_concat frame.settled (.inr rfl)
  · intro g hg isVoid
    rw [sound.outer g (List.mem_of_mem_head? hg)] at isVoid
    cases isVoid

theorem Sound.close_implied {f : Frame} {outer : List Frame} {content : List Item}
    (sound : Sound ⟨f :: outer, content⟩) :
    Sound ⟨outer, .element f.tag content.reverse .implied :: f.before⟩ := by
  have frame := sound.frames f List.mem_cons_self
  exact sound.close <| .implied frame.opens frame.plain
    (fun i hi => sound.content i (List.mem_reverse.mp hi)) sound.settled
    fun isVoid i hi => sound.void f rfl isVoid i (List.mem_reverse.mp hi)

theorem Sound.close_endTag {f : Frame} {outer : List Frame} {content : List Item} {e : EndTag}
    (sound : Sound ⟨f :: outer, content⟩) (same : f.tag.key = e.key)
    (firm : e.lead = [] ∨ Firm content.reverse) :
    Sound ⟨outer, .element f.tag content.reverse (.endTag e) :: f.before⟩ := by
  have frame := sound.frames f List.mem_cons_self
  exact sound.close <| .endTag frame.opens frame.plain
    (fun i hi => sound.content i (List.mem_reverse.mp hi)) sound.settled
    (fun isVoid i hi => sound.void f rfl isVoid i (List.mem_reverse.mp hi)) same firm

theorem Sound.endImplied (ends : List Text → Bool) {frames : List Frame} {content : List Item}
    (sound : Sound ⟨frames, content⟩) : (Nest.endImplied ends frames content).Sound := by
  induction frames generalizing content with
  | nil => exact sound
  | cons f outer ih =>
    unfold Nest.endImplied
    split
    · exact ih sound.close_implied
    · exact sound

theorem tokens_endImplied (ends : List Text → Bool) (frames : List Frame) (content : List Item) :
    (endImplied ends frames content).tokens = tokens ⟨frames, content⟩ := by
  induction frames generalizing content with
  | nil => rfl
  | cons f outer ih =>
    unfold endImplied
    split
    · rw [ih, tokens_close]
      exact List.append_nil _
    · rfl

theorem endImplied_stops (ends : List Text → Bool) (frames : List Frame) (content : List Item) :
    (endImplied ends frames content).frames = [] ∨
      ends (keys (endImplied ends frames content).frames) = false := by
  induction frames generalizing content with
  | nil => exact .inl rfl
  | cons f outer ih =>
    unfold endImplied
    split
    · exact ih _
    · next stands => exact .inr (by simpa using stands)

theorem endImplied_of_false {ends : List Text → Bool} (never : ∀ ks, ends ks = false)
    (frames : List Frame) (content : List Item) :
    endImplied ends frames content = ⟨frames, content⟩ := by
  cases frames with
  | nil => rfl
  | cons f outer =>
    rw [endImplied, if_neg (by simp [never])]

theorem Sound.close_unclosed {f : Frame} {outer : List Frame} {content : List Item}
    (sound : Sound ⟨f :: outer, content⟩) (solid : TagName.isVoid f.tag.key = false) :
    Sound ⟨outer, content.takeWhile Item.isSpace ++
      .element f.tag (content.dropWhile Item.isSpace).reverse .implied :: f.before⟩ := by
  have frame := sound.frames f List.mem_cons_self
  have inner := (List.dropWhile_suffix (l := content) Item.isSpace).subset
  have whole := sound.settled
  rw [← List.takeWhile_append_dropWhile (p := Item.isSpace) (l := content),
    List.reverse_append] at whole
  have element : (Item.element f.tag (content.dropWhile Item.isSpace).reverse .implied).Sound := by
    refine .implied frame.opens frame.plain
      (fun i hi => sound.content i (inner (List.mem_reverse.mp hi))) ?_ fun isVoid => ?_
    · exact whole.left_of_append
    · rw [solid] at isVoid
      cases isVoid
  refine ⟨?_, ?_, ?_, fun g hg => sound.frames g (List.mem_cons_of_mem _ hg),
    fun g hg => sound.outer g (List.mem_of_mem_tail hg)⟩
  · rw [List.forall_mem_append, List.forall_mem_cons]
    exact ⟨fun i hi => sound.content i ((List.takeWhile_prefix _).subset hi), element, frame.before⟩
  · rw [List.reverse_append, List.reverse_cons]
    refine List.isChain_append.mpr
      ⟨settled_concat frame.settled (.inr rfl), whole.right_of_append, ?_⟩
    intro last hlast j _ open_
    rw [List.getLast?_concat] at hlast
    cases hlast
    rw [Item.isOpenVoid, solid] at open_
    cases open_
  · intro g hg isVoid
    rw [sound.outer g (List.mem_of_mem_head? hg)] at isVoid
    cases isVoid

theorem Sound.endAll {frames : List Frame} {content : List Item} (sound : Sound ⟨frames, content⟩) :
    (∀ i ∈ Nest.endAll frames content, i.Sound) ∧ Settled (Nest.endAll frames content).reverse := by
  induction frames generalizing content with
  | nil => exact ⟨sound.content, sound.settled⟩
  | cons f outer ih =>
    unfold Nest.endAll
    split
    · exact ih sound.close_implied
    · next stands =>
      refine ih (sound.close_unclosed ?_)
      rw [keys, List.map_cons, TagName.endsAtEnd] at stands
      simp only [Bool.or_eq_true, not_or, Bool.not_eq_true] at stands
      exact stands.1.1.1.1

theorem tokens_endAll (frames : List Frame) (content : List Item) :
    Item.tokensOf (endAll frames content).reverse = tokens ⟨frames, content⟩ := by
  induction frames generalizing content with
  | nil => rfl
  | cons f outer ih =>
    unfold endAll
    split
    · rw [ih, tokens_close]
      exact List.append_nil _
    · rw [ih, tokens, tokens, frameTokens, List.reverse_append, List.reverse_cons]
      have split := congrArg List.reverse
        (List.takeWhile_append_dropWhile (p := Item.isSpace) (l := content))
      rw [List.reverse_append] at split
      simp only [← split, Item.tokensOf_append, Item.tokensOf, Item.tokens, Closing.tokens,
        List.append_assoc, List.append_nil, List.cons_append, List.nil_append]

theorem isVoid_of_endsAtTag {name : Option Text} (frames : List Frame) (content : List Item) :
    ∀ f ∈ (endImplied (TagName.endsAtTag name) frames content).frames.head?,
      TagName.isVoid f.tag.key = false := by
  intro f hf
  rcases endImplied_stops (TagName.endsAtTag name) frames content with none | stands
  · rw [none] at hf
    cases hf
  · obtain ⟨outer, eq⟩ := List.head?_eq_some_iff.mp hf
    rw [eq, keys, List.map_cons, TagName.endsAtTag, Bool.or_eq_false_iff] at stands
    exact stands.1

theorem Sound.add_leaf {n : Nest} (sound : n.Sound) {t : Token} (raw : ∀ u, t ≠ .raw u)
    (h : Firm n.content.reverse ∨ (Item.leaf t).endsOther = true) : (n.add (.leaf t)).Sound := by
  refine ⟨?_, ?_, ?_, sound.frames, sound.outer⟩
  · exact List.forall_mem_cons.mpr ⟨.leaf raw, sound.content⟩
  · rw [add, List.reverse_cons]
    exact settled_concat sound.settled h
  · intro f hf isVoid
    exact List.forall_mem_cons.mpr ⟨rfl, sound.void f hf isVoid⟩

theorem firm_nil : Firm [] := fun _ h => by cases h

theorem firm_cons {items : List Item} {i : Item} (h : i.isOpenEnded = false) :
    Firm (i :: items).reverse := by
  intro j hj
  rw [List.reverse_cons, List.getLast?_concat] at hj
  cases hj
  exact h

theorem Sound.addTag {n : Nest} (sound : n.Sound) {t : Tag} (plain : isRawKey t.key = false) :
    (n.addTag t).Sound ∧ Firm (n.addTag t).content.reverse := by
  have ended := sound.endImplied (TagName.endsAtTag (bareKey t.lead t.key))
  have solid := @isVoid_of_endsAtTag (bareKey t.lead t.key) n.frames n.content
  unfold Nest.addTag
  simp only
  generalize Nest.endImplied (TagName.endsAtTag (bareKey t.lead t.key)) n.frames n.content = m at *
  split
  · next closes =>
    refine ⟨⟨?_, ?_, ?_, ended.frames, ended.outer⟩, firm_cons rfl⟩
    · exact List.forall_mem_cons.mpr ⟨.selfClosed closes plain, ended.content⟩
    · rw [add, List.reverse_cons]
      exact settled_concat ended.settled (.inr rfl)
    · intro f hf isVoid
      rw [solid f hf] at isVoid
      cases isVoid
  · next opens =>
    refine ⟨⟨by simp, by simp, by simp, ?_, ?_⟩, firm_nil⟩
    · exact List.forall_mem_cons.mpr
        ⟨⟨by simpa using opens, plain, ended.content, ended.settled⟩, ended.frames⟩
    · intro f hf
      rw [List.tail_cons] at hf
      cases frames : m.frames with
      | nil =>
        rw [frames] at hf
        cases hf
      | cons g outer =>
        rw [frames] at hf
        rcases List.mem_cons.mp hf with rfl | hf
        · exact solid f (by rw [frames]; rfl)
        · exact ended.outer f (by rw [frames]; exact hf)

theorem tokens_addTag (n : Nest) (t : Tag) : (n.addTag t).tokens = n.tokens ++ [.tag t] := by
  have ended := tokens_endImplied (TagName.endsAtTag (bareKey t.lead t.key)) n.frames n.content
  unfold addTag
  simp only
  split
  · rw [tokens_add, ended]
    rfl
  · rw [← show _ = n.tokens from ended]
    simp [tokens, frameTokens, Item.tokensOf]

theorem addEndTag?_cases {n n' : Nest} {t : EndTag} (h : n.addEndTag? t = some n') :
    ∃ ends, (ends = TagName.endsAtEndTag (bareKey t.lead t.key) ∨ ∀ ks, ends ks = false) ∧
      ((∃ f outer content, endImplied ends n.frames n.content = ⟨f :: outer, content⟩ ∧
          f.tag.key = t.key ∧
          n' = ⟨outer, .element f.tag content.reverse (.endTag t) :: f.before⟩) ∨
        n' = (endImplied ends n.frames n.content).add (.leaf (.endTag t))) := by
  obtain ⟨frames, content⟩ := n
  unfold addEndTag? at h
  split at h
  · cases h
  · next f outer eq =>
    cases eq
    split at h
    · next same =>
      cases h
      exact ⟨fun _ => false, .inr fun _ => rfl, .inl ⟨f, outer, content, rfl, same, rfl⟩⟩
    · split at h
      · cases h
      · refine ⟨TagName.endsAtEndTag (bareKey t.lead t.key), .inl rfl, ?_⟩
        generalize endImplied (TagName.endsAtEndTag (bareKey t.lead t.key)) (f :: outer) content =
          m at h ⊢
        obtain ⟨frames', content'⟩ := m
        cases frames' with
        | nil => cases h
        | cons f' outer' =>
          simp only at h
          split at h
          · next same =>
            cases h
            exact .inl ⟨f', outer', content', rfl, same, rfl⟩
          · cases h
            exact .inr rfl

theorem endsAtEndTag_none (ks : List Text) : TagName.endsAtEndTag none ks = false := by
  cases ks <;> rfl

theorem Sound.addEndTag? {n n' : Nest} (sound : n.Sound) (firm : Firm n.content.reverse)
    {t : EndTag} (h : n.addEndTag? t = some n') : n'.Sound ∧ Firm n'.content.reverse := by
  obtain ⟨frames, before⟩ := n
  obtain ⟨ends, which, ⟨f, outer, content, open_, same, rfl⟩ | rfl⟩ := addEndTag?_cases h
  · have ended := sound.endImplied ends
    rw [open_] at ended
    refine ⟨ended.close_endTag same ?_, firm_cons rfl⟩
    -- Elements end without an end tag only before an end tag without a gap at its beginning.
    by_cases bare : t.lead = []
    · exact .inl bare
    · have never : ∀ ks, ends ks = false := by
        rcases which with rfl | never
        · intro ks
          rw [bareKey, if_neg (by simpa using bare)]
          exact endsAtEndTag_none ks
        · exact never
      rw [endImplied_of_false never] at open_
      cases open_
      exact .inr firm
  · exact ⟨(sound.endImplied ends).add_leaf (by simp) (.inr rfl), firm_cons rfl⟩

theorem tokens_addEndTag? {n n' : Nest} {t : EndTag} (h : n.addEndTag? t = some n') :
    n'.tokens = n.tokens ++ [.endTag t] := by
  obtain ⟨ends, -, ⟨f, outer, content, open_, -, rfl⟩ | rfl⟩ := addEndTag?_cases h
  · have ended := tokens_endImplied ends n.frames n.content
    rw [open_] at ended
    rw [tokens_close, ended]
    rfl
  · rw [tokens_add, tokens_endImplied]
    rfl

/-- Raw text with its tags is added as a whole. -/
theorem raw_steps {n n' : Nest} {t : Tag} {text : Text} {e : EndTag} (key : isRawKey t.key = true)
    (opens : t.selfClosing = false)
    (h : ((n.addTag t).add (.leaf (.raw text))).addEndTag? e = some n') :
    t.key = e.key ∧
      n' = (endImplied (TagName.endsAtTag (bareKey t.lead t.key)) n.frames n.content).add
        (.element t [.leaf (.raw text)] (.endTag e)) := by
  unfold addTag at h
  simp only [opens, key, Bool.false_eq_true, if_false, if_true, add, addEndTag?] at h
  split at h
  · next same =>
    cases h
    exact ⟨same, rfl⟩
  · cases h

theorem Sound.add_raw {n : Nest} (sound : n.Sound) {t : Tag} {text : Text} {e : EndTag}
    (key : isRawKey t.key = true) (opens : t.selfClosing = false) (same : t.key = e.key) :
    ((Nest.endImplied (TagName.endsAtTag (bareKey t.lead t.key)) n.frames n.content).add
      (.element t [.leaf (.raw text)] (.endTag e))).Sound := by
  have ended := sound.endImplied (TagName.endsAtTag (bareKey t.lead t.key))
  have solid := @isVoid_of_endsAtTag (bareKey t.lead t.key) n.frames n.content
  refine ⟨?_, ?_, ?_, ended.frames, ended.outer⟩
  · exact List.forall_mem_cons.mpr ⟨.raw text opens key same, ended.content⟩
  · rw [add, List.reverse_cons]
    exact settled_concat ended.settled (.inr rfl)
  · intro f hf isVoid
    rw [solid f hf] at isVoid
    cases isVoid

theorem step?_leaf {t : Token} (tag : ∀ u, t ≠ .tag u) (endTag : ∀ u, t ≠ .endTag u) (n : Nest) :
    n.step? t = some (n.add (.leaf t)) := by
  cases t with
  | tag u => exact absurd rfl (tag u)
  | endTag u => exact absurd rfl (endTag u)
  | _ => rfl

theorem sound_of_fold {ts : List Token} (chained : Chained ts) {n n' : Nest} (sound : n.Sound)
    (firm : Firm n.content.reverse) (h : ts.foldlM step? n = some n') :
    n'.Sound ∧ n'.tokens = n.tokens ++ ts := by
  induction chained generalizing n with
  | nil =>
    cases h
    exact ⟨sound, (List.append_nil _).symm⟩
  | @leaf t ts tag endTag raw _ ih =>
    rw [List.foldlM_cons, step?_leaf tag endTag] at h
    obtain ⟨kept, read⟩ := ih (sound.add_leaf raw (.inl firm)) (firm_cons rfl) h
    refine ⟨kept, ?_⟩
    rw [read, tokens_add, List.append_assoc]
    rfl
  | @tag t ts plain _ ih =>
    rw [List.foldlM_cons] at h
    obtain ⟨added, still⟩ := sound.addTag plain
    obtain ⟨kept, read⟩ := ih added still h
    refine ⟨kept, ?_⟩
    rw [read, tokens_addTag, List.append_assoc]
    rfl
  | @endTag t ts _ ih =>
    rw [List.foldlM_cons] at h
    obtain ⟨m, first, more⟩ := Option.bind_eq_some_iff.mp h
    obtain ⟨added, still⟩ := sound.addEndTag? firm first
    obtain ⟨kept, read⟩ := ih added still more
    refine ⟨kept, ?_⟩
    rw [read, tokens_addEndTag? first, List.append_assoc]
    rfl
  | @raw t ts text e key opens _ ih =>
    have h : (((n.addTag t).add (.leaf (.raw text))).addEndTag? e).bind
        (fun m => ts.foldlM step? m) = some n' := h
    obtain ⟨m, first, more⟩ := Option.bind_eq_some_iff.mp h
    have read_ := tokens_addEndTag? first
    rw [tokens_add, tokens_addTag] at read_
    obtain ⟨same, rfl⟩ := raw_steps key opens first
    obtain ⟨kept, read⟩ := ih (sound.add_raw key opens same) (firm_cons rfl) more
    refine ⟨kept, ?_⟩
    rw [read, read_]
    simp [Item.tokens]

end Nest

/-- The items of a source are sound, and are read from all of its tokens. -/
theorem sound_of_items? {ts : List Token} (chained : Chained ts) {items : List Item}
    (h : unclosedItems? ts = some items) :
    (∀ i ∈ items, i.Sound) ∧ Item.Settled items ∧ Item.tokensOf items = ts := by
  obtain ⟨n, nested, rfl⟩ := Option.map_eq_some_iff.mp h
  have empty : Nest.empty.Sound := ⟨by simp [Nest.empty], by simp [Nest.empty], by simp [Nest.empty],
    by simp [Nest.empty], by simp [Nest.empty]⟩
  obtain ⟨sound, read⟩ := Nest.sound_of_fold chained empty Nest.firm_nil nested
  obtain ⟨each, settled⟩ := sound.endAll
  refine ⟨fun i hi => each i (List.mem_reverse.mp hi), settled, ?_⟩
  rw [Nest.tokens_endAll]
  exact read

end MarkupGrader.Markup
