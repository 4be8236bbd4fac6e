import MarkupGrader.Markup.Reading
import MarkupGrader.Proofs.Text.Bare

/-! Nesting tokens into elements. It loses nothing of the source, it never makes a tag the content of
an element, and the white space among the content is blank. -/

namespace MarkupGrader.Markup

namespace Outline

theorem sourceAll_eq_flatMap (os : List Outline) : sourceAll os = os.flatMap source := by
  induction os with
  | nil => rfl
  | cons o os ih => rw [sourceAll, ih, List.flatMap_cons]

@[simp] theorem sourceAll_append (os ps : List Outline) :
    sourceAll (os ++ ps) = sourceAll os ++ sourceAll ps := by
  simp only [sourceAll_eq_flatMap, List.flatMap_append]

@[simp] theorem sourceAll_cons (o : Outline) (os : List Outline) :
    sourceAll (o :: os) = o.source ++ sourceAll os := rfl

@[simp] theorem sourceAll_nil : sourceAll [] = [] := rfl

@[simp] theorem source_literal (t : Text) : (literal t).source = t := rfl

end Outline

@[simp] theorem Filler.source_outline (f : Filler) : f.outline.source = f.source := by
  cases f <;> rfl

@[simp] theorem Gap.sourceAll_outline (g : Gap) :
    Outline.sourceAll (g.map Filler.outline) = g.source := by
  rw [Outline.sourceAll_eq_flatMap, List.flatMap_map, Gap.source]
  simp only [Filler.source_outline]

@[simp] theorem Value.source_outline (v : Value) : v.outline.source = v.source := by
  cases v with
  | bare t => rfl
  | quoted quote lead t =>
    by_cases empty : t = []
    · simp [Value.outline, Outline.source, Value.source, empty]
    · simp [Value.outline, Outline.source, Value.source, empty]

@[simp] theorem Attribute.source_outline (a : Attribute) : a.outline.source = a.source := by
  obtain ⟨name, assigned⟩ := a
  cases assigned with
  | none => simp [Attribute.outline, Outline.source, Attribute.source]
  | some assigned =>
    simp [Attribute.outline, Outline.source, Attribute.source, Assignment.source]

@[simp] theorem TagPart.source_outline (p : TagPart) : p.outline.source = p.source := by
  cases p with
  | filler f => exact f.source_outline
  | attr a => exact a.source_outline

theorem sourceAll_parts (ps : List TagPart) :
    Outline.sourceAll (ps.map TagPart.outline) = ps.flatMap TagPart.source := by
  rw [Outline.sourceAll_eq_flatMap, List.flatMap_map]
  simp only [TagPart.source_outline]

@[simp] theorem Tag.source_outline (t : Tag) : t.outline.source = t.source := by
  simp [Tag.outline, Outline.source, Tag.source, sourceAll_parts]

@[simp] theorem EndTag.source_outline (kind nameKind : Kind) (t : EndTag) :
    (t.outline kind nameKind).source = t.source := by
  simp [EndTag.outline, Outline.source, EndTag.source]

@[simp] theorem Doctype.source_outline (d : Doctype) : d.outline.source = d.source := by
  simp [Doctype.outline, Outline.source, Doctype.source]

@[simp] theorem Token.source_outline (t : Token) : t.outline.source = t.source := by
  cases t with
  | filler f => exact f.source_outline
  | doctype d => exact d.source_outline
  | text t => rfl
  | entity t => rfl
  | tag t => exact t.source_outline
  | endTag t => exact t.source_outline _ _
  | raw t => rfl

def Closing.source : Closing → Text
  | endTag t => t.source
  | implied => []
  | selfClosed => []

namespace Item

def source (i : Item) : Text := i.outline.source

def sources (items : List Item) : Text := items.flatMap source

theorem outlines_eq_map (items : List Item) : outlines items = items.map outline := by
  induction items with
  | nil => rfl
  | cons i items ih => rw [outlines, ih, List.map_cons]

@[simp] theorem sourceAll_outlines (items : List Item) :
    Outline.sourceAll (outlines items) = sources items := by
  rw [outlines_eq_map, Outline.sourceAll_eq_flatMap, List.flatMap_map]
  rfl

@[simp] theorem sources_nil : sources [] = [] := rfl

@[simp] theorem sources_cons (i : Item) (items : List Item) :
    sources (i :: items) = i.source ++ sources items := List.flatMap_cons

@[simp] theorem sources_append (items more : List Item) :
    sources (items ++ more) = sources items ++ sources more := List.flatMap_append

@[simp] theorem source_leaf (t : Token) : (leaf t).source = t.source := t.source_outline

theorem source_element (tag : Tag) (content : List Item) (closing : Closing) :
    (element tag content closing).source = tag.source ++ (sources content ++ closing.source) := by
  have closed : Outline.sourceAll closing.outline = closing.source := by
    cases closing with
    | endTag t => simp [Closing.outline, Closing.source]
    | implied => rfl
    | selfClosed => rfl
  rw [source, outline, Outline.source, Outline.sourceAll_cons, Outline.sourceAll_append,
    sourceAll_outlines, closed, Tag.source_outline]

end Item

namespace Nest

/-- What was read before the content of the innermost of the open elements. -/
def frameSource : List Frame → Text
  | [] => []
  | f :: outer => frameSource outer ++ (Item.sources f.before.reverse ++ f.tag.source)

/-- What was read so far. -/
def source (n : Nest) : Text := frameSource n.frames ++ Item.sources n.content.reverse

theorem source_add (n : Nest) (i : Item) : (n.add i).source = n.source ++ i.source := by
  simp [source, add]

theorem source_close (f : Frame) (outer : List Frame) (content : List Item) (closing : Closing) :
    source ⟨outer, .element f.tag content.reverse closing :: f.before⟩ =
      source ⟨f :: outer, content⟩ ++ closing.source := by
  simp [source, frameSource, Item.source_element]

theorem source_endImplied (ends : List Text → Bool) (frames : List Frame) (content : List Item) :
    (endImplied ends frames content).source = source ⟨frames, content⟩ := by
  induction frames generalizing content with
  | nil => rfl
  | cons f outer ih =>
    unfold endImplied
    split
    · rw [ih, source_close]
      exact List.append_nil _
    · rfl

theorem source_addTag (n : Nest) (t : Tag) : (n.addTag t).source = n.source ++ t.source := by
  unfold addTag
  simp only
  have ended := source_endImplied (TagName.endsAtTag (bareKey t.lead t.key)) n.frames n.content
  split
  · rw [source_add, ended, Item.source_element]
    simp [Closing.source]
  · rw [← ended]
    simp [source, frameSource]

theorem addEndTag?_eq_some {n n' : Nest} {t : EndTag} (h : n.addEndTag? t = some n') :
    ∃ ends, (∃ f outer content, endImplied ends n.frames n.content = ⟨f :: outer, content⟩ ∧
        n' = ⟨outer, .element f.tag content.reverse (.endTag t) :: f.before⟩) ∨
      n' = (endImplied ends n.frames n.content).add (.leaf (.endTag t)) := by
  obtain ⟨frames, content⟩ := n
  unfold addEndTag? at h
  split at h
  · cases h
  · next f outer eq =>
    cases eq
    split at h
    · cases h
      exact ⟨fun _ => false, .inl ⟨f, outer, content, rfl, rfl⟩⟩
    · split at h
      · cases h
      · refine ⟨TagName.endsAtEndTag (bareKey t.lead t.key), ?_⟩
        generalize endImplied (TagName.endsAtEndTag (bareKey t.lead t.key)) (f :: outer) content =
          m at h ⊢
        obtain ⟨frames', content'⟩ := m
        cases frames' with
        | nil => cases h
        | cons f' outer' =>
          simp only at h
          split at h
          · cases h
            exact .inl ⟨f', outer', content', rfl, rfl⟩
          · cases h
            exact .inr rfl

theorem source_addEndTag? {n n' : Nest} {t : EndTag} (h : n.addEndTag? t = some n') :
    n'.source = n.source ++ t.source := by
  obtain ⟨ends, ⟨f, outer, content, open_, rfl⟩ | rfl⟩ := addEndTag?_eq_some h
  · have ended := source_endImplied ends n.frames n.content
    rw [open_] at ended
    rw [source_close, ended]
    rfl
  · rw [source_add, source_endImplied, Item.source_leaf]
    rfl

theorem source_step? {n n' : Nest} {t : Token} (h : n.step? t = some n') :
    n'.source = n.source ++ t.source := by
  cases t with
  | tag t =>
    cases h
    exact source_addTag n t
  | endTag t => exact source_addEndTag? h
  | filler f => cases h; rw [source_add, Item.source_leaf]
  | doctype d => cases h; rw [source_add, Item.source_leaf]
  | text t => cases h; rw [source_add, Item.source_leaf]
  | entity t => cases h; rw [source_add, Item.source_leaf]
  | raw t => cases h; rw [source_add, Item.source_leaf]

variable {P : Item → Prop}

structure All (P : Item → Prop) (n : Nest) : Prop where
  content : ∀ i ∈ n.content, P i
  before : ∀ f ∈ n.frames, ∀ i ∈ f.before, P i

abbrev Inherited (P : Item → Prop) : Prop :=
  ∀ tag content closing, (∀ i ∈ content, P i) → P (.element tag content closing)

theorem All.add {n : Nest} {i : Item} (all : n.All P) (h : P i) : (n.add i).All P := by
  refine ⟨fun j hj => ?_, all.before⟩
  rcases List.mem_cons.mp hj with rfl | hj
  · exact h
  · exact all.content j hj

theorem All.close (inherited : Inherited P) {f : Frame} {outer : List Frame} {content : List Item}
    (all : All P ⟨f :: outer, content⟩) (closing : Closing) :
    All P ⟨outer, .element f.tag content.reverse closing :: f.before⟩ := by
  refine ⟨fun i hi => ?_, fun g hg => all.before g (List.mem_cons_of_mem _ hg)⟩
  rcases List.mem_cons.mp hi with rfl | hi
  · exact inherited _ _ _ fun j hj => all.content j (List.mem_reverse.mp hj)
  · exact all.before f List.mem_cons_self i hi

theorem All.endImplied (inherited : Inherited P) (ends : List Text → Bool) {frames : List Frame}
    {content : List Item} (all : All P ⟨frames, content⟩) :
    (Nest.endImplied ends frames content).All P := by
  induction frames generalizing content with
  | nil => exact all
  | cons f outer ih =>
    unfold Nest.endImplied
    split
    · exact ih (all.close inherited .implied)
    · exact all

theorem All.addTag (inherited : Inherited P) {n : Nest} (all : n.All P) (t : Tag) :
    (n.addTag t).All P := by
  unfold Nest.addTag
  simp only
  have ended := all.endImplied inherited (TagName.endsAtTag (bareKey t.lead t.key))
  split
  · exact ended.add (inherited _ _ _ fun i hi => absurd hi List.not_mem_nil)
  · refine ⟨fun i hi => absurd hi List.not_mem_nil, fun f hf => ?_⟩
    rcases List.mem_cons.mp hf with rfl | hf
    · exact ended.content
    · exact ended.before f hf

theorem All.addEndTag? (inherited : Inherited P) {n n' : Nest} {t : EndTag} (all : n.All P)
    (stray : P (.leaf (.endTag t))) (h : n.addEndTag? t = some n') : n'.All P := by
  obtain ⟨ends, ⟨f, outer, content, open_, rfl⟩ | rfl⟩ := addEndTag?_eq_some h
  · have ended := all.endImplied inherited ends
    rw [open_] at ended
    exact ended.close inherited _
  · exact (all.endImplied inherited ends).add stray

theorem All.step? (inherited : Inherited P) {n n' : Nest} {t : Token} (all : n.All P)
    (leaf : (∀ tag, t ≠ .tag tag) → P (.leaf t)) (h : n.step? t = some n') : n'.All P := by
  cases t with
  | tag t =>
    cases h
    exact all.addTag inherited t
  | endTag t => exact all.addEndTag? inherited (leaf (by simp)) h
  | filler f => cases h; exact all.add (leaf (by simp))
  | doctype d => cases h; exact all.add (leaf (by simp))
  | text t => cases h; exact all.add (leaf (by simp))
  | entity t => cases h; exact all.add (leaf (by simp))
  | raw t => cases h; exact all.add (leaf (by simp))

theorem fold_step? (inherited : Inherited P) {tokens : List Token}
    (leaves : ∀ t ∈ tokens, (∀ tag, t ≠ .tag tag) → P (.leaf t)) {n n' : Nest} (all : n.All P)
    (h : tokens.foldlM step? n = some n') :
    n'.All P ∧ n'.source = n.source ++ tokens.flatMap Token.source := by
  induction tokens generalizing n with
  | nil =>
    cases h
    exact ⟨all, by simp⟩
  | cons t tokens ih =>
    rw [List.foldlM_cons] at h
    obtain ⟨m, first, more⟩ := Option.bind_eq_some_iff.mp h
    have stepped := all.step? inherited (leaves t List.mem_cons_self) first
    obtain ⟨kept, read⟩ := ih (fun u hu => leaves u (List.mem_cons_of_mem _ hu)) stepped more
    refine ⟨kept, ?_⟩
    rw [read, source_step? first, List.flatMap_cons, List.append_assoc]

theorem All.endAll (inherited : Inherited P) {frames : List Frame} {content : List Item}
    (all : All P ⟨frames, content⟩) : ∀ i ∈ Nest.endAll frames content, P i := by
  induction frames generalizing content with
  | nil => exact all.content
  | cons f outer ih =>
    unfold Nest.endAll
    split
    · exact ih (all.close inherited .implied)
    · refine ih ⟨List.forall_mem_append.mpr ⟨fun i hi => ?_, List.forall_mem_cons.mpr ⟨?_, ?_⟩⟩,
        fun g hg => all.before g (List.mem_cons_of_mem _ hg)⟩
      · exact all.content i ((List.takeWhile_prefix _).subset hi)
      · refine inherited _ _ _ fun i hi => all.content i ?_
        exact (List.dropWhile_suffix _).subset (List.mem_reverse.mp hi)
      · exact all.before f List.mem_cons_self

theorem sources_endAll (frames : List Frame) (content : List Item) :
    Item.sources (endAll frames content).reverse = source ⟨frames, content⟩ := by
  induction frames generalizing content with
  | nil => rfl
  | cons f outer ih =>
    unfold endAll
    split
    · rw [ih, source_close]
      exact List.append_nil _
    · have split : Item.sources content.reverse =
          Item.sources (content.dropWhile Item.isSpace).reverse ++
            Item.sources (content.takeWhile Item.isSpace).reverse := by
        rw [← Item.sources_append, ← List.reverse_append, List.takeWhile_append_dropWhile]
      simp only [ih, source, frameSource, split, List.reverse_append, List.reverse_cons,
        Item.sources_append, Item.sources_cons, Item.sources_nil, Item.source_element,
        Closing.source, List.append_assoc, List.append_nil]

theorem endAll_of_closed {frames : List Frame} {content : List Item}
    (closed : (endImplied TagName.endsAtEnd frames content).frames = []) :
    endAll frames content = (endImplied TagName.endsAtEnd frames content).content := by
  induction frames generalizing content with
  | nil => rfl
  | cons f outer ih =>
    unfold endImplied at closed ⊢
    unfold endAll
    split
    · next ends =>
      rw [if_pos ends] at closed
      exact ih closed
    · next stands =>
      rw [if_neg stands] at closed
      cases closed

end Nest

/-- The items of a source make up the source, and what holds of all its tokens but the tags, and of
elements if it holds of their content, holds of all items. -/
theorem unclosedItems?_eq_some {P : Item → Prop} (inherited : Nest.Inherited P)
    {tokens : List Token} (leaves : ∀ t ∈ tokens, (∀ tag, t ≠ .tag tag) → P (.leaf t))
    {items : List Item} (h : unclosedItems? tokens = some items) :
    (∀ i ∈ items, P i) ∧ Item.sources items = tokens.flatMap Token.source := by
  obtain ⟨n, nested, rfl⟩ := Option.map_eq_some_iff.mp h
  have empty : Nest.empty.All P := ⟨by simp [Nest.empty], by simp [Nest.empty]⟩
  obtain ⟨all, read⟩ := Nest.fold_step? inherited leaves empty nested
  refine ⟨fun i hi => all.endAll inherited i (List.mem_reverse.mp hi), ?_⟩
  rw [Nest.sources_endAll]
  exact read

theorem unclosedItems?_of_items? {tokens : List Token} {items : List Item}
    (h : items? tokens = some items) : unclosedItems? tokens = some items := by
  obtain ⟨n, nested, h⟩ := Option.bind_eq_some_iff.mp h
  rw [unclosedItems?, nested, Option.map_some]
  simp only at h
  split at h
  · next closed =>
    rw [← h]
    exact congrArg (fun items => some items.reverse)
      (Nest.endAll_of_closed (List.isEmpty_iff.mp closed))
  · cases h

end MarkupGrader.Markup
