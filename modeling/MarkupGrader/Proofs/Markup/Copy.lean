import MarkupGrader.Proofs.Markup.Regular

/-! Copying inline items onto one line. White space is trimmed at the ends and squeezed within, and the
copy is read as it was written, wherever it is put, if nothing goes on behind it. -/

namespace MarkupGrader.Markup

open Text (isLed isTrailed)

variable {r rest : Text} {ts : List Token}

/-- The text does not go on with a text or an entity that stands before it. -/
structure Halts (r : Text) : Prop where
  text : (r.dropWhile isSpace).head?.any isTextChar = false
  entity : r.head?.any (fun c => c.isAlphanum || c == ';') = false

theorem halts_nil : Halts [] := ⟨rfl, rfl⟩

theorem halts_bracket (r : Text) : Halts ('<' :: r) := ⟨rfl, rfl⟩

theorem Token.Reads.source_ne_nil {t : Token} (h : t.Reads r) : t.source ≠ [] := by
  have nonempty := (readTokens?_append h.readTokens?).2
  rwa [List.flatMap_singleton] at nonempty

abbrev Token.isSpace : Token → Bool
  | filler (.space _) => true
  | _ => false

theorem Token.follows_of_halts {t : Token} (phrase : t.isPhrase = true) (visible : t.isSpace = false)
    (halts : Halts r) (rest : Text) : t.Follows rest r := by
  cases t with
  | filler f =>
    cases f with
    | space t => cases visible
    | comment t => cases phrase
  | text t =>
    intro more
    rw [halts.text] at more
    cases more
  | entity t => exact .inr halts.entity
  | doctype d => trivial
  | tag t => trivial
  | endTag t => trivial
  | raw t => trivial

theorem Token.follows_append {a : Text} (t : Token) (nonempty : a ≠ []) (halts : Halts r)
    (rest : Text) : t.Follows (a ++ rest) (a ++ r) := by
  obtain ⟨c, a, rfl⟩ := List.exists_cons_of_ne_nil nonempty
  cases t with
  | filler f => exact id
  | text t =>
    intro more
    rw [List.dropWhile_append] at more ⊢
    split at more
    · rw [halts.text] at more
      cases more
    · next visible =>
      rw [if_neg visible]
      cases eq : (c :: a).dropWhile Markup.isSpace with
      | nil => simp [eq] at visible
      | cons d u =>
        rw [eq] at more
        exact more
  | entity t => exact .inl rfl
  | doctype d => trivial
  | tag t => trivial
  | endTag t => trivial
  | raw t => trivial

theorem AllRead.before (h : AllRead rest ts)
    (phrase : ∀ t ∈ ts, t.isPhrase = true ∧ t.isClear = true) (halts : Halts r)
    (last : ∀ t ∈ ts.getLast?, t.isSpace = false) : AllRead r ts := by
  induction h with
  | nil => exact .nil
  | @cons t ts h more ih =>
    obtain ⟨⟨own, clear⟩, others⟩ := List.forall_mem_cons.mp phrase
    cases more with
    | nil => exact .cons (h.before clear (t.follows_of_halts own (last t rfl) halts _)) .nil
    | @cons u us hu more =>
      refine .cons (h.before clear (Token.follows_append t ?_ halts rest)) (ih others last)
      exact List.append_ne_nil_of_left_ne_nil hu.source_ne_nil _
    | @raw u raw us _ _ _ _ _ => cases (others (.raw raw) (by simp)).1
  | @raw t raw ts _ _ _ _ _ _ => cases (phrase (.raw raw) (by simp)).1

theorem isTrailed_append_of_ne_nil {a b : Text} (nonempty : b ≠ []) :
    isTrailed (a ++ b) = isTrailed b := by
  rw [isTrailed, List.getLast?_append_of_ne_nil _ nonempty, isTrailed]

theorem Token.Reads.isLed {t : Token} (h : t.Reads r) (visible : t.isSpace = false)
    (phrase : t.isPhrase = true) : isLed t.source = false := by
  cases t with
  | filler f =>
    cases f with
    | space t => cases visible
    | comment t => cases phrase
  | doctype d => cases phrase
  | raw t => cases phrase
  | text t => exact TextReads.begins h
  | entity t =>
    obtain ⟨-, b, rfl⟩ := h
    rfl
  | tag t => rfl
  | endTag t => rfl

theorem Token.Reads.isTrailed {t : Token} (h : t.Reads r) (visible : t.isSpace = false)
    (phrase : t.isPhrase = true) : isTrailed t.source = false := by
  cases t with
  | filler f =>
    cases f with
    | space t => cases visible
    | comment t => cases phrase
  | doctype d => cases phrase
  | raw t => cases phrase
  | text t => exact TextReads.ends h
  | entity t => exact Text.isTrailed_of_solid h.1.solid
  | tag t =>
    rw [Token.source, Tag.source, isTrailed_append_of_ne_nil]
    · rw [Tag.closer]
      split <;> rfl
    · rw [Tag.closer]
      split <;> exact List.cons_ne_nil _ _
  | endTag t =>
    have nonempty : (">" : Text) ≠ [] := List.cons_ne_nil _ _
    rw [Token.source, EndTag.source, isTrailed_append_of_ne_nil nonempty]
    rfl

theorem AllRead.isLed (h : AllRead r ts) (phrase : ∀ t ∈ ts, t.isPhrase = true)
    (first : ∀ t ∈ ts.head?, t.isSpace = false) : isLed (Token.sources ts) = false := by
  cases h with
  | nil => rfl
  | @cons t ts h _ =>
    rw [Token.sources, List.flatMap_cons, Text.isLed_append_of_ne_nil h.source_ne_nil]
    exact h.isLed (first t rfl) (phrase t List.mem_cons_self)
  | @raw t raw ts _ _ _ _ _ => cases phrase (.raw raw) (by simp)

theorem AllRead.isTrailed (h : AllRead r ts) (phrase : ∀ t ∈ ts, t.isPhrase = true)
    (last : ∀ t ∈ ts.getLast?, t.isSpace = false) : isTrailed (Token.sources ts) = false := by
  induction h with
  | nil => rfl
  | @cons t ts h more ih =>
    obtain ⟨own, others⟩ := List.forall_mem_cons.mp phrase
    rw [Token.sources, List.flatMap_cons]
    cases more with
    | nil =>
      rw [List.flatMap_nil, List.append_nil]
      exact h.isTrailed (last t rfl) own
    | @cons u us hu more =>
      rw [isTrailed_append_of_ne_nil]
      · exact ih others last
      · rw [List.flatMap_cons]
        exact List.append_ne_nil_of_left_ne_nil hu.source_ne_nil _
    | @raw u raw us _ _ _ _ _ => cases others (.raw raw) (by simp)
  | @raw t raw ts _ _ _ _ _ _ => cases phrase (.raw raw) (by simp)

theorem opensComment_squeeze (t : Text) : opensComment (Text.squeeze t) = opensComment t := by
  have solid : ∀ c ∈ ("<!--" : Text), Markup.isSpace c = false := by
    rw [← List.forall_mem_map (P := (· = false))]
    decide
  have after := Text.after?_squeeze solid (t.dropWhile Markup.isSpace)
  have left := (Text.while_squeeze (p := Markup.isSpace) (fun c hc => hc) t).2
  have test (u : Text) : ("<!--" : Text).isPrefixOf u = (Text.after? "<!--" u).isSome := by
    rw [Bool.eq_iff_iff, List.isPrefixOf_iff_prefix, Option.isSome_iff_exists]
    constructor
    · rintro ⟨rest, eq⟩
      exact ⟨rest, Text.after?_eq_some.mpr eq.symm⟩
    · rintro ⟨rest, eq⟩
      exact ⟨rest, (Text.after?_eq_some.mp eq).symm⟩
  rw [opensComment, left, test, after, Option.isSome_map, opensComment, test]

theorem Tag.isClear_squeeze (t : Tag) : t.squeeze.isClear = t.isClear := by
  rw [Tag.isClear, Tag.squeeze, List.all_map, Tag.isClear]
  refine congrArg t.parts.all (funext fun part => ?_)
  cases part with
  | filler f => rfl
  | attr a =>
    obtain ⟨name, assigned⟩ := a
    cases assigned with
    | none => rfl
    | some b =>
      obtain ⟨before, after, value⟩ := b
      cases value with
      | bare t => rfl
      | quoted quote lead t =>
        show (!opensComment (Text.squeeze t)) = !opensComment t
        rw [opensComment_squeeze]

theorem Token.isClear_squeeze (t : Token) : t.squeeze.isClear = t.isClear := by
  cases t with
  | tag t => exact t.isClear_squeeze
  | _ => rfl

theorem Token.isPhrase_squeeze (t : Token) : t.squeeze.isPhrase = t.isPhrase := by
  cases t with
  | filler f => cases f <;> rfl
  | _ => rfl

theorem Token.isSpace_squeeze (t : Token) : t.squeeze.isSpace = t.isSpace := by
  cases t with
  | filler f => cases f <;> rfl
  | _ => rfl

theorem AllRead.copy (h : AllRead rest ts)
    (phrase : ∀ t ∈ ts, t.isPhrase = true ∧ t.isClear = true)
    (last : ∀ t ∈ ts.getLast?, t.isSpace = false) :
    Token.sources (ts.map Token.squeeze) = Text.squeeze (Token.sources ts) ∧
      ∀ r, Halts r → AllRead r (ts.map Token.squeeze) := by
  have alone := h.before phrase halts_nil last
  obtain ⟨reads, whole⟩ := alone.squeeze fun t ht => (phrase t ht).1
  rw [List.append_nil] at whole
  refine ⟨?_, fun r halts => reads.before ?_ halts ?_⟩
  · rw [whole]
    exact (List.append_nil _).symm
  · rw [List.forall_mem_map]
    intro t ht
    rw [Token.isPhrase_squeeze, Token.isClear_squeeze]
    exact phrase t ht
  · rw [List.getLast?_map]
    intro t ht
    obtain ⟨u, hu, rfl⟩ := Option.map_eq_some_iff.mp ht
    rw [Token.isSpace_squeeze]
    exact last u hu

def Closing.squeeze : Closing → Closing
  | endTag e => endTag e.squeeze
  | implied => implied
  | selfClosed => selfClosed

namespace Item

mutual

def squeeze : Item → Item
  | leaf t => leaf t.squeeze
  | element tag content closing => element tag.squeeze (squeezeAll content) closing.squeeze

def squeezeAll : List Item → List Item
  | [] => []
  | i :: rest => i.squeeze :: squeezeAll rest

end

theorem squeezeAll_eq_map (items : List Item) : squeezeAll items = items.map squeeze := by
  induction items with
  | nil => rfl
  | cons i items ih => rw [squeezeAll, ih, List.map_cons]

mutual

def loosen : Item → List Item
  | leaf t => [leaf t]
  | element tag content .implied => element tag [] .implied :: loosenAll content
  | element tag content closing => [element tag (loosenAll content) closing]

def loosenAll : List Item → List Item
  | [] => []
  | i :: rest => i.loosen ++ loosenAll rest

end

theorem loosenAll_eq_flatMap (items : List Item) : loosenAll items = items.flatMap loosen := by
  induction items with
  | nil => rfl
  | cons i items ih => rw [loosenAll, ih, List.flatMap_cons]

mutual

theorem tokens_squeeze : ∀ i : Item, i.squeeze.tokens = i.tokens.map Token.squeeze
  | leaf t => rfl
  | element tag content closing => by
    have closed : closing.squeeze.tokens = closing.tokens.map Token.squeeze := by
      cases closing <;> rfl
    rw [squeeze, tokens, tokens, tokensOf_squeezeAll content, closed, List.map_cons,
      List.map_append]
    rfl

theorem tokensOf_squeezeAll :
    ∀ items : List Item, tokensOf (squeezeAll items) = (tokensOf items).map Token.squeeze
  | [] => rfl
  | i :: rest => by
    rw [squeezeAll, tokensOf, tokensOf, tokens_squeeze i, tokensOf_squeezeAll rest, List.map_append]

end

mutual

theorem tokensOf_loosen : ∀ i : Item, tokensOf i.loosen = i.tokens
  | leaf t => rfl
  | element tag content .implied => by
    rw [loosen, tokensOf, tokensOf_loosenAll content, tokens, tokens]
    simp [tokensOf, Closing.tokens]
  | element tag content (.endTag e) => by
    rw [loosen, tokensOf, tokensOf, List.append_nil, tokens, tokensOf_loosenAll content, tokens]
    simp
  | element tag content .selfClosed => by
    rw [loosen, tokensOf, tokensOf, List.append_nil, tokens, tokensOf_loosenAll content, tokens]
    simp

theorem tokensOf_loosenAll : ∀ items : List Item, tokensOf (loosenAll items) = tokensOf items
  | [] => rfl
  | i :: rest => by
    rw [loosenAll, tokensOf_append, tokensOf_loosen i, tokensOf_loosenAll rest, tokensOf]

end

def trimGaps (items : List Item) : List Item :=
  ((items.dropWhile isGap).reverse.dropWhile isGap).reverse

def copy (run : List Item) : List Item := squeezeAll (trimGaps (loosenAll run))

theorem exists_trimGaps (items : List Item) :
    ∃ front back, items = front ++ (trimGaps items ++ back) ∧ front.all isGap = true ∧
      back.all isGap = true := by
  have whole := List.takeWhile_append_dropWhile (p := isGap) (l := items)
  have inner := List.takeWhile_append_dropWhile (p := isGap) (l := (items.dropWhile isGap).reverse)
  have split := congrArg List.reverse inner
  rw [List.reverse_append, List.reverse_reverse] at split
  refine ⟨items.takeWhile isGap, ((items.dropWhile isGap).reverse.takeWhile isGap).reverse, ?_, ?_, ?_⟩
  · rw [trimGaps, split, whole]
  · rw [List.all_eq_true]
    exact fun i hi => List.mem_takeWhile_imp hi
  · rw [List.all_reverse, List.all_eq_true]
    exact fun i hi => List.mem_takeWhile_imp hi

theorem getLast?_trimGaps {items : List Item} : ∀ i ∈ (trimGaps items).getLast?, i.isGap = false := by
  intro i hi
  rw [trimGaps, List.getLast?_reverse] at hi
  have head := List.head?_dropWhile_not isGap (items.dropWhile isGap).reverse
  rw [hi] at head
  simpa using head

theorem head?_trimGaps {items : List Item} : ∀ i ∈ (trimGaps items).head?, i.isGap = false := by
  intro i hi
  have inner := List.takeWhile_append_dropWhile (p := isGap) (l := (items.dropWhile isGap).reverse)
  have split := congrArg List.reverse inner
  rw [List.reverse_append, List.reverse_reverse] at split
  obtain ⟨rest, eq⟩ := List.head?_eq_some_iff.mp hi
  have head := List.head?_dropWhile_not isGap items
  rw [← split, show ((items.dropWhile isGap).reverse.dropWhile isGap).reverse = i :: rest from eq]
    at head
  simpa using head

theorem plain_loosen {i : Item} (plain : i.Plain) : ∀ j ∈ i.loosen, j.Plain := by
  induction plain with
  | leaf plain => exact List.forall_mem_singleton.mpr (.leaf plain)
  | @element tag content closing plain ih =>
    have inner : ∀ j ∈ loosenAll content, j.Plain := by
      rw [loosenAll_eq_flatMap, List.forall_mem_flatMap]
      exact ih
    cases closing with
    | implied => exact List.forall_mem_cons.mpr ⟨.element (by simp), inner⟩
    | endTag e => exact List.forall_mem_singleton.mpr (.element inner)
    | selfClosed => exact List.forall_mem_singleton.mpr (.element inner)

theorem plain_loosenAll {run : List Item} (regular : ∀ i ∈ run, i.Regular) :
    ∀ j ∈ loosenAll run, j.Plain := by
  rw [loosenAll_eq_flatMap, List.forall_mem_flatMap]
  exact fun i hi => plain_loosen (regular i hi).plain

theorem head?_tokens_of_visible {j : Item} (visible : j.isGap = false) :
    j.tokens ≠ [] ∧ ∀ t ∈ j.tokens.head?, t.isSpace = false := by
  cases j with
  | leaf t =>
    refine ⟨List.cons_ne_nil _ _, fun u hu => ?_⟩
    cases hu
    cases t with
    | filler f =>
      cases f with
      | space t => cases visible
      | comment t => rfl
    | _ => rfl
  | element tag content closing =>
    refine ⟨List.cons_ne_nil _ _, fun u hu => ?_⟩
    cases hu
    rfl

theorem getLast?_tokens_of_loosen {i : Item} (regular : i.Regular) :
    ∀ j ∈ i.loosen, j.isGap = false → ∀ t ∈ j.tokens.getLast?, t.isSpace = false := by
  have endTag (tag : Tag) (content : List Item) (e : EndTag) :
      ∀ t ∈ (element tag content (.endTag e)).tokens.getLast?, t.isSpace = false := by
    intro t ht
    rw [tokens, Closing.tokens, ← List.cons_append, List.getLast?_concat] at ht
    cases ht
    rfl
  induction regular with
  | @leaf t _ _ _ =>
    intro j hj visible
    rw [List.mem_singleton.mp hj] at visible ⊢
    intro u hu
    cases hu
    exact (head?_tokens_of_visible visible).2 t rfl
  | raw _ _ _ _ _ _ =>
    intro j hj _
    rw [List.mem_singleton.mp hj]
    exact endTag _ _ _
  | @element tag content closing _ _ _ _ _ _ _ ends ih =>
    intro j hj visible
    cases ends with
    | endTag _ _ _ =>
      rw [List.mem_singleton.mp hj]
      exact endTag _ _ _
    | selfClosed _ none =>
      subst none
      rw [List.mem_singleton.mp hj]
      intro t ht
      cases ht
      rfl
    | implied _ _ =>
      rcases List.mem_cons.mp hj with rfl | hj
      · intro t ht
        cases ht
        rfl
      · rw [loosenAll_eq_flatMap] at hj
        obtain ⟨k, hk, hj⟩ := List.mem_flatMap.mp hj
        exact ih k hk j hj visible

theorem phrase_of_inline {i : Item} (regular : i.Regular) (inline : i.isInline = true) :
    ∀ t ∈ i.tokens, t.isPhrase = true ∧ t.isClear = true := by
  induction regular with
  | @leaf t plain _ _ =>
    intro u hu
    rw [List.mem_singleton.mp hu]
    cases t with
    | filler f =>
      cases f with
      | space t => exact ⟨rfl, rfl⟩
      | comment t => cases inline
    | doctype d => cases inline
    | raw t => cases inline
    | tag t => exact absurd plain id
    | endTag t => exact absurd plain id
    | text t => exact ⟨rfl, rfl⟩
    | entity t => exact ⟨rfl, rfl⟩
  | raw _ _ _ _ _ _ =>
    rw [isInline, Bool.and_eq_true] at inline
    cases inline.2
  | @element tag content closing own _ _ _ _ _ _ _ ih =>
    rw [isInline, Bool.and_eq_true, allInline_eq_all, List.all_eq_true] at inline
    rw [tokens, List.forall_mem_cons, List.forall_mem_append, tokensOf_eq_flatMap,
      List.forall_mem_flatMap]
    refine ⟨⟨rfl, own.clear⟩, fun i hi => ih i hi (inline.2 i hi), ?_⟩
    cases closing with
    | endTag e => exact List.forall_mem_singleton.mpr ⟨rfl, rfl⟩
    | implied => simp [Closing.tokens]
    | selfClosed => simp [Closing.tokens]

theorem head?_tokensOf_of_phrase {items : List Item}
    (phrase : ∀ t ∈ tokensOf items, t.isPhrase = true) :
    ∀ raw, (tokensOf items).head? ≠ some (.raw raw) := by
  intro raw h
  cases phrase _ (List.mem_of_mem_head? h)

theorem head?_tokensOf_trimGaps (items : List Item) :
    ∀ t ∈ (tokensOf (trimGaps items)).head?, t.isSpace = false := by
  intro t ht
  cases eq : trimGaps items with
  | nil =>
    rw [eq] at ht
    cases ht
  | cons j rest =>
    have visible := head?_trimGaps j (congrArg List.head? eq)
    obtain ⟨nonempty, start⟩ := head?_tokens_of_visible visible
    rw [eq, tokensOf, List.head?_append_of_ne_nil _ nonempty] at ht
    exact start t ht

theorem getLast?_tokensOf_trimGaps {run : List Item} (regular : ∀ i ∈ run, i.Regular) :
    ∀ t ∈ (tokensOf (trimGaps (loosenAll run))).getLast?, t.isSpace = false := by
  intro t ht
  obtain ⟨front, back, whole, -⟩ := exists_trimGaps (loosenAll run)
  cases eq : (trimGaps (loosenAll run)).getLast? with
  | none =>
    rw [List.getLast?_eq_none_iff.mp eq] at ht
    cases ht
  | some j =>
    have visible := getLast?_trimGaps j eq
    obtain ⟨init, split⟩ := List.getLast?_eq_some_iff.mp eq
    rw [split, tokensOf_append, tokensOf, tokensOf, List.append_nil,
      List.getLast?_append_of_ne_nil _ (head?_tokens_of_visible visible).1] at ht
    have mem : j ∈ loosenAll run := by
      rw [whole, split]
      simp
    rw [loosenAll_eq_flatMap] at mem
    obtain ⟨i, hi, hj⟩ := List.mem_flatMap.mp mem
    exact getLast?_tokens_of_loosen (regular i hi) j hj visible t ht

section Copy

variable {run : List Item}

theorem phrase_of_allInline (regular : ∀ i ∈ run, i.Regular) (inline : allInline run = true) :
    ∀ t ∈ tokensOf run, t.isPhrase = true ∧ t.isClear = true := by
  rw [allInline_eq_all, List.all_eq_true] at inline
  rw [tokensOf_eq_flatMap, List.forall_mem_flatMap]
  exact fun i hi => phrase_of_inline (regular i hi) (inline i hi)

theorem allRead_trimGaps (regular : ∀ i ∈ run, i.Regular) (inline : allInline run = true)
    (reads : AllRead r (tokensOf run)) :
    (∀ t ∈ tokensOf (trimGaps (loosenAll run)), t.isPhrase = true ∧ t.isClear = true) ∧
      ∃ r, AllRead r (tokensOf (trimGaps (loosenAll run))) := by
  obtain ⟨front, back, whole, -⟩ := exists_trimGaps (loosenAll run)
  have phrase := phrase_of_allInline regular inline
  rw [← tokensOf_loosenAll run, whole, tokensOf_append] at reads phrase
  rw [List.forall_mem_append] at phrase
  have cutFront := head?_tokensOf_of_phrase fun t ht => (phrase.2 t ht).1
  obtain ⟨-, reads⟩ := reads.of_append cutFront
  rw [tokensOf_append] at reads phrase
  rw [List.forall_mem_append] at phrase
  have cutBack := head?_tokensOf_of_phrase fun t ht => (phrase.2.2 t ht).1
  exact ⟨phrase.2.1, _, (reads.of_append cutBack).1⟩

theorem collapse_trimGaps (regular : ∀ i ∈ run, i.Regular) :
    Text.collapse (sources run) = Text.collapse (sources (trimGaps (loosenAll run))) ∧
      sources (trimGaps (loosenAll run)) ⊆ sources run := by
  obtain ⟨front, back, whole, frontGaps, backGaps⟩ := exists_trimGaps (loosenAll run)
  have plain := plain_loosenAll regular
  have source : sources run =
      sources front ++ (sources (trimGaps (loosenAll run)) ++ sources back) := by
    rw [← sources_append, ← sources_append, ← whole, ← sources_tokensOf, ← sources_tokensOf,
      tokensOf_loosenAll]
  rw [whole, List.forall_mem_append, List.forall_mem_append] at plain
  rw [source, Text.collapse_around (Layout.blank_sources plain.1 frontGaps)
    (Layout.blank_sources plain.2.2 backGaps)]
  exact ⟨rfl, List.subset_append_of_subset_right _ (List.subset_append_left _ _)⟩

/-- The copy of inline items is their source, collapsed, and it is read as it was written. -/
theorem copy_reads (regular : ∀ i ∈ run, i.Regular) (inline : allInline run = true)
    (reads : ∃ r, AllRead r (tokensOf run)) (spaced : Text.Spaced (sources run)) :
    sources (copy run) = Text.collapse (sources run) ∧
      ∀ r, Halts r → AllRead r (tokensOf (copy run)) := by
  obtain ⟨r, reads⟩ := reads
  have first := head?_tokensOf_trimGaps (loosenAll run)
  have last := getLast?_tokensOf_trimGaps regular
  obtain ⟨phrase, r, reads⟩ := allRead_trimGaps regular inline reads
  obtain ⟨collapsed, sub⟩ := collapse_trimGaps regular
  have own : ∀ t ∈ tokensOf (trimGaps (loosenAll run)), t.isPhrase = true := fun t ht =>
    (phrase t ht).1
  have begins := reads.isLed own first
  have ends := reads.isTrailed own last
  obtain ⟨copied, each⟩ := reads.copy phrase last
  rw [sources_tokensOf] at begins ends copied
  rw [collapsed, Text.collapse_eq_squeeze (spaced.of_subset sub) begins ends, ← copied,
    ← sources_tokensOf, copy, tokensOf_squeezeAll]
  exact ⟨rfl, each⟩

end Copy

end Item

end MarkupGrader.Markup
