import MarkupGrader.Proofs.Markup.RawReads
import MarkupGrader.Proofs.Markup.Sound

/-! Reading tokens in a row. A source is read into tokens exactly if each of them is read in front of
the sources of those behind it, so that rows of tokens can be cut apart and joined. -/

namespace MarkupGrader.Markup

variable {s t r rest : Text} {ts us : List Token}

abbrev Token.sources (ts : List Token) : Text := ts.flatMap Token.source

/-- The tokens are read in a row in front of the text. -/
inductive AllRead (r : Text) : List Token → Prop
  | nil : AllRead r []
  | cons {t : Token} {ts : List Token} (h : t.Reads (Token.sources ts ++ r)) (more : AllRead r ts) :
      AllRead r (t :: ts)
  | raw {t : Tag} {raw : Text} {ts : List Token} (key : isRawKey t.key = true)
      (opens : t.selfClosing = false) (h : t.Reads (raw ++ (Token.sources ts ++ r)))
      (split : readRaw? t.key (raw ++ (Token.sources ts ++ r)) = some (raw, Token.sources ts ++ r))
      (more : AllRead r ts) : AllRead r (.tag t :: .raw raw :: ts)

theorem Token.sources_append (ts us : List Token) :
    sources (ts ++ us) = sources ts ++ sources us := List.flatMap_append

theorem Token.sources_cons_append (t : Token) (ts : List Token) (r : Text) :
    sources (t :: ts) ++ r = t.source ++ (sources ts ++ r) := by
  rw [sources, List.flatMap_cons, List.append_assoc]

theorem tokens?_of_readTokens? (h : readTokens? s = some (ts, rest)) :
    tokens? s = (tokens? rest).map (ts ++ ·) := by
  obtain ⟨whole, nonempty⟩ := readTokens?_append h
  have visible : s.isEmpty = false := by
    rw [List.isEmpty_eq_false_iff, ← whole]
    exact List.append_ne_nil_of_left_ne_nil nonempty _
  rw [tokens?, visible, if_neg Bool.false_ne_true]
  split
  · next none =>
    rw [h] at none
    cases none
  · next found =>
    rw [h] at found
    cases found
    rfl

theorem AllRead.tokens?_append (h : AllRead r ts) :
    tokens? (Token.sources ts ++ r) = (tokens? r).map (ts ++ ·) := by
  induction h with
  | nil => simp
  | @cons t ts h _ ih =>
    rw [Token.sources_cons_append, tokens?_of_readTokens? h.readTokens?, ih, Option.map_map]
    rfl
  | @raw t raw ts key opens h split _ ih =>
    have read : readTokens? (t.source ++ (raw ++ (Token.sources ts ++ r))) =
        some ([.tag t, .raw raw], Token.sources ts ++ r) := by
      rw [h.readTokens?, if_pos key, opens, if_neg Bool.false_ne_true, split]
      rfl
    rw [Token.sources_cons_append, Token.sources_cons_append, Token.source, Token.source,
      tokens?_of_readTokens? read, ih, Option.map_map]
    rfl

theorem AllRead.tokens? (h : AllRead [] ts) : tokens? (Token.sources ts) = some ts := by
  have read := h.tokens?_append
  have done : Markup.tokens? [] = some [] := by rw [Markup.tokens?, if_pos (by rfl)]
  rwa [List.append_nil, done, Option.map_some, List.append_nil] at read

theorem allRead_of_tokens? (h : Markup.tokens? s = some ts) : AllRead [] ts := by
  fun_induction Markup.tokens? s generalizing ts with
  | case1 s empty =>
    cases h
    exact .nil
  | case2 => cases h
  | case3 s _ front rest found _ ih =>
    obtain ⟨more, inner, rfl⟩ := Option.map_eq_some_iff.mp h
    have whole : Token.sources more ++ [] = rest := by
      rw [List.append_nil]
      exact source_of_tokens? inner
    rcases reads_of_readTokens? found with
      ⟨t, rfl, reads⟩ | ⟨t, raw, u, rfl, reads, key, opens, split⟩
    · rw [← whole] at reads
      exact .cons reads (ih inner)
    · have front := splitRaw?_append split
      rw [List.nil_append] at front
      rw [← front, ← whole] at reads split
      exact .raw key opens reads split (ih inner)

theorem AllRead.append (h : AllRead (Token.sources us ++ r) ts) (more : AllRead r us) :
    AllRead r (ts ++ us) := by
  induction h with
  | nil => exact more
  | @cons t ts h _ ih =>
    refine .cons ?_ ih
    rwa [List.append_eq, Token.sources_append, List.append_assoc]
  | @raw t raw ts key opens h split _ ih =>
    rw [← List.append_assoc (Token.sources ts), ← Token.sources_append] at h split
    exact .raw key opens h split ih

/-- A row that does not begin with raw text may be cut off. -/
theorem AllRead.of_append (h : AllRead r (ts ++ us)) (cut : ∀ raw, us.head? ≠ some (.raw raw)) :
    AllRead (Token.sources us ++ r) ts ∧ AllRead r us := by
  induction ts using List.twoStepInduction with
  | nil => exact ⟨.nil, h⟩
  | singleton t =>
    cases h with
    | cons h more => exact ⟨.cons h .nil, more⟩
    | raw key opens h split more => exact absurd rfl (cut _)
  | cons_cons t u ts ih ih' =>
    cases h with
    | cons h more =>
      obtain ⟨front, back⟩ := ih' u more
      refine ⟨.cons ?_ front, back⟩
      rwa [← List.append_assoc, ← Token.sources_append]
    | raw key opens h split more =>
      obtain ⟨front, back⟩ := ih more
      rw [List.append_eq, Token.sources_append, List.append_assoc] at h split
      exact ⟨.raw key opens h split front, back⟩

theorem Token.sources_closing (closing : Closing) : sources closing.tokens = closing.source := by
  cases closing with
  | endTag e => exact List.append_nil _
  | implied => rfl
  | selfClosed => rfl

namespace Item

mutual

theorem sources_tokens : ∀ i : Item, Token.sources i.tokens = i.source
  | leaf t => by
    rw [tokens, source_leaf]
    exact List.append_nil _
  | element tag content closing => by
    rw [tokens, source_element, ← sources_tokensOf content, ← Token.sources_closing,
      ← Token.sources_append]
    rfl

theorem sources_tokensOf : ∀ items : List Item, Token.sources (tokensOf items) = sources items
  | [] => rfl
  | i :: rest => by
    rw [tokensOf, Token.sources_append, sources_tokens i, sources_tokensOf rest, sources_cons]

end

end Item

theorem readTokens?_endTag (s : Text) :
    readTokens? ('<' :: '/' :: s) = (readEndTag? s).map fun (t, rest) => ([.endTag t], rest) := by
  unfold readTokens?
  rw [readFiller?_bracket (by decide)]
  rfl

theorem AllRead.exists_endTag (h : AllRead r ts) (nonempty : ts ≠ [])
    (begins : Token.sources ts ++ r = '<' :: '/' :: s) : ∃ e us, ts = .endTag e :: us := by
  cases h with
  | nil => exact absurd rfl nonempty
  | @cons t ts h more =>
    rw [Token.sources_cons_append] at begins
    have read := h.readTokens?
    rw [begins, readTokens?_endTag] at read
    obtain ⟨⟨e, u⟩, -, eq⟩ := Option.map_eq_some_iff.mp read
    cases eq
    exact ⟨e, ts, rfl⟩
  | @raw t raw ts key opens h split more =>
    obtain ⟨c, u, eq, -, ne⟩ := h.head
    rw [Token.sources_cons_append, Token.sources_cons_append, Token.source, Token.source,
      Tag.source_append, eq] at begins
    injection begins with _ begins
    injection begins with same
    exact absurd same ne

theorem chained_of_allRead (h : AllRead [] ts) : Chained ts := by
  induction h with
  | nil => exact .nil
  | @cons t ts h _ ih =>
    cases t with
    | tag t => exact .tag h.2 ih
    | endTag t => exact .endTag t ih
    | raw t => exact absurd h id
    | filler f => exact .leaf (by simp) (by simp) (by simp) ih
    | doctype d => exact .leaf (by simp) (by simp) (by simp) ih
    | text t => exact .leaf (by simp) (by simp) (by simp) ih
    | entity t => exact .leaf (by simp) (by simp) (by simp) ih
  | @raw t raw ts key opens h split more ih =>
    obtain ⟨-, u, begins⟩ := scanRaw_of_readRaw? split
    have nonempty : ts ≠ [] := by
      rintro rfl
      cases begins
    obtain ⟨e, us, rfl⟩ := more.exists_endTag nonempty begins
    cases ih with
    | leaf _ endTag => exact absurd rfl (endTag e)
    | endTag _ ih => exact .raw raw e key opens ih

theorem allRead_of_items {items : List Item} 
    (h : (Markup.tokens? s).bind unclosedItems? = some items) :
    AllRead [] (Item.tokensOf items) ∧ (∀ i ∈ items, i.Sound) ∧ Item.Settled items := by
  obtain ⟨ts, lexed, nested⟩ := Option.bind_eq_some_iff.mp h
  have all := allRead_of_tokens? lexed
  obtain ⟨sound, settled, rfl⟩ := sound_of_items? (chained_of_allRead all) nested
  exact ⟨all, sound, settled⟩

end MarkupGrader.Markup
