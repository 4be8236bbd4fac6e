import MarkupGrader.Proofs.Markup.TagReads

/-! Reading tokens. A token is read again in front of another text that goes on like the one it was
read in front of. How much has to be alike depends on the token: white space must end, a text must be
followed by markup or an entity, and an entity must not grow longer. -/

namespace MarkupGrader.Markup

open Text (isLed isTrailed)

variable {s t r rest : Text}

structure TextReads (r t : Text) : Prop where
  chars : ∀ c ∈ t, isTextChar c = true
  nonempty : t ≠ []
  begins : isLed t = false
  ends : isTrailed t = false
  stops : (r.dropWhile isSpace).head?.any isTextChar = false

theorem isTextChar_of_isSpace {c : Char} (h : isSpace c = true) : isTextChar c = true := by
  have ne : ∀ d : Char, isSpace d = false → (c == d) = false := fun d hd =>
    beq_eq_false_iff_ne.mpr (Text.ne_of_isSpace h hd)
  rw [isTextChar, ne '<' rfl, ne '>' rfl, ne '&' rfl]
  rfl

theorem isTrailed_eq_isLed_reverse (t : Text) : isTrailed t = isLed t.reverse := by
  rw [isTrailed, isLed, List.head?_reverse]

theorem TextReads.readText (h : TextReads r t) : readText (t ++ r) = (t, r) := by
  have spaces : ∀ c ∈ r.takeWhile isSpace, isSpace c = true := fun c hc => List.mem_takeWhile_imp hc
  have run : (t ++ r).takeWhile isTextChar = t ++ r.takeWhile isSpace := by
    have front : ∀ c ∈ t ++ r.takeWhile isSpace, isTextChar c = true := by
      intro c hc
      rcases List.mem_append.mp hc with hc | hc
      · exact h.chars c hc
      · exact isTextChar_of_isSpace (spaces c hc)
    have whole := (takeWhile_append_of_stops front h.stops).1
    rwa [List.append_assoc, take_drop_while r] at whole
  have reversed : isLed t.reverse = false := by rw [← isTrailed_eq_isLed_reverse, h.ends]
  have back : ∀ c ∈ (r.takeWhile isSpace).reverse, isSpace c = true := fun c hc =>
    spaces c (List.mem_reverse.mp hc)
  have trimmed := (takeWhile_append_of_stops back reversed).2
  rw [Markup.readText, run, List.reverse_append, trimmed, List.reverse_reverse, List.drop_left]

theorem textReads_of_read (led : isLed s = false) (h : readText s = (t, rest)) (nonempty : t ≠ []) :
    TextReads rest t := by
  have whole := readText_append s
  rw [h] at whole
  cases h
  have run := take_drop_while (p := isSpace) (s.takeWhile isTextChar).reverse
  -- The run of text is what is read, and white space behind it.
  have split : s.takeWhile isTextChar =
      ((s.takeWhile isTextChar).reverse.dropWhile isSpace).reverse ++
        ((s.takeWhile isTextChar).reverse.takeWhile isSpace).reverse := by
    rw [← List.reverse_append, run, List.reverse_reverse]
  generalize front : ((s.takeWhile isTextChar).reverse.dropWhile isSpace).reverse = t at *
  generalize back : ((s.takeWhile isTextChar).reverse.takeWhile isSpace).reverse = b at split
  have spaces : ∀ c ∈ b, isSpace c = true := by
    intro c hc
    rw [← back] at hc
    exact List.mem_takeWhile_imp (List.mem_reverse.mp hc)
  have rest_eq : s.drop t.length = b ++ s.dropWhile isTextChar := by
    have sum := take_drop_while (p := isTextChar) s
    have both : t ++ (b ++ s.dropWhile isTextChar) = t ++ s.drop t.length := by
      rw [← List.append_assoc, ← split, sum]
      exact whole.symm
    exact (List.append_cancel_left both).symm
  have head := any_head?_dropWhile isTextChar s
  have after : isLed (s.dropWhile isTextChar) = false := by
    cases eq : s.dropWhile isTextChar with
    | nil => rfl
    | cons c u =>
      rw [eq] at head
      rw [← Bool.not_eq_true]
      intro space
      rw [List.head?_cons, Option.any_some, isTextChar_of_isSpace space] at head
      cases head
  refine ⟨fun c hc => ?_, nonempty, ?_, ?_, ?_⟩
  · refine List.mem_takeWhile_imp (l := s) ?_
    rw [split]
    exact List.mem_append_left _ hc
  · rwa [← whole, Text.isLed_append_of_ne_nil nonempty] at led
  · rw [isTrailed_eq_isLed_reverse, ← front, List.reverse_reverse]
    exact isLed_dropWhile _
  · rw [rest_eq, (takeWhile_append_of_stops spaces after).2]
    exact head

/-- The entity, told without its first character, is read in front of the text. -/
def EntityReads (r e : Text) : Prop := readEntity? (e.tail ++ r) = some (e, r)

/-- The text begins with the character that the other one begins with, or with none of the kind. -/
def GoesOn (p : Char → Bool) (rest r : Text) : Prop :=
  r.head? = rest.head? ∨ r.head?.any p = false

theorem takeWhile_length_before {p : Char → Bool} {limit : Nat} {b u v : Text}
    (h : min limit ((b ++ u).takeWhile p).length = b.length) (goes : GoesOn p u v) :
    min limit ((b ++ v).takeWhile p).length = b.length := by
  have passes : ∀ c ∈ b, p c = true := by
    have long : b.length ≤ ((b ++ u).takeWhile p).length := by omega
    have front := List.takeWhile_prefix (l := b ++ u) p
    have same : b <+: (b ++ u).takeWhile p :=
      List.prefix_of_prefix_length_le (List.prefix_append b u) front long
    exact fun c hc => List.mem_takeWhile_imp (same.subset hc)
  rw [List.takeWhile_append_of_pos passes, List.length_append] at h ⊢
  by_cases limited : limit = b.length
  · omega
  · have none : (u.takeWhile p).length = 0 := by omega
    have stops : u.head?.any p = false := by
      cases u with
      | nil => rfl
      | cons c u =>
        rw [← Bool.not_eq_true]
        intro passed
        have first : p c = true := passed
        rw [List.takeWhile_cons_of_pos first] at none
        cases none
    have stops' : v.head?.any p = false := by
      rcases goes with same | stops'
      · rwa [same]
      · exact stops'
    have nothing := (takeWhile_append_of_stops (t := []) (by simp) stops').1
    rw [List.nil_append] at nothing
    rw [nothing]
    simp only [List.length_nil, Nat.add_zero]
    omega

theorem GoesOn.mono {p q : Char → Bool} {u v : Text} (h : GoesOn p u v)
    (sub : ∀ c, q c = true → p c = true) : GoesOn q u v := by
  refine h.imp id fun stops => ?_
  rw [Option.any_eq_false] at stops ⊢
  intro c hc
  rw [← Bool.not_eq_true]
  intro passed
  have passed := sub c passed
  rw [stops c hc] at passed
  cases passed

theorem isAlphanum_of_isHexDigit {c : Char} (h : isHexDigit c = true) : c.isAlphanum = true := by
  simp only [isHexDigit, Bool.or_eq_true, Bool.and_eq_true, decide_eq_true_eq] at h
  simp only [Char.isAlphanum, Char.isAlpha, Char.isUpper, Char.isLower, Bool.or_eq_true,
    Bool.and_eq_true, decide_eq_true_eq, ge_iff_le, UInt32.le_iff_toNat_le]
  have value : c.toNat = c.val.toNat := rfl
  rcases h with (digit | ⟨low, high⟩) | ⟨low, high⟩
  · exact .inr digit
  · refine .inl (.inr ⟨?_, ?_⟩) <;> rw [← value]
    · exact low
    · exact Nat.le_trans high (by decide)
  · refine .inl (.inl ⟨?_, ?_⟩) <;> rw [← value]
    · exact low
    · exact Nat.le_trans high (by decide)

theorem entityLength_hexadecimal {x : Char} (h : x = 'x' ∨ x = 'X') (s : Text) :
    entityLength ('#' :: x :: s) =
      if 0 < min 6 (s.takeWhile isHexDigit).length
      then 2 + min 6 (s.takeWhile isHexDigit).length else 0 := by
  have none : ((x :: s).takeWhile Char.isDigit).length = 0 := by
    rcases h with rfl | rfl <;> rfl
  rw [entityLength]
  simp only [if_pos h, none, Nat.min_zero, Nat.lt_irrefl, if_false]

theorem entityLength_decimal {x : Char} (h : ¬ (x = 'x' ∨ x = 'X')) (s : Text) :
    entityLength ('#' :: x :: s) =
      if 0 < min 5 ((x :: s).takeWhile Char.isDigit).length
      then 1 + min 5 ((x :: s).takeWhile Char.isDigit).length else 0 := by
  rw [entityLength]
  simp only [if_neg h, Nat.lt_irrefl, if_false]

theorem entityLength_name {c : Char} (ne : c ≠ '#') (s : Text) :
    entityLength (c :: s) = min 30 ((c :: s).takeWhile Char.isAlpha).length := by
  unfold entityLength
  split
  · next eq =>
    injection eq with first
    exact absurd first ne
  · rfl

theorem entityLength_before {b u v : Text} (nonempty : b ≠ [])
    (h : entityLength (b ++ u) = b.length) (goes : GoesOn Char.isAlphanum u v) :
    entityLength (b ++ v) = b.length := by
  obtain ⟨c, b, rfl⟩ := List.exists_cons_of_ne_nil nonempty
  by_cases number : c = '#'
  · subst number
    cases b with
    | nil =>
      -- A number sign alone is no entity.
      have alone : entityLength ('#' :: u) ≠ 1 := by
        cases u with
        | nil => decide
        | cons x u =>
          by_cases hex : x = 'x' ∨ x = 'X'
          · rw [entityLength_hexadecimal hex]
            split <;> omega
          · rw [entityLength_decimal hex]
            split <;> omega
      exact absurd h alone
    | cons x b =>
      simp only [List.cons_append, List.length_cons] at h ⊢
      by_cases hex : x = 'x' ∨ x = 'X'
      · rw [entityLength_hexadecimal hex] at h ⊢
        have positive : 0 < min 6 ((b ++ u).takeWhile isHexDigit).length := by
          split at h <;> omega
        rw [if_pos positive] at h
        have hexGoes : GoesOn isHexDigit u v := goes.mono fun _ => isAlphanum_of_isHexDigit
        have same := @takeWhile_length_before _ 6 b _ _ (by omega) hexGoes
        rw [same, if_pos (by omega)]
        omega
      · rw [entityLength_decimal hex] at h ⊢
        rw [← List.cons_append] at h ⊢
        have positive : 0 < min 5 ((x :: b ++ u).takeWhile Char.isDigit).length := by
          split at h <;> omega
        rw [if_pos positive] at h
        have digitGoes : GoesOn Char.isDigit u v := goes.mono fun c hc => by
          rw [Char.isAlphanum, hc, Bool.or_true]
        have same := @takeWhile_length_before _ 5 (x :: b) _ _
          (by rw [List.length_cons]; omega) digitGoes
        rw [same, List.length_cons, if_pos (Nat.succ_pos _)]
        omega
  · rw [List.cons_append, entityLength_name number] at h ⊢
    rw [← List.cons_append] at h ⊢
    refine takeWhile_length_before h (goes.mono fun c hc => ?_)
    rw [Char.isAlphanum, hc, Bool.true_or]

theorem length_takeWhile_le (p : Char → Bool) (s : Text) : (s.takeWhile p).length ≤ s.length :=
  (List.takeWhile_prefix p).length_le

theorem entityLength_le (s : Text) : entityLength s ≤ s.length := by
  cases s with
  | nil => decide
  | cons c s =>
    by_cases number : c = '#'
    · subst number
      cases s with
      | nil => decide
      | cons x s =>
        by_cases hex : x = 'x' ∨ x = 'X'
        · have inner := length_takeWhile_le isHexDigit s
          rw [entityLength_hexadecimal hex, List.length_cons, List.length_cons]
          split <;> omega
        · have inner := length_takeWhile_le Char.isDigit (x :: s)
          rw [entityLength_decimal hex, List.length_cons]
          split <;> omega
    · have inner := length_takeWhile_le Char.isAlpha (c :: s)
      rw [entityLength_name number]
      omega

theorem readEntity?_eq_some {e : Text} (h : readEntity? s = some (e, rest)) :
    ∃ b, b ≠ [] ∧ entityLength s = b.length ∧
      ((e = '&' :: b ∧ s = b ++ rest ∧ rest.head? ≠ some ';') ∨
        (e = '&' :: (b ++ [';']) ∧ s = b ++ ';' :: rest)) := by
  have whole := List.take_append_drop (entityLength s) s
  have size : (s.take (entityLength s)).length = entityLength s :=
    List.length_take_of_le (entityLength_le s)
  simp only [readEntity?] at h
  split at h
  · cases h
  · next positive =>
    have nonempty : s.take (entityLength s) ≠ [] := by
      intro none
      rw [none] at size
      exact positive size.symm
    split at h
    · next r eq =>
      cases h
      rw [eq] at whole
      exact ⟨_, nonempty, size.symm, .inr ⟨rfl, whole.symm⟩⟩
    · next other =>
      cases h
      refine ⟨_, nonempty, size.symm, .inl ⟨rfl, whole.symm, fun head => ?_⟩⟩
      cases eq : s.drop (entityLength s) with
      | nil =>
        rw [eq] at head
        cases head
      | cons c u =>
        rw [eq] at head
        cases head
        exact other u eq

theorem readEntity?_of_length {b : Text} (nonempty : b ≠ [])
    (h : entityLength (b ++ r) = b.length) (ends : r.head? ≠ some ';') :
    readEntity? (b ++ r) = some ('&' :: b, r) := by
  have positive : b.length ≠ 0 := by simpa using nonempty
  simp only [readEntity?, h, if_neg positive, List.take_left, List.drop_left]
  split
  · exact absurd rfl ends
  · rfl

theorem readEntity?_of_semicolon {b : Text} (nonempty : b ≠ [])
    (h : entityLength (b ++ ';' :: r) = b.length) :
    readEntity? (b ++ ';' :: r) = some ('&' :: (b ++ [';']), r) := by
  have positive : b.length ≠ 0 := by simpa using nonempty
  simp only [readEntity?, h, if_neg positive, List.take_left, List.drop_left]
  rfl

theorem entityReads_of_read {e : Text} (h : readEntity? s = some (e, rest)) :
    EntityReads rest e ∧ ∃ b, e = '&' :: b := by
  have whole := (readEntity?_append h).1
  have begins : ∃ b, e = '&' :: b := by
    obtain ⟨b, -, -, ⟨rfl, -⟩ | ⟨rfl, -⟩⟩ := readEntity?_eq_some h
    · exact ⟨b, rfl⟩
    · exact ⟨b ++ [';'], rfl⟩
  obtain ⟨b, rfl⟩ := begins
  rw [List.cons_append, List.cons.injEq] at whole
  exact ⟨by rw [EntityReads, List.tail_cons, whole.2, h], b, rfl⟩

theorem EntityReads.before {e : Text} (h : EntityReads rest e)
    (goes : GoesOn (fun c => c.isAlphanum || c == ';') rest r) : EntityReads r e := by
  obtain ⟨b, nonempty, size, ⟨rfl, eq, ends⟩ | ⟨rfl, eq⟩⟩ := readEntity?_eq_some h
  · rw [eq] at size
    have longer : GoesOn Char.isAlphanum rest r := goes.mono fun c hc => by rw [hc, Bool.true_or]
    have ends' : r.head? ≠ some ';' := by
      rcases goes with same | stops
      · rwa [same]
      · intro head
        rw [head] at stops
        cases stops
    exact readEntity?_of_length nonempty (entityLength_before nonempty size longer) ends'
  · rw [eq] at size
    have size' := entityLength_before nonempty size (v := ';' :: r) (.inl rfl)
    have read := readEntity?_of_semicolon nonempty size'
    rw [EntityReads, List.tail_cons, List.append_assoc]
    exact read

/-- The token is read in front of the text, apart from raw text, which is read with its tag. -/
def Token.Reads (r : Text) : Token → Prop
  | filler f => f.Reads r
  | doctype d => d.Reads r
  | text t => TextReads r t
  | entity e => EntityReads r e ∧ ∃ b, e = '&' :: b
  | tag t => t.Reads r ∧ isRawKey t.key = false
  | endTag t => t.Reads r
  | raw _ => False

def Token.isClear : Token → Bool
  | doctype d => d.isClear
  | tag t => t.isClear
  | _ => true

/-- The text `r` goes on like the text `rest` behind which the token was read. -/
def Token.Follows (rest r : Text) : Token → Prop
  | filler _ => isLed r = true → isLed rest = true
  | text _ => (r.dropWhile isSpace).head?.any isTextChar = true →
      (rest.dropWhile isSpace).head?.any isTextChar = true
  | entity _ => GoesOn (fun c => c.isAlphanum || c == ';') rest r
  | _ => True

theorem Token.Reads.before {t : Token} (h : t.Reads rest) (clear : t.isClear = true)
    (follows : t.Follows rest r) : t.Reads r := by
  cases t with
  | filler f => exact Filler.Reads.before h follows
  | doctype d => exact Doctype.Reads.before h clear r
  | text t =>
    refine ⟨h.chars, h.nonempty, h.begins, h.ends, ?_⟩
    rw [← Bool.not_eq_true]
    intro passed
    have passed := follows passed
    rw [h.stops] at passed
    cases passed
  | entity e => exact ⟨h.1.before follows, h.2⟩
  | tag t => exact ⟨h.1.before clear r, h.2⟩
  | endTag t => exact EndTag.Reads.before h r
  | raw t => exact absurd h id

theorem readComment?_eq_none_of_ne {a b : Text} {c d : Char} (front : ("<!--" : Text) = a ++ c :: b)
    (ne : d ≠ c) (s : Text) : readComment? (a ++ d :: s) = none := by
  refine readComment?_of_opens ?_
  rw [← Bool.not_eq_true]
  intro opens
  rw [front, List.isPrefixOf_iff_prefix, List.prefix_append_right_inj] at opens
  exact ne (List.cons_prefix_cons.mp opens).1.symm

theorem readFiller?_bracket {c : Char} (ne : c ≠ '!') (s : Text) :
    readFiller? ('<' :: c :: s) = none := by
  have led : isLed ('<' :: c :: s) = false := rfl
  have none : readComment? ('<' :: c :: s) = none :=
    readComment?_eq_none_of_ne (a := "<") (b := "--") rfl ne s
  rw [readFiller?_of_isLed led, none]
  rfl

theorem readFiller?_declaration {c : Char} (ne : c ≠ '-') (s : Text) :
    readFiller? ('<' :: '!' :: c :: s) = none := by
  have led : isLed ('<' :: '!' :: c :: s) = false := rfl
  have none : readComment? ('<' :: '!' :: c :: s) = none :=
    readComment?_eq_none_of_ne (a := "<!") (b := "-") rfl ne s
  rw [readFiller?_of_isLed led, none]
  rfl

theorem Gap.Reads.head_append {g : Gap} {c : Char} (h : Gap.Reads (c :: s) g) :
    ∃ d u, g.source ++ c :: s = d :: u ∧ (isSpace d = true ∨ d = '<' ∨ d = c) := by
  by_cases empty : g = []
  · subst empty
    exact ⟨c, s, rfl, .inr (.inr rfl)⟩
  · obtain ⟨d, u, eq, first⟩ := h.head empty
    refine ⟨d, u ++ c :: s, by rw [eq]; rfl, ?_⟩
    exact first.imp_right .inl

theorem readTokens?_text {c : Char} (char : isTextChar c = true)
    (none : readFiller? (c :: s) = none) {t : Text} (h : readText (c :: s) = (t, r)) (nonempty : t ≠ []) :
    readTokens? (c :: s) = some ([.text t], r) := by
  have ne : c ≠ '<' ∧ c ≠ '>' ∧ c ≠ '&' := by
    refine ⟨?_, ?_, ?_⟩ <;> rintro rfl <;> cases char
  unfold readTokens?
  rw [none]
  simp only
  split
  · next eq => cases eq
  · next eq => exact absurd (List.cons.inj eq).1 ne.1
  · next eq => exact absurd (List.cons.inj eq).1 ne.1
  · next eq => exact absurd (List.cons.inj eq).1 ne.1
  · next eq => exact absurd (List.cons.inj eq).1 ne.2.2
  · next eq => exact absurd (List.cons.inj eq).1 ne.2.1
  · next eq =>
    cases eq
    rw [h]
    simp only
    rw [if_neg (by simpa using nonempty)]

theorem readTokens?_tag {c : Char} (ne : c ≠ '!' ∧ c ≠ '/') {t : Tag}
    (h : readTag? (c :: s) = some (t, r)) :
    readTokens? ('<' :: c :: s) =
      if isRawKey t.key then
        if t.selfClosing then none
        else (readRaw? t.key r).map fun (raw, rest) => ([.tag t, .raw raw], rest)
      else some ([.tag t], r) := by
  unfold readTokens?
  rw [readFiller?_bracket ne.1]
  simp only
  split
  · next eq => cases eq
  · next eq => exact absurd (List.cons.inj (List.cons.inj eq).2).1 ne.1
  · next eq => exact absurd (List.cons.inj (List.cons.inj eq).2).1 ne.2
  · next eq =>
    cases eq
    rw [h]
    rfl
  · next eq => exact absurd (List.cons.inj eq).1 (by decide)
  · next eq => exact absurd (List.cons.inj eq).1 (by decide)
  · next other _ _ eq => exact absurd (List.cons.inj eq).1.symm other

theorem Tag.Reads.head {t : Tag} (h : t.Reads r) :
    ∃ c u, t.lead.source ++ (t.name ++ t.behind r) = c :: u ∧ c ≠ '!' ∧ c ≠ '/' := by
  have lead := h.lead
  obtain ⟨c, name, eq⟩ := List.exists_cons_of_ne_nil h.name.nonempty
  obtain ⟨-, -, first, second⟩ := isNameChar_ne (h.name.chars c (by simp [eq]))
  rw [eq, List.cons_append] at lead ⊢
  obtain ⟨d, u, whole, kind⟩ := lead.head_append
  refine ⟨d, u, whole, ?_⟩
  rcases kind with space | rfl | rfl
  · exact ⟨Text.ne_of_isSpace space rfl, Text.ne_of_isSpace space rfl⟩
  · decide
  · exact ⟨first, second⟩

theorem Tag.Reads.readTokens? {t : Tag} (h : t.Reads r) :
    readTokens? (t.source ++ r) =
      if isRawKey t.key then
        if t.selfClosing then none
        else (readRaw? t.key r).map fun (raw, rest) => ([.tag t, .raw raw], rest)
      else some ([.tag t], r) := by
  have read := h.readTag?
  obtain ⟨c, u, eq, ne⟩ := h.head
  rw [eq] at read
  rw [Tag.source_append, eq]
  exact readTokens?_tag ne read

theorem Doctype.Reads.readFiller? {d : Doctype} (h : d.Reads r) :
    readFiller? (d.source ++ r) = none := by
  have lead := h.lead
  obtain ⟨c, word, eq, first⟩ := exists_of_sameName h.word
  rw [Doctype.source_append]
  rw [eq, List.cons_append] at lead ⊢
  obtain ⟨e, u, whole, kind⟩ := lead.head_append
  rw [whole]
  refine readFiller?_declaration ?_ u
  rcases kind with space | rfl | rfl
  · exact Text.ne_of_isSpace space rfl
  · decide
  · rintro rfl
    cases first

theorem Token.Reads.readTokens? {t : Token} (h : t.Reads r) :
    readTokens? (t.source ++ r) = some ([t], r) := by
  cases t with
  | filler f =>
    have read : Markup.readFiller? (f.source ++ r) = some (f, r) := h
    unfold Markup.readTokens?
    rw [Token.source, read]
  | doctype d =>
    have none := Doctype.Reads.readFiller? h
    unfold Markup.readTokens?
    rw [Token.source, none, Doctype.source_append]
    simp only
    rw [Doctype.Reads.readDoctype? h]
    rfl
  | text t =>
    have read := TextReads.readText h
    obtain ⟨c, u, rfl⟩ := List.exists_cons_of_ne_nil (TextReads.nonempty h)
    have char := TextReads.chars h c List.mem_cons_self
    have solid : isSpace c = false := TextReads.begins h
    refine readTokens?_text char (readFiller?_cons_of_solid solid ?_ _) read h.nonempty
    rintro rfl
    cases char
  | entity e =>
    obtain ⟨read, b, rfl⟩ := h
    unfold Markup.readTokens?
    rw [Token.source, List.cons_append,
      readFiller?_cons_of_solid (show isSpace '&' = false from rfl) (by decide)]
    simp only
    rw [show readEntity? (b ++ r) = some ('&' :: b, r) from read]
    rfl
  | tag t =>
    rw [Token.source, Tag.Reads.readTokens? h.1, h.2, if_neg Bool.false_ne_true]
  | endTag t =>
    unfold Markup.readTokens?
    rw [Token.source, EndTag.source_append, readFiller?_bracket (by decide)]
    simp only
    rw [EndTag.Reads.readEndTag? h]
    rfl
  | raw t => exact absurd h id

theorem reads_of_readTokens? {ts : List Token} (h : readTokens? s = some (ts, rest)) :
    (∃ t, ts = [t] ∧ t.Reads rest) ∨
      ∃ t raw u, ts = [.tag t, .raw raw] ∧ t.Reads u ∧ isRawKey t.key = true ∧
        t.selfClosing = false ∧ readRaw? t.key u = some (raw, rest) := by
  unfold readTokens? at h
  split at h
  · next f r found =>
    cases h
    exact .inl ⟨_, rfl, Filler.reads_of_read found⟩
  · next none =>
    split at h
    · cases h
    · obtain ⟨⟨d, u⟩, found, eq⟩ := Option.map_eq_some_iff.mp h
      cases eq
      exact .inl ⟨_, rfl, Doctype.reads_of_read found⟩
    · obtain ⟨⟨d, u⟩, found, eq⟩ := Option.map_eq_some_iff.mp h
      cases eq
      exact .inl ⟨_, rfl, EndTag.reads_of_read found⟩
    · obtain ⟨⟨t, u⟩, found, eq⟩ := Option.bind_eq_some_iff.mp h
      have reads := Tag.reads_of_read found
      simp only at eq
      split at eq
      · next raw =>
        split at eq
        · cases eq
        · next open_ =>
          obtain ⟨⟨v, w⟩, split, same⟩ := Option.map_eq_some_iff.mp eq
          cases same
          exact .inr ⟨t, v, u, rfl, reads, raw, by simpa using open_, split⟩
      · next plain =>
        cases eq
        exact .inl ⟨_, rfl, reads, by simpa using plain⟩
    · obtain ⟨⟨e, u⟩, found, eq⟩ := Option.map_eq_some_iff.mp h
      cases eq
      exact .inl ⟨_, rfl, entityReads_of_read found⟩
    · cases h
    · simp only at h
      split at h
      · cases h
      · next nonempty =>
        cases h
        exact .inl ⟨_, rfl, textReads_of_read (isLed_of_readFiller?_none none) rfl
          (by simpa using nonempty)⟩

end MarkupGrader.Markup
