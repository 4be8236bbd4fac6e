import MarkupGrader.Proofs.Markup.AllRead
import MarkupGrader.Proofs.Text.Squeeze

/-! Reading squeezed text. White space ends or fills what is read, and how much of it there is never
matters, so that a squeezed source is read into the squeezed tokens of the source. -/

namespace MarkupGrader.Markup

open Text (isLed isTrailed squeeze)

variable {s t r rest : Text}

def Filler.squeeze : Filler → Filler
  | space t => space (Text.squeeze t)
  | comment t => comment (Text.squeeze t)

def Gap.squeeze (g : Gap) : Gap := g.map Filler.squeeze

def Value.squeeze : Value → Value
  | bare t => bare t
  | quoted quote lead t => quoted quote (Gap.squeeze lead) (Text.squeeze t)

def Assignment.squeeze (a : Assignment) : Assignment :=
  ⟨Gap.squeeze a.before, Gap.squeeze a.after, a.value.squeeze⟩

def Attribute.squeeze (a : Attribute) : Attribute := ⟨a.name, a.assigned.map Assignment.squeeze⟩

def TagPart.squeeze : TagPart → TagPart
  | filler f => filler f.squeeze
  | attr a => attr a.squeeze

def Tag.squeeze (t : Tag) : Tag :=
  ⟨Gap.squeeze t.lead, t.name, t.parts.map TagPart.squeeze, t.selfClosing⟩

def EndTag.squeeze (t : EndTag) : EndTag := ⟨Gap.squeeze t.lead, t.name, Gap.squeeze t.trail⟩

def Token.squeeze : Token → Token
  | filler f => filler f.squeeze
  | doctype d => doctype d
  | text t => text (Text.squeeze t)
  | entity t => entity t
  | tag t => tag t.squeeze
  | endTag t => endTag t.squeeze
  | raw t => raw t

theorem exists_squeeze_of_isLed (led : isLed t = true) : ∃ u, squeeze t = ' ' :: u := by
  induction t with
  | nil => cases led
  | cons c t ih =>
    cases more : isLed t with
    | true =>
      rw [Text.squeeze_cons_of_led led more]
      exact ih more
    | false => exact ⟨_, Text.squeeze_cons_of_space led more⟩

theorem closeComment?_of_isLed (led : isLed s = true) (dashes : Nat) :
    closeComment? dashes s = closeComment? 0 s := by
  cases s with
  | nil => cases led
  | cons c s =>
    have close : c ≠ '>' := Text.ne_of_isSpace led rfl
    have dash : c ≠ '-' := Text.ne_of_isSpace led rfl
    rw [closeComment?, closeComment?, if_neg (not_and_of_not_left _ close),
      if_neg (not_and_of_not_left _ close), if_neg dash, if_neg dash]

theorem isLed_of_closeComment? {dashes : Nat} (h : closeComment? dashes s = some (t, rest)) :
    isLed t = isLed s := by
  have whole := closeComment?_append h
  cases s with
  | nil => cases h
  | cons c s =>
    cases t with
    | nil =>
      unfold closeComment? at h
      split at h
      · cases h
      · obtain ⟨u, -, eq⟩ := Option.map_eq_some_iff.mp h
        cases eq
    | cons d t =>
      injection whole with same
      rw [same]
      rfl

theorem closeComment?_squeeze (dashes : Nat) (s : Text) :
    closeComment? dashes (squeeze s) =
      (closeComment? dashes s).map fun (t, rest) => (squeeze t, squeeze rest) := by
  induction s generalizing dashes with
  | nil => rfl
  | cons c s ih =>
    cases space : isSpace c with
    | false =>
      rw [Text.squeeze_cons_of_solid space, closeComment?, closeComment?]
      split
      · simp [Text.squeeze_cons_of_solid space]
      · rw [ih, Option.map_map, Option.map_map]
        refine Option.map_congr fun u _ => ?_
        simp [Text.squeeze_cons_of_solid space]
    | true =>
      have close : c ≠ '>' := Text.ne_of_isSpace space rfl
      have dash : c ≠ '-' := Text.ne_of_isSpace space rfl
      rw [closeComment?.eq_2 dashes, if_neg (not_and_of_not_left _ close), if_neg dash,
        Option.map_map]
      cases led : isLed s with
      | true =>
        have still := closeComment?_of_isLed ((Text.isLed_squeeze s).trans led) dashes
        rw [Text.squeeze_cons_of_led space led, still, ih]
        refine Option.map_congr fun u hu => ?_
        have first := (isLed_of_closeComment? hu).trans led
        simp [Text.squeeze_cons_of_led space first]
      | false =>
        rw [Text.squeeze_cons_of_space space led, closeComment?,
          if_neg (not_and_of_not_left _ (by decide)), if_neg (by decide), ih, Option.map_map]
        refine Option.map_congr fun u hu => ?_
        have first := (isLed_of_closeComment? hu).trans led
        simp [Text.squeeze_cons_of_space space first]

theorem readComment?_squeeze (s : Text) :
    readComment? (squeeze s) =
      (readComment? s).map fun (t, rest) => (squeeze t, squeeze rest) := by
  have solid : ∀ c ∈ ("<!--" : Text), isSpace c = false := by
    rw [← List.forall_mem_map (P := (· = false))]
    decide
  rw [readComment?, readComment?, Text.after?_squeeze solid]
  cases Text.after? "<!--" s with
  | none => rfl
  | some inner =>
    simp only [Option.map_some, Option.bind_some, closeComment?_squeeze, Option.map_map]
    refine Option.map_congr fun u _ => ?_
    exact congrArg (·, squeeze u.2) (Text.squeeze_append_of_solid solid u.1).symm

theorem readFiller?_squeeze (s : Text) :
    readFiller? (squeeze s) =
      (readFiller? s).map fun (f, rest) => (f.squeeze, squeeze rest) := by
  obtain ⟨taken, left⟩ := Text.while_squeeze (p := isSpace) (fun c hc => hc) s
  have empty : (squeeze (s.takeWhile isSpace)).isEmpty = (s.takeWhile isSpace).isEmpty := by
    rw [Bool.eq_iff_iff, List.isEmpty_iff, List.isEmpty_iff, Text.squeeze_eq_nil]
  simp only [readFiller?, taken, left, empty]
  split
  · rw [readComment?_squeeze, Option.map_map, Option.map_map]
    rfl
  · rfl

theorem readGap_squeeze (s : Text) :
    readGap (squeeze s) = (Gap.squeeze (readGap s).1, squeeze (readGap s).2) := by
  fun_induction readGap s with
  | case1 s found =>
    have none := readFiller?_squeeze s
    rw [found] at none
    exact readGap_of_none none
  | case2 s f rest found _ gap r eq ih =>
    have read := readFiller?_squeeze s
    rw [found] at read
    rw [eq] at ih
    rw [readGap_of_some read, ih]
    rfl

theorem readComments_squeeze (s : Text) :
    readComments (squeeze s) = (Gap.squeeze (readComments s).1, squeeze (readComments s).2) := by
  have stops := isLed_of_readFiller?_none (readFiller?_readGap s)
  have squeezed := readGap_squeeze s
  unfold readComments
  cases eq : readGap s with
  | mk gap rest =>
    rw [eq] at stops squeezed
    rw [squeezed]
    simp only [Gap.squeeze, List.getLast?_map]
    cases gap.getLast? with
    | none => rfl
    | some f =>
      cases f with
      | comment t => rfl
      | space t =>
        simp only [Option.map_some, Filler.squeeze]
        rw [Text.squeeze_append (.inr stops), List.map_dropLast]

theorem isAttributeNameChar_of_isSpace {c : Char} (space : isSpace c = true) :
    isAttributeNameChar c = false := by
  rw [isAttributeNameChar, space, Bool.or_true]
  rfl

theorem isBareValueChar_of_isSpace {c : Char} (space : isSpace c = true) :
    isBareValueChar c = false := by
  rw [isBareValueChar, space, Bool.or_true]
  rfl

theorem isNameChar_of_isSpace {c : Char} (space : isSpace c = true) : isNameChar c = false := by
  rw [← Bool.not_eq_true]
  intro name
  rw [(isNameChar_ne name).1] at space
  cases space

theorem readValue?_space (s : Text) : readValue? (' ' :: s) = none := by
  rw [readValue?, if_neg (by decide), if_neg (by decide)]

theorem readValue?_squeeze (s : Text) :
    readValue? (squeeze s) = (readValue? s).map fun (v, rest) => (v.squeeze, squeeze rest) := by
  cases s with
  | nil => rfl
  | cons c s =>
    cases space : isSpace c with
    | true =>
      have quote : ¬ isQuote c := fun h => by
        rw [isSpace_of_isQuote h] at space
        cases space
      have led : isLed (c :: s) = true := space
      obtain ⟨u, eq⟩ := exists_squeeze_of_isLed led
      rw [eq, readValue?_space, readValue?, if_neg quote, isBareValueChar_of_isSpace space,
        if_neg Bool.false_ne_true]
      rfl
    | false =>
      have whole := Text.squeeze_cons_of_solid space s
      rw [whole, readValue?, readValue?]
      split
      · next quote =>
        have ne : ∀ d, isSpace d = true → (d != c) = (' ' != c) := by
          intro d hd
          rw [bne_iff_ne.mpr (Text.ne_of_isSpace hd space),
            bne_iff_ne.mpr (Text.ne_of_isSpace rfl space)]
        obtain ⟨taken, left⟩ := Text.while_squeeze ne (readComments s).2
        rw [readComments_squeeze]
        simp only
        rw [taken, left]
        cases behind : (readComments s).2.dropWhile (· != c) with
        | nil => rfl
        | cons d after =>
          have head := List.head?_dropWhile_not (· != c) (readComments s).2
          rw [behind] at head
          obtain rfl : d = c := by simpa using head
          rw [Text.squeeze_cons_of_solid space]
          rfl
      · split
        · have stops : ∀ d, isSpace d = true → isBareValueChar d = false := fun d hd =>
            isBareValueChar_of_isSpace hd
          rw [← whole, Text.takeWhile_squeeze stops, Text.dropWhile_squeeze stops]
          rfl
        · rfl

theorem readAttribute?_squeeze (s : Text) :
    readAttribute? (squeeze s) =
      (readAttribute? s).map fun (a, rest) => (a.squeeze, squeeze rest) := by
  have stops : ∀ d, isSpace d = true → isAttributeNameChar d = false := fun d hd =>
    isAttributeNameChar_of_isSpace hd
  simp only [readAttribute?]
  rw [Text.takeWhile_squeeze stops, Text.dropWhile_squeeze stops, readGap_squeeze]
  split
  · rfl
  · have led := isLed_of_readFiller?_none (readFiller?_readGap (s.dropWhile isAttributeNameChar))
    generalize (readGap (s.dropWhile isAttributeNameChar)).2 = rest at *
    cases rest with
    | nil => rfl
    | cons d tail =>
      rw [Text.squeeze_cons_of_solid led]
      by_cases equals : d = '='
      · subst equals
        simp only
        rw [readGap_squeeze, readValue?_squeeze, Option.map_map, Option.map_map]
        rfl
      · split
        · next eq => exact absurd (List.cons.inj eq).1 equals
        · split
          · next eq => exact absurd (List.cons.inj eq).1 equals
          · rfl

theorem readTagPart?_squeeze (s : Text) :
    readTagPart? (squeeze s) =
      (readTagPart? s).map fun (p, rest) => (p.squeeze, squeeze rest) := by
  rw [readTagPart?, readTagPart?, readFiller?_squeeze]
  cases readFiller? s with
  | some f => rfl
  | none =>
    simp only [Option.map_none]
    rw [readAttribute?_squeeze, Option.map_map, Option.map_map]
    rfl

theorem readTagParts?_of_readTagPart? {p : TagPart} (open_ : Text.after? ">" s = none)
    (notClosed : Text.after? "/>" s = none) (h : readTagPart? s = some (p, rest)) :
    readTagParts? s =
      (readTagParts? rest).map fun (parts, closing, r) => (p :: parts, closing, r) := by
  rw [readTagParts?, open_, notClosed]
  simp only
  split
  · next none =>
    rw [h] at none
    cases none
  · next found =>
    rw [h] at found
    cases found
    rfl

theorem readTagParts?_squeeze (s : Text) :
    readTagParts? (squeeze s) =
      (readTagParts? s).map fun (ps, closing, rest) =>
        (ps.map TagPart.squeeze, closing, squeeze rest) := by
  have solid : ∀ c ∈ (">" : Text), isSpace c = false := by simp; rfl
  have solid' : ∀ c ∈ ("/>" : Text), isSpace c = false := by simp; decide
  fun_induction readTagParts? s with
  | case1 s r eq =>
    rw [readTagParts?, Text.after?_squeeze solid, eq]
    rfl
  | case2 s r eq eq' =>
    rw [readTagParts?, Text.after?_squeeze solid, Text.after?_squeeze solid', eq, eq']
    rfl
  | case3 s eq eq' none =>
    have none' := readTagPart?_squeeze s
    rw [none] at none'
    rw [readTagParts?, Text.after?_squeeze solid, Text.after?_squeeze solid', eq, eq']
    simp only [Option.map_none]
    split
    · rfl
    · next found =>
      rw [none'] at found
      cases found
  | case4 s eq eq' part r found _ ih =>
    have found' := readTagPart?_squeeze s
    rw [found] at found'
    have open_ := Text.after?_squeeze solid s
    have notClosed := Text.after?_squeeze solid' s
    rw [eq'] at open_
    rw [eq] at notClosed
    rw [readTagParts?_of_readTagPart? open_ notClosed found', ih, Option.map_map, Option.map_map]
    rfl

theorem readName?_squeeze (s : Text) :
    readName? (squeeze s) = (readName? s).map fun (name, rest) => (name, squeeze rest) := by
  have stops : ∀ d, isSpace d = true → isNameChar d = false := fun d hd => isNameChar_of_isSpace hd
  simp only [readName?]
  rw [Text.takeWhile_squeeze stops, Text.dropWhile_squeeze stops]
  split <;> rfl

theorem readTag?_squeeze (s : Text) :
    readTag? (squeeze s) = (readTag? s).map fun (t, rest) => (t.squeeze, squeeze rest) := by
  simp only [readTag?]
  rw [readGap_squeeze, readName?_squeeze]
  cases readName? (readGap s).2 with
  | none => rfl
  | some found =>
    simp only [Option.map_some, Option.bind_some, readTagParts?_squeeze, Option.map_map]
    rfl

theorem readEndTag?_squeeze (s : Text) :
    readEndTag? (squeeze s) = (readEndTag? s).map fun (t, rest) => (t.squeeze, squeeze rest) := by
  have solid : ∀ c ∈ (">" : Text), isSpace c = false := by simp; rfl
  simp only [readEndTag?]
  rw [readGap_squeeze, readName?_squeeze]
  cases readName? (readGap s).2 with
  | none => rfl
  | some found =>
    simp only [Option.map_some, Option.bind_some, readGap_squeeze, Text.after?_squeeze solid,
      Option.map_map]
    rfl

theorem TextReads.squeeze (h : TextReads r t) : TextReads (Text.squeeze r) (Text.squeeze t) := by
  refine ⟨fun c hc => ?_, fun none => h.nonempty (Text.squeeze_eq_nil.mp none), ?_, ?_, ?_⟩
  · have all := (Text.while_squeeze (p := isTextChar) (fun c hc => isTextChar_of_isSpace hc) t).1
    rw [(List.takeWhile_eq_self_iff.mpr h.chars)] at all
    exact List.takeWhile_eq_self_iff.mp all c hc
  · rw [Text.isLed_squeeze, h.begins]
  · rw [Text.isTrailed_squeeze, h.ends]
  · have stops := h.stops
    have led := isLed_dropWhile r
    rw [(Text.while_squeeze (p := isSpace) (fun c hc => hc) r).2]
    cases behind : r.dropWhile isSpace with
    | nil => rfl
    | cons c u =>
      rw [behind] at stops led
      rw [Text.squeeze_cons_of_solid led]
      exact stops

theorem isBlank_of_isAlphanum {c : Char} (h : c.isAlphanum = true) : Text.isBlank c = false := by
  have value : c.val.toNat = c.toNat := rfl
  simp only [Char.isAlphanum, Char.isAlpha, Char.isUpper, Char.isLower, Char.isDigit,
    Bool.or_eq_true, Bool.and_eq_true, decide_eq_true_eq, ge_iff_le, UInt32.le_iff_toNat_le,
    value] at h
  have bounds : 48 ≤ c.toNat ∧ c.toNat ≤ 122 := by
    rcases h with (⟨low, high⟩ | ⟨low, high⟩) | ⟨low, high⟩
    · exact ⟨Nat.le_trans (by decide) low, Nat.le_trans high (by decide)⟩
    · exact ⟨Nat.le_trans (by decide) low, high⟩
    · exact ⟨low, Nat.le_trans high (by decide)⟩
  rw [← Bool.not_eq_true]
  intro blank
  simp only [Text.isBlank, Bool.or_eq_true, Bool.and_eq_true, decide_eq_true_eq, beq_iff_eq] at blank
  omega

theorem isAlphanum_of_isSpace {c : Char} (space : isSpace c = true) : c.isAlphanum = false := by
  rw [← Bool.not_eq_true]
  intro alphanum
  have solid := isBlank_of_isAlphanum alphanum
  rw [Text.isBlank_of_isSpace space] at solid
  cases solid

theorem goesOn_squeeze {p : Char → Bool} (stops : p ' ' = false) (r : Text) :
    GoesOn p r (squeeze r) := by
  cases r with
  | nil => exact .inl rfl
  | cons c r =>
    cases space : isSpace c with
    | false => exact .inl (by rw [Text.squeeze_cons_of_solid space]; rfl)
    | true =>
      have led : isLed (c :: r) = true := space
      obtain ⟨u, eq⟩ := exists_squeeze_of_isLed led
      exact .inr (by rw [eq]; exact stops)

theorem solid_take {p : Char → Bool} {n : Nat} (alphanum : ∀ c, p c = true → c.isAlphanum = true)
    (short : n ≤ (s.takeWhile p).length) : ∀ c ∈ s.take n, Text.isBlank c = false := by
  have front : s.take n <+: s.takeWhile p :=
    List.prefix_of_prefix_length_le (List.take_prefix n s) (List.takeWhile_prefix p)
      ((List.length_take_le n s).trans short)
  exact fun c hc => isBlank_of_isAlphanum (alphanum c (List.mem_takeWhile_imp (front.subset hc)))

theorem solid_entityLength (s : Text) :
    ∀ c ∈ s.take (entityLength s), Text.isBlank c = false := by
  cases s with
  | nil => simp
  | cons c s =>
    by_cases number : c = '#'
    · subst number
      cases s with
      | nil =>
        have none : entityLength ['#'] = 0 := by decide
        rw [none]
        simp
      | cons x s =>
        by_cases hex : x = 'x' ∨ x = 'X'
        · have solid := solid_take (s := s) (fun c => isAlphanum_of_isHexDigit)
            (Nat.min_le_right 6 _)
          rw [entityLength_hexadecimal hex]
          split
          · rw [Nat.add_comm, List.take_succ_cons, List.take_succ_cons, List.forall_mem_cons,
              List.forall_mem_cons]
            refine ⟨rfl, ?_, solid⟩
            rcases hex with rfl | rfl <;> rfl
          · simp
        · have solid := solid_take (s := x :: s) (p := Char.isDigit)
            (fun c hc => by rw [Char.isAlphanum, hc, Bool.or_true]) (Nat.min_le_right 5 _)
          rw [entityLength_decimal hex]
          split
          · rw [Nat.add_comm, List.take_succ_cons, List.forall_mem_cons]
            exact ⟨rfl, solid⟩
          · simp
    · rw [entityLength_name number]
      exact solid_take (fun c hc => by rw [Char.isAlphanum, hc, Bool.true_or])
        (Nat.min_le_right 30 _)

theorem EntityReads.visible {e : Text} (h : EntityReads r e) :
    ∀ c ∈ e, Text.isBlank c = false := by
  have solid := solid_entityLength (e.tail ++ r)
  obtain ⟨b, -, size, ⟨rfl, whole, -⟩ | ⟨rfl, whole⟩⟩ := readEntity?_eq_some h
  · rw [size, whole, List.take_left] at solid
    exact List.forall_mem_cons.mpr ⟨rfl, solid⟩
  · rw [size, whole, List.take_left] at solid
    refine List.forall_mem_cons.mpr ⟨rfl, List.forall_mem_append.mpr ⟨solid, ?_⟩⟩
    exact List.forall_mem_singleton.mpr rfl

theorem EntityReads.solid {e : Text} (h : EntityReads r e) : ∀ c ∈ e, isSpace c = false :=
  fun c hc => Text.isSpace_of_solid (h.visible c hc)

def Token.isPhrase : Token → Bool
  | filler (.comment _) => false
  | doctype _ => false
  | raw _ => false
  | _ => true

/-- A token of a source is squeezed to one of the squeezed source. -/
theorem Token.Reads.squeeze {t : Token} (h : t.Reads r) (phrase : t.isPhrase = true) :
    t.squeeze.Reads (Text.squeeze r) ∧
      Text.squeeze (t.source ++ r) = t.squeeze.source ++ Text.squeeze r := by
  cases t with
  | doctype d => cases phrase
  | raw t => cases phrase
  | filler f =>
    have read := readFiller?_squeeze (f.source ++ r)
    rw [show readFiller? (f.source ++ r) = some (f, r) from h] at read
    exact ⟨Filler.reads_of_read read, (readFiller?_append read).1.symm⟩
  | text t => exact ⟨TextReads.squeeze h, Text.squeeze_append (.inl (TextReads.ends h))⟩
  | entity e =>
    exact ⟨⟨h.1.before (goesOn_squeeze rfl r), h.2⟩, Text.squeeze_append_of_solid h.1.solid r⟩
  | tag t =>
    have read := readTag?_squeeze (t.lead.source ++ (t.name ++ t.behind r))
    rw [Tag.Reads.readTag? h.1] at read
    refine ⟨⟨Tag.reads_of_read read, h.2⟩, ?_⟩
    have whole := readTag?_append read
    rw [Token.source, Tag.source_append, Text.squeeze_cons_of_solid rfl, ← whole]
    rfl
  | endTag t =>
    have read := readEndTag?_squeeze (t.lead.source ++ (t.name ++ (t.trail.source ++ '>' :: r)))
    rw [EndTag.Reads.readEndTag? h] at read
    refine ⟨EndTag.reads_of_read read, ?_⟩
    have whole := readEndTag?_append read
    rw [Token.source, EndTag.source_append, Text.squeeze_cons_of_solid rfl,
      Text.squeeze_cons_of_solid rfl, ← whole]
    rfl

theorem AllRead.squeeze {ts : List Token} (h : AllRead r ts)
    (phrase : ∀ t ∈ ts, t.isPhrase = true) :
    AllRead (Text.squeeze r) (ts.map Token.squeeze) ∧
      Text.squeeze (Token.sources ts ++ r) =
        Token.sources (ts.map Token.squeeze) ++ Text.squeeze r := by
  induction h with
  | nil => exact ⟨.nil, rfl⟩
  | @cons t ts h _ ih =>
    obtain ⟨first, others⟩ := List.forall_mem_cons.mp phrase
    obtain ⟨more, whole⟩ := ih others
    obtain ⟨reads, source⟩ := h.squeeze first
    rw [whole] at reads source
    refine ⟨.cons reads more, ?_⟩
    rw [Token.sources_cons_append, source, List.map_cons, Token.sources_cons_append]
  | @raw t raw ts _ _ _ _ _ _ =>
    have phrase := phrase (.raw raw) (List.mem_cons_of_mem _ List.mem_cons_self)
    cases phrase

end MarkupGrader.Markup
