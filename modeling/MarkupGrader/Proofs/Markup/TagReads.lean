import MarkupGrader.Proofs.Document.Tag
import MarkupGrader.Proofs.Markup.Gap

/-! Reading tags. A tag is read as the same tag whatever stands behind it, if none of its quoted values
begins like a comment: such a value would be cut as soon as a comment ends somewhere behind it. -/

namespace MarkupGrader.Markup

open Text (isLed)

variable {s t r rest : Text}

theorem takeWhile_append_of_stops {p : Char → Bool} (passes : ∀ c ∈ t, p c = true)
    (stops : r.head?.any p = false) :
    (t ++ r).takeWhile p = t ∧ (t ++ r).dropWhile p = r := by
  rw [List.takeWhile_append_of_pos passes, List.dropWhile_append_of_pos passes]
  cases r with
  | nil => exact ⟨List.append_nil t, rfl⟩
  | cons c r =>
    have stop : ¬ p c = true := Bool.eq_false_iff.mp stops
    rw [List.takeWhile_cons_of_neg stop, List.dropWhile_cons_of_neg stop, List.append_nil]
    exact ⟨rfl, rfl⟩

theorem any_head?_dropWhile (p : Char → Bool) (s : Text) : (s.dropWhile p).head?.any p = false := by
  have head := List.head?_dropWhile_not p s
  cases rest : s.dropWhile p with
  | nil => rfl
  | cons c u =>
    rw [rest] at head
    simpa using head

theorem isLed_of_head? (same : r.head? = rest.head?) (led : isLed r = true) : isLed rest = true := by
  rwa [isLed, ← same]

theorem head?_append_congr (same : r.head? = rest.head?) (a : Text) :
    (a ++ r).head? = (a ++ rest).head? := by
  rw [List.head?_append, List.head?_append, same]

def Value.isClear : Value → Bool
  | bare _ => true
  | quoted _ _ t => !opensComment t

abbrev isQuote (c : Char) : Prop := c = '"' ∨ c = '\''

theorem isSpace_of_isQuote {c : Char} (h : isQuote c) : isSpace c = false := by
  rcases h with rfl | rfl <;> rfl

theorem ne_of_isQuote {c : Char} (h : isQuote c) : c ≠ '<' := by
  rcases h with rfl | rfl <;> decide

theorem prefix_of_prefix_append_cons {p u : Text} {q : Char} (clear : q ∉ p)
    (h : p <+: u ++ q :: r) : p <+: u := by
  induction p generalizing u with
  | nil => exact List.nil_prefix
  | cons d p ih =>
    rw [List.mem_cons, not_or] at clear
    cases u with
    | nil => exact absurd (List.cons_prefix_cons.mp h).1.symm clear.1
    | cons c u =>
      obtain ⟨rfl, more⟩ := List.cons_prefix_cons.mp h
      exact List.cons_prefix_cons.mpr ⟨rfl, ih clear.2 more⟩

theorem opensComment_append {q : Char} (solid : isSpace q = false) (outside : q ∉ ("<!--" : Text))
    (clear : opensComment t = false) (r : Text) : opensComment (t ++ q :: r) = false := by
  have rest : (t ++ q :: r).dropWhile isSpace = t.dropWhile isSpace ++ q :: r := by
    rw [List.dropWhile_append]
    split
    · next none =>
      rw [List.isEmpty_iff.mp none]
      exact List.dropWhile_cons_of_neg (Bool.eq_false_iff.mp solid)
    · rfl
  rw [← Bool.not_eq_true] at clear ⊢
  intro opens
  unfold opensComment at opens clear
  rw [rest, List.isPrefixOf_iff_prefix] at opens
  exact clear (List.isPrefixOf_iff_prefix.mpr (prefix_of_prefix_append_cons outside opens))

def Value.Reads (r : Text) (v : Value) : Prop := readValue? (v.source ++ r) = some (v, r)

theorem Value.reads_of_read {v : Value} (h : readValue? s = some (v, rest)) : v.Reads rest := by
  rw [Value.Reads, readValue?_append h, h]

theorem not_isQuote_of_isBareValueChar {c : Char} (h : isBareValueChar c = true) :
    ¬ (c = '"' ∨ c = '\'') := by
  rintro (rfl | rfl) <;> cases h

theorem isSpace_of_isBareValueChar {c : Char} (h : isBareValueChar c = true) :
    isSpace c = false := by
  simp only [isBareValueChar, Bool.not_eq_true', Bool.or_eq_false_iff] at h
  exact h.2

theorem Value.reads_bare (nonempty : t ≠ []) (chars : ∀ c ∈ t, isBareValueChar c = true)
    (stops : r.head?.any isBareValueChar = false) : (Value.bare t).Reads r := by
  obtain ⟨taken, left⟩ := takeWhile_append_of_stops chars stops
  obtain ⟨c, u, rfl⟩ := List.exists_cons_of_ne_nil nonempty
  have first := chars c List.mem_cons_self
  rw [Value.Reads, Value.source, List.cons_append, readValue?,
    if_neg (not_isQuote_of_isBareValueChar first), if_pos first, ← List.cons_append, taken, left]

theorem Value.reads_quoted {q : Char} {lead : Gap} (quote : isQuote q)
    (gap : Gap.Reads (t ++ q :: r) lead) (solid : lead.EndsSolid) (clear : opensComment t = false)
    (free : q ∉ t) : (Value.quoted q lead t).Reads r := by
  have passes : ∀ c ∈ t, (c != q) = true := by
    intro c hc
    rw [bne_iff_ne]
    rintro rfl
    exact free hc
  have stops : (q :: r).head?.any (· != q) = false := by simp
  obtain ⟨taken, left⟩ := takeWhile_append_of_stops passes stops
  have outside : q ∉ ("<!--" : Text) := by
    rcases quote with rfl | rfl <;> decide
  have inner := readComments_of_reads gap solid
    (opensComment_append (isSpace_of_isQuote quote) outside clear r)
  have whole : (Value.quoted q lead t).source ++ r = q :: (lead.source ++ (t ++ q :: r)) := by
    simp [Value.source]
  rw [Value.Reads, whole, readValue?, if_pos quote, inner]
  simp only [taken, left]

theorem readValue?_eq_some {v : Value} (h : readValue? s = some (v, rest)) :
    (∃ t, v = .bare t ∧ t ≠ [] ∧ (∀ c ∈ t, isBareValueChar c = true) ∧
        rest.head?.any isBareValueChar = false) ∨
      ∃ q lead t, v = .quoted q lead t ∧ isQuote q ∧ Gap.Reads (t ++ q :: rest) lead ∧
        lead.EndsSolid ∧ q ∉ t := by
  cases s with
  | nil => cases h
  | cons c s =>
    simp only [readValue?] at h
    split at h
    · next quote =>
      obtain ⟨reads, solid⟩ := reads_readComments s
      have whole := take_drop_while (p := (· != c)) (readComments s).2
      have head := List.head?_dropWhile_not (· != c) (readComments s).2
      split at h
      · cases h
      · next d after last =>
        cases h
        rw [last] at whole head
        obtain rfl : d = c := by simpa using head
        rw [← whole] at reads
        refine .inr ⟨d, _, _, rfl, quote, reads, solid, fun mem => ?_⟩
        have passed := List.mem_takeWhile_imp mem
        simp at passed
    · split at h
      · next bare =>
        cases h
        refine .inl ⟨_, rfl, ?_, fun c hc => List.mem_takeWhile_imp hc, any_head?_dropWhile _ _⟩
        rw [List.takeWhile_cons_of_pos bare]
        exact List.cons_ne_nil _ _
      · cases h

theorem Value.Reads.before {v : Value} (h : v.Reads rest) (clear : v.isClear = true)
    (same : r.head? = rest.head?) : v.Reads r := by
  obtain ⟨t, rfl, nonempty, chars, stops⟩ | ⟨q, lead, t, rfl, quote, gap, solid, free⟩ :=
    readValue?_eq_some h
  · rw [← same] at stops
    exact Value.reads_bare nonempty chars stops
  · have inner : Gap.Reads (t ++ q :: r) lead := by
      refine gap.before ?_
      cases t <;> exact id
    exact Value.reads_quoted quote inner solid (by simpa [isClear] using clear) free

theorem Value.Reads.readFiller? {v : Value} (h : v.Reads rest) (r : Text) :
    readFiller? (v.source ++ r) = none := by
  obtain ⟨t, rfl, nonempty, chars, -⟩ | ⟨q, lead, t, rfl, quote, -⟩ := readValue?_eq_some h
  · obtain ⟨c, u, rfl⟩ := List.exists_cons_of_ne_nil nonempty
    have first := chars c List.mem_cons_self
    refine readFiller?_cons_of_solid (isSpace_of_isBareValueChar first) ?_ _
    rintro rfl
    cases first
  · exact readFiller?_cons_of_solid (isSpace_of_isQuote quote) (ne_of_isQuote quote) _

def Attribute.isClear (a : Attribute) : Bool := a.assigned.all (·.value.isClear)

def Attribute.Reads (r : Text) (a : Attribute) : Prop :=
  readAttribute? (a.source ++ r) = some (a, r)

theorem isAttributeNameChar_ne {c : Char} (h : isAttributeNameChar c = true) :
    isSpace c = false ∧ c ≠ '<' ∧ c ≠ '>' ∧ c ≠ '/' ∧ c ≠ '=' := by
  simp only [isAttributeNameChar, Bool.not_eq_true', Bool.or_eq_false_iff, beq_eq_false_iff_ne] at h
  obtain ⟨⟨⟨⟨⟨⟨h1, h2⟩, -⟩, -⟩, h5⟩, h6⟩, h7⟩ := h
  exact ⟨h7, h1, h2, h5, h6⟩

structure Attribute.Named (a : Attribute) : Prop where
  nonempty : a.name ≠ []
  chars : ∀ c ∈ a.name, isAttributeNameChar c = true

theorem any_head?_gap {g : Gap} (h : Gap.Reads ('=' :: s) g) :
    (g.source ++ '=' :: s).head?.any isAttributeNameChar = false := by
  by_cases empty : g = []
  · subst empty
    rfl
  · obtain ⟨c, u, eq, first⟩ := h.head empty
    rw [eq]
    rcases first with space | rfl
    · have : isAttributeNameChar c = false := by simp [isAttributeNameChar, space]
      exact this
    · rfl

theorem Attribute.reads_of_none {a : Attribute} (named : a.Named) (none : a.assigned = none)
    (stops : r.head?.any isAttributeNameChar = false) (other : (readGap r).2.head? ≠ some '=') :
    a.Reads r := by
  obtain ⟨name, assigned⟩ := a
  cases none
  obtain ⟨taken, left⟩ := takeWhile_append_of_stops named.chars stops
  have source : Attribute.source ⟨name, Option.none⟩ = name := List.append_nil name
  rw [Attribute.Reads, source, readAttribute?, taken, left,
    if_neg (by simpa using named.nonempty)]
  simp only
  split
  · next eq =>
    rw [eq] at other
    exact absurd rfl other
  · rfl

theorem Attribute.reads_of_some {a : Attribute} {b : Assignment} (named : a.Named)
    (some : a.assigned = some b)
    (before : Gap.Reads ('=' :: (b.after.source ++ (b.value.source ++ r))) b.before)
    (after : Gap.Reads (b.value.source ++ r) b.after) (value : b.value.Reads r) : a.Reads r := by
  obtain ⟨name, assigned⟩ := a
  cases some
  obtain ⟨taken, left⟩ := takeWhile_append_of_stops named.chars (any_head?_gap before)
  have first := readGap_eq_of_reads before
    (readFiller?_cons_of_solid (show isSpace '=' = false from rfl) (by decide) _)
  have second := readGap_eq_of_reads after (value.readFiller? r)
  have whole : Attribute.source ⟨name, Option.some b⟩ ++ r =
      name ++ (b.before.source ++ '=' :: (b.after.source ++ (b.value.source ++ r))) := by
    simp [Attribute.source, Assignment.source]
  rw [Attribute.Reads, whole, readAttribute?, taken, left, if_neg (by simpa using named.nonempty),
    first]
  simp only [second]
  rw [value]
  rfl

theorem readAttribute?_eq_some {a : Attribute} (h : readAttribute? s = some (a, rest)) :
    a.Named ∧
      ((a.assigned = none ∧ rest.head?.any isAttributeNameChar = false ∧
          (readGap rest).2.head? ≠ some '=') ∨
        ∃ b, a.assigned = some b ∧
          Gap.Reads ('=' :: (b.after.source ++ (b.value.source ++ rest))) b.before ∧
          Gap.Reads (b.value.source ++ rest) b.after ∧ b.value.Reads rest) := by
  have named : ∀ b, (s.takeWhile isAttributeNameChar).isEmpty = false →
      Attribute.Named ⟨s.takeWhile isAttributeNameChar, b⟩ := fun b nonempty =>
    ⟨by simpa using nonempty, fun c hc => List.mem_takeWhile_imp hc⟩
  have stops := any_head?_dropWhile isAttributeNameChar s
  have first := Gap.reads_readGap (s.dropWhile isAttributeNameChar)
  simp only [readAttribute?] at h
  split at h
  · cases h
  · next nonempty =>
    rw [Bool.not_eq_true] at nonempty
    split at h
    · next tail eq =>
      have second := Gap.reads_readGap tail
      have whole := readGap_append tail
      obtain ⟨⟨v, u⟩, found, same⟩ := Option.map_eq_some_iff.mp h
      cases same
      have value := Value.reads_of_read found
      rw [← readValue?_append found] at second
      rw [eq, ← whole, ← readValue?_append found] at first
      exact ⟨named _ nonempty, .inr ⟨_, rfl, first, second, value⟩⟩
    · next other =>
      cases h
      refine ⟨named _ nonempty, .inl ⟨rfl, stops, fun head => ?_⟩⟩
      cases eq : (readGap (s.dropWhile isAttributeNameChar)).2 with
      | nil =>
        rw [eq] at head
        cases head
      | cons c u =>
        rw [eq] at head
        cases head
        exact other u eq

theorem Attribute.reads_of_read {a : Attribute} (h : readAttribute? s = some (a, rest)) :
    a.Reads rest := by
  rw [Attribute.Reads, (readAttribute?_append h).1, h]

theorem Attribute.Reads.named {a : Attribute} (h : a.Reads rest) : a.Named :=
  (readAttribute?_eq_some h).1

theorem Attribute.Reads.before {a : Attribute} (h : a.Reads rest) (clear : a.isClear = true)
    (same : r.head? = rest.head?) (other : (readGap r).2.head? ≠ some '=') : a.Reads r := by
  obtain ⟨named, ⟨none, stops, -⟩ | ⟨b, some, before, after, value⟩⟩ := readAttribute?_eq_some h
  · rw [← same] at stops
    exact Attribute.reads_of_none named none stops other
  · have clear : b.value.isClear = true := by simpa [Attribute.isClear, some] using clear
    have valueHead := head?_append_congr same b.value.source
    exact Attribute.reads_of_some named some (before.before id)
      (after.before (isLed_of_head? valueHead)) (value.before clear same)

def TagPart.isClear : TagPart → Bool
  | filler _ => true
  | attr a => a.isClear

def TagPart.Reads (r : Text) : TagPart → Prop
  | filler f => f.Reads r
  | attr a => a.Reads r

def closerOf (closing : Bool) : Text := if closing then "/>" else ">"

/-- The parts are read in front of the end of a tag and the text. -/
def PartsRead (closing : Bool) (r : Text) : List TagPart → Prop
  | [] => True
  | p :: ps =>
    p.Reads (ps.flatMap TagPart.source ++ (closerOf closing ++ r)) ∧ PartsRead closing r ps

theorem closerOf_append (closing : Bool) (r : Text) :
    ∃ c u, closerOf closing ++ r = c :: u ∧ (c = '>' ∨ c = '/') := by
  cases closing with
  | false => exact ⟨'>', r, rfl, .inl rfl⟩
  | true => exact ⟨'/', '>' :: r, rfl, .inr rfl⟩

theorem readTagPart?_eq_some {p : TagPart} (h : readTagPart? s = some (p, rest)) :
    p.Reads rest := by
  unfold readTagPart? at h
  split at h
  · next found =>
    cases h
    exact Filler.reads_of_read found
  · obtain ⟨⟨a, u⟩, found, eq⟩ := Option.map_eq_some_iff.mp h
    cases eq
    exact Attribute.reads_of_read found

theorem TagPart.Reads.head {p : TagPart} (h : p.Reads rest) :
    ∃ c u, p.source = c :: u ∧ c ≠ '>' ∧ c ≠ '/' ∧ c ≠ '=' := by
  cases p with
  | filler f =>
    have gap : Gap.Reads rest [f] := ⟨h, trivial⟩
    obtain ⟨c, u, eq, first⟩ := gap.head (List.cons_ne_nil f [])
    refine ⟨c, u, by simpa [Gap.source, TagPart.source] using eq, ?_⟩
    rcases first with space | rfl
    · refine ⟨?_, ?_, ?_⟩ <;> rintro rfl <;> cases space
    · decide
  | attr a =>
    have named := h.named
    obtain ⟨c, u, eq⟩ := List.exists_cons_of_ne_nil named.nonempty
    have char := named.chars c (by simp [eq])
    obtain ⟨-, -, h3, h4, h5⟩ := isAttributeNameChar_ne char
    exact ⟨c, _, by rw [TagPart.source, Attribute.source, eq]; rfl, h3, h4, h5⟩

theorem TagPart.Reads.readTagPart? {p : TagPart} (h : p.Reads rest) :
    readTagPart? (p.source ++ rest) = some (p, rest) := by
  cases p with
  | filler f =>
    have read : readFiller? (f.source ++ rest) = some (f, rest) := h
    rw [Markup.readTagPart?, TagPart.source, read]
  | attr a =>
    have read : readAttribute? (a.source ++ rest) = some (a, rest) := h
    have named := Attribute.Reads.named h
    have none : readFiller? (a.source ++ rest) = none := by
      obtain ⟨c, u, eq⟩ := List.exists_cons_of_ne_nil named.nonempty
      obtain ⟨solid, ne, -⟩ := isAttributeNameChar_ne (named.chars c (by simp [eq]))
      rw [Attribute.source, eq]
      exact readFiller?_cons_of_solid solid ne _
    rw [Markup.readTagPart?, TagPart.source, none, read]
    rfl

theorem partsRead_of_read {ps : List TagPart} {closing : Bool}
    (h : readTagParts? s = some (ps, closing, rest)) : PartsRead closing rest ps := by
  fun_induction readTagParts? s generalizing ps closing rest with
  | case1 s r eq =>
    cases h
    trivial
  | case2 s r eq _ =>
    cases h
    trivial
  | case3 => cases h
  | case4 s _ _ part r found _ ih =>
    obtain ⟨⟨qs, _, _⟩, inner, eq⟩ := Option.map_eq_some_iff.mp h
    cases eq
    refine ⟨?_, ih inner⟩
    have whole : qs.flatMap TagPart.source ++ (closerOf closing ++ rest) = r :=
      readTagParts?_append inner
    rw [whole]
    exact readTagPart?_eq_some found

theorem PartsRead.readTagParts? {ps : List TagPart} {closing : Bool} (h : PartsRead closing r ps) :
    readTagParts? (ps.flatMap TagPart.source ++ (closerOf closing ++ r)) =
      some (ps, closing, r) := by
  induction ps with
  | nil =>
    rw [Markup.readTagParts?]
    cases closing with
    | false => rfl
    | true => rfl
  | cons p ps ih =>
    obtain ⟨c, u, eq, ne, ne', -⟩ := h.1.head
    have first := h.1.readTagPart?
    rw [List.flatMap_cons, List.append_assoc] at *
    generalize ps.flatMap TagPart.source ++ (closerOf closing ++ r) = w at *
    have noEnd : Text.after? ">" (p.source ++ w) = none := by
      rw [eq]
      exact if_neg ne.symm
    have noClose : Text.after? "/>" (p.source ++ w) = none := by
      rw [eq]
      exact if_neg ne'.symm
    rw [Markup.readTagParts?, noEnd, noClose]
    simp only
    split
    · next found =>
      rw [first] at found
      cases found
    · next found =>
      rw [first] at found
      cases found
      rw [ih h.2]
      rfl

theorem PartsRead.head_readGap {ps : List TagPart} {closing : Bool} (h : PartsRead closing r ps) :
    (readGap (ps.flatMap TagPart.source ++ (closerOf closing ++ r))).2.head? ≠ some '=' := by
  induction ps with
  | nil =>
    obtain ⟨c, u, eq, first⟩ := closerOf_append closing r
    rw [List.flatMap_nil, List.nil_append, eq]
    rcases first with rfl | rfl <;>
    · rw [readGap_cons_of_solid rfl (by decide)]
      simp
  | cons p ps ih =>
    rw [List.flatMap_cons, List.append_assoc]
    cases p with
    | filler f =>
      rw [TagPart.source, readGap_of_some h.1]
      exact ih h.2
    | attr a =>
      have named := Attribute.Reads.named h.1
      obtain ⟨c, u, eq⟩ := List.exists_cons_of_ne_nil named.nonempty
      obtain ⟨solid, ne, -, -, other⟩ := isAttributeNameChar_ne (named.chars c (by simp [eq]))
      rw [TagPart.source, Attribute.source, eq, List.cons_append, List.cons_append,
        readGap_cons_of_solid solid ne]
      simpa using other

theorem PartsRead.before {ps : List TagPart} {closing : Bool} (h : PartsRead closing rest ps)
    (clear : ∀ p ∈ ps, p.isClear = true) (r : Text) : PartsRead closing r ps := by
  induction ps with
  | nil => trivial
  | cons p ps ih =>
    have more := ih h.2 fun q hq => clear q (List.mem_cons_of_mem _ hq)
    have closer : (closerOf closing ++ r).head? = (closerOf closing ++ rest).head? := by
      cases closing <;> rfl
    have same := head?_append_congr closer (ps.flatMap TagPart.source)
    refine ⟨?_, more⟩
    cases p with
    | filler f => exact Filler.Reads.before h.1 (isLed_of_head? same)
    | attr a => exact Attribute.Reads.before h.1 (clear _ List.mem_cons_self) same more.head_readGap

def Tag.isClear (t : Tag) : Bool := t.parts.all TagPart.isClear

structure NameReads (r name : Text) : Prop where
  nonempty : name ≠ []
  chars : ∀ c ∈ name, isNameChar c = true
  stops : r.head?.any isNameChar = false

theorem NameReads.readName? {name : Text} (h : NameReads r name) :
    readName? (name ++ r) = some (name, r) := by
  obtain ⟨taken, left⟩ := takeWhile_append_of_stops h.chars h.stops
  rw [Markup.readName?, taken, left, if_neg (by simpa using h.nonempty)]

theorem nameReads_of_read {name : Text} (h : readName? s = some (name, rest)) :
    NameReads rest name := by
  unfold readName? at h
  simp only at h
  split at h
  · cases h
  · next nonempty =>
    cases h
    exact ⟨by simpa using nonempty, fun c hc => List.mem_takeWhile_imp hc, any_head?_dropWhile _ _⟩

theorem toNat_le_of_isSpace {c : Char} (h : isSpace c = true) : c.toNat ≤ 32 := by
  simp only [isSpace, Bool.or_eq_true, beq_iff_eq, Bool.and_eq_true, decide_eq_true_eq] at h
  rcases h with rfl | ⟨-, high⟩
  · decide
  · omega

theorem lt_toNat_of_isNameChar {c : Char} (h : isNameChar c = true) : 32 < c.toNat := by
  simp only [isNameChar, Char.isAlphanum, Char.isAlpha, Char.isUpper, Char.isLower, Char.isDigit,
    Bool.or_eq_true, Bool.and_eq_true, beq_iff_eq, decide_eq_true_eq, ge_iff_le,
    UInt32.le_iff_toNat_le] at h
  have value : c.toNat = c.val.toNat := rfl
  rcases h with ((((⟨low, -⟩ | ⟨low, -⟩) | ⟨low, -⟩) | rfl) | rfl)
  · exact value ▸ Nat.lt_of_lt_of_le (by decide) low
  · exact value ▸ Nat.lt_of_lt_of_le (by decide) low
  · exact value ▸ Nat.lt_of_lt_of_le (by decide) low
  · decide
  · decide

theorem isNameChar_ne {c : Char} (h : isNameChar c = true) :
    isSpace c = false ∧ c ≠ '<' ∧ c ≠ '!' ∧ c ≠ '/' := by
  refine ⟨?_, ?_, ?_, ?_⟩
  · rw [← Bool.not_eq_true]
    intro space
    exact absurd (toNat_le_of_isSpace space) (Nat.not_le.mpr (lt_toNat_of_isNameChar h))
  all_goals
    rintro rfl
    cases h

theorem NameReads.readFiller? {name : Text} (h : NameReads rest name) (r : Text) :
    readFiller? (name ++ r) = none := by
  obtain ⟨c, u, rfl⟩ := List.exists_cons_of_ne_nil h.nonempty
  obtain ⟨solid, ne, -⟩ := isNameChar_ne (h.chars c List.mem_cons_self)
  exact readFiller?_cons_of_solid solid ne _

theorem NameReads.before {name : Text} (h : NameReads rest name) (same : r.head? = rest.head?) :
    NameReads r name := ⟨h.nonempty, h.chars, by rw [same]; exact h.stops⟩

def Tag.behind (t : Tag) (r : Text) : Text :=
  t.parts.flatMap TagPart.source ++ (closerOf t.selfClosing ++ r)

structure Tag.Reads (r : Text) (t : Tag) : Prop where
  lead : Gap.Reads (t.name ++ t.behind r) t.lead
  name : NameReads (t.behind r) t.name
  parts : PartsRead t.selfClosing r t.parts

theorem Tag.source_append (t : Tag) (r : Text) :
    t.source ++ r = '<' :: (t.lead.source ++ (t.name ++ t.behind r)) := by
  simp [Tag.source, Tag.behind, Tag.closer, closerOf]

theorem Tag.Reads.readTag? {t : Tag} (h : t.Reads r) :
    readTag? (t.lead.source ++ (t.name ++ t.behind r)) = some (t, r) := by
  rw [Markup.readTag?, readGap_eq_of_reads h.lead (h.name.readFiller? _)]
  simp only
  rw [h.name.readName?, Option.bind_some]
  simp only
  rw [Tag.behind, h.parts.readTagParts?]
  rfl

theorem Tag.reads_of_read {t : Tag} (h : readTag? s = some (t, rest)) : t.Reads rest := by
  have gap := Gap.reads_readGap s
  obtain ⟨⟨name, u⟩, named, h⟩ := Option.bind_eq_some_iff.mp h
  obtain ⟨⟨parts, closing, v⟩, found, eq⟩ := Option.map_eq_some_iff.mp h
  cases eq
  have whole := readTagParts?_append found
  have first := readName?_append named
  rw [← first, ← whole] at gap
  have name := nameReads_of_read named
  rw [← whole] at name
  exact ⟨gap, name, partsRead_of_read found⟩

theorem Tag.head?_behind (t : Tag) (r rest : Text) :
    (t.behind r).head? = (t.behind rest).head? := by
  refine head?_append_congr ?_ _
  cases t.selfClosing <;> rfl

theorem Tag.Reads.before {t : Tag} (h : t.Reads rest) (clear : t.isClear = true) (r : Text) :
    t.Reads r := by
  have same := t.head?_behind r rest
  have front := head?_append_congr same t.name
  exact ⟨h.lead.before (isLed_of_head? front), h.name.before same,
    h.parts.before (List.all_eq_true.mp clear) r⟩

structure EndTag.Reads (r : Text) (t : EndTag) : Prop where
  lead : Gap.Reads (t.name ++ (t.trail.source ++ '>' :: r)) t.lead
  name : NameReads (t.trail.source ++ '>' :: r) t.name
  trail : Gap.Reads ('>' :: r) t.trail

theorem EndTag.source_append (t : EndTag) (r : Text) :
    t.source ++ r = '<' :: '/' :: (t.lead.source ++ (t.name ++ (t.trail.source ++ '>' :: r))) := by
  simp [EndTag.source]

theorem EndTag.Reads.readEndTag? {t : EndTag} (h : t.Reads r) :
    readEndTag? (t.lead.source ++ (t.name ++ (t.trail.source ++ '>' :: r))) = some (t, r) := by
  have stops : readFiller? ('>' :: r) = none :=
    readFiller?_cons_of_solid (show isSpace '>' = false from rfl) (by decide) r
  rw [Markup.readEndTag?, readGap_eq_of_reads h.lead (h.name.readFiller? _)]
  simp only
  rw [h.name.readName?, Option.bind_some]
  simp only
  rw [readGap_eq_of_reads h.trail stops]
  rfl

theorem EndTag.reads_of_read {t : EndTag} (h : readEndTag? s = some (t, rest)) : t.Reads rest := by
  have lead := Gap.reads_readGap s
  obtain ⟨⟨name, u⟩, named, h⟩ := Option.bind_eq_some_iff.mp h
  obtain ⟨v, closed, eq⟩ := Option.map_eq_some_iff.mp h
  cases eq
  have end_ : (readGap u).2 = '>' :: rest := (append_of_after? closed).symm
  have trail := Gap.reads_readGap u
  have whole := readGap_append u
  rw [end_] at trail whole
  have name := nameReads_of_read named
  rw [← readName?_append named, ← whole] at lead
  rw [← whole] at name
  exact ⟨lead, name, trail⟩

theorem EndTag.Reads.before {t : EndTag} (h : t.Reads rest) (r : Text) : t.Reads r := by
  have end_ : ('>' :: r).head? = ('>' :: rest).head? := rfl
  have same := head?_append_congr end_ t.trail.source
  have front := head?_append_congr same t.name
  exact ⟨h.lead.before (isLed_of_head? front), h.name.before same, h.trail.before id⟩

def Doctype.isClear (d : Doctype) : Bool := !opensComment d.body

structure Doctype.Reads (r : Text) (d : Doctype) : Prop where
  lead : Gap.Reads (d.word ++ (d.middle.source ++ (d.body ++ '>' :: r))) d.lead
  word : Text.sameName d.word "doctype" = true
  middle : readComments (d.middle.source ++ (d.body ++ '>' :: r)) = (d.middle, d.body ++ '>' :: r)
  nonempty : d.body ≠ []
  body : ∀ c ∈ d.body, (c != '>') = true

theorem Doctype.source_append (d : Doctype) (r : Text) :
    d.source ++ r =
      '<' :: '!' :: (d.lead.source ++ (d.word ++ (d.middle.source ++ (d.body ++ '>' :: r)))) := by
  simp [Doctype.source]

theorem length_of_sameName {word : Text} (h : Text.sameName word "doctype" = true) :
    word.length = 7 := by
  have same := congrArg List.length (Text.sameName_iff.mp h)
  simpa [Text.lower] using same

theorem exists_of_sameName {word : Text} (h : Text.sameName word "doctype" = true) :
    ∃ c u, word = c :: u ∧ c.toLower = 'd' := by
  cases word with
  | nil => cases length_of_sameName h
  | cons c u =>
    have same := Text.sameName_iff.mp h
    injection same with first
    exact ⟨c, u, rfl, first⟩

theorem toLower_of_isSpace {c : Char} (h : isSpace c = true) : c.toLower = c := by
  have low := toNat_le_of_isSpace h
  unfold Char.toLower
  split
  · next upper =>
    have : 65 ≤ c.toNat := upper.1
    omega
  · rfl

theorem readFiller?_word {word : Text} (h : Text.sameName word "doctype" = true) (r : Text) :
    readFiller? (word ++ r) = none := by
  obtain ⟨c, u, rfl, first⟩ := exists_of_sameName h
  refine readFiller?_cons_of_solid ?_ ?_ _
  · rw [← Bool.not_eq_true]
    intro space
    rw [toLower_of_isSpace space] at first
    rw [first] at space
    cases space
  · rintro rfl
    cases first

theorem Doctype.Reads.readDoctype? {d : Doctype} (h : d.Reads r) :
    readDoctype? (d.lead.source ++ (d.word ++ (d.middle.source ++ (d.body ++ '>' :: r)))) =
      some (d, r) := by
  have size := length_of_sameName h.word
  have stops : ('>' :: r).head?.any (· != '>') = false := rfl
  obtain ⟨taken, left⟩ := takeWhile_append_of_stops h.body stops
  rw [Markup.readDoctype?, readGap_eq_of_reads h.lead (readFiller?_word h.word _)]
  simp only
  rw [List.take_left' size, if_pos h.word, List.drop_left' size, h.middle]
  simp only
  rw [taken, left, if_neg (by simpa using h.nonempty)]
  rfl

theorem Doctype.reads_of_read {d : Doctype} (h : readDoctype? s = some (d, rest)) :
    d.Reads rest := by
  have lead := Gap.reads_readGap s
  simp only [readDoctype?] at h
  split at h
  · next word =>
    split at h
    · cases h
    · next nonempty =>
      obtain ⟨u, closed, eq⟩ := Option.map_eq_some_iff.mp h
      cases eq
      have second := readComments_append ((readGap s).2.drop 7)
      have third : (readComments ((readGap s).2.drop 7)).2.takeWhile (· != '>') ++ '>' :: rest =
          (readComments ((readGap s).2.drop 7)).2 := by
        have end_ := append_of_after? closed
        rw [List.singleton_append.symm, show ['>'] = (">" : Text) from rfl, end_]
        exact take_drop_while _
      have whole := List.take_append_drop 7 (readGap s).2
      rw [← second, ← third] at whole
      rw [← whole] at lead
      refine ⟨lead, word, ?_, by simpa using nonempty, ?_⟩
      · simp only [third, second]
      · intro c hc
        exact List.mem_takeWhile_imp (p := (· != '>')) hc
  · cases h

theorem Doctype.Reads.before {d : Doctype} (h : d.Reads rest) (clear : d.isClear = true)
    (r : Text) : d.Reads r := by
  have end_ : ('>' :: r).head? = ('>' :: rest).head? := rfl
  have inner := head?_append_congr end_ d.body
  have front := head?_append_congr (head?_append_congr inner d.middle.source) d.word
  obtain ⟨reads, solid⟩ := reads_readComments (d.middle.source ++ (d.body ++ '>' :: rest))
  rw [h.middle] at reads solid
  have quote : opensComment (d.body ++ '>' :: r) = false :=
    opensComment_append rfl (by decide) (by simpa [isClear] using clear) r
  exact ⟨h.lead.before (isLed_of_head? front), h.word,
    readComments_of_reads (reads.before (isLed_of_head? inner)) solid quote, h.nonempty, h.body⟩

end MarkupGrader.Markup
