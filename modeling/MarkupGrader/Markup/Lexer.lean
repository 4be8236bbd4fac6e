import MarkupGrader.Markup.Token

/-! Reading a source into tokens. Every reader takes a text and gives what it read together with the
rest; the main lemmas say that the two make up the text again. A source with anything that is no
token has no reading. -/

namespace MarkupGrader.Markup

theorem append_of_after? {p t rest : Text} (h : Text.after? p t = some rest) : p ++ rest = t :=
  (Text.after?_eq_some.mp h).symm

theorem append_drop_length {a b s : Text} (h : a ++ b = s) : a ++ s.drop a.length = s := by
  subst h
  simp

theorem take_drop_while {p : Char → Bool} (t : Text) : t.takeWhile p ++ t.dropWhile p = t :=
  List.takeWhile_append_dropWhile

def closeComment? (dashes : Nat) : Text → Option (Text × Text)
  | [] => none
  | c :: rest =>
    if c = '>' ∧ 2 ≤ dashes then some ([c], rest)
    else (closeComment? (if c = '-' then dashes + 1 else 0) rest).map fun (t, r) => (c :: t, r)

theorem closeComment?_append {dashes : Nat} {s t rest : Text}
    (h : closeComment? dashes s = some (t, rest)) : t ++ rest = s := by
  induction s generalizing dashes t with
  | nil => simp [closeComment?] at h
  | cons c s ih =>
    unfold closeComment? at h
    split at h
    · simp at h; simp [← h.1, h.2]
    · simp only [Option.map_eq_some_iff, Prod.exists, Prod.mk.injEq] at h
      obtain ⟨u, r, found, rfl, rfl⟩ := h
      simp [ih found]

def readComment? (s : Text) : Option (Text × Text) :=
  (Text.after? "<!--" s).bind fun inner =>
    (closeComment? 0 inner).map fun (t, rest) => ("<!--" ++ t, rest)

theorem readComment?_append {s t rest : Text} (h : readComment? s = some (t, rest)) :
    t ++ rest = s ∧ t ≠ [] := by
  simp only [readComment?, Option.bind_eq_some_iff, Option.map_eq_some_iff, Prod.exists,
    Prod.mk.injEq] at h
  obtain ⟨inner, start, u, r, found, rfl, rfl⟩ := h
  have := append_of_after? start
  exact ⟨by rw [← this, ← closeComment?_append found]; simp, by simp⟩

def readFiller? (s : Text) : Option (Filler × Text) :=
  let space := s.takeWhile isSpace
  if space.isEmpty then (readComment? s).map fun (t, rest) => (.comment t, rest)
  else some (.space space, s.dropWhile isSpace)

theorem readFiller?_append {s rest : Text} {f : Filler} (h : readFiller? s = some (f, rest)) :
    f.source ++ rest = s ∧ f.source ≠ [] := by
  simp only [readFiller?] at h
  split at h
  · simp only [Option.map_eq_some_iff, Prod.exists, Prod.mk.injEq] at h
    obtain ⟨t, r, found, rfl, rfl⟩ := h
    exact readComment?_append found
  · next nonempty =>
    simp only [Option.some.injEq, Prod.mk.injEq] at h
    obtain ⟨rfl, rfl⟩ := h
    exact ⟨take_drop_while s, by simpa [Filler.source] using nonempty⟩

theorem length_lt_of_append {a rest s : Text} (h : a ++ rest = s ∧ a ≠ []) :
    rest.length < s.length := by
  rw [← h.1, List.length_append]
  have := List.length_pos_iff.mpr h.2
  omega

def readGap (s : Text) : Gap × Text :=
  match found : readFiller? s with
  | none => ([], s)
  | some (f, rest) =>
    have : rest.length < s.length := length_lt_of_append (readFiller?_append found)
    let (gap, r) := readGap rest
    (f :: gap, r)
termination_by s.length

theorem readGap_append (s : Text) : (readGap s).1.source ++ (readGap s).2 = s := by
  fun_induction readGap s with
  | case1 s found => simp [Gap.source]
  | case2 s f rest found _ gap r eq ih =>
    rw [eq] at ih
    have := (readFiller?_append found).1
    simp_all [Gap.source]

/-- Like a gap, but white space behind the last comment is left alone. -/
def readComments (s : Text) : Gap × Text :=
  let (gap, rest) := readGap s
  match gap.getLast? with
  | some (.space t) => (gap.dropLast, t ++ rest)
  | _ => (gap, rest)

theorem readComments_append (s : Text) : (readComments s).1.source ++ (readComments s).2 = s := by
  have whole := readGap_append s
  unfold readComments
  split
  next gap rest eq =>
  rw [eq] at whole
  split
  · next t last =>
    obtain ⟨front, rfl⟩ := List.getLast?_eq_some_iff.mp last
    simp_all [Gap.source, Filler.source]
  · exact whole

def isNameChar (c : Char) : Bool := c.isAlphanum || c == '-' || c == ':'

def isAttributeNameChar (c : Char) : Bool :=
  !(c == '<' || c == '>' || c == '"' || c == '\'' || c == '/' || c == '=' || isSpace c)

def isBareValueChar (c : Char) : Bool :=
  !(c == '<' || c == '>' || c == '"' || c == '\'' || c == '=' || isSpace c)

def isTextChar (c : Char) : Bool := !(c == '<' || c == '>' || c == '&')

def readValue? : Text → Option (Value × Text)
  | [] => none
  | c :: rest =>
    if c = '"' ∨ c = '\'' then
      let (lead, inner) := readComments rest
      match inner.dropWhile (· != c) with
      | [] => none
      | _ :: after => some (.quoted c lead (inner.takeWhile (· != c)), after)
    else if isBareValueChar c then
      some (.bare ((c :: rest).takeWhile isBareValueChar), (c :: rest).dropWhile isBareValueChar)
    else none

theorem readValue?_append {s rest : Text} {v : Value} (h : readValue? s = some (v, rest)) :
    v.source ++ rest = s := by
  cases s with
  | nil => simp [readValue?] at h
  | cons c s =>
    simp only [readValue?] at h
    split at h
    · have whole := readComments_append s
      split at h
      · simp at h
      · next d after last =>
        simp only [Option.some.injEq, Prod.mk.injEq] at h
        obtain ⟨rfl, rfl⟩ := h
        generalize (readComments s).1 = lead, (readComments s).2 = inner at *
        have sum := take_drop_while (p := (· != c)) inner
        have head := List.head?_dropWhile_not (· != c) inner
        rw [last] at sum head
        have same : d = c := by simpa using head
        subst same
        simp only [Value.source, List.cons_append, List.append_assoc, List.nil_append]
        rw [sum, whole]
    · split at h
      · simp only [Option.some.injEq, Prod.mk.injEq] at h
        obtain ⟨rfl, rfl⟩ := h
        exact take_drop_while _
      · simp at h

/-- A gap behind a name that no equals sign follows is left to the tag. -/
def readAttribute? (s : Text) : Option (Attribute × Text) :=
  let name := s.takeWhile isAttributeNameChar
  let after := s.dropWhile isAttributeNameChar
  if name.isEmpty then none
  else
    let (before, rest) := readGap after
    match rest with
    | '=' :: rest =>
      let (gap, rest) := readGap rest
      (readValue? rest).map fun (value, rest) => (⟨name, some ⟨before, gap, value⟩⟩, rest)
    | _ => some (⟨name, none⟩, after)

theorem readAttribute?_append {s rest : Text} {a : Attribute}
    (h : readAttribute? s = some (a, rest)) : a.source ++ rest = s ∧ a.source ≠ [] := by
  have sum := take_drop_while (p := isAttributeNameChar) s
  simp only [readAttribute?] at h
  split at h
  · simp at h
  · next nonempty =>
    have nonempty : s.takeWhile isAttributeNameChar ≠ [] := by simpa using nonempty
    have first := readGap_append (s.dropWhile isAttributeNameChar)
    split at h
    · next tail eq =>
      have second := readGap_append tail
      simp only [Option.map_eq_some_iff, Prod.exists, Prod.mk.injEq] at h
      obtain ⟨v, r, found, rfl, rfl⟩ := h
      have third := readValue?_append found
      refine ⟨?_, by simp [Attribute.source, nonempty]⟩
      simp only [Attribute.source, Assignment.source]
      calc _ = s.takeWhile isAttributeNameChar ++
              ((readGap (s.dropWhile isAttributeNameChar)).1.source ++
                '=' :: ((readGap tail).1.source ++ (v.source ++ r))) := by simp
        _ = _ := by rw [third, second, ← eq, first, sum]
    · simp only [Option.some.injEq, Prod.mk.injEq] at h
      obtain ⟨rfl, rfl⟩ := h
      exact ⟨by simp [Attribute.source, sum], by simpa [Attribute.source] using nonempty⟩

def readTagPart? (s : Text) : Option (TagPart × Text) :=
  match readFiller? s with
  | some (f, rest) => some (.filler f, rest)
  | none => (readAttribute? s).map fun (a, rest) => (.attr a, rest)

theorem readTagPart?_append {s rest : Text} {p : TagPart} (h : readTagPart? s = some (p, rest)) :
    p.source ++ rest = s ∧ p.source ≠ [] := by
  unfold readTagPart? at h
  split at h
  · next found =>
    simp only [Option.some.injEq, Prod.mk.injEq] at h
    obtain ⟨rfl, rfl⟩ := h
    exact readFiller?_append found
  · simp only [Option.map_eq_some_iff, Prod.exists, Prod.mk.injEq] at h
    obtain ⟨a, r, found, rfl, rfl⟩ := h
    exact readAttribute?_append found

/-- The parts of a tag up to its end, and whether that end is self-closing. -/
def readTagParts? (s : Text) : Option (List TagPart × Bool × Text) :=
  match Text.after? ">" s, Text.after? "/>" s with
  | some rest, _ => some ([], false, rest)
  | none, some rest => some ([], true, rest)
  | none, none =>
    match found : readTagPart? s with
    | none => none
    | some (part, rest) =>
      have : rest.length < s.length := length_lt_of_append (readTagPart?_append found)
      (readTagParts? rest).map fun (parts, closing, r) => (part :: parts, closing, r)
termination_by s.length

theorem readTagParts?_append {s rest : Text} {parts : List TagPart} {closing : Bool}
    (h : readTagParts? s = some (parts, closing, rest)) :
    parts.flatMap TagPart.source ++ ((if closing then "/>" else ">" : Text) ++ rest) = s := by
  fun_induction readTagParts? s generalizing parts closing rest with
  | case1 s r eq =>
    simp only [Option.some.injEq, Prod.mk.injEq] at h
    obtain ⟨rfl, rfl, rfl⟩ := h
    simpa using append_of_after? eq
  | case2 s r eq _ =>
    simp only [Option.some.injEq, Prod.mk.injEq] at h
    obtain ⟨rfl, rfl, rfl⟩ := h
    simpa using append_of_after? eq
  | case3 => simp at h
  | case4 s _ _ part r found _ ih =>
    simp only [Option.map_eq_some_iff, Prod.exists, Prod.mk.injEq] at h
    obtain ⟨ps, cl, u, inner, rfl, rfl, rfl⟩ := h
    rw [← (readTagPart?_append found).1, ← ih inner]
    simp

def readName? (s : Text) : Option (Text × Text) :=
  let name := s.takeWhile isNameChar
  if name.isEmpty then none else some (name, s.dropWhile isNameChar)

theorem readName?_append {s name rest : Text} (h : readName? s = some (name, rest)) :
    name ++ rest = s := by
  simp only [readName?] at h
  split at h
  · simp at h
  · simp only [Option.some.injEq, Prod.mk.injEq] at h
    rw [← h.1, ← h.2]
    exact take_drop_while s

def readTag? (s : Text) : Option (Tag × Text) :=
  let (lead, rest) := readGap s
  (readName? rest).bind fun (name, rest) =>
    (readTagParts? rest).map fun (parts, selfClosing, rest) =>
      (⟨lead, name, parts, selfClosing⟩, rest)

theorem readTag?_append {s rest : Text} {t : Tag} (h : readTag? s = some (t, rest)) :
    t.source ++ rest = '<' :: s := by
  have first := readGap_append s
  simp only [readTag?, Option.bind_eq_some_iff, Option.map_eq_some_iff, Prod.exists,
    Prod.mk.injEq] at h
  obtain ⟨name, r, named, parts, closing, u, found, rfl, rfl⟩ := h
  have second := readName?_append named
  have third := readTagParts?_append found
  calc _ = '<' :: ((readGap s).1.source ++ (name ++ (parts.flatMap TagPart.source ++
          ((if closing then "/>" else ">" : Text) ++ u)))) := by simp [Tag.source, Tag.closer]
    _ = _ := by rw [third, second, first]

def readEndTag? (s : Text) : Option (EndTag × Text) :=
  let (lead, rest) := readGap s
  (readName? rest).bind fun (name, rest) =>
    let (trail, rest) := readGap rest
    (Text.after? ">" rest).map fun rest => (⟨lead, name, trail⟩, rest)

theorem readEndTag?_append {s rest : Text} {t : EndTag} (h : readEndTag? s = some (t, rest)) :
    t.source ++ rest = '<' :: '/' :: s := by
  have first := readGap_append s
  simp only [readEndTag?, Option.bind_eq_some_iff, Option.map_eq_some_iff, Prod.exists,
    Prod.mk.injEq] at h
  obtain ⟨name, r, named, u, found, rfl, rfl⟩ := h
  have second := readName?_append named
  have third := readGap_append r
  have fourth := append_of_after? found
  calc _ = '<' :: '/' :: ((readGap s).1.source ++ (name ++ ((readGap r).1.source ++
          ((">" : Text) ++ u)))) := by simp [EndTag.source]
    _ = _ := by rw [fourth, third, second, first]

/-- Reads what follows the opening `<!`. The body is all up to the first `>`, and is not empty. -/
def readDoctype? (s : Text) : Option (Doctype × Text) :=
  let (lead, rest) := readGap s
  let word := rest.take 7
  if Text.sameName word "doctype" then
    let (middle, rest) := readComments (rest.drop 7)
    let body := rest.takeWhile (· != '>')
    if body.isEmpty then none
    else
      (Text.after? ">" (rest.dropWhile (· != '>'))).map fun rest =>
        (⟨lead, word, middle, body⟩, rest)
  else none

theorem readDoctype?_append {s rest : Text} {d : Doctype} (h : readDoctype? s = some (d, rest)) :
    d.source ++ rest = '<' :: '!' :: s := by
  have first := readGap_append s
  simp only [readDoctype?] at h
  split at h
  · split at h
    · simp at h
    · simp only [Option.map_eq_some_iff, Prod.mk.injEq] at h
      obtain ⟨u, found, rfl, rfl⟩ := h
      have second := readComments_append ((readGap s).2.drop 7)
      have third := take_drop_while (p := (· != '>')) (readComments ((readGap s).2.drop 7)).2
      have fourth := append_of_after? found
      calc _ = '<' :: '!' :: ((readGap s).1.source ++ ((readGap s).2.take 7 ++
              ((readComments ((readGap s).2.drop 7)).1.source ++
                ((readComments ((readGap s).2.drop 7)).2.takeWhile (· != '>') ++
                  ((">" : Text) ++ u))))) := by simp [Doctype.source]
        _ = _ := by rw [fourth, third, second, List.take_append_drop, first]
  · simp at h

def isHexDigit (c : Char) : Bool :=
  c.isDigit || (0x61 ≤ c.toNat && c.toNat ≤ 0x66) || (0x41 ≤ c.toNat && c.toNat ≤ 0x46)

/-- The length of the entity name at the beginning, or zero if there is none. -/
def entityLength (s : Text) : Nat :=
  let run (limit : Nat) (p : Char → Bool) (t : Text) : Nat := min limit (t.takeWhile p).length
  match s with
  | '#' :: x :: rest =>
    let hex := if x = 'x' ∨ x = 'X' then run 6 isHexDigit rest else 0
    let digits := run 5 Char.isDigit (x :: rest)
    if 0 < hex then 2 + hex else if 0 < digits then 1 + digits else 0
  | _ => run 30 Char.isAlpha s

def readEntity? (s : Text) : Option (Text × Text) :=
  let length := entityLength s
  if length = 0 then none
  else
    match s.drop length with
    | ';' :: rest => some ('&' :: s.take length ++ [';'], rest)
    | rest => some ('&' :: s.take length, rest)

theorem readEntity?_append {s t rest : Text} (h : readEntity? s = some (t, rest)) :
    t ++ rest = '&' :: s ∧ t ≠ [] := by
  have sum := List.take_append_drop (entityLength s) s
  simp only [readEntity?] at h
  split at h
  · simp at h
  · split at h
    · next r eq =>
      simp only [Option.some.injEq, Prod.mk.injEq] at h
      obtain ⟨rfl, rfl⟩ := h
      rw [eq] at sum
      simpa using sum
    · simp only [Option.some.injEq, Prod.mk.injEq] at h
      obtain ⟨rfl, rfl⟩ := h
      simp

def readText (s : Text) : Text × Text :=
  let run := s.takeWhile isTextChar
  let t := (run.reverse.dropWhile isSpace).reverse
  (t, s.drop t.length)

theorem readText_append (s : Text) : (readText s).1 ++ (readText s).2 = s := by
  have whole := take_drop_while (p := isTextChar) s
  have inner := take_drop_while (p := isSpace) (s.takeWhile isTextChar).reverse
  refine append_drop_length (b := ((s.takeWhile isTextChar).reverse.takeWhile isSpace).reverse ++
    s.dropWhile isTextChar) ?_
  rw [readText, ← List.append_assoc, ← List.reverse_append, inner, List.reverse_reverse, whole]

/-- Splits before the first end tag `delimiter`. `todo` is what is still to come of a delimiter that
has begun and `begun` is its beginning; where it breaks off, the search goes on with the character
after the one that broke it off. -/
def splitRaw? (delimiter : Text) (todo begun : Text) : Text → Option (Text × Text)
  | [] => none
  | c :: rest =>
    match todo with
    | [] => none
    | d :: more =>
      if c.toUpper = d then
        if more.isEmpty then some ([], begun ++ c :: rest)
        else splitRaw? delimiter more (begun ++ [c]) rest
      else
        (splitRaw? delimiter delimiter [] rest).map fun (t, r) => (begun ++ c :: t, r)

theorem splitRaw?_append {delimiter todo begun s t rest : Text}
    (h : splitRaw? delimiter todo begun s = some (t, rest)) : t ++ rest = begun ++ s := by
  induction s generalizing todo begun t with
  | nil => simp [splitRaw?] at h
  | cons c s ih =>
    unfold splitRaw? at h
    split at h
    · simp at h
    · split at h
      · split at h
        · simp only [Option.some.injEq, Prod.mk.injEq] at h
          simp [← h.1, ← h.2]
        · simpa using ih h
      · simp only [Option.map_eq_some_iff, Prod.exists, Prod.mk.injEq] at h
        obtain ⟨u, r, found, rfl, rfl⟩ := h
        have := ih found
        simp_all

def readRaw? (key s : Text) : Option (Text × Text) :=
  let delimiter := "</" ++ key
  splitRaw? delimiter delimiter [] s

/-- The next token; a start tag comes with the raw content of its element, if it has such. -/
def readTokens? (s : Text) : Option (List Token × Text) :=
  match readFiller? s with
  | some (f, rest) => some ([.filler f], rest)
  | none =>
    match s with
    | [] => none
    | '<' :: '!' :: s => (readDoctype? s).map fun (d, rest) => ([.doctype d], rest)
    | '<' :: '/' :: s => (readEndTag? s).map fun (t, rest) => ([.endTag t], rest)
    | '<' :: s =>
      (readTag? s).bind fun (t, rest) =>
        if isRawKey t.key then
          if t.selfClosing then none
          else (readRaw? t.key rest).map fun (raw, rest) => ([.tag t, .raw raw], rest)
        else some ([.tag t], rest)
    | '&' :: s => (readEntity? s).map fun (t, rest) => ([.entity t], rest)
    | '>' :: _ => none
    | c :: s =>
      let (t, rest) := readText (c :: s)
      if t.isEmpty then none else some ([.text t], rest)

theorem readTokens?_append {s rest : Text} {ts : List Token} (h : readTokens? s = some (ts, rest)) :
    ts.flatMap Token.source ++ rest = s ∧ ts.flatMap Token.source ≠ [] := by
  unfold readTokens? at h
  split at h
  · next f r found =>
    simp only [Option.some.injEq, Prod.mk.injEq] at h
    obtain ⟨rfl, rfl⟩ := h
    simpa [Token.source] using readFiller?_append found
  · split at h
    · simp at h
    · simp only [Option.map_eq_some_iff, Prod.exists, Prod.mk.injEq] at h
      obtain ⟨d, r, found, rfl, rfl⟩ := h
      exact ⟨by simpa [Token.source] using readDoctype?_append found,
        by simp [Token.source, Doctype.source]⟩
    · simp only [Option.map_eq_some_iff, Prod.exists, Prod.mk.injEq] at h
      obtain ⟨d, r, found, rfl, rfl⟩ := h
      exact ⟨by simpa [Token.source] using readEndTag?_append found,
        by simp [Token.source, EndTag.source]⟩
    · simp only [Option.bind_eq_some_iff, Prod.exists] at h
      obtain ⟨t, r, found, h⟩ := h
      have whole := readTag?_append found
      split at h
      · split at h
        · simp at h
        · simp only [Option.map_eq_some_iff, Prod.exists, Prod.mk.injEq] at h
          obtain ⟨raw, u, split, rfl, rfl⟩ := h
          have := splitRaw?_append split
          exact ⟨by simp_all [Token.source], by simp [Token.source, Tag.source]⟩
      · simp only [Option.some.injEq, Prod.mk.injEq] at h
        obtain ⟨rfl, rfl⟩ := h
        exact ⟨by simpa [Token.source] using whole, by simp [Token.source, Tag.source]⟩
    · simp only [Option.map_eq_some_iff, Prod.exists, Prod.mk.injEq] at h
      obtain ⟨t, r, found, rfl, rfl⟩ := h
      simpa [Token.source] using readEntity?_append found
    · simp at h
    · simp only at h
      split at h
      · simp at h
      · next nonempty =>
        simp only [Option.some.injEq, Prod.mk.injEq] at h
        obtain ⟨rfl, rfl⟩ := h
        exact ⟨by simpa [Token.source] using readText_append _,
          by simpa [Token.source] using nonempty⟩

def tokens? (s : Text) : Option (List Token) :=
  if s.isEmpty then some []
  else
    match found : readTokens? s with
    | none => none
    | some (ts, rest) =>
      have : rest.length < s.length := length_lt_of_append (readTokens?_append found)
      (tokens? rest).map (ts ++ ·)
termination_by s.length

theorem source_of_tokens? {s : Text} {ts : List Token} (h : tokens? s = some ts) :
    ts.flatMap Token.source = s := by
  fun_induction tokens? s generalizing ts with
  | case1 s empty => simp_all
  | case2 => simp at h
  | case3 s _ front rest found _ ih =>
    simp only [Option.map_eq_some_iff] at h
    obtain ⟨more, inner, rfl⟩ := h
    rw [List.flatMap_append, ih inner]
    exact (readTokens?_append found).1

end MarkupGrader.Markup
