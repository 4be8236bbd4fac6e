import MarkupGrader.Proofs.Markup.CopyNests

/-! Tags as the layout writes them: in lower case, with one space before each attribute and every value
between double quotes. They are read as they were written, wherever they are put. -/

namespace MarkupGrader.Markup

variable {r : Text}

def quotedValue (v : Text) : Assignment := ⟨[], [], .quoted '"' [] v⟩

def printedParts (a : Document.Attribute) : List TagPart :=
  [.filler (.space " "), .attr ⟨a.name, a.value.map quotedValue⟩]

def Tag.printed (t : Tag) : Tag := ⟨[], t.elementName, t.attributes.flatMap printedParts, false⟩

def Tag.printedEnd (t : Tag) : EndTag := ⟨[], t.elementName, []⟩

theorem source_printedParts (a : Document.Attribute) :
    (printedParts a).flatMap TagPart.source = Layout.attributeText a := by
  obtain ⟨name, value⟩ := a
  cases value with
  | none => simp [printedParts, TagPart.source, Filler.source, Attribute.source,
      Layout.attributeText]
  | some v => simp [printedParts, TagPart.source, Filler.source, Attribute.source,
      Assignment.source, quotedValue, Value.source, Gap.source, Layout.attributeText]

theorem Tag.source_printed (t : Tag) : t.printed.source = t.opening := by
  have parts : t.printed.parts.flatMap TagPart.source =
      t.attributes.flatMap Layout.attributeText := by
    rw [printed, List.flatMap_assoc]
    exact congrArg t.attributes.flatMap (funext source_printedParts)
  rw [Tag.source, parts]
  simp [printed, Tag.closer, Tag.opening, Gap.source]

theorem Tag.source_printedEnd (t : Tag) : t.printedEnd.source = Layout.endTag t.elementName := by
  simp [printedEnd, EndTag.source, Layout.endTag, Gap.source]

@[simp] theorem Tag.key_printed (t : Tag) : t.printed.key = t.key := t.upper_elementName

@[simp] theorem Tag.key_printedEnd (t : Tag) : t.printedEnd.key = t.key := t.upper_elementName

theorem lower_lower (t : Text) : t.lower.lower = t.lower := by
  rw [Text.lower, Text.lower, List.map_map]
  exact List.map_congr_left fun c _ => c.toLower_toLower_eq_toLower

@[simp] theorem Tag.elementName_printed (t : Tag) : t.printed.elementName = t.elementName :=
  lower_lower t.name

theorem Tag.lower_name_of_mem {t : Tag} {a : Document.Attribute} (mem : a ∈ t.attributes) :
    a.name.lower = a.name := by
  obtain ⟨part, -, eq⟩ := List.mem_filterMap.mp mem
  cases part with
  | filler f => cases eq
  | attr b =>
    cases eq
    exact lower_lower b.name

@[simp] theorem Tag.attributes_printed (t : Tag) : t.printed.attributes = t.attributes := by
  have each : ∀ a ∈ t.attributes, (printedParts a).filterMap TagPart.attribute? = [a] := by
    intro a mem
    have name := Tag.lower_name_of_mem mem
    obtain ⟨own, value⟩ := a
    have same : own.lower = own := name
    have text : (value.map quotedValue).map (·.value.text) = value := by cases value <;> rfl
    have read : TagPart.attribute? (.attr ⟨own, value.map quotedValue⟩) = some ⟨own, value⟩ := by
      rw [TagPart.attribute?, same, text]
    rw [printedParts, List.filterMap_cons_none rfl, List.filterMap_cons_some read]
    rfl
  have all : ∀ as : List Document.Attribute, (∀ a ∈ as, a ∈ t.attributes) →
      (as.flatMap printedParts).filterMap TagPart.attribute? = as := by
    intro as sub
    induction as with
    | nil => rfl
    | cons a as ih =>
      obtain ⟨first, others⟩ := List.forall_mem_cons.mp sub
      rw [List.flatMap_cons, List.filterMap_append, each a first, ih others]
      rfl
  exact all t.attributes fun _ h => h

structure Writable (a : Document.Attribute) : Prop where
  nonempty : a.name ≠ []
  chars : ∀ c ∈ a.name, isAttributeNameChar c = true
  free : ∀ v ∈ a.value, '"' ∉ v
  clear : ∀ v ∈ a.value, opensComment v = false

theorem reads_of_mem_parts {parts : List TagPart} {closing : Bool} (h : PartsRead closing r parts)
    {part : TagPart} (mem : part ∈ parts) : ∃ r, part.Reads r := by
  induction parts with
  | nil => cases mem
  | cons p ps ih =>
    rcases List.mem_cons.mp mem with rfl | mem
    · exact ⟨_, h.1⟩
    · exact ih h.2 mem

theorem isAttributeNameChar_toLower {c : Char} (h : isAttributeNameChar c = true) :
    isAttributeNameChar c.toLower = true := by
  by_cases upper : c.isUpper
  · have letter : c.toLower.isAlpha = true := by
      rw [Char.isAlpha_toLower_eq_isAlpha, Char.isAlpha, upper, Bool.true_or]
    have ne : ∀ d : Char, d.isAlpha = false → (c.toLower == d) = false := by
      intro d other
      rw [beq_eq_false_iff_ne]
      rintro rfl
      rw [letter] at other
      cases other
    have name : isNameChar c.toLower = true := by
      rw [isNameChar, Char.isAlphanum, letter]
      rfl
    rw [isAttributeNameChar, ne '<' rfl, ne '>' rfl, ne '"' rfl, ne '\'' rfl, ne '/' rfl, ne '=' rfl,
      (isNameChar_ne name).1]
    rfl
  · rwa [Char.toLower_eq_of_not_isUpper upper]

theorem isNameChar_toLower {c : Char} (h : isNameChar c = true) : isNameChar c.toLower = true := by
  by_cases upper : c.isUpper
  · have letter : c.toLower.isAlpha = true := by
      rw [Char.isAlpha_toLower_eq_isAlpha, Char.isAlpha, upper, Bool.true_or]
    rw [isNameChar, Char.isAlphanum, letter]
    rfl
  · rwa [Char.toLower_eq_of_not_isUpper upper]

theorem opensComment_of_bare {v : Text} (chars : ∀ c ∈ v, isBareValueChar c = true) :
    opensComment v = false := by
  cases v with
  | nil => rfl
  | cons c v =>
    have char := chars c List.mem_cons_self
    have solid := isSpace_of_isBareValueChar char
    rw [opensComment, List.dropWhile_cons_of_neg (Bool.eq_false_iff.mp solid)]
    rw [← Bool.not_eq_true]
    intro opens
    have first := (List.cons_prefix_cons.mp (List.isPrefixOf_iff_prefix.mp opens)).1
    rw [← first] at char
    cases char

theorem Tag.Regular.writable {t : Tag} (regular : t.Regular) :
    ∀ a ∈ t.attributes, Writable a := by
  intro a mem
  have quotable := List.all_eq_true.mp regular.quotable a mem
  have free : ∀ v ∈ a.value, '"' ∉ v := by
    intro v hv
    rw [Option.mem_def] at hv
    rw [hv] at quotable
    simpa using quotable
  obtain ⟨r, reads⟩ := regular.reads
  obtain ⟨part, inside, eq⟩ := List.mem_filterMap.mp mem
  obtain ⟨r, own⟩ := reads_of_mem_parts reads.parts inside
  have clear := List.all_eq_true.mp regular.clear part inside
  cases part with
  | filler f => cases eq
  | attr b =>
    cases eq
    obtain ⟨named, value⟩ := readAttribute?_eq_some own
    refine ⟨by simpa [Text.lower] using named.nonempty, ?_, free, ?_⟩
    · rw [Text.lower, List.forall_mem_map]
      exact fun c hc => isAttributeNameChar_toLower (named.chars c hc)
    · intro v hv
      rcases value with ⟨none, -, -⟩ | ⟨b', some, -, -, value⟩
      · simp [none] at hv
      · obtain rfl : b'.value.text = v := by simpa [some] using hv
        obtain ⟨t, eq, -, chars, -⟩ | ⟨q, lead, t, eq, -⟩ := readValue?_eq_some value
        · rw [eq]
          exact opensComment_of_bare chars
        · have clear : b'.value.isClear = true := by
            simpa [TagPart.isClear, Attribute.isClear, some] using clear
          rw [eq] at clear ⊢
          show opensComment t = false
          simpa [Value.isClear] using clear

theorem reads_quoted {v r : Text} (free : '"' ∉ v) (clear : opensComment v = false) :
    (Value.quoted '"' [] v).Reads r :=
  Value.reads_quoted (.inl rfl) trivial (fun _ h => by cases h) clear free

theorem partsRead_printed {as : List Document.Attribute} (writable : ∀ a ∈ as, Writable a)
    (r : Text) : PartsRead false r (as.flatMap printedParts) := by
  induction as with
  | nil => trivial
  | cons a as ih =>
    obtain ⟨own, others⟩ := List.forall_mem_cons.mp writable
    have more := ih others
    have named : ∀ assigned, Attribute.Named ⟨a.name, assigned⟩ := fun _ =>
      ⟨own.nonempty, own.chars⟩
    obtain ⟨c, name, eq⟩ := List.exists_cons_of_ne_nil own.nonempty
    have solid := (isAttributeNameChar_ne (own.chars c (by simp [eq]))).1
    have row : (a :: as).flatMap printedParts = .filler (.space " ") ::
        .attr ⟨a.name, a.value.map quotedValue⟩ :: as.flatMap printedParts := rfl
    rw [row]
    refine ⟨?_, ?_, more⟩
    · refine Filler.reads_space (List.cons_ne_nil _ _) (List.forall_mem_singleton.mpr rfl) ?_
      rw [List.flatMap_cons, TagPart.source, Attribute.source, eq]
      exact solid
    · cases value : a.value with
      | none =>
        refine Attribute.reads_of_none (named _) rfl ?_ more.head_readGap
        cases as with
        | nil => rfl
        | cons b as => rfl
      | some v =>
        exact Attribute.reads_of_some (named _) rfl trivial trivial
          (reads_quoted (own.free v value) (own.clear v value))

namespace Tag

variable {t : Tag}

theorem nameReads_elementName (regular : t.Regular) (stops : r.head?.any isNameChar = false) :
    NameReads r t.elementName := by
  obtain ⟨rest, reads⟩ := regular.reads
  refine ⟨?_, ?_, stops⟩
  · have nonempty := reads.name.nonempty
    simpa [elementName, Text.lower] using nonempty
  · rw [elementName, Text.lower, List.forall_mem_map]
    exact fun c hc => isNameChar_toLower (reads.name.chars c hc)

theorem reads_printed (regular : t.Regular) (r : Text) : t.printed.Reads r := by
  refine ⟨trivial, nameReads_elementName regular ?_, partsRead_printed regular.writable r⟩
  rw [behind, printed]
  cases t.attributes <;> rfl

theorem reads_printedEnd (regular : t.Regular) (r : Text) : t.printedEnd.Reads r :=
  ⟨trivial, nameReads_elementName regular rfl, trivial⟩

end Tag

end MarkupGrader.Markup
