import MarkupGrader.Proofs.Layout.Reprint

/-! Reading a layout again. The tokens of what is written are read in a row, each as it was written,
and they are nested into the items that were written, but for what a void element takes in. -/

namespace MarkupGrader.Markup

open Text (isLed isTrailed IsTrim Spaced IsBlankText)

variable {r rest : Text} {sep : Nat → Text}

def Apart (r : Text) : Prop := r = [] ∨ isLed r = true

def firstShown (r : Text) : Option Char := (r.dropWhile isSpace).head?

def showsText (r : Text) : Bool := (firstShown r).any isTextChar

theorem apart_break (breaks : Breaks sep) (depth : Nat) (r : Text) : Apart (sep depth ++ r) := by
  rw [Apart, Text.isLed_append_of_ne_nil (breaks.nonempty depth)]
  obtain ⟨c, u, eq⟩ := List.exists_cons_of_ne_nil (breaks.nonempty depth)
  have space := breaks.spaces depth c (by rw [eq]; exact List.mem_cons_self)
  rw [eq]
  exact .inr space

theorem firstShown_spaces {t : Text} (spaces : ∀ c ∈ t, isSpace c = true) (r : Text) :
    firstShown (t ++ r) = firstShown r := by
  rw [firstShown, List.dropWhile_append_of_pos spaces, firstShown]

theorem firstShown_of_solid {t : Text} (led : isLed t = false) (nonempty : t ≠ []) (r : Text) :
    firstShown (t ++ r) = t.head? := by
  obtain ⟨c, u, rfl⟩ := List.exists_cons_of_ne_nil nonempty
  have solid : isSpace c = false := led
  rw [firstShown, List.cons_append, List.dropWhile_cons_of_neg (Bool.eq_false_iff.mp solid)]
  rfl

theorem showsText_break (breaks : Breaks sep) (depth : Nat) (r : Text) :
    showsText (sep depth ++ r) = showsText r := by
  rw [showsText, firstShown_spaces (breaks.spaces depth), showsText]

theorem Apart.entity (apart : Apart r) : r.head?.any (fun c => c.isAlphanum || c == ';') = false := by
  rcases apart with rfl | led
  · rfl
  · cases r with
    | nil => rfl
    | cons c r =>
      have space : isSpace c = true := led
      have other : (c == ';') = false := beq_eq_false_iff_ne.mpr (Text.ne_of_isSpace space rfl)
      show (c.isAlphanum || c == ';') = false
      rw [isAlphanum_of_isSpace space, other]
      rfl

theorem Apart.halts (apart : Apart r) (stops : showsText r = false) : Halts r :=
  ⟨stops, apart.entity⟩

section Reprinted

variable {t : Token}

theorem Token.reads_reprinted (reads : t.Reads rest) (plain : t.Plain) (clear : t.isClear = true)
    (visible : t.leafKind?.isNone = false) (apart : Apart r)
    (stops : t.isText = true → showsText r = false) : t.reprinted.Reads r := by
  cases t with
  | filler f =>
    cases f with
    | space t => cases visible
    | comment t =>
      obtain ⟨u, eq, -⟩ | ⟨u, eq, found⟩ := readFiller?_eq_some reads
      · cases eq
      · cases eq
        exact Filler.reads_comment found r
  | doctype d => exact reads.before clear trivial
  | text t =>
    have squeezed := TextReads.squeeze reads
    exact ⟨squeezed.chars, squeezed.nonempty, squeezed.begins, squeezed.ends, stops rfl⟩
  | entity e => exact reads.before clear (.inr apart.entity)
  | tag t => exact absurd plain id
  | endTag t => exact absurd plain id
  | raw t => exact absurd reads id

theorem head?_squeeze_of_solid {t : Text} (led : isLed t = false) :
    (Text.squeeze t).head? = t.head? := by
  cases t with
  | nil => rfl
  | cons c t => rw [Text.squeeze_cons_of_solid led, List.head?_cons, List.head?_cons]

theorem Token.head?_reprinted (reads : t.Reads rest) (plain : t.Plain)
    (visible : t.leafKind?.isNone = false) :
    isLed t.source = false ∧ t.reprinted.source.head? = t.source.head? ∧
      (t.isText = false → t.source.head?.any isTextChar = false) := by
  cases t with
  | filler f =>
    cases f with
    | space t => cases visible
    | comment t =>
      obtain ⟨u, eq, -⟩ | ⟨u, eq, found⟩ := readFiller?_eq_some reads
      · cases eq
      · cases eq
        obtain ⟨inner, -, h⟩ := Option.bind_eq_some_iff.mp found
        obtain ⟨⟨u, v⟩, found, eq⟩ := Option.map_eq_some_iff.mp h
        cases eq
        exact ⟨rfl, rfl, fun _ => rfl⟩
  | doctype d => exact ⟨rfl, rfl, fun _ => rfl⟩
  | text t =>
    have begins : isLed t = false := TextReads.begins reads
    exact ⟨begins, head?_squeeze_of_solid begins, fun other => by cases other⟩
  | entity e =>
    obtain ⟨-, b, rfl⟩ := reads
    exact ⟨rfl, rfl, fun _ => rfl⟩
  | tag t => exact absurd plain id
  | endTag t => exact absurd plain id
  | raw t => exact absurd reads id

theorem isLed_of_head?_eq {a b : Text} (h : a.head? = b.head?) : isLed a = isLed b := by
  rw [isLed, h, isLed]

end Reprinted

theorem allRead_break (breaks : Breaks sep) (depth : Nat) {ts : List Token} (h : AllRead r ts)
    (led : isLed (Token.sources ts ++ r) = false) :
    AllRead r (.filler (.space (sep depth)) :: ts) :=
  .cons (Filler.reads_space (breaks.nonempty depth) (breaks.spaces depth) led) h

theorem allRead_element {tag : Tag} (own : tag.Regular) (key : isRawKey tag.key = false)
    {body : List Item} (inner : AllRead (tag.printedEnd.source ++ r) (Item.tokensOf body)) :
    AllRead r (Item.element tag.printed body (.endTag tag.printedEnd)).tokens := by
  have ends : AllRead r [.endTag tag.printedEnd] := .cons (tag.reads_printedEnd own _) .nil
  have source : Token.sources [.endTag tag.printedEnd] = tag.printedEnd.source := List.append_nil _
  rw [Item.tokens]
  refine .cons ⟨tag.reads_printed own _, ?_⟩ ((source ▸ inner).append ends)
  rwa [tag.key_printed]

theorem allRead_raw {tag : Tag} (own : tag.Regular) (key : isRawKey tag.key = true) {raw : Text}
    (scanned : scanRaw (rawDelimiter tag.key) (rawDelimiter tag.key) raw =
      some (rawDelimiter tag.key)) :
    AllRead r (Item.element tag.printed [.leaf (.raw raw)] (.endTag tag.printedEnd)).tokens := by
  have ends : AllRead r [.endTag tag.printedEnd] := .cons (tag.reads_printedEnd own _) .nil
  have found := readRaw?_of_scanRaw tag.upper_elementName scanned ('>' :: r)
  have source : Token.sources [.endTag tag.printedEnd] ++ r =
      '<' :: '/' :: (tag.elementName ++ '>' :: r) := by
    rw [Token.sources, List.flatMap_singleton, Token.source, EndTag.source_append]
    rfl
  rw [← source] at found
  have same := tag.key_printed
  exact .raw (by rwa [same]) rfl (tag.reads_printed own _) (by rwa [same]) ends

theorem scanRaw_rawBlock (breaks : Breaks sep) {d raw : Text} (solid : IsSolid d)
    (nonempty : d ≠ []) (scanned : scanRaw d d raw = some d) (inner depth : Nat) :
    scanRaw d d (Item.rawBlock sep inner depth raw) = some d := by
  have blank (depth : Nat) {todo : Text} (part : todo ≠ [] ∧ todo <:+ d) :
      scanRaw d todo (sep depth) = some d :=
    scanRaw_blanks solid nonempty
      (fun c hc => Text.isBlank_of_isSpace (breaks.spaces depth c hc)) (breaks.nonempty depth) part
  have all : ∀ ls : List Text, (∀ l ∈ ls, ∃ next, scanRaw d d l = some next) →
      ∀ todo, todo ≠ [] ∧ todo <:+ d →
        scanRaw d todo (ls.flatMap (sep inner ++ ·) ++ sep depth) = some d := by
    intro ls
    induction ls with
    | nil => exact fun _ todo part => blank depth part
    | cons l ls ih =>
      intro each todo part
      obtain ⟨⟨next, found⟩, others⟩ := List.forall_mem_cons.mp each
      rw [List.flatMap_cons, List.append_assoc, List.append_assoc, scanRaw_append, blank inner part,
        Option.bind_some, scanRaw_append, found, Option.bind_some]
      exact ih others next (scanRaw_suffix found nonempty ⟨nonempty, List.suffix_rfl⟩)
  refine all _ (fun l hl => ?_) d ⟨nonempty, List.suffix_rfl⟩
  obtain ⟨-, -, -, a, b, rfl, behind⟩ := Text.exists_of_mem_solidLines hl
  exact scanRaw_piece solid nonempty scanned behind

theorem scanRaw_reprintedRaw (breaks : Breaks sep) {tag : Tag} (key : isRawKey tag.key = true)
    {raw : Text}
    (scanned : scanRaw (rawDelimiter tag.key) (rawDelimiter tag.key) raw =
      some (rawDelimiter tag.key))
    (safe : Item.isSafe tag.key [.leaf (.raw raw)] = true) (depth : Nat) :
    scanRaw (rawDelimiter tag.key) (rawDelimiter tag.key) (Item.reprintedRaw sep tag depth raw) =
      some (rawDelimiter tag.key) := by
  have sole : Item.soleRaw? [.leaf (.raw raw)] = some raw := rfl
  rw [Item.isSafe, sole, Option.all_some, Bool.or_eq_true] at safe
  rw [Item.reprintedRaw]
  split
  · exact scanRaw_rawBlock breaks (isSolid_rawDelimiter key) (rawDelimiter_ne_nil _) scanned _ _
  · next line =>
    rcases safe with breaks | scanned
    · exact absurd (List.contains_iff_mem.mp breaks) line
    · exact beq_iff_eq.mp scanned

namespace Item

def isText : Item → Bool
  | leaf t => t.isText
  | element _ _ _ => false

theorem hasText_of_isText {i : Item} (regular : i.Regular) (spaced : Spaced i.source)
    (text : i.isText = true) :
    i.isInline = true ∧ i.hasText = true := by
  cases regular with
  | @leaf t _ reads _ =>
    obtain ⟨r, reads⟩ := reads
    rw [source_leaf] at spaced
    cases t with
    | text t =>
      have trimmed : Text.trim t = t := (Text.isTrim_of_spaced spaced (TextReads.begins reads)
        (TextReads.ends reads)).trim
      refine ⟨rfl, ?_⟩
      rw [hasText, Token.source, trimmed, List.isEmpty_eq_false_iff.mpr (TextReads.nonempty reads)]
      rfl
    | _ => cases text
  | raw _ _ _ _ _ _ => cases text
  | element _ _ _ _ _ _ _ _ => cases text

theorem tokensOf_lineBreak (depth : Nat) (items : List Item) :
    tokensOf (lineBreak sep depth :: items) =
      .filler (.space (sep depth)) :: tokensOf items := rfl

theorem tokensOf_singleton (i : Item) : tokensOf [i] = i.tokens := List.append_nil _

theorem firstShown_reprint (breaks : Breaks sep) {i : Item} (regular : i.Regular)
    (visible : i.isGap = false) (depth : Nat) (r s : Text) :
    firstShown (sources (i.reprint sep depth) ++ r) = firstShown (i.source ++ s) := by
  cases i with
  | leaf t =>
    have visible : t.leafKind?.isNone = false := visible
    cases regular with
    | leaf plain reads clear =>
      obtain ⟨rest, reads⟩ := reads
      obtain ⟨led, same, -⟩ := Token.head?_reprinted reads plain visible
      have alone := @Token.reads_reprinted [] _ _ reads plain clear visible (.inl rfl) fun _ => rfl
      rw [reprint, visible, if_neg Bool.false_ne_true, sources_cons, sources_cons, sources_nil,
        source_lineBreak, source_leaf, source_leaf, List.append_nil, List.append_assoc,
        firstShown_spaces (breaks.spaces depth), firstShown_of_solid led reads.source_ne_nil,
        firstShown_of_solid (isLed_of_head?_eq same ▸ led) alone.source_ne_nil, same]
  | element tag content closing =>
    rw [reprint, sources_cons, source_lineBreak, List.append_assoc,
      firstShown_spaces (breaks.spaces depth), sources_cons, source_element, tag.source_printed,
      source_element]
    rfl

theorem isTextChar_firstShown {i : Item} (regular : i.Regular) (visible : i.isGap = false)
    (other : i.isText = false) (r : Text) : showsText (i.source ++ r) = false := by
  cases i with
  | leaf t =>
    cases regular with
    | leaf plain reads _ =>
      obtain ⟨rest, reads⟩ := reads
      obtain ⟨led, -, first⟩ := Token.head?_reprinted reads plain visible
      rw [source_leaf, showsText, firstShown_of_solid led reads.source_ne_nil]
      exact first other
  | element tag content closing =>
    rw [source_element]
    rfl

theorem apart_reprint (breaks : Breaks sep) (i : Item) (depth : Nat) {r : Text} (apart : Apart r) :
    Apart (sources (i.reprint sep depth) ++ r) := by
  cases i with
  | leaf t =>
    rw [reprint]
    split
    · exact apart
    · rw [sources_cons, source_lineBreak, List.append_assoc]
      exact apart_break breaks depth _
  | element tag content closing =>
    rw [reprint, sources_cons, source_lineBreak, List.append_assoc]
    exact apart_break breaks depth _

/-- What is written of the item is read as it was written, in front of a text that does not go on
with it. -/
def Rereads (sep : Nat → Text) (i : Item) : Prop :=
  ∀ depth r, Apart r → (i.isText = true → showsText r = false) →
    AllRead r (tokensOf (i.reprint sep depth))

theorem rereads_leaf (breaks : Breaks sep) {t : Token} (plain : t.Plain) (reads : ∃ r, t.Reads r)
    (clear : t.isClear = true) : (leaf t).Rereads sep := by
  intro depth r apart stops
  obtain ⟨rest, reads⟩ := reads
  rw [reprint]
  cases visible : t.leafKind?.isNone with
  | true => exact .nil
  | false =>
    have own := Token.reads_reprinted reads plain clear visible apart stops
    obtain ⟨led, same, -⟩ := Token.head?_reprinted reads plain visible
    rw [← isLed_of_head?_eq same] at led
    rw [if_neg Bool.false_ne_true, tokensOf_lineBreak, tokensOf_singleton]
    refine allRead_break breaks depth (.cons own .nil) ?_
    have row : Token.sources (leaf t.reprinted).tokens = t.reprinted.source := List.append_nil _
    rw [row, Text.isLed_append_of_ne_nil own.source_ne_nil]
    exact led

theorem rereads_element (breaks : Breaks sep) {tag : Tag} {body : List Item} {closing : Closing}
    {depth : Nat} (h : AllRead r (element tag body closing).tokens) :
    AllRead r (tokensOf [lineBreak sep depth, element tag body closing]) := by
  rw [tokensOf_lineBreak, tokensOf_singleton]
  exact allRead_break breaks depth h rfl

theorem rereads_raw (breaks : Breaks sep) {tag : Tag} {raw : Text} {closing : Closing}
    (own : tag.Regular) (key : isRawKey tag.key = true)
    (scanned : scanRaw (rawDelimiter tag.key) (rawDelimiter tag.key) raw =
      some (rawDelimiter tag.key))
    (safe : isSafe tag.key [leaf (.raw raw)] = true) :
    (element tag [leaf (.raw raw)] closing).Rereads sep := by
  intro depth r _ _
  rw [reprint_raw key]
  exact rereads_element breaks (allRead_raw own key
    (scanRaw_reprintedRaw breaks key scanned safe depth))

theorem not_blank_of_anyText {items : List Item} (text : anyText items = true) :
    ¬ IsBlankText (sources items) := by
  intro blank
  induction items with
  | nil => cases text
  | cons i items ih =>
    rw [sources_cons, Text.isBlankText_append] at blank
    rw [anyText, Bool.or_eq_true] at text
    refine text.elim (fun own => ?_) fun more => ih more blank.2
    cases i with
    | leaf t =>
      rw [hasText, Bool.and_eq_true] at own
      rw [source_leaf] at blank
      rw [Text.trim_eq_nil.mpr blank.1] at own
      cases own.2
    | element tag content closing =>
      have bracket := blank.1 '<' (by simp [source_element, Tag.source])
      cases bracket

theorem isChain_rows (run rest : List (Item × Item)) (same : ∀ pair ∈ rest, pair.1 = pair.2) :
    (rows run rest).IsChain fun a b =>
      ∀ shared, a = .shared shared → ∃ i, b = .alone i ∧ i.isInline = false := by
  have flushed (run : List (Item × Item)) : (flush run).IsChain fun a b =>
      ∀ shared, a = .shared shared → ∃ i, b = .alone i ∧ i.isInline = false := by
    unfold flush
    split
    · exact List.isChain_singleton _
    · refine (List.isChain_map _).mpr ((List.isChain_isInfix run).imp fun a b _ shared h => ?_)
      cases h
  induction rest generalizing run with
  | nil => exact flushed run
  | cons pair rest ih =>
    obtain ⟨i, a⟩ := pair
    obtain ⟨here, others⟩ := List.forall_mem_cons.mp same
    have own : i = a := here
    unfold rows
    split
    · exact ih _ others
    · next block =>
      refine List.isChain_append.mpr ⟨flushed run, ?_, ?_⟩
      · refine List.isChain_cons.mpr ⟨fun b _ shared h => ?_, ih _ others⟩
        cases h
      · intro b _ c hc shared _
        cases hc
        exact ⟨a, rfl, by rw [← own]; simpa using block⟩

theorem allRead_rows (breaks : Breaks sep) {depth : Nat} {rows : List (Row Item)}
    (chain : rows.IsChain fun a b =>
      ∀ shared, a = .shared shared → ∃ i, b = .alone i ∧ i.isInline = false)
    (spaced : ∀ row ∈ rows, row.Spaced) (rereads : ∀ i, Row.alone i ∈ rows → i.Rereads sep)
    {r : Text} (apart : Apart r)
    (stops : showsText r = false) :
    AllRead r (tokensOf (rows.flatMap fun row => (row.map (reprint sep depth)).reprinted sep depth)) ∧
      Apart (sources (rows.flatMap fun row =>
        (row.map (reprint sep depth)).reprinted sep depth) ++ r) := by
  induction rows with
  | nil => exact ⟨.nil, apart⟩
  | cons row rows ih =>
    obtain ⟨⟨own, spaced⟩, others⟩ := List.forall_mem_cons.mp spaced
    obtain ⟨read, behind⟩ := ih chain.tail others fun i hi => rereads i (List.mem_cons_of_mem _ hi)
    rw [List.flatMap_cons, tokensOf_append, sources_append, List.append_assoc]
    cases row with
    | alone i =>
      refine ⟨.append ?_ read, apart_reprint breaks i depth behind⟩
      rw [sources_tokensOf]
      refine rereads i List.mem_cons_self depth _ behind fun text => ?_
      have alone : Spaced i.source := spaced.of_subset (source_subset (List.mem_singleton_self i))
      obtain ⟨inline, text⟩ := hasText_of_isText own.1 alone text
      rw [own.2 inline] at text
      cases text
    | shared run =>
      have next : showsText (sources (rows.flatMap fun row =>
          (row.map (reprint sep depth)).reprinted sep depth) ++ r) = false := by
        cases rows with
        | nil => exact stops
        | cons other rows =>
          obtain ⟨i, rfl, block⟩ := (List.isChain_cons_cons.mp chain).1 run rfl
          have regular := (others _ List.mem_cons_self).regular.1
          have visible : i.isGap = false := by
            rw [← Bool.not_eq_true]
            intro gap
            rw [isInline_of_isGap gap] at block
            cases block
          have other : i.isText = false := by
            rw [← Bool.not_eq_true]
            intro text
            cases i with
            | leaf t => cases t <;> cases text; cases block
            | element tag content closing => cases text
          have begins := firstShown_reprint breaks regular visible depth
          rw [List.flatMap_cons, sources_append, List.append_assoc, showsText,
            show Row.reprinted sep depth (Row.map (reprint sep depth) (.alone i)) =
              i.reprint sep depth from rfl, begins _ []]
          exact isTextChar_firstShown regular visible other []
      obtain ⟨source, reads⟩ := copy_reads own.regular own.inline own.reads spaced
      have copied := reads _ (behind.halts next)
      rw [← sources_tokensOf] at copied
      have led : isLed (Token.sources (tokensOf (copy run)) ++ Token.sources (tokensOf
          (rows.flatMap fun row => (row.map (reprint sep depth)).reprinted sep depth)) ++ r) =
            false := by
        rw [sources_tokensOf, source, List.append_assoc,
          Text.isLed_append_of_ne_nil (Text.collapse_ne_nil (not_blank_of_anyText own.text))]
        exact Text.isLed_collapse _
      have whole := copied.append read
      rw [Row.map, Row.reprinted, tokensOf_lineBreak, sources_cons, source_lineBreak,
        List.append_assoc, List.cons_append]
      exact ⟨allRead_break breaks depth whole (by rwa [Token.sources_append]),
        apart_break breaks depth _⟩

theorem allRead_block (breaks : Breaks sep) {content : List Item} (inner depth : Nat)
    (regular : ∀ i ∈ content, i.Regular) (reads : ∃ r, AllRead r (tokensOf content))
    (spaced : Spaced (sources content)) (rereads : ∀ i ∈ content, i.Rereads sep) (r : Text) :
    AllRead ('<' :: r) (tokensOf (((rowsOf content).flatMap fun row =>
      (row.map (reprint sep inner)).reprinted sep inner) ++ [lineBreak sep depth])) := by
  have last : AllRead ('<' :: r) [.filler (.space (sep depth))] := allRead_break breaks depth .nil rfl
  have source : Token.sources [.filler (.space (sep depth))] = sep depth := List.append_nil _
  have stops : showsText (sep depth ++ '<' :: r) = false := by
    rw [showsText_break breaks]
    rfl
  rw [tokensOf_append]
  refine .append ?_ last
  rw [show tokensOf [lineBreak sep depth] = [.filler (.space (sep depth))] from rfl, source]
  exact (allRead_rows breaks (isChain_rows _ _ (by simp)) (spaced_rows regular reads spaced)
    (fun i hi => rereads i (mem_of_mem_rowsOf hi (List.mem_singleton_self i)))
    (apart_break breaks depth _) stops).1

theorem rereads_of_regular (breaks : Breaks sep) {i : Item} (regular : i.Regular)
    (spaced : Spaced i.source) : i.Rereads sep := by
  induction regular with
  | leaf plain reads clear => exact rereads_leaf breaks plain reads clear
  | raw own key _ _ scanned safe => exact rereads_raw breaks own key scanned safe
  | @element tag content closing own key regular reads _ _ _ _ ih =>
    intro depth r _ _
    have none := soleRaw?_of_regular regular
    have within := spaced.of_subset sources_subset
    have each : ∀ i ∈ content, i.Rereads sep := fun i hi =>
      ih i hi (within.of_subset (source_subset hi))
    rw [reprint]
    cases kind : shape tag content with
    | bare =>
      rw [body_bare kind]
      refine rereads_element breaks (.cons ⟨tag.reads_printed own _, ?_⟩ .nil)
      rwa [tag.key_printed]
    | empty =>
      rw [body_empty kind]
      exact rereads_element breaks (allRead_element own key .nil)
    | inline text =>
      obtain ⟨-, inline, -⟩ := inline_of_shape none kind
      rw [body_inline kind none]
      exact rereads_element breaks (allRead_element own key
        ((copy_reads regular inline reads within).2 _ (halts_bracket _)))
    | block =>
      rw [body_block kind none]
      exact rereads_element breaks (allRead_element own key
        (allRead_block breaks _ _ regular reads within each _))

/-- What is written of the item, in an element of the name if that is not none, is nested as it is
written. -/
def Renests (sep : Nat → Text) (i : Item) : Prop :=
  ∀ depth parent, i.Fits parent → ∀ j ∈ i.reprint sep depth, j.Nests parent

theorem nests_space (parent : Option Text) (t : Text) : Nests parent (leaf (.filler (.space t))) :=
  .leaf (fun u h => by cases h) (fun u h => by cases h)

theorem renests_leaf {t : Token} (plain : t.Plain) : (leaf t).Renests sep := by
  intro depth parent _ j hj
  rw [reprint] at hj
  split at hj
  · cases hj
  · rcases List.mem_cons.mp hj with rfl | hj
    · exact nests_space parent _
    · rw [List.mem_singleton.mp hj]
      cases t with
      | tag t => exact absurd plain id
      | endTag t => exact absurd plain id
      | _ => exact .leaf (fun u h => by cases h) (fun u h => by cases h)

theorem renests_element {tag : Tag} {body : List Item} {closing : Closing} {depth : Nat}
    {parent : Option Text} (h : (element tag body closing).Nests parent) :
    ∀ j ∈ [lineBreak sep depth, element tag body closing], j.Nests parent :=
  List.forall_mem_cons.mpr ⟨nests_space parent _, List.forall_mem_singleton.mpr h⟩

theorem nests_printed {tag : Tag} {body : List Item} {parent : Option Text}
    (fits : Nest.Fits parent tag.key) (nests : ∀ j ∈ body, j.Nests (some tag.key)) :
    (element tag.printed body (.endTag tag.printedEnd)).Nests parent := by
  rw [← tag.key_printed] at fits nests
  exact .endTag rfl fits nests (tag.key_printed.trans tag.key_printedEnd.symm) (.inl rfl)

theorem renests_of_regular {i : Item} (regular : i.Regular) : i.Renests sep := by
  induction regular with
  | leaf plain _ _ => exact renests_leaf plain
  | @raw tag raw e own key _ _ _ _ =>
    intro depth parent fits
    rw [reprint_raw key]
    refine renests_element (nests_printed fits (List.forall_mem_singleton.mpr (.leaf ?_ ?_)))
    · exact fun u h => by cases h
    · exact fun u h => by cases h
  | @element tag content closing own key regular reads _ all void _ ih =>
    intro depth parent fits
    have none := soleRaw?_of_regular regular
    have inner := fits_content all void
    rw [reprint]
    cases kind : shape tag content with
    | bare =>
      rw [body_bare kind]
      refine renests_element (.void rfl ?_ ?_)
      · rw [tag.key_printed]
        exact isVoid_key (isVoid_of_shape kind)
      · rw [tag.key_printed]
        exact fits
    | empty =>
      rw [body_empty kind]
      exact renests_element (nests_printed fits (by simp))
    | inline text =>
      obtain ⟨-, inline, -⟩ := inline_of_shape none kind
      rw [body_inline kind none]
      exact renests_element (nests_printed fits (nests_copy regular inline inner))
    | block =>
      rw [body_block kind none]
      refine renests_element (nests_printed fits (List.forall_mem_append.mpr
        ⟨List.forall_mem_flatMap.mpr fun row hrow => ?_,
          List.forall_mem_singleton.mpr (nests_space _ _)⟩))
      have facts := regular_rows regular reads row hrow
      have own : ∀ i ∈ row.items, i.Fits (some tag.key) := fun i hi =>
        inner i (mem_of_mem_rowsOf hrow hi)
      cases row with
      | alone i =>
        have here := List.mem_singleton_self i
        exact ih i (mem_of_mem_rowsOf hrow here) _ _ (own i here)
      | shared run =>
        exact List.forall_mem_cons.mpr
          ⟨nests_space _ _, nests_copy facts.regular facts.inline own⟩

variable {items : List Item}

theorem firstShown_roots (breaks : Breaks sep) (regular : ∀ i ∈ items, i.Regular)
    (depth : Nat) {r s : Text} (same : firstShown r = firstShown s) :
    firstShown (sources (items.flatMap (reprint sep depth)) ++ r) =
      firstShown (sources items ++ s) := by
  induction items with
  | nil => exact same
  | cons i items ih =>
    obtain ⟨own, others⟩ := List.forall_mem_cons.mp regular
    rw [List.flatMap_cons, sources_append, sources_cons, List.append_assoc, List.append_assoc]
    cases gap : i.isGap with
    | false => exact firstShown_reprint breaks own gap depth _ _
    | true =>
      cases i with
      | element tag content closing => cases gap
      | leaf t =>
        have none : t.leafKind?.isNone = true := gap
        have spaces : ∀ c ∈ t.source, Markup.isSpace c = true := by
          cases own with
          | leaf plain reads _ =>
            obtain ⟨rest, reads⟩ := reads
            cases t with
            | filler f =>
              cases f with
              | space t => exact (Filler.Reads.space reads).2.1
              | comment t => cases gap
            | tag t => exact absurd plain id
            | endTag t => exact absurd plain id
            | _ => cases gap
        rw [reprint, if_pos none, sources_nil, List.nil_append, source_leaf,
          firstShown_spaces spaces]
        exact ih others

theorem showsText_of_isText {i : Item} (regular : ∀ j ∈ i :: items, j.Regular)
    (reads : AllRead r (tokensOf (i :: items))) (text : i.isText = true) :
    showsText (sources items ++ r) = false := by
  rw [tokensOf] at reads
  have cut := head?_tokensOf_of_regular fun j hj => regular j (List.mem_cons_of_mem _ hj)
  obtain ⟨own, -⟩ := reads.of_append cut
  cases i with
  | element tag content closing => cases text
  | leaf t =>
    cases t with
    | text t =>
      cases own with
      | cons h _ =>
        rw [← sources_tokensOf]
        exact TextReads.stops h
    | _ => cases text

/-- The roots of a page are read as they are written. -/
theorem allRead_roots (breaks : Breaks sep) (regular : ∀ i ∈ items, i.Regular)
    (spaced : Spaced (sources items)) {s : Text} (reads : AllRead s (tokensOf items)) (depth : Nat)
    (apart : Apart r)
    (same : firstShown r = firstShown s) :
    AllRead r (tokensOf (items.flatMap (reprint sep depth))) ∧
      Apart (sources (items.flatMap (reprint sep depth)) ++ r) := by
  induction items with
  | nil => exact ⟨.nil, apart⟩
  | cons i items ih =>
    obtain ⟨own, others⟩ := List.forall_mem_cons.mp regular
    have tail : AllRead s (tokensOf items) := by
      rw [tokensOf] at reads
      exact (reads.of_append (head?_tokensOf_of_regular others)).2
    rw [sources_cons] at spaced
    obtain ⟨read, behind⟩ := ih others (spaced.of_subset (List.subset_append_right _ _)) tail
    rw [List.flatMap_cons, tokensOf_append, sources_append, List.append_assoc]
    refine ⟨.append ?_ read, apart_reprint breaks i depth behind⟩
    rw [sources_tokensOf]
    refine rereads_of_regular breaks own (spaced.of_subset (List.subset_append_left _ _)) depth _
      behind fun text => ?_
    rw [showsText, firstShown_roots breaks others depth same]
    exact showsText_of_isText regular reads text

end Item
end MarkupGrader.Markup
