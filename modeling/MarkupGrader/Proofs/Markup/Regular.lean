import MarkupGrader.Proofs.Diagnostic.Faultless
import MarkupGrader.Proofs.Markup.Settle
import MarkupGrader.Proofs.Markup.Squeezed

/-! Regular items: those of a source without faults whose layout is read as it was laid out, with all
that is known of how they were read. -/

namespace MarkupGrader.Markup

variable {r rest : Text} {ts : List Token}

/-- The tag was read in front of some text, and may be written anew. -/
structure Tag.Regular (t : Tag) : Prop where
  reads : ∃ r, t.Reads r
  clear : t.isClear = true
  quotable : t.isQuotable = true
  distinct : t.isDistinct = true

namespace Item

inductive Ends (tag : Tag) (content : List Item) : Closing → Prop
  | endTag {e : EndTag} (opens : tag.selfClosing = false) (same : tag.key = e.key)
      (firm : e.lead = [] ∨ Firm content) : Ends tag content (.endTag e)
  | selfClosed (closes : tag.selfClosing = true) (none : content = []) :
      Ends tag content .selfClosed
  | implied (opens : tag.selfClosing = false)
      (may : (ElementClass.isVoid tag.elementName ||
        ElementClass.hasOptionalEnd tag.elementName) = true) : Ends tag content .implied

inductive Regular : Item → Prop
  | leaf {t : Token} (plain : t.Plain) (reads : ∃ r, t.Reads r) (clear : t.isClear = true) :
      Regular (leaf t)
  | raw {tag : Tag} {raw : Text} {e : EndTag} (own : tag.Regular) (key : isRawKey tag.key = true)
      (opens : tag.selfClosing = false) (same : tag.key = e.key)
      (scanned : scanRaw (rawDelimiter tag.key) (rawDelimiter tag.key) raw =
        some (rawDelimiter tag.key))
      (safe : isSafe tag.key [leaf (.raw raw)] = true) :
      Regular (element tag [leaf (.raw raw)] (.endTag e))
  | element {tag : Tag} {content : List Item} {closing : Closing} (own : tag.Regular)
      (key : isRawKey tag.key = false) (regular : ∀ i ∈ content, Regular i)
      (reads : ∃ r, AllRead r (tokensOf content)) (settled : Settled content)
      (fits : content.all (fits tag.key) = true)
      (void : TagName.isVoid tag.key = true → ∀ i ∈ content, i.isLeaf = true)
      (ends : Ends tag content closing) : Regular (element tag content closing)

theorem Regular.plain {i : Item} (regular : i.Regular) : i.Plain := by
  induction regular with
  | leaf plain _ _ => exact .leaf plain
  | raw _ _ _ _ _ _ => exact .element (List.forall_mem_singleton.mpr (.leaf trivial))
  | element _ _ _ _ _ _ _ _ ih => exact .element ih

theorem head?_tokens {i : Item} (sound : i.Sound) (us : List Token) :
    ∀ raw, (i.tokens ++ us).head? ≠ some (.raw raw) := by
  cases sound with
  | leaf raw => exact fun u h => raw u (Option.some.inj h)
  | selfClosed => simp [tokens]
  | raw => simp [tokens]
  | implied => simp [tokens]
  | endTag => simp [tokens]

theorem head?_tokensOf {items : List Item} (sound : ∀ i ∈ items, i.Sound) {us : List Token}
    (none : ∀ raw, us.head? ≠ some (.raw raw)) :
    ∀ raw, (tokensOf items ++ us).head? ≠ some (.raw raw) := by
  cases items with
  | nil => exact none
  | cons i items =>
    rw [tokensOf, List.append_assoc]
    exact head?_tokens (sound i List.mem_cons_self) _

theorem allRead_of_mem {items : List Item} (sound : ∀ i ∈ items, i.Sound)
    (reads : AllRead r (tokensOf items)) {i : Item} (mem : i ∈ items) :
    ∃ r, AllRead r i.tokens := by
  obtain ⟨front, back, rfl⟩ := List.append_of_mem mem
  rw [tokensOf_append] at reads
  have behind : ∀ j ∈ back, j.Sound := fun j hj =>
    sound j (List.mem_append_right _ (List.mem_cons_of_mem _ hj))
  have own := sound i mem
  have cut := head?_tokens own (tokensOf back)
  obtain ⟨-, rest⟩ := reads.of_append cut
  have none := @head?_tokensOf _ behind [] (by simp)
  rw [List.append_nil] at none
  exact ⟨_, (rest.of_append none).1⟩

theorem head?_closing (closing : Closing) : ∀ raw, closing.tokens.head? ≠ some (.raw raw) := by
  cases closing <;> simp [Closing.tokens]

theorem allRead_content {tag : Tag} {content : List Item} {closing : Closing}
    (sound : ∀ i ∈ content, i.Sound)
    (reads : AllRead r (element tag content closing).tokens) :
    (∃ r, tag.Reads r) ∧ ∃ r, AllRead r (tokensOf content) := by
  have none := head?_tokensOf sound (head?_closing closing)
  rw [tokens] at reads
  generalize rest : tokensOf content ++ closing.tokens = us at reads none
  cases reads with
  | cons h more =>
    subst rest
    exact ⟨⟨_, h.1⟩, _, (more.of_append (head?_closing closing)).1⟩
  | raw _ _ _ _ _ => exact absurd rfl (none _)

theorem regular_element {tag : Tag} {content : List Item} {closing : Closing}
    (key : isRawKey tag.key = false) (sound : ∀ i ∈ content, i.Sound) (settled : Settled content)
    (void : TagName.isVoid tag.key = true → ∀ i ∈ content, i.isLeaf = true)
    (ends : isClosed tag closing = true → Ends tag content closing)
    (reads : ∃ r, AllRead r (element tag content closing).tokens)
    (plain : (element tag content closing).Plain)
    (printable : (element tag content closing).isPrintable = true)
    (faultless : (element tag content closing).isFaultless = true)
    (inner : ∀ i ∈ content, (∃ r, AllRead r i.tokens) → i.Plain → i.isPrintable = true →
      i.isFaultless = true → i.Regular) :
    (element tag content closing).Regular := by
  obtain ⟨r, reads⟩ := reads
  obtain ⟨tagReads, r', contentReads⟩ := allRead_content sound reads
  obtain ⟨printable, each⟩ := every_element_iff.mp printable
  obtain ⟨faultless, clean⟩ := every_element_iff.mp faultless
  simp only [Bool.and_eq_true] at printable faultless
  obtain ⟨⟨⟨quotable, clear⟩, fits⟩, -⟩ := printable
  obtain ⟨distinct, closed⟩ := faultless
  refine .element ⟨tagReads, clear, quotable, distinct⟩ key (fun i hi => ?_) ⟨r', contentReads⟩
    settled fits void (ends closed)
  cases plain with
  | element plain =>
    exact inner i hi (allRead_of_mem sound contentReads hi) (plain i hi)
      (each i hi) (clean i hi)

theorem regular_raw {tag : Tag} {e : EndTag} {text : Text} (opens : tag.selfClosing = false)
    (key : isRawKey tag.key = true) (same : tag.key = e.key)
    (reads : ∃ r, AllRead r (element tag [leaf (.raw text)] (.endTag e)).tokens)
    (printable : (element tag [leaf (.raw text)] (.endTag e)).isPrintable = true)
    (faultless : (element tag [leaf (.raw text)] (.endTag e)).isFaultless = true) :
    (element tag [leaf (.raw text)] (.endTag e)).Regular := by
  obtain ⟨r, reads⟩ := reads
  rw [isPrintable, every] at printable
  rw [isFaultless, everyElement, every] at faultless
  simp only [Bool.and_eq_true] at printable faultless
  obtain ⟨⟨⟨⟨quotable, clear⟩, -⟩, safe⟩, -⟩ := printable
  have row : (element tag [leaf (.raw text)] (.endTag e)).tokens =
      [.tag tag, .raw text, .endTag e] := rfl
  rw [row] at reads
  cases reads with
  | cons h _ =>
    rw [h.2] at key
    cases key
  | raw _ _ h split _ =>
    exact .raw ⟨⟨_, h⟩, clear, quotable, faultless.1.1⟩ key opens same (scanRaw_of_readRaw? split).1
      safe

theorem regular_of_sound {i : Item} (sound : i.Sound) (reads : ∃ r, AllRead r i.tokens)
    (plain : i.Plain) (printable : i.isPrintable = true) (faultless : i.isFaultless = true) :
    i.Regular := by
  induction sound with
  | @leaf t raw =>
    obtain ⟨r, reads⟩ := reads
    cases plain with
    | leaf plain =>
      cases reads with
      | cons h _ => exact .leaf plain ⟨_, h⟩ printable
  | selfClosed closes key =>
    exact regular_element key (by simp) List.isChain_nil (by simp)
      (fun _ => .selfClosed closes rfl) reads plain printable faultless (by simp)
  | raw text opens key same => exact regular_raw opens key same reads printable faultless
  | @implied tag content opens key sound settled void ih =>
    refine regular_element key sound settled void (fun closed => .implied opens ?_) reads plain
      printable faultless ih
    rw [isClosed, opens] at closed
    exact closed
  | endTag opens key sound settled void same firm ih =>
    exact regular_element key sound settled void (fun _ => .endTag opens same firm) reads plain
      printable faultless ih

/-- A page that is printable and without faults is made of regular items. -/
theorem regular_of_read {source : Text} {items : List Item} {requireDoctype : Bool}
    (read : (tokens? (markupOf source).2).bind unclosedItems? = some items)
    (whole : ReadAs source items)
    (clean : Diagnostic.collect source (documentNode source items) requireDoctype = [])
    (printable : ∀ i ∈ items, i.isPrintable = true) :
    AllRead [] (tokensOf items) ∧ ∀ i ∈ items, i.Regular := by
  obtain ⟨reads, sound, -⟩ := allRead_of_items read
  have plain := Diagnostic.plain_of_collect whole clean
  have faultless := ((Diagnostic.collect_eq_nil whole plain requireDoctype).mp clean).2
  exact ⟨reads, fun i hi => regular_of_sound (sound i hi) (allRead_of_mem sound reads hi)
    (plain i hi) (printable i hi) (faultless i hi)⟩

end Item
end MarkupGrader.Markup
