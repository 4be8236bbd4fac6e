import MarkupGrader.Diagnostic
import MarkupGrader.Proofs.Markup.Located

/-! Plain items are those of a source in which nothing is wrong: white space is blank, and no tag
stands alone. A tree in which nothing was missed and that has no diagnostics is made of them. -/

namespace MarkupGrader.Markup

def Token.Plain : Token → Prop
  | .filler (.space t) => Text.IsBlankText t
  | .tag _ | .endTag _ => False
  | _ => True

def Token.Lexed : Token → Prop
  | .filler (.space t) => Text.IsBlankText t
  | _ => True

inductive Item.Leaves (p : Token → Prop) : Item → Prop
  | leaf {t : Token} (h : p t) : Leaves p (.leaf t)
  | element {tag : Tag} {content : List Item} {closing : Closing} (h : ∀ i ∈ content, Leaves p i) :
      Leaves p (.element tag content closing)

abbrev Item.Plain (i : Item) : Prop := i.Leaves Token.Plain

theorem lexed_of_readFiller? {s rest : Text} {f : Filler} (h : readFiller? s = some (f, rest)) :
    (Token.filler f).Lexed := by
  unfold readFiller? at h
  simp only at h
  split at h
  · obtain ⟨c, -, eq⟩ := Option.map_eq_some_iff.mp h
    cases eq
    trivial
  · cases h
    intro c hc
    exact Text.isBlank_of_isSpace (List.mem_takeWhile_imp hc)

theorem lexed_of_readTokens? {s rest : Text} {ts : List Token}
    (h : readTokens? s = some (ts, rest)) : ∀ t ∈ ts, t.Lexed := by
  unfold readTokens? at h
  split at h
  · next f r found =>
    simp only [Option.some.injEq, Prod.mk.injEq] at h
    obtain ⟨rfl, rfl⟩ := h
    intro t ht
    rw [List.mem_singleton.mp ht]
    exact lexed_of_readFiller? found
  · split at h
    · cases h
    · obtain ⟨d, -, eq⟩ := Option.map_eq_some_iff.mp h
      cases eq
      simp [Token.Lexed]
    · obtain ⟨d, -, eq⟩ := Option.map_eq_some_iff.mp h
      cases eq
      simp [Token.Lexed]
    · obtain ⟨⟨t, r⟩, -, eq⟩ := Option.bind_eq_some_iff.mp h
      simp only at eq
      split at eq
      · split at eq
        · cases eq
        · obtain ⟨raw, -, eq⟩ := Option.map_eq_some_iff.mp eq
          cases eq
          simp [Token.Lexed]
      · cases eq
        simp [Token.Lexed]
    · obtain ⟨d, -, eq⟩ := Option.map_eq_some_iff.mp h
      cases eq
      simp [Token.Lexed]
    · cases h
    · simp only at h
      split at h
      · cases h
      · cases h
        simp [Token.Lexed]

theorem lexed_of_tokens? {s : Text} {ts : List Token} (h : tokens? s = some ts) :
    ∀ t ∈ ts, t.Lexed := by
  fun_induction tokens? s generalizing ts with
  | case1 s empty =>
    cases h
    simp
  | case2 => cases h
  | case3 s _ front rest found _ ih =>
    obtain ⟨more, inner, rfl⟩ := Option.map_eq_some_iff.mp h
    intro t ht
    rcases List.mem_append.mp ht with ht | ht
    · exact lexed_of_readTokens? found t ht
    · exact ih inner t ht

mutual

/-- Nothing in the tree is missing, and nothing was left uncomprehended. -/
def Node.isWhole : Node → Bool
  | .node kind _ missing children => kind != .error && !missing && Node.allWhole children

def Node.allWhole : List Node → Bool
  | [] => true
  | n :: rest => n.isWhole && Node.allWhole rest

end

namespace Recovery

/-- A recovery marks all that is wrong with a source but the elements that are open at its end: if its
tree has no error and lacks no token, it is the tree in which they end there. -/
def Marks (r : Recovery) : Prop :=
  ∀ source, read? source = none → (r source).isWhole = true → r source = atEnd source

theorem marks_atEnd : Marks atEnd := fun _ _ _ => rfl

/-- Trees that were recorded for some sources mark what is wrong if each whole one of them does. -/
theorem marks_ofList {trees : List (Text × Node)}
    (each : ∀ source root, trees.lookup source = some root → read? source = none →
      root.isWhole = true → root = atEnd source) :
    Marks (ofList trees) := by
  intro source bad whole
  cases listed : trees.lookup source with
  | none => rw [ofList, listed, Option.getD_none]
  | some root =>
    rw [ofList, listed, Option.getD_some] at whole ⊢
    exact each source root listed bad whole

end Recovery

def itemsOf (source : Text) : List Item :=
  ((tokens? (markupOf source).2).bind unclosedItems?).getD []

structure ReadAs (source : Text) (items : List Item) : Prop where
  sources : Item.sources items = (markupOf source).2
  loose : ∀ i ∈ items, i.Leaves fun t => t.Lexed ∧ ∀ tag, t ≠ .tag tag

theorem readAs_of_items {source : Text} {items : List Item}
    (read : (tokens? (markupOf source).2).bind unclosedItems? = some items) :
    ReadAs source items := by
  obtain ⟨ts, lexed, nested⟩ := Option.bind_eq_some_iff.mp read
  have inherited : Nest.Inherited (Item.Leaves fun t => t.Lexed ∧ ∀ tag, t ≠ .tag tag) :=
    fun _ _ _ content => .element content
  obtain ⟨loose, sources⟩ := unclosedItems?_eq_some inherited
    (fun t ht noTag => .leaf ⟨lexed_of_tokens? lexed t ht, noTag⟩) nested
  exact ⟨sources.trans (source_of_tokens? lexed), loose⟩

theorem unclosed_of_items {source : Text} {items : List Item}
    (read : (tokens? (markupOf source).2).bind items? = some items) :
    (tokens? (markupOf source).2).bind unclosedItems? = some items := by
  obtain ⟨ts, lexed, nested⟩ := Option.bind_eq_some_iff.mp read
  rw [lexed]
  exact unclosedItems?_of_items? nested

theorem parse_of_items (r : Recovery) {source : Text} {items : List Item}
    (read : (tokens? (markupOf source).2).bind items? = some items) :
    parse r source = documentNode source items ∧ ReadAs source items := by
  refine ⟨?_, readAs_of_items (unclosed_of_items read)⟩
  rw [parse, read?, read]
  rfl

/-- Of a source with a whole tree no more is missing than ends of elements at its end. -/
theorem items_and_parse_of_whole {r : Recovery} (marks : r.Marks) {source : Text}
    (whole : (parse r source).isWhole = true) :
    (tokens? (markupOf source).2).bind unclosedItems? = some (itemsOf source) ∧
      parse r source = documentNode source (itemsOf source) := by
  cases read : (tokens? (markupOf source).2).bind items? with
  | some items =>
    have unclosed := unclosed_of_items read
    rw [itemsOf, unclosed, Option.getD_some]
    exact ⟨rfl, (parse_of_items r read).1⟩
  | none =>
    have bad : read? source = none := by rw [read?, read, Option.map_none]
    rw [parse, bad, Option.getD_none] at whole ⊢
    have same := marks source bad whole
    rw [same, Recovery.atEnd] at whole
    rw [same, Recovery.atEnd, itemsOf]
    cases unclosed : (tokens? (markupOf source).2).bind unclosedItems? with
    | none =>
      rw [unclosed] at whole
      cases whole
    | some items => exact ⟨rfl, rfl⟩

theorem items_of_whole {r : Recovery} (marks : r.Marks) {source : Text}
    (whole : (parse r source).isWhole = true) :
    (tokens? (markupOf source).2).bind unclosedItems? = some (itemsOf source) :=
  (items_and_parse_of_whole marks whole).1

theorem parse_of_whole {r : Recovery} (marks : r.Marks) {source : Text}
    (whole : (parse r source).isWhole = true) :
    parse r source = documentNode source (itemsOf source) ∧ ReadAs source (itemsOf source) :=
  ⟨(items_and_parse_of_whole marks whole).2, readAs_of_items (items_of_whole marks whole)⟩

end MarkupGrader.Markup

namespace MarkupGrader.Diagnostic

open Markup (Node Item Token Outline)

variable {source : Text}

theorem ofNodes_append (ns ms : List Node) :
    ofNodes source (ns ++ ms) = ofNodes source ns ++ ofNodes source ms := by
  induction ns with
  | nil => rfl
  | cons n ns ih => rw [List.cons_append, ofNodes, ofNodes, ih, List.append_assoc]

theorem exists_ofNodes_of_mem {items : List Item} {start : Nat} {i : Item}
    (h : ofNodes source (Outline.locateAll start (Item.outlines items)) = []) (mem : i ∈ items) :
    ∃ s, ofNodes source (i.outline.locate s) = [] := by
  induction items generalizing start with
  | nil => exact absurd mem List.not_mem_nil
  | cons j items ih =>
    rw [Item.outlines, Outline.locateAll, ofNodes_append, List.append_eq_nil_iff] at h
    rcases List.mem_cons.mp mem with rfl | mem
    · exact ⟨start, h.1⟩
    · exact ih h.2 mem

theorem plain_of_ofNodes {i : Item} (loose : i.Leaves fun t => t.Lexed ∧ ∀ tag, t ≠ .tag tag)
    {start : Nat} (h : ofNodes source (i.outline.locate start) = []) : i.Plain := by
  induction loose generalizing start with
  | @leaf t lexed =>
    refine .leaf ?_
    cases t with
    | filler f => cases f <;> exact lexed.1
    | tag t => exact absurd rfl (lexed.2 t)
    -- A stray end tag has a diagnostic of its own.
    | endTag t => simp [Item.outline, Token.outline, Markup.EndTag.outline, Outline.locate, ofNodes,
        ofNode] at h
    | doctype d => trivial
    | text t => trivial
    | entity t => trivial
    | raw t => trivial
  | @element tag content closing _ ih =>
    refine .element fun i hi => ?_
    have kind : Markup.elementKind tag.key ≠ .error := by
      unfold Markup.elementKind
      split
      · simp
      · split <;> simp
    simp only [Item.outline, Outline.locate, ofNodes, ofNode, if_neg kind, Bool.false_eq_true,
      if_false, List.append_nil, List.append_eq_nil_iff] at h
    have inner := h.2
    rw [Outline.locateAll, ofNodes_append, Outline.locateAll_append, ofNodes_append,
      List.append_eq_nil_iff, List.append_eq_nil_iff] at inner
    obtain ⟨s, clean⟩ := exists_ofNodes_of_mem inner.2.1 hi
    exact ih i hi clean

theorem ofNode_of_collect {root : Node} {requireDoctype : Bool}
    (h : collect source root requireDoctype = []) : ofNode source root = [] := by
  have none := (List.mergeSort_perm _ _).symm.trans (List.Perm.of_eq h)
  exact (List.append_eq_nil_iff.mp none.eq_nil).2

/-- A tree without faults and diagnostics is made of plain items. -/
theorem plain_of_collect {items : List Item} (read : Markup.ReadAs source items)
    {requireDoctype : Bool}
    (clean : collect source (Markup.documentNode source items) requireDoctype = []) :
    ∀ i ∈ items, i.Plain := by
  intro i hi
  have none := ofNode_of_collect clean
  simp only [Markup.documentNode, ofNode, reduceCtorEq, if_false, Bool.false_eq_true,
    List.append_eq_nil_iff] at none
  obtain ⟨s, clean⟩ := exists_ofNodes_of_mem none.2 hi
  exact plain_of_ofNodes (read.loose i hi) clean

end MarkupGrader.Diagnostic
