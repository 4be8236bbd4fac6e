import MarkupGrader.Proofs.Diagnostic.Exact
import MarkupGrader.Proofs.Document.Ownership

/-! What a source without diagnostics is certain to give. The walk that collects diagnostics and the one
that builds the document are different, but where the first finds nothing to say, the second comes only
to nodes that the first has passed. -/

namespace MarkupGrader

theorem getLast?_eq_head? {α : Type} {l : List α} (one : l.length ≤ 1) : l.getLast? = l.head? := by
  match l, one with
  | [], _ => rfl
  | [_], _ => rfl

namespace Markup.Node

/-- An element has one tag at most and an attribute one name. -/
structure Single (n : Node) : Prop where
  tags : n.kind.isElement = true → (n.children.filter opens).length ≤ 1
  names : n.kind = .attribute → (n.children.filter (·.kind == .attributeName)).length ≤ 1

instance (n : Node) : Decidable n.Single :=
  decidable_of_iff
    ((n.kind.isElement = true → (n.children.filter opens).length ≤ 1) ∧
      (n.kind = .attribute → (n.children.filter (·.kind == .attributeName)).length ≤ 1))
    ⟨fun ⟨tags, names⟩ => ⟨tags, names⟩, fun single => ⟨single.tags, single.names⟩⟩

end Markup.Node

namespace Diagnostic

open Markup (Node Kind)
open Document (Element Attribute allSubjects Tells lastOfKind? elementOf attributesOf)

variable {source : Text}

theorem ofTag_snd (tagName : Text) (seen : List Text) (parts : List Node) :
    (ofTag source tagName seen parts).2 =
      ((lastOfKind? [.tagName] parts).map fun n => (n.text source).lower).getD tagName := by
  induction parts generalizing tagName seen with
  | nil => rfl
  | cons part rest ih =>
    rw [ofTag, Document.lastOfKind?_cons]
    by_cases isTagName : part.kind = .tagName
    · rw [if_pos isTagName, ih, isTagName]
      cases lastOfKind? [.tagName] rest <;> rfl
    · have other : [Kind.tagName].contains part.kind = false := by simpa using isTagName
      rw [if_neg isTagName, other, if_neg Bool.false_ne_true, Option.or_none]
      split
      · split
        · exact ih tagName seen
        · exact ih tagName _
      · exact ih tagName seen

theorem attributeName?_of_ne {part : Node} (kind : part.kind ≠ .attribute) :
    part.attributeName? source = none := if_neg kind

theorem nodup_of_ofTag_eq_nil {tagName : Text} {seen : List Text} {parts : List Node}
    (quiet : (ofTag source tagName seen parts).1 = []) :
    (parts.filterMap (Node.attributeName? source)).Nodup ∧
      ∀ name ∈ parts.filterMap (Node.attributeName? source), name ∉ seen := by
  -- Each name joins `seen`, which the names behind it are tested against.
  induction parts generalizing tagName seen with
  | nil => simp
  | cons part rest ih =>
    rw [ofTag] at quiet
    by_cases isTagName : part.kind = .tagName
    · rw [if_pos isTagName] at quiet
      have none : part.attributeName? source = none := attributeName?_of_ne (by rw [isTagName]; decide)
      rw [List.filterMap_cons_none none]
      exact ih quiet
    · rw [if_neg isTagName] at quiet
      by_cases isAttribute : part.kind = .attribute
      · rw [if_pos isAttribute] at quiet
        have own : part.attributeName? source =
            (part.child? .attributeName).map fun n => (n.text source).lower := if_pos isAttribute
        rw [← own] at quiet
        cases named : part.attributeName? source with
        | none =>
          rw [named] at quiet
          rw [List.filterMap_cons_none named]
          exact ih quiet
        | some name =>
          rw [named] at quiet
          obtain ⟨new, later⟩ := List.append_eq_nil_iff.mp quiet
          have fresh : name ∉ seen := fun again => by
            rw [ofAttribute, if_pos (List.contains_iff_mem.mpr again)] at new
            cases new
          obtain ⟨once, unseen⟩ := ih later
          rw [List.filterMap_cons_some named]
          refine ⟨List.nodup_cons.mpr ⟨fun mem => ?_, once⟩, List.forall_mem_cons.mpr ⟨fresh, ?_⟩⟩
          · exact unseen name mem List.mem_cons_self
          · exact fun other mem again => unseen other mem (List.mem_cons_of_mem name again)
      · rw [if_neg isAttribute] at quiet
        rw [List.filterMap_cons_none (attributeName?_of_ne isAttribute)]
        exact ih quiet

theorem name_attributeOf? {a : Node} (kind : a.kind = .attribute) (single : a.Single) :
    (Document.attributeOf? source a).map Attribute.name = a.attributeName? source := by
  have last : lastOfKind? [.attributeName] a.children = a.child? .attributeName := by
    rw [Node.child?_attributeName, Document.lastOfKind?_singleton]
    exact getLast?_eq_head? (single.names kind)
  rw [Document.attributeOf?, Node.attributeName?, if_pos kind, last, Option.map_map]
  rfl

theorem names_attributesOf {tag : Node} (single : ∀ a ∈ tag.children, a.Single) :
    (attributesOf source tag).map Attribute.name =
      tag.children.filterMap (Node.attributeName? source) := by
  rw [attributesOf, List.map_filterMap, List.filterMap_filter]
  refine List.filterMap_congr fun a mem => ?_
  by_cases kind : a.kind = .attribute
  · rw [if_pos (beq_iff_eq.mpr kind), name_attributeOf? kind (single a mem)]
  · rw [attributeName?_of_ne kind, if_neg (by simpa using kind)]

/-- The element has no name of an attribute twice and ends where it has to: with an end tag, unless
its name says otherwise or the tag that it was written with does, if it has one. -/
structure Certifies (m : Node) (e : Element) : Prop where
  distinct : (e.attributes.map Attribute.name).Nodup
  ended : e.hasEndTag = true ∨ ElementClass.isVoid (e.name.getD []) = true ∨
    ElementClass.hasOptionalEnd (e.name.getD []) = true ∨
    (∃ tag, m.children.filter Node.opens = [tag] ∧ tag.kind = .selfClosingTag) ∨
    m.children.filter Node.opens = []

theorem hasEndTag_elementOf (span : Span) (parts : List Node) :
    (elementOf source span parts).hasEndTag = parts.any fun p => p.kind == .endTag && !p.missing := by
  rw [elementOf, Document.isSome_lastOfKind?_there]

theorem lastOfKind?_tags (parts : List Node) :
    lastOfKind? [.startTag, .selfClosingTag] parts = (parts.filter Node.opens).getLast? := by
  have test : (fun n : Node => [Kind.startTag, .selfClosingTag].contains n.kind) = Node.opens := by
    funext n
    rw [List.contains_cons, List.contains_cons, List.contains_nil, Bool.or_false, Node.opens]
  rw [lastOfKind?, test]

theorem certifies_of_ofElement_eq_nil {m : Node} (element : m.kind.isElement = true)
    (single : m.Single) (parts : ∀ tag ∈ m.children, tag.opens = true → ∀ a ∈ tag.children, a.Single)
    (quiet : ofElement source m.children = []) :
    Certifies m (elementOf source m.span m.children) := by
  have tags := lastOfKind?_tags m.children
  have same : (m.children.filter fun p => p.kind == .startTag || p.kind == .selfClosingTag) =
      m.children.filter Node.opens := rfl
  rw [ofElement, same] at quiet
  have one := single.tags element
  cases only : m.children.filter Node.opens with
  | nil =>
    rw [only] at tags
    refine ⟨?_, .inr (.inr (.inr (.inr only)))⟩
    rw [elementOf, tags]
    exact .nil
  | cons tag rest =>
    obtain rfl : rest = [] := List.length_eq_zero_iff.mp (by rw [only] at one; simpa using one)
    rw [only, List.getLast?_singleton] at tags quiet
    obtain ⟨mem, opens⟩ := List.mem_filter.mp (only ▸ List.mem_singleton_self tag)
    obtain ⟨repeated, unended⟩ := List.append_eq_nil_iff.mp quiet
    have name : (elementOf source m.span m.children).name.getD [] =
        (ofTag source [] [] tag.children).2 := by
      rw [ofTag_snd, elementOf, tags]
      rfl
    have ended : ([tag].any (·.kind == .selfClosingTag) ||
        m.children.any (fun p => p.kind == .endTag && !p.missing) ||
        ElementClass.isVoid (ofTag source [] [] tag.children).2 ||
        ElementClass.hasOptionalEnd (ofTag source [] [] tag.children).2) = true := by
      by_contra open_
      rw [if_neg open_] at unended
      cases unended
    rw [← name, ← hasEndTag_elementOf m.span m.children, Bool.or_eq_true, Bool.or_eq_true,
      Bool.or_eq_true] at ended
    refine ⟨?_, ?_⟩
    · rw [elementOf, tags]
      exact names_attributesOf (parts tag mem opens) ▸ (nodup_of_ofTag_eq_nil repeated).1
    · rcases ended with ((selfClosing | ending) | void) | optional
      · exact .inr (.inr (.inr (.inl ⟨tag, only, by simpa using selfClosing⟩)))
      · exact .inl ending
      · exact .inr (.inl void)
      · exact .inr (.inr (.inl optional))

/-- Nothing is said of the node or of what is in it, and all of it is well-formed. -/
structure Clean (source : Text) (n : Node) : Prop where
  quiet : ofNode source n = []
  single : ∀ place m, n.Reaches place m → m.Single

theorem ofNodes_eq_nil_iff {ns : List Node} :
    ofNodes source ns = [] ↔ ∀ n ∈ ns, ofNode source n = [] := by
  induction ns with
  | nil => simp [ofNodes]
  | cons n rest ih => rw [ofNodes, List.append_eq_nil_iff, ih, List.forall_mem_cons]

namespace Clean

variable {n m : Node}

theorem understood (h : Clean source n) : n.kind ≠ .error := by
  intro error
  have quiet := h.quiet
  obtain ⟨kind, span, missing, children⟩ := n
  obtain rfl : kind = .error := error
  cases quiet

theorem there (h : Clean source n) (kind : n.kind ≠ .endTag) : n.missing = false := by
  have understood := h.understood
  have quiet := h.quiet
  obtain ⟨own, span, missing, children⟩ := n
  change own ≠ .error at understood
  change own ≠ .endTag at kind
  change missing = false
  by_contra missing
  rw [ofNode, if_neg understood, if_pos (eq_true_of_ne_false missing), if_neg kind] at quiet
  cases quiet

theorem parts (h : Clean source n) (there : n.missing = false) :
    own source n = [] ∧ ∀ c ∈ n.children, Clean source c := by
  have quiet := h.quiet
  rw [ofNode_eq h.understood there] at quiet
  obtain ⟨own, others⟩ := List.append_eq_nil_iff.mp quiet
  have below := (Node.forall_reaches_iff.mp h.single).2 h.understood
  refine ⟨own, fun c mem => ⟨ofNodes_eq_nil_iff.mp others c mem, below c mem⟩⟩

theorem there_of_isElement (h : Clean source n) (element : n.kind.isElement = true) :
    n.missing = false := by
  refine h.there fun kind => ?_
  rw [kind] at element
  cases element

theorem of_mem_allSubjects {ms : List Node} (clean : ∀ n ∈ ms, Clean source n)
    (mem : m ∈ allSubjects ms) : Clean source m :=
  clean m ((Document.mem_allSubjects_iff fun n mem => (clean n mem).understood).mp mem).1

theorem tells {ms : List Node} (h : Tells ms m) (clean : ∀ n ∈ ms, Clean source n) :
    Clean source m := by
  induction h with
  | here mem => exact of_mem_allSubjects clean mem
  | inside mem element _ ih =>
    -- A clean element is not missing, so that the walk of the diagnostics went into it as well.
    have own := of_mem_allSubjects clean mem
    exact ih (own.parts (own.there_of_isElement element)).2

theorem certifies (h : Clean source m) (element : m.kind.isElement = true) :
    Certifies m (elementOf source m.span m.children) := by
  have notStray : m.kind ≠ .erroneousEndTag := fun kind => by
    rw [kind] at element
    cases element
  obtain ⟨quiet, below⟩ := h.parts (h.there_of_isElement element)
  rw [own, if_neg notStray, if_pos element] at quiet
  refine certifies_of_ofElement_eq_nil element (h.single [] m (.here m)) ?_ quiet
  intro tag mem _ a ha
  have tagged := below tag mem
  exact (Node.forall_reaches_iff.mp tagged.single).2 tagged.understood a ha [] a (.here a)

end Clean

theorem isDoctype_nodeFor {c : Node} :
    (Document.nodeFor source c).isDoctype = true ↔ c.kind = .doctype := by
  rw [Document.nodeFor]
  cases c.kind <;> simp [Document.LeafKind.of?, Document.Node.isDoctype]

theorem hasDoctype_ofSyntax {root : Node} (understood : ∀ n ∈ root.children, n.kind ≠ .error) :
    (Document.ofSyntax source root).hasDoctype = true ↔ ∃ c ∈ root.children, c.kind = .doctype := by
  rw [Document.hasDoctype, Document.ofSyntax, Document.allNodesOf_eq_map, List.any_map,
    List.any_eq_true]
  constructor
  · rintro ⟨c, mem, doctype⟩
    exact ⟨c, ((Document.mem_allSubjects_iff understood).mp mem).1, isDoctype_nodeFor.mp doctype⟩
  · rintro ⟨c, mem, doctype⟩
    have subject : Document.isSubject c.kind = true := by
      rw [doctype]
      rfl
    exact ⟨c, (Document.mem_allSubjects_iff understood).mpr ⟨mem, subject⟩,
      isDoctype_nodeFor.mpr doctype⟩

/-- Where there is nothing to say of a source, the elements of its document are certified, and the
document knows whether it has a doctype. The root is a node of the source, not a token that it lacks. -/
theorem certified_of_collect_eq_nil (source : Text) (root : Node) (requireDoctype : Bool)
    (single : ∀ place n, root.Reaches place n → n.Single) (there : root.missing = false)
    (quiet : collect source root requireDoctype = []) :
    (∀ (i : Nat) (e : Element) (numbers : List Nat),
      (Document.ofSyntax source root).arena.entries[i]? = some (.element e numbers) →
      (Document.Entry.element e numbers).isImplied = false →
      ∃ m, Tells root.children m ∧ e = elementOf source m.span m.children ∧ Certifies m e) ∧
    ((Document.ofSyntax source root).hasDoctype = true ↔
      ∃ c ∈ root.children, c.kind = .doctype) := by
  have whole : Clean source root := by
    refine ⟨?_, single⟩
    rw [collect_eq, ← List.length_eq_zero_iff, List.length_mergeSort, List.length_eq_zero_iff] at quiet
    exact (List.append_eq_nil_iff.mp quiet).2
  have below := (whole.parts there).2
  refine ⟨fun i e numbers here given => ?_,
    hasDoctype_ofSyntax fun n mem => (below n mem).understood⟩
  obtain ⟨m, told, stands, -⟩ := Document.exists_tells_of_entry here given
  obtain ⟨element, rfl⟩ := stands.elementOf_eq told.subject here
  exact ⟨m, told, rfl, (Clean.tells told below).certifies element⟩

/-- A page with an item that is left open, as it may be. -/
def openItem : Node :=
  .node .document ⟨0, 23⟩ false
    [.node .doctype ⟨0, 15⟩ false [],
      .node .element ⟨15, 23⟩ false
        [.node .startTag ⟨15, 22⟩ false
          [.node .tagName ⟨16, 18⟩ false [],
            .node .attribute ⟨19, 21⟩ false [.node .attributeName ⟨19, 21⟩ false []]],
          .node .text ⟨22, 23⟩ false [],
          .node .endTag ⟨23, 23⟩ true []]]

theorem certified_of_collect_eq_nil_openItem :
    (∀ place n, openItem.Reaches place n → n.Single) ∧ openItem.missing = false ∧
    collect "<!doctype html><li id>x" openItem true = [] ∧
    (Document.ofSyntax "<!doctype html><li id>x" openItem).hasDoctype = true ∧
    ∃ m e, Tells openItem.children m ∧ e.name = some "li".toList ∧ Certifies m e := by
  have step (kind : Kind) (span : Span) (missing : Bool) (children : List Node) :
      (∀ place m, (Node.node kind span missing children).Reaches place m → m.Single) ↔
        (Node.node kind span missing children).Single ∧
          (kind ≠ .error → ∀ c ∈ children, ∀ place m, c.Reaches place m → m.Single) :=
    Node.forall_reaches_iff
  have single : ∀ place n, openItem.Reaches place n → n.Single := by
    simp only [openItem, step, List.forall_mem_cons, List.not_mem_nil, false_imp_iff,
      implies_true, and_true]
    decide
  have quiet : collect "<!doctype html><li id>x" openItem true = [] := by
    have none : first openItem true ++ ofNode "<!doctype html><li id>x" openItem = [] := by
      decide
    rw [collect_eq, none, List.mergeSort_nil]
  obtain ⟨elements, doctype⟩ := certified_of_collect_eq_nil _ openItem true single rfl quiet
  obtain ⟨m, told, -, certifies⟩ := elements 2 _ _ rfl rfl
  exact ⟨single, rfl, quiet, doctype.mpr (by decide), m, _, told, by rfl, certifies⟩

end Diagnostic
end MarkupGrader
