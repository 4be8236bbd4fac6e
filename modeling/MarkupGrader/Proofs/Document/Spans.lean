import MarkupGrader.Proofs.Document.Placed

/-! The spans of a document. The nodes of an element stand one behind the other in it, and its content
lies in it, between whichever of its tags are there. -/

namespace MarkupGrader

/-- The first span is one of the second. -/
structure Span.Inside (inner outer : Span) : Prop where
  start : outer.start ≤ inner.start
  forward : inner.start ≤ inner.stop
  stop : inner.stop ≤ outer.stop

theorem Span.Row.head_le_last {start stop : Nat} {ss : List Span} (h : Row start ss stop)
    {first last : Span} (head : ss.head? = some first) (tail : ss.getLast? = some last) :
    first.start ≤ last.stop := by
  cases h with
  | nil => cases head
  | @cons _ _ s rest _ forward others =>
    obtain rfl : s = first := Option.some.inj head
    rw [List.getLast?_cons, Option.some.injEq] at tail
    cases found : rest.getLast? with
    | none =>
      rw [found] at tail
      exact tail ▸ forward
    | some later =>
      rw [found] at tail
      obtain rfl : later = last := tail
      have bounds := others.bounds later (List.mem_of_getLast? found)
      omega

theorem Span.Row.of_append {start stop : Nat} {ss others : List Span}
    (h : Row start (ss ++ others) stop) : ∃ middle, Row start ss middle ∧ Row middle others stop := by
  induction ss generalizing start with
  | nil => exact ⟨start, .nil (Nat.le_refl start), h⟩
  | cons s rest ih =>
    cases h with
    | cons behind forward later =>
      obtain ⟨middle, own, behind'⟩ := ih later
      exact ⟨middle, .cons behind forward own, behind'⟩

namespace Document

open Markup (Kind)

/-- The node and all below it begin and end where something may, with the content of elements in
them. -/
inductive Node.Placed (fits : Nat → Prop) : Node → Prop
  | leaf {kind : LeafKind} {span : Span} (forward : span.start ≤ span.stop) (start : fits span.start)
      (stop : fits span.stop) : Placed fits (.leaf kind span)
  | element {e : Element} {children : List Node} (start : fits e.span.start)
      (stop : fits e.span.stop)
      (content : ∀ c, e.content = some c → c.Inside e.span ∧ fits c.start ∧ fits c.stop)
      (row : Span.Row e.span.start (children.map Node.span) e.span.stop)
      (each : ∀ n ∈ children, Placed fits n) : Placed fits (.element e children)

variable {fits : Nat → Prop} {source : Text}

theorem Node.Placed.span {n : Node} (h : n.Placed fits) :
    n.span.start ≤ n.span.stop ∧ fits n.span.start ∧ fits n.span.stop := by
  cases h with
  | leaf forward start stop => exact ⟨forward, start, stop⟩
  | element start stop _ row _ => exact ⟨row.le, start, stop⟩

/-- A position in a span at which something may begin or end. -/
def Position (fits : Nat → Prop) (span : Span) (n : Nat) : Prop :=
  span.start ≤ n ∧ n ≤ span.stop ∧ fits n

theorem Position.max {span : Span} {a b : Nat} (ha : Position fits span a)
    (hb : Position fits span b) : Position fits span (Nat.max a b) := by
  rcases Nat.le_total a b with le | le
  · rwa [Nat.max_eq_max, Nat.max_eq_right le]
  · rwa [Nat.max_eq_max, Nat.max_eq_left le]

theorem position_getD {span : Span} (place : Markup.Node → Nat) (o : Option Markup.Node) {n : Nat}
    (found : ∀ m, o = some m → Position fits span (place m)) (otherwise : Position fits span n) :
    Position fits span ((o.map place).getD n) := by
  cases o with
  | none => exact otherwise
  | some m => exact found m rfl

theorem content_elementOf {span : Span} {children : List Markup.Node} (fit : fits span.stop)
    (row : Span.Row span.start (children.map Markup.Node.span) span.stop)
    (each : ∀ c ∈ children, c.Placed fits) {c : Span}
    (content : (elementOf source span children).content = some c) :
    c.Inside span ∧ fits c.start ∧ fits c.stop := by
  have starts : ∀ m ∈ children, Position fits span m.span.start := fun m mem => by
    obtain ⟨_, _, _⟩ := row.bounds m.span (List.mem_map_of_mem mem)
    exact ⟨by omega, by omega, (each m mem).ends.1⟩
  have stops : ∀ m ∈ children, Position fits span m.span.stop := fun m mem => by
    obtain ⟨_, _, _⟩ := row.bounds m.span (List.mem_map_of_mem mem)
    exact ⟨by omega, by omega, (each m mem).ends.2⟩
  have last : Position fits span span.stop := ⟨row.le, Nat.le_refl _, fit⟩
  have start := position_getD (·.span.stop) (lastOfKind? [.startTag, .selfClosingTag] children)
    (fun m found => stops m (mem_of_lastOfKind? found)) last
  have stop := position_getD (·.span.start)
    (lastOfKind? [.endTag] (children.filter (!·.missing)))
    (fun m found => starts m (List.mem_of_mem_filter (mem_of_lastOfKind? found))) last
  rw [elementOf, Option.some.injEq] at content
  subst content
  have ends := stop.max start
  exact ⟨⟨start.1, Nat.le_max_right _ _, ends.2.1⟩, start.2.2, ends.2.2⟩

theorem span_nodeFor (source : Text) (m : Markup.Node) : (nodeFor source m).span = m.span := by
  rw [nodeFor]
  split <;> rfl

theorem row_allNodesOf {ms : List Markup.Node} {start stop : Nat} (placed : ∀ m ∈ ms, m.Placed fits)
    (row : Span.Row start (ms.map Markup.Node.span) stop) :
    Span.Row start ((allNodesOf source ms).map Node.span) stop := by
  have spans : (allNodesOf source ms).map Node.span = (allSubjects ms).map Markup.Node.span := by
    rw [allNodesOf_eq_map, List.map_map]
    exact List.map_congr_left fun m _ => span_nodeFor source m
  rw [spans]
  exact (row_allSubjects ms placed row).1

mutual

theorem placed_nodesOf : ∀ m : Markup.Node, m.Placed fits →
    ∀ n ∈ nodesOf source m, n.Placed fits
  | .node kind span missing children => by
    intro placed
    obtain ⟨row, each⟩ := placed.parts
    have below := placed_allNodesOf children each
    obtain ⟨start, stop⟩ := placed.ends
    have leaf : ∀ k, ∀ n ∈ [Node.leaf k span], n.Placed fits := fun k n mem =>
      List.mem_singleton.mp mem ▸ .leaf row.le start stop
    have element : ∀ n ∈ [Node.element (elementOf source span children)
        (allNodesOf source children)], n.Placed fits := fun n mem =>
      List.mem_singleton.mp mem ▸ .element start stop
        (fun c content => content_elementOf stop row each content) (row_allNodesOf each row) below
    cases kind with
    | doctype => exact leaf .doctype
    | text => exact leaf .text
    | entity => exact leaf .text
    | rawText => exact leaf .rawText
    | comment => exact leaf .comment
    | error => exact below
    | element => exact element
    | scriptElement => exact element
    | styleElement => exact element
    | _ => exact fun n mem => (List.not_mem_nil mem).elim

theorem placed_allNodesOf : ∀ ms : List Markup.Node, (∀ m ∈ ms, m.Placed fits) →
    ∀ n ∈ allNodesOf source ms, n.Placed fits
  | [] => fun _ n mem => (List.not_mem_nil mem).elim
  | m :: rest => by
    intro placed
    obtain ⟨own, others⟩ := List.forall_mem_cons.mp placed
    rw [allNodesOf]
    exact List.forall_mem_append.mpr ⟨placed_nodesOf m own, placed_allNodesOf rest others⟩

end

theorem Holds.placed {ns : List Node} {n : Node} (h : Holds ns n) (placed : ∀ m ∈ ns, m.Placed fits) :
    n.Placed fits := by
  induction h with
  | here mem => exact placed _ mem
  | inside mem _ ih =>
    cases placed _ mem with
    | element _ _ _ _ each => exact ih each

end Document
end MarkupGrader
