import MarkupGrader.Proofs.Document.Placed
import MarkupGrader.Proofs.Document.Walk

/-! Who owns the entries of an arena. What the source gives is listed once, in the order of the
source, and what is only implied is listed nowhere, so that a walk from any place visits the children
of a node one after the other and ends. -/

namespace MarkupGrader.Document

variable {source : Text} {root : Markup.Node} {d : Document} {a : Arena}

theorem children_nodeFor {m : Markup.Node} (subject : isSubject m.kind = true) :
    (nodeFor source m).children = (subjectsBelow m).map (nodeFor source) := by
  rcases isSubject_iff.mp subject with leaf | element
  · obtain ⟨kind, eq⟩ := Option.isSome_iff_exists.mp leaf
    have other : m.kind.isElement = false := Bool.eq_false_iff.mpr fun element => by
      rw [of?_eq_none_of_isElement element] at eq
      cases eq
    rw [nodeFor, eq, subjectsBelow, other]
    rfl
  · rw [nodeFor_of_isElement element, subjectsBelow, if_pos element, ← allNodesOf_eq_map]
    rfl

theorem Tells.subject {ms : List Markup.Node} {m : Markup.Node} (h : Tells ms m) :
    isSubject m.kind = true := by
  induction h with
  | here mem => exact subject_of_mem_allSubjects _ _ mem
  | inside _ _ _ ih => exact ih

def Arena.TellsOf (a : Arena) (source : Text) (i : Nat) (m : Markup.Node) : Prop :=
  Stands a.entries i (nodeFor source m)

section Entry

variable {i : Nat} {m : Markup.Node} {entry : Entry}

theorem Arena.TellsOf.entry_eq (h : a.TellsOf source i m) (here : a.entries[i]? = some entry) :
    (∃ kind, LeafKind.of? m.kind = some kind ∧ entry = .leaf kind m.span) ∨
      ∃ numbers, LeafKind.of? m.kind = none ∧
        entry = .element (elementOf source m.span m.children) numbers := by
  rw [TellsOf, nodeFor] at h
  split at h
  · next kind leaf =>
    cases h with
    | leaf own => exact .inl ⟨kind, leaf, Option.some.inj (here.symm.trans own)⟩
  · next none =>
    cases h with
    | element own _ => exact .inr ⟨_, none, Option.some.inj (here.symm.trans own)⟩

theorem Arena.TellsOf.not_isImplied (h : a.TellsOf source i m) (here : a.entries[i]? = some entry) :
    entry.isImplied = false := by
  rcases h.entry_eq here with ⟨kind, -, rfl⟩ | ⟨numbers, -, rfl⟩ <;> rfl

theorem Arena.TellsOf.span_eq (h : a.TellsOf source i m) (here : a.entries[i]? = some entry) :
    entry.span = m.span := by
  rcases h.entry_eq here with ⟨kind, -, rfl⟩ | ⟨numbers, -, rfl⟩ <;> rfl

theorem Arena.TellsOf.elementOf_eq {e : Element} {numbers : List Nat} (h : a.TellsOf source i m)
    (subject : isSubject m.kind = true) (here : a.entries[i]? = some (.element e numbers)) :
    m.kind.isElement = true ∧ e = elementOf source m.span m.children := by
  rcases h.entry_eq here with ⟨kind, -, other⟩ | ⟨numbers, noLeaf, same⟩
  · cases other
  · rw [isSubject_iff, noLeaf] at subject
    rw [Entry.element.injEq] at same
    exact ⟨subject.resolve_left Bool.false_ne_true, same.1⟩

end Entry

theorem entry_cases {i : Nat} {entry : Entry}
    (here : (ofSyntax source root).arena.entries[i]? = some entry) :
    (i < (numbered 0 (ofSyntax source root).roots).1.length ∧ entry.isImplied = false ∧
        ∃ m, Tells root.children m ∧ (ofSyntax source root).arena.TellsOf source i m) ∨
      ((numbered 0 (ofSyntax source root).roots).1.length ≤ i ∧ entry.isImplied = true ∧
        entry.children.Sublist (ofSyntax source root).arena.top) := by
  have begins := begins_arena (ofSyntax source root)
  by_cases inside : i < (numbered 0 (ofSyntax source root).roots).1.length
  · left
    obtain ⟨n, held, stands⟩ := exists_holds_numbered _ begins.entries i inside
    obtain ⟨m, told, rfl⟩ := exists_tells_of_holds held
    rw [Nat.zero_add] at stands
    have tells : (ofSyntax source root).arena.TellsOf source i m := stands
    exact ⟨inside, tells.not_isImplied here, m, told, tells⟩
  · right
    have beyond := Nat.not_lt.mp inside
    obtain ⟨added, entries, adopting, -⟩ := exists_arena_entries (ofSyntax source root)
    rw [entries, List.getElem?_append_right beyond] at here
    obtain ⟨implied, taken⟩ := adopting entry (List.mem_of_getElem? here)
    rw [begins.topNumbers_eq] at taken
    exact ⟨beyond, implied, taken⟩

/-- The numbers that are given out by the roots and by what the source gives. -/
def Arena.listed (a : Arena) : List Nat :=
  a.roots ++ (a.entries.filter fun entry => !entry.isImplied).flatMap Entry.children

theorem listed_perm : (ofSyntax source root).arena.listed.Perm
    (List.range' 0 (numbered 0 (ofSyntax source root).roots).1.length) := by
  have begins := begins_arena (ofSyntax source root)
  obtain ⟨added, entries, adopting, -⟩ := exists_arena_entries (ofSyntax source root)
  have kept : ((numbered 0 (ofSyntax source root).roots).1.filter fun entry =>
      !entry.isImplied) = (numbered 0 (ofSyntax source root).roots).1 := by
    refine List.filter_eq_self.mpr fun entry mem => ?_
    obtain ⟨i, inside, rfl⟩ := List.getElem_of_mem mem
    rcases entry_cases ((begins.entry_iff inside).mpr (List.getElem?_eq_getElem inside)) with
      ⟨-, given, -⟩ | ⟨beyond, -⟩
    · rw [given]
      rfl
    · exact absurd inside (Nat.not_lt.mpr beyond)
  have dropped : (added.filter fun entry => !entry.isImplied) = [] :=
    List.filter_eq_nil_iff.mpr fun entry mem => by simp [(adopting entry mem).1]
  rw [Arena.listed, entries, List.filter_append, kept, dropped, List.append_nil]
  exact begins.once

/-- What the source gives has one owner, and what is implied has none. -/
theorem count_listed {i : Nat} {entry : Entry}
    (here : (ofSyntax source root).arena.entries[i]? = some entry) :
    (ofSyntax source root).arena.listed.count i = if entry.isImplied then 0 else 1 := by
  rw [listed_perm.count_eq]
  rcases entry_cases here with ⟨inside, given, -⟩ | ⟨beyond, implied, -⟩
  · rw [given, if_neg Bool.false_ne_true]
    exact List.count_eq_one_of_mem (List.nodup_range' ..)
      (List.mem_range'_1.mpr ⟨Nat.zero_le i, by rwa [Nat.zero_add]⟩)
  · rw [implied, if_pos rfl]
    refine List.count_eq_zero_of_not_mem fun mem => ?_
    rw [List.mem_range'_1, Nat.zero_add] at mem
    exact absurd mem.2 (Nat.not_lt.mpr beyond)

def Arena.Before (a : Arena) (i j : Nat) : Prop :=
  ∃ first second, a.entries[i]? = some first ∧ a.entries[j]? = some second ∧
    first.span.stop ≤ second.span.start

theorem pairwise_before {numbers : List Nat} {ms : List Markup.Node} {start stop : Nat}
    (stands : List.Forall₂ (a.TellsOf source) numbers ms)
    (row : Span.Row start (ms.map Markup.Node.span) stop) : numbers.Pairwise a.Before := by
  refine pairwise_of_forall₂ (fun i m j n tellsI tellsJ le => ?_) stands
    (List.pairwise_map.mp row.pairwise)
  obtain ⟨first, hereI, -⟩ := tellsI.entry
  obtain ⟨second, hereJ, -⟩ := tellsJ.entry
  exact ⟨first, second, hereI, hereJ, by rwa [tellsI.span_eq hereI, tellsJ.span_eq hereJ]⟩

theorem Tells.placed {fits : Nat → Prop} {ms : List Markup.Node} {m : Markup.Node}
    (h : Tells ms m) {start stop : Nat} (row : Span.Row start (ms.map Markup.Node.span) stop)
    (placed : ∀ m ∈ ms, m.Placed fits) : m.Placed fits := by
  induction h generalizing start stop with
  | here mem => exact (row_allSubjects _ placed row).2 _ mem
  | inside mem _ _ ih =>
    obtain ⟨below, each⟩ := ((row_allSubjects _ placed row).2 _ mem).parts
    exact ih below each

theorem row_subjectsBelow {fits : Nat → Prop} {m : Markup.Node} (placed : m.Placed fits) :
    Span.Row m.span.start ((subjectsBelow m).map Markup.Node.span) m.span.stop := by
  obtain ⟨row, each⟩ := placed.parts
  rw [subjectsBelow]
  split
  · exact (row_allSubjects m.children each row).1
  · exact .nil row.le

/-- The head and the body are implied and share the nodes of the top. -/
structure Arena.Shared (a : Arena) : Prop where
  head : a.entries[a.head]?.any (fun entry => entry.isImplied && entry.isElement "head") = true
  body : a.entries[a.body]?.any (fun entry => entry.isImplied && entry.isElement "body") = true
  apart : a.head ≠ a.body
  headOrder : (a.childrenOf a.head).Sublist a.top
  bodyOrder : (a.childrenOf a.body).Sublist a.top
  once : ∀ i ∈ a.top, (a.childrenOf a.head ++ a.childrenOf a.body).count i =
    if a.entries[i]?.any Entry.isDoctype then 0 else 1

theorem arena_of_lacking (head : ∀ n ∈ d.top, n.isElement "head" = false)
    (body : ∀ n ∈ d.top, n.isElement "body" = false) :
    d.arena = ⟨(numbered 0 d.roots).1 ++ [impliedEntry "head" (adopted d Node.belongsToHead)] ++
        [impliedEntry "body" (adopted d Node.belongsToBody)], (numbered 0 d.roots).2,
      (numbered 0 d.roots).1.length, (numbered 0 d.roots).1.length + 1⟩ := by
  simp only [Document.arena, addAnchor_of_lacking head, addAnchor_of_lacking body,
    List.length_append, List.length_singleton]

theorem belongs_cases {n : Node} (head : n.isElement "head" = false)
    (body : n.isElement "body" = false) :
    (if n.belongsToHead then 1 else 0) + (if n.belongsToBody then 1 else 0) =
      if n.isDoctype then 0 else 1 := by
  rw [Node.belongsToBody, head, body]
  cases n with
  | leaf kind span => cases kind <;> rfl
  | element e children =>
    cases (Node.element e children).belongsToHead with
    | true => rfl
    | false => rfl

theorem childrenOf_of_impliedEntry {i : Nat} {name : Text} {children : List Nat}
    (here : a.entries[i]? = some (impliedEntry name children)) : a.childrenOf i = children := by
  rw [Arena.childrenOf, here]
  rfl

theorem shared_arena (head : ∀ n ∈ d.top, n.isElement "head" = false)
    (body : ∀ n ∈ d.top, n.isElement "body" = false) : d.arena.Shared := by
  have begins := begins_arena d
  have top := begins.topNumbers_eq
  have entryHead : d.arena.entries[d.arena.head]? =
      some (impliedEntry "head" (adopted d Node.belongsToHead)) := by
    rw [arena_of_lacking head body, List.append_assoc,
      List.getElem?_append_right (Nat.le_refl _), Nat.sub_self]
    rfl
  have entryBody : d.arena.entries[d.arena.body]? =
      some (impliedEntry "body" (adopted d Node.belongsToBody)) := by
    rw [arena_of_lacking head body, List.append_assoc,
      List.getElem?_append_right (Nat.le_add_right _ 1), Nat.add_sub_cancel_left]
    rfl
  have underHead := childrenOf_of_impliedEntry entryHead
  have underBody := childrenOf_of_impliedEntry entryBody
  constructor
  · rw [entryHead]
    rfl
  · rw [entryBody]
    rfl
  · rw [arena_of_lacking head body]
    exact (Nat.lt_succ_self _).ne
  · rw [underHead, ← top]
    exact sublist_filter_zip d.top (topNumbers d) Node.belongsToHead
  · rw [underBody, ← top]
    exact sublist_filter_zip d.top (topNumbers d) Node.belongsToBody
  · intro i mem
    obtain ⟨n, inTop, own, count⟩ :=
      exists_count_filter_zip begins.stands_top begins.top_nodup mem
    rw [underHead, underBody, List.count_append, adopted, adopted, top, count, count,
      own.isDoctype_eq, belongs_cases (head n inTop) (body n inTop)]

/-- The arena gives what a source says, each thing in its place. -/
structure Arena.Faithful (a : Arena) (source : Text) (root : Markup.Node) : Prop where
  acyclic : ∀ (i : Nat) (entry : Entry), a.entries[i]? = some entry → ∀ c ∈ entry.children, c < i
  valid : (∀ i ∈ a.roots, i < a.entries.length) ∧ a.head < a.entries.length ∧
    a.body < a.entries.length
  once : ∀ (i : Nat) (entry : Entry), a.entries[i]? = some entry →
    a.listed.count i = if entry.isImplied then 0 else 1
  roots : List.Forall₂ (a.TellsOf source) a.roots (allSubjects root.children)
  children : ∀ (i : Nat) (entry : Entry), a.entries[i]? = some entry → entry.isImplied = false →
    ∃ m, Tells root.children m ∧ a.TellsOf source i m ∧
      List.Forall₂ (a.TellsOf source) entry.children (subjectsBelow m)
  ordered : root.Placed (fun _ => True) → a.roots.Pairwise a.Before ∧
    ∀ (i : Nat) (entry : Entry), a.entries[i]? = some entry → entry.children.Pairwise a.Before
  walk : ∀ p k, a.onward? p k = (a.childrenOf p.number)[k]?.map fun i => ⟨i, some p.number, k⟩
  shared : (∀ i ∈ a.top, a.entries[i]?.any (·.isElement "head") = false ∧
    a.entries[i]?.any (·.isElement "body") = false) → a.Shared

theorem stands_roots_arena (source : Text) (root : Markup.Node) :
    List.Forall₂ ((ofSyntax source root).arena.TellsOf source) (ofSyntax source root).arena.roots
      (allSubjects root.children) := by
  have stands := (begins_arena (ofSyntax source root)).stands_roots
  rw [ofSyntax, allNodesOf_eq_map, List.forall₂_map_right_iff, ← allNodesOf_eq_map] at stands
  exact stands

theorem exists_tells_of_entry {i : Nat} {entry : Entry}
    (here : (ofSyntax source root).arena.entries[i]? = some entry) (given : entry.isImplied = false) :
    ∃ m, Tells root.children m ∧ (ofSyntax source root).arena.TellsOf source i m ∧
      List.Forall₂ ((ofSyntax source root).arena.TellsOf source) entry.children (subjectsBelow m) := by
  rcases entry_cases here with ⟨-, -, m, told, stands⟩ | ⟨-, implied, -⟩
  · obtain ⟨own, at_i, below⟩ := stands.entry
    obtain rfl : own = entry := Option.some.inj (at_i.symm.trans here)
    rw [children_nodeFor told.subject, List.forall₂_map_right_iff] at below
    exact ⟨m, told, stands, below⟩
  · rw [given] at implied
    cases implied

theorem not_isImplied_of_mem_roots {i : Nat} {entry : Entry}
    (mem : i ∈ (ofSyntax source root).arena.roots)
    (here : (ofSyntax source root).arena.entries[i]? = some entry) : entry.isImplied = false := by
  have inside := ((block_numbered 0 (ofSyntax source root).roots).bounds i mem).2
  rcases entry_cases here with ⟨-, given, -⟩ | ⟨beyond, -⟩
  · exact given
  · omega

theorem ordered_children {i : Nat} {entry : Entry} (placed : root.Placed fun _ => True)
    (here : (ofSyntax source root).arena.entries[i]? = some entry) (given : entry.isImplied = false) :
    entry.children.Pairwise (ofSyntax source root).arena.Before := by
  obtain ⟨row, each⟩ := placed.parts
  obtain ⟨m, told, -, below⟩ := exists_tells_of_entry here given
  exact pairwise_before below (row_subjectsBelow (told.placed row each))

theorem ordered_roots (source : Text) (placed : root.Placed fun _ => True) :
    (ofSyntax source root).arena.roots.Pairwise (ofSyntax source root).arena.Before := by
  obtain ⟨row, each⟩ := placed.parts
  exact pairwise_before (stands_roots_arena source root) (row_allSubjects root.children each row).1

theorem ordered_top (source : Text) (placed : root.Placed fun _ => True) :
    (ofSyntax source root).arena.top.Pairwise (ofSyntax source root).arena.Before := by
  rw [Arena.top]
  split
  · next html found =>
    rw [Arena.childrenOf]
    cases here : (ofSyntax source root).arena.entries[html]? with
    | none => exact .nil
    | some entry =>
      have mem := List.mem_of_find?_eq_some found
      exact ordered_children placed here (not_isImplied_of_mem_roots mem here)
  · exact ordered_roots source placed

theorem ordered_arena {i : Nat} {entry : Entry} (placed : root.Placed fun _ => True)
    (here : (ofSyntax source root).arena.entries[i]? = some entry) :
    entry.children.Pairwise (ofSyntax source root).arena.Before := by
  rcases entry_cases here with ⟨-, given, -⟩ | ⟨-, -, taken⟩
  · exact ordered_children placed here given
  · exact (ordered_top source placed).sublist taken

/-- An arena says of every source what the source says, whatever errors were met in it. -/
theorem faithful_arena (source : Text) (root : Markup.Node) :
    (ofSyntax source root).arena.Faithful source root where
  acyclic _ _ here := acyclic_arena _ here
  valid := by
    obtain ⟨added, entries, -, head, body⟩ := exists_arena_entries (ofSyntax source root)
    refine ⟨fun i mem => ?_, head, body⟩
    have bound := ((block_numbered 0 (ofSyntax source root).roots).bounds i mem).2
    rw [entries, List.length_append]
    omega
  once _ _ here := count_listed here
  roots := stands_roots_arena source root
  children _ _ here given := exists_tells_of_entry here given
  ordered placed := ⟨ordered_roots source placed, fun _ _ here => ordered_arena placed here⟩
  walk p k := Arena.onward?_eq _ p k
  shared lacking := by
    have stands := (begins_arena (ofSyntax source root)).stands_top
    refine shared_arena (fun n mem => ?_) (fun n mem => ?_)
    · obtain ⟨i, inTop, own⟩ := exists_left_of_mem stands mem
      rw [← own.isElement_eq, (lacking i inTop).1]
    · obtain ⟨i, inTop, own⟩ := exists_left_of_mem stands mem
      rw [← own.isElement_eq, (lacking i inTop).2]

/-- A title before a doctype and a text that was recovered from an error: the head takes in the
title and the body the text, and neither the doctype. -/
theorem faithful_arena_recovered :
    let root := Markup.Node.node .document ⟨0, 24⟩ false
      [.node .element ⟨0, 8⟩ false
        [.node .startTag ⟨0, 7⟩ false [.node .tagName ⟨1, 6⟩ false []], .node .text ⟨7, 8⟩ false []],
      .node .doctype ⟨8, 23⟩ false [], .node .error ⟨23, 24⟩ false [.node .text ⟨23, 24⟩ false []]]
    (ofSyntax "<title>a<!doctype html>b" root).arena.Shared :=
  (faithful_arena _ _).shared (by decide)

end MarkupGrader.Document
