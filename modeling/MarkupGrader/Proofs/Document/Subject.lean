import Mathlib
import MarkupGrader.Document.Build

/-! What a document is about. Its subjects are the syntax nodes that it has a node for, in the order
of the source; those that were recovered inside an error stand in the place of the error. -/

namespace MarkupGrader.Document

open Markup (Kind)

theorem mem_of_lastOfKind? {kinds : List Kind} {ms : List Markup.Node} {m : Markup.Node}
    (found : lastOfKind? kinds ms = some m) : m ∈ ms :=
  List.mem_of_mem_filter (List.mem_of_getLast? found)

theorem lastOfKind?_cons (kinds : List Kind) (m : Markup.Node) (rest : List Markup.Node) :
    lastOfKind? kinds (m :: rest) =
      (lastOfKind? kinds rest).or (if kinds.contains m.kind then some m else none) := by
  rw [lastOfKind?, lastOfKind?, List.filter_cons]
  split
  · rw [List.getLast?_cons]
    cases (rest.filter fun n => kinds.contains n.kind).getLast? <;> rfl
  · rw [Option.or_none]

theorem lastOfKind?_singleton (kind : Kind) (ms : List Markup.Node) :
    lastOfKind? [kind] ms = (ms.filter (·.kind == kind)).getLast? := by
  have test : (fun m : Markup.Node => [kind].contains m.kind) = fun m => m.kind == kind := by
    funext m
    rw [List.contains_cons, List.contains_nil, Bool.or_false]
  rw [lastOfKind?, test]

theorem isSome_lastOfKind?_there (kind : Kind) (ms : List Markup.Node) :
    (lastOfKind? [kind] (ms.filter (!·.missing))).isSome =
      ms.any fun m => m.kind == kind && !m.missing := by
  rw [lastOfKind?_singleton, List.filter_filter, Bool.eq_iff_iff, Option.isSome_iff_ne_none, Ne,
    List.getLast?_eq_none_iff, List.filter_eq_nil_iff]
  simp

def LeafKind.of? : Kind → Option LeafKind
  | .doctype => some .doctype
  | .text => some .text
  | .entity => some .text
  | .rawText => some .rawText
  | .comment => some .comment
  | _ => none

def isSubject (k : Kind) : Bool := (LeafKind.of? k).isSome || k.isElement

mutual

def subjects : Markup.Node → List Markup.Node
  | .node .error _ _ children => allSubjects children
  | .node kind span missing children =>
    if isSubject kind then [.node kind span missing children] else []

def allSubjects : List Markup.Node → List Markup.Node
  | [] => []
  | m :: rest => subjects m ++ allSubjects rest

end

/-- The subjects among the parts of a node. Only elements have parts that a document tells of. -/
def subjectsBelow (m : Markup.Node) : List Markup.Node :=
  if m.kind.isElement then allSubjects m.children else []

def nodeFor (source : Text) (m : Markup.Node) : Node :=
  match LeafKind.of? m.kind with
  | some kind => .leaf kind m.span
  | none => .element (elementOf source m.span m.children) (allNodesOf source m.children)

variable {source : Text} {m : Markup.Node}

theorem isSubject_iff {k : Kind} :
    isSubject k = true ↔ (LeafKind.of? k).isSome = true ∨ k.isElement = true :=
  Bool.or_eq_true _ _ ▸ Iff.rfl

theorem subjects_of_ne_error (understood : m.kind ≠ .error) :
    subjects m = if isSubject m.kind then [m] else [] := by
  obtain ⟨kind, span, missing, children⟩ := m
  rw [subjects]
  · rfl
  · exact understood

theorem mem_allSubjects_iff {ms : List Markup.Node} (understood : ∀ n ∈ ms, n.kind ≠ .error) :
    m ∈ allSubjects ms ↔ m ∈ ms ∧ isSubject m.kind = true := by
  induction ms with
  | nil => simp [allSubjects]
  | cons n rest ih =>
    obtain ⟨own, others⟩ := List.forall_mem_cons.mp understood
    rw [allSubjects, List.mem_append, ih others, subjects_of_ne_error own, List.mem_cons,
      or_and_right]
    refine or_congr_left ?_
    split
    · next subject =>
      rw [List.mem_singleton]
      exact ⟨fun same => ⟨same, same ▸ subject⟩, And.left⟩
    · next other =>
      refine ⟨fun mem => (List.not_mem_nil mem).elim, ?_⟩
      rintro ⟨rfl, subject⟩
      exact absurd subject other

mutual

theorem nodesOf_eq_map : ∀ m : Markup.Node, nodesOf source m = (subjects m).map (nodeFor source)
  | .node kind span missing children => by
    have inside := allNodesOf_eq_map children
    cases kind with
    | error => exact inside
    | _ => rfl

theorem allNodesOf_eq_map :
    ∀ ms : List Markup.Node, allNodesOf source ms = (allSubjects ms).map (nodeFor source)
  | [] => rfl
  | m :: rest => by
    rw [allNodesOf, allSubjects, List.map_append, nodesOf_eq_map m, allNodesOf_eq_map rest]

end

/-- The node is one of the forest's, at whatever depth. -/
inductive Holds : List Node → Node → Prop
  | here {ns : List Node} {n : Node} (mem : n ∈ ns) : Holds ns n
  | inside {ns children : List Node} {e : Element} {n : Node} (mem : .element e children ∈ ns)
      (rest : Holds children n) : Holds ns n

/-- The node is a subject of what is told of the nodes, at whatever depth. -/
inductive Tells : List Markup.Node → Markup.Node → Prop
  | here {ms : List Markup.Node} {m : Markup.Node} (mem : m ∈ allSubjects ms) : Tells ms m
  | inside {ms : List Markup.Node} {p m : Markup.Node} (mem : p ∈ allSubjects ms)
      (element : p.kind.isElement = true) (rest : Tells p.children m) : Tells ms m

theorem Holds.mono {ns others : List Node} {n : Node} (h : Holds ns n) (sub : ns ⊆ others) :
    Holds others n := by
  cases h with
  | here mem => exact .here (sub mem)
  | inside mem rest => exact .inside (sub mem) rest

theorem of?_eq_none_of_isElement {k : Kind} (h : k.isElement = true) : LeafKind.of? k = none := by
  cases k with
  | element => rfl
  | scriptElement => rfl
  | styleElement => rfl
  | _ => cases h

theorem nodeFor_of_isElement (h : m.kind.isElement = true) :
    nodeFor source m =
      .element (elementOf source m.span m.children) (allNodesOf source m.children) := by
  rw [nodeFor, of?_eq_none_of_isElement h]

mutual

theorem subject_of_mem_subjects : ∀ n : Markup.Node, ∀ m ∈ subjects n, isSubject m.kind = true
  | .node kind span missing children => by
    intro m hm
    have inside := subject_of_mem_allSubjects children m
    by_cases error : kind = .error
    · subst error
      exact inside hm
    · rw [subjects] at hm
      · split at hm
        · next shown =>
          obtain rfl : m = _ := List.mem_singleton.mp hm
          exact shown
        · cases hm
      · exact error

theorem subject_of_mem_allSubjects : ∀ ns : List Markup.Node, ∀ m ∈ allSubjects ns,
    isSubject m.kind = true
  | [] => fun m hm => by cases hm
  | n :: rest => by
    intro m hm
    rcases List.mem_append.mp hm with hm | hm
    · exact subject_of_mem_subjects n m hm
    · exact subject_of_mem_allSubjects rest m hm

end

theorem exists_tells_of_holds {ms : List Markup.Node} {n : Node}
    (h : Holds (allNodesOf source ms) n) : ∃ m, Tells ms m ∧ n = nodeFor source m := by
  generalize forest : allNodesOf source ms = ns at h
  induction h generalizing ms with
  | here mem =>
    rw [← forest, allNodesOf_eq_map] at mem
    obtain ⟨m, hm, rfl⟩ := List.mem_map.mp mem
    exact ⟨m, .here hm, rfl⟩
  | inside mem _ ih =>
    rw [← forest, allNodesOf_eq_map] at mem
    obtain ⟨p, hp, told⟩ := List.mem_map.mp mem
    rcases isSubject_iff.mp (subject_of_mem_allSubjects ms p hp) with leaf | element
    · obtain ⟨kind, eq⟩ := Option.isSome_iff_exists.mp leaf
      rw [nodeFor, eq] at told
      cases told
    · rw [nodeFor_of_isElement element, Node.element.injEq] at told
      obtain ⟨m, rest, rfl⟩ := ih told.2
      exact ⟨m, .inside hp element rest, rfl⟩

end MarkupGrader.Document
