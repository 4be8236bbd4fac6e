import MarkupGrader.Diagnostic.Cut
import MarkupGrader.Proofs.Document.Cut

/-! Collecting diagnostics with cut texts. Where the nodes of a source begin and end at its
characters, every text can be cut out, and the diagnostics are those of slicing. -/

namespace MarkupGrader.Diagnostic.Cut

open Markup (Node Kind)

variable {source : Text}

theorem ofAttribute_eq {a : Node} (placed : a.Placed source.IsBoundary) (tagName name : Text)
    (seen : List Text) :
    ofAttribute source tagName name seen a =
      .ok (Diagnostic.ofAttribute source tagName name seen a) := by
  rw [ofAttribute, Diagnostic.ofAttribute, placed.cut]
  cases seen.contains name <;> rfl

theorem ofTag_eq {parts : List Node} (placed : ∀ p ∈ parts, p.Placed source.IsBoundary)
    (tagName : Text) (seen : List Text) :
    ofTag source tagName seen parts = .ok (Diagnostic.ofTag source tagName seen parts) := by
  induction parts generalizing tagName seen with
  | nil => rfl
  | cons part rest ih =>
    obtain ⟨own, others⟩ := List.forall_mem_cons.mp placed
    have later := ih others
    rw [ofTag, Diagnostic.ofTag]
    split
    · rw [own.cut]
      exact later _ _
    · split
      · cases found : part.child? .attributeName with
        | none => exact later _ _
        | some n =>
          simp only [(own.child? found).cut, ofAttribute_eq own, later]
          rfl
      · exact later _ _

theorem ofElement_eq {parts : List Node} (placed : ∀ p ∈ parts, p.Placed source.IsBoundary) :
    ofElement source parts = .ok (Diagnostic.ofElement source parts) := by
  rw [ofElement, Diagnostic.ofElement]
  cases found : (parts.filter fun p => p.kind == .startTag || p.kind == .selfClosingTag).getLast? with
  | none => rfl
  | some tag =>
    have mem := List.mem_of_mem_filter (List.mem_of_getLast? found)
    simp only [ofTag_eq (placed tag mem).parts.2]
    rfl

theorem ofSelf_eq {n : Node} (placed : n.Placed source.IsBoundary) :
    ofSelf source n = .ok (if n.kind = .erroneousEndTag then
        [of source n .warning ("discarding unexpected </" ++
          ((n.child? .erroneousEndTagName).map fun c => (c.text source).lower).getD [] ++ ">")]
      else if n.kind.isElement then Diagnostic.ofElement source n.children else []) := by
  rw [ofSelf]
  split
  · cases found : n.child? .erroneousEndTagName with
    | none => rfl
    | some c =>
      simp only [(placed.child? found).cut]
      rfl
  · split
    · exact ofElement_eq placed.parts.2
    · rfl

mutual

theorem ofNode_eq : ∀ n : Node, n.Placed source.IsBoundary →
    ofNode source n = .ok (Diagnostic.ofNode source n)
  | .node kind span missing children => by
    intro placed
    have below := ofNodes_eq children placed.parts.2
    have whole : Text.cut source span = .ok (Text.slice source span) := placed.cut
    rw [ofNode, Diagnostic.ofNode]
    split
    · rw [whole]
      rfl
    · split
      · rfl
      · rw [ofSelf_eq placed, below]
        rfl

theorem ofNodes_eq : ∀ ns : List Node, (∀ n ∈ ns, n.Placed source.IsBoundary) →
    ofNodes source ns = .ok (Diagnostic.ofNodes source ns)
  | [] => fun _ => rfl
  | n :: rest => by
    intro placed
    obtain ⟨own, others⟩ := List.forall_mem_cons.mp placed
    rw [ofNodes, ofNode_eq n own, ofNodes_eq rest others]
    rfl

end

theorem collect_eq {root : Node} (placed : root.Placed source.IsBoundary) (requireDoctype : Bool) :
    collect source root requireDoctype = .ok (Diagnostic.collect source root requireDoctype) := by
  rw [collect, ofNode_eq root placed]
  rfl

end MarkupGrader.Diagnostic.Cut
