import MarkupGrader.Proofs.Matching.Trail
import MarkupGrader.Proofs.SideBySide

/-! Trees that grow. Where nodes are only added behind the children that a node has, each step of a
match finds the child that it found before, and so the trail of a chain in the grown tree begins
with its trail in the old one. -/

namespace MarkupGrader.TreeView

open Selector (Chain)

variable {ν μ : Type} {t : TreeView ν} {u : TreeView μ} {R : ν → μ → Prop} {s : Selector}
  {n : ν} {m : μ}

/-- Nodes that correspond look the same, and the children of the one correspond to the first
children of the other. -/
structure GrowsInto (t : TreeView ν) (u : TreeView μ) (R : ν → μ → Prop) : Prop where
  head : R t.head u.head
  body : R t.body u.body
  tagName : ∀ n m, R n m → u.tagName m = t.tagName n
  attributes : ∀ n m, R n m → u.attributes m = t.attributes n
  children : ∀ n m, R n m →
    ∃ kept added, u.children m = kept ++ added ∧ List.Forall₂ R (t.children n) kept

/-- The tree with more children behind those that each node has. -/
def append (t : TreeView ν) (added : ν → List ν) : TreeView ν :=
  { t with children := fun n => t.children n ++ added n }

theorem growsInto_append (t : TreeView ν) (added : ν → List ν) :
    GrowsInto t (t.append added) Eq where
  head := rfl
  body := rfl
  tagName := by
    rintro n _ rfl
    rfl
  attributes := by
    rintro n _ rfl
    rfl
  children := by
    rintro n _ rfl
    exact ⟨t.children n, added n, rfl, List.forall₂_refl _⟩

namespace GrowsInto

variable (h : GrowsInto t u R)

include h

theorem satisfies_eq (s : Selector) (n : ν) (m : μ) (here : R n m) :
    u.satisfies s m = t.satisfies s n := by
  rw [satisfies, satisfies, hasAttributes, hasAttributes, h.tagName n m here,
    h.attributes n m here]

theorem firstChild (here : R n m) {child : ν} (first : t.FirstChild s n child) :
    ∃ child', u.FirstChild s m child' ∧ R child child' := by
  have found : (t.children n).find? (t.satisfies s) = some child := childFor_eq_some.mpr first
  obtain ⟨kept, added, children, related⟩ := h.children n m here
  obtain ⟨child', found', corresponds⟩ := find?_of_forall₂ (h.satisfies_eq s) related found
  refine ⟨child', childFor_eq_some.mp ?_, corresponds⟩
  rw [childFor, children, List.find?_append, found']
  rfl

theorem descend (here : R n m) (ss : List Selector) :
    ∃ kept added, u.descend m ss = kept ++ added ∧ List.Forall₂ R (t.descend n ss) kept := by
  induction ss generalizing n m with
  | nil => exact ⟨[], [], rfl, .nil⟩
  | cons s ss ih =>
    rcases barren_or_firstChild t s n with barren | ⟨child, first⟩
    · rw [descend_of_barren barren]
      exact ⟨[], u.descend m (s :: ss), rfl, .nil⟩
    · obtain ⟨child', first', below⟩ := h.firstChild here first
      obtain ⟨kept, added, more, related⟩ := ih below
      rw [descend_of_firstChild first, descend_of_firstChild first', more]
      exact ⟨child' :: kept, added, rfl, .cons below related⟩

theorem anchor (c : Chain) : R (t.anchor c) (u.anchor c) := by
  unfold TreeView.anchor
  split
  · exact h.head
  · exact h.body

theorem trail (c : Chain) :
    ∃ kept added, u.trail c = kept ++ added ∧ List.Forall₂ R (t.trail c) kept := by
  obtain ⟨kept, added, more, related⟩ := h.descend (h.anchor c) c.rest
  refine ⟨u.anchor c :: kept, added, ?_, .cons (h.anchor c) related⟩
  rw [TreeView.trail, more]
  rfl

end GrowsInto

/-- What is added behind the children of a tree's nodes never lowers a match. -/
theorem matched_le_of_growsInto (h : GrowsInto t u R) (c : Chain) :
    (t.follow c).matched ≤ (u.follow c).matched ∧
      ((t.follow c).isComplete = true → (u.follow c).isComplete = true) := by
  obtain ⟨kept, added, trail, related⟩ := h.trail c
  have grows : (t.follow c).matched ≤ (u.follow c).matched := by
    rw [matched_eq, matched_eq, trail, List.length_append, related.length_eq]
    exact Nat.le_add_right _ _
  refine ⟨grows, fun complete => ?_⟩
  rw [isComplete_iff] at complete ⊢
  rw [complete] at grows
  exact Nat.le_antisymm (matched_le u c) grows

theorem matched_le_of_growsInto_paragraph :
    let page : TreeView Nat :=
      { head := 0
        body := 1
        children := fun n => if n = 1 then [2, 3] else []
        tagName := fun n => if n = 4 then some "p" else if n = 0 then some "head" else some "div"
        attributes := fun n => if n = 2 then [("id", "x"), ("class", "a")] else [] }
    let grown := page.append fun n => if n = 2 ∨ n = 3 then [4] else []
    let chain : Chain :=
      ⟨.named "body", [(Selector.named "div").withAttribute "class" "a", .named "p"]⟩
    GrowsInto page grown Eq ∧ page.follow chain = ⟨2, 3, some "p"⟩ ∧
      grown.follow chain = ⟨3, 3, none⟩ ∧
      (page.follow chain).matched ≤ (grown.follow chain).matched ∧
      ((page.follow chain).isComplete = true → (grown.follow chain).isComplete = true) := by
  intro page grown chain
  have grows : GrowsInto page grown Eq := growsInto_append page _
  exact ⟨grows, by decide, by decide, matched_le_of_growsInto grows chain⟩

/-- A child put before the others may end a match that was complete. -/
example :
    let page : TreeView Nat :=
      { head := 0
        body := 1
        children := fun n => if n = 1 then [2] else if n = 2 then [3] else []
        tagName := fun n => if n = 3 then some "p" else some "div"
        attributes := fun _ => [] }
    let other : TreeView Nat :=
      { page with children := fun n => if n = 1 then [4, 2] else page.children n }
    let chain : Chain := ⟨.named "body", [.named "div", .named "p"]⟩
    page.follow chain = ⟨3, 3, none⟩ ∧ other.follow chain = ⟨2, 3, some "p"⟩ := by
  decide

end MarkupGrader.TreeView
