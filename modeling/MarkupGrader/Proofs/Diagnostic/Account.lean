import Mathlib
import MarkupGrader.Diagnostic

/-! Lists of diagnostics as accounts. An account has one diagnostic for each thing it is about and
tells of them in their order. Accounts are put together from smaller ones, and sorting one by
position keeps the things of a position in their order. -/

namespace MarkupGrader

theorem pairwise_mergeSort_of_pairwise {α : Type} {le : α → α → Bool} {r : α → α → Prop}
    (trans : ∀ a b c, le a b = true → le b c = true → le a c = true)
    (total : ∀ a b, (le a b || le b a) = true) {l : List α} (h : l.Pairwise r) :
    (l.mergeSort le).Pairwise fun a b => le a b = true ∧ (le b a = true → r a b) := by
  induction l with
  | nil =>
    rw [List.mergeSort_nil]
    exact .nil
  | cons a l ih =>
    obtain ⟨first, rest⟩ := List.pairwise_cons.mp h
    -- `a` goes into the sorted rest behind what is strictly less, so before all that is like it.
    obtain ⟨front, back, whole, others, behind⟩ := List.mergeSort_cons trans total a l
    have sorted := List.pairwise_mergeSort trans total (a :: l)
    have known := ih rest
    rw [whole] at sorted ⊢
    rw [others] at known
    have after : ∀ b ∈ back, r a b := by
      intro b hb
      have mem : b ∈ l.mergeSort le := others ▸ List.mem_append_right front hb
      exact first b (List.mem_mergeSort.mp mem)
    rw [List.pairwise_append, List.pairwise_cons] at sorted ⊢
    rw [List.pairwise_append] at known
    refine ⟨known.1, ⟨fun b hb => ⟨sorted.2.1.1 b hb, fun _ => after b hb⟩, known.2.1⟩, ?_⟩
    intro b hb c hc
    rcases List.mem_cons.mp hc with rfl | hc
    · have apart := behind b hb
      refine ⟨sorted.2.2 b hb _ List.mem_cons_self, fun alike => ?_⟩
      rw [alike] at apart
      cases apart
    · exact known.2.2 b hb c hc

namespace Diagnostic

theorem precedes_iff {d e : Diagnostic} :
    precedes d e = true ↔ d.line < e.line ∨ d.line = e.line ∧ d.column ≤ e.column := by
  simp [precedes]

theorem precedes_trans (a b c : Diagnostic) (ab : precedes a b = true) (bc : precedes b c = true) :
    precedes a c = true := by
  rw [precedes_iff] at ab bc ⊢
  omega

theorem precedes_total (a b : Diagnostic) : (precedes a b || precedes b a) = true := by
  rw [Bool.or_eq_true, precedes_iff, precedes_iff]
  omega

/-- The diagnostics are those of all things with the property, one for each, in their order. -/
def Accounts {α : Type} (say : α → Diagnostic) (before : α → α → Prop) (P : α → Prop)
    (ds : List Diagnostic) : Prop :=
  ∃ things : List α, (∀ a, a ∈ things ↔ P a) ∧ things.Pairwise before ∧ ds = things.map say

namespace Accounts

variable {α β : Type} {say : α → Diagnostic} {before : α → α → Prop} {P Q R : α → Prop}
  {ds es : List Diagnostic}

theorem nil (none : ∀ a, ¬ P a) : Accounts say before P [] :=
  ⟨[], fun a => ⟨fun h => (List.not_mem_nil h).elim, fun h => (none a h).elim⟩, .nil, rfl⟩

theorem single {a : α} (only : ∀ b, P b ↔ b = a) : Accounts say before P [say a] :=
  ⟨[a], fun b => List.mem_singleton.trans (only b).symm, List.pairwise_singleton _ _, rfl⟩

theorem congr (h : Accounts say before P ds) (same : ∀ a, Q a ↔ P a) :
    Accounts say before Q ds := by
  obtain ⟨things, mem, order, told⟩ := h
  exact ⟨things, fun a => (mem a).trans (same a).symm, order, told⟩

theorem imp {before' : α → α → Prop} (h : Accounts say before P ds)
    (order : ∀ a b, before a b → before' a b) : Accounts say before' P ds := by
  obtain ⟨things, mem, pairwise, told⟩ := h
  exact ⟨things, mem, pairwise.imp fun ab => order _ _ ab, told⟩

theorem append (h : Accounts say before P ds) (k : Accounts say before Q es)
    (across : ∀ a b, P a → Q b → before a b) (either : ∀ a, R a ↔ P a ∨ Q a) :
    Accounts say before R (ds ++ es) := by
  obtain ⟨ones, memOnes, orderOnes, rfl⟩ := h
  obtain ⟨others, memOthers, orderOthers, rfl⟩ := k
  refine ⟨ones ++ others, fun a => ?_, ?_, List.map_append.symm⟩
  · rw [List.mem_append, memOnes, memOthers, either]
  · refine List.pairwise_append.mpr ⟨orderOnes, orderOthers, fun a ha b hb => ?_⟩
    exact across a b ((memOnes a).mp ha) ((memOthers b).mp hb)

theorem image {say' : β → Diagnostic} {before' : β → β → Prop} {Q : β → Prop}
    (h : Accounts say before P ds) (f : α → β) (same : ∀ a, say' (f a) = say a)
    (order : ∀ a b, before a b → before' (f a) (f b)) (onto : ∀ b, Q b ↔ ∃ a, P a ∧ f a = b) :
    Accounts say' before' Q ds := by
  obtain ⟨things, mem, pairwise, rfl⟩ := h
  refine ⟨things.map f, fun b => ?_, pairwise.map f order, ?_⟩
  · simp only [List.mem_map, mem, onto]
  · simp only [List.map_map, Function.comp_def, same]

theorem sort (h : Accounts say before P ds) :
    Accounts say
      (fun a b => precedes (say a) (say b) = true ∧ (precedes (say b) (say a) = true → before a b))
      P (ds.mergeSort precedes) := by
  obtain ⟨things, mem, pairwise, rfl⟩ := h
  let le (a b : α) : Bool := precedes (say a) (say b)
  have trans : ∀ a b c, le a b = true → le b c = true → le a c = true := fun a b c =>
    precedes_trans _ _ _
  have total : ∀ a b, (le a b || le b a) = true := fun a b => precedes_total _ _
  have sorted := pairwise_mergeSort_of_pairwise trans total pairwise
  have told : (things.mergeSort le).map say = (things.map say).mergeSort precedes :=
    List.map_mergeSort fun a _ b _ => rfl
  exact ⟨things.mergeSort le, fun a => List.mem_mergeSort.trans (mem a), sorted, told.symm⟩

end Accounts
end Diagnostic
end MarkupGrader
