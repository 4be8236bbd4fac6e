import Mathlib
import MarkupGrader.Selector.Reading

/-! The names in a chain are pieces of the command it was read from: nothing is put into a name that
the command does not hold. -/

namespace MarkupGrader.Selector

theorem mem_consFirst {c : Char} {pieces : List Text} {piece : Text}
    (h : piece ∈ consFirst c pieces) :
    piece ∈ pieces ∨ piece = [c] ∨ ∃ first ∈ pieces, piece = c :: first := by
  cases pieces with
  | nil => exact .inr (.inl (List.mem_singleton.mp h))
  | cons first more =>
    rcases List.mem_cons.mp h with rfl | h
    · exact .inr (.inr ⟨first, List.mem_cons_self, rfl⟩)
    · exact .inl (List.mem_cons_of_mem _ h)

theorem subset_of_mem_splitOutside {delimiter : Char} {step : Nesting → Char → Nesting}
    {n : Nesting} {t piece : Text} (h : piece ∈ splitOutside delimiter step n t) : piece ⊆ t := by
  induction t generalizing n piece with
  | nil =>
    rw [List.mem_singleton.mp h]
    exact List.nil_subset _
  | cons c rest ih =>
    unfold splitOutside at h
    split at h
    · rcases List.mem_cons.mp h with rfl | h
      · exact List.nil_subset _
      · exact List.subset_cons_of_subset _ (ih h)
    · rcases mem_consFirst h with h | rfl | ⟨first, mem, rfl⟩
      · exact List.subset_cons_of_subset _ (ih h)
      · exact List.cons_subset_cons _ (List.nil_subset _)
      · exact List.cons_subset_cons _ (ih mem)

theorem subset_of_mem_levels {t piece : Text} (h : piece ∈ levels t) : piece ⊆ t := by
  obtain ⟨reversed, mem, rfl⟩ := List.mem_map.mp h
  intro c hc
  exact List.mem_reverse.mp (subset_of_mem_splitOutside mem (List.mem_reverse.mp hc))

theorem subset_of_splitLevel {piece name : Text} {inner : Option Text}
    (h : splitLevel piece = .ok (name, inner)) : name ⊆ piece := by
  unfold splitLevel at h
  split at h
  · split at h
    · cases h
    · cases h
      exact List.Subset.refl _
  · next front rest found =>
    obtain ⟨c, -, eq, -⟩ := Text.splitFirst?_eq_some found
    split at h
    · cases h
    · cases h
      rw [eq]
      exact List.subset_append_left _ _

theorem name_of_addPredicates {piece : Text} {ps : List Text} {s t : Selector}
    (h : addPredicates piece ps s = .ok t) : t.name = s.name := by
  induction ps generalizing s with
  | nil =>
    cases h
    rfl
  | cons p more ih =>
    unfold addPredicates at h
    cases read : readPredicate piece p with
    | error failure =>
      rw [read] at h
      cases h
    | ok pair =>
      rw [read] at h
      exact ih (s := s.withAttribute pair.1 pair.2) h

theorem subset_of_readLevel {piece : Text} {s : Selector} (h : readLevel piece = .ok s) :
    s.name ⊆ piece := by
  unfold readLevel at h
  cases split : splitLevel piece with
  | error failure =>
    rw [split] at h
    cases h
  | ok parts =>
    obtain ⟨name, inner⟩ := parts
    have whole := subset_of_splitLevel split
    rw [split] at h
    simp only [bind, Except.bind] at h
    split at h
    · cases h
    · split at h
      · cases h
        exact whole
      · split at h
        · cases h
          exact whole
        · rw [name_of_addPredicates h]
          exact whole

theorem mem_selectors_readLevels {pieces : List Text} {read : List Selector} {s : Selector}
    (h : s ∈ (readLevels pieces read).selectors) :
    s ∈ read ∨ ∃ piece ∈ pieces, s.name ⊆ piece := by
  -- Reading stops at the first piece that is no level, which only leaves selectors out.
  induction pieces generalizing read with
  | nil => exact .inl h
  | cons piece more ih =>
    unfold readLevels at h
    split at h
    · next first level =>
      rcases ih h with h | ⟨other, mem, sub⟩
      · rcases List.mem_cons.mp h with rfl | h
        · exact .inr ⟨piece, List.mem_cons_self, subset_of_readLevel level⟩
        · exact .inl h
      · exact .inr ⟨other, List.mem_cons_of_mem _ mem, sub⟩
    · exact .inl h

theorem withoutParens_subset (t : Text) : withoutParens t ⊆ t := by
  unfold withoutParens
  cases opened : Text.after? "(" t with
  | none => exact List.Subset.refl _
  | some rest =>
    rw [Option.bind_some]
    cases closed : Text.before? ")" rest with
    | none => exact List.Subset.refl _
    | some inner =>
      rw [Text.after?_eq_some.mp opened, Text.before?_eq_some.mp closed]
      exact List.subset_append_of_subset_right _ (List.subset_append_left _ _)

theorem subset_of_mem_readParameters {t : Text} {s : Selector}
    (h : s ∈ (readParameters t).selectors) : s.name ⊆ t := by
  unfold readParameters at h
  split at h
  · exact absurd h List.not_mem_nil
  · rcases mem_selectors_readLevels h with h | ⟨piece, mem, sub⟩
    · exact absurd h List.not_mem_nil
    · exact List.Subset.trans sub (subset_of_mem_levels mem)

theorem PartialChain.toList_of_toChain {p : PartialChain} {policy : Policy} {c : Chain}
    (h : p.toChain policy = .ok c) : c.toList = p.selectors := by
  cases policy with
  | strict =>
    simp only [toChain] at h
    split at h
    · cases h
    · cases read : Chain.ofList p.selectors with
      | error failure =>
        rw [read] at h
        cases h
      | ok chain =>
        rw [read] at h
        simp only [bind, Except.bind] at h
        split at h
        · cases h
          exact Chain.toList_of_ofList read
        · cases h
  | lenient =>
    simp only [toChain] at h
    split at h
    · cases h
    · exact Chain.toList_of_ofList h

theorem Chain.subset_of_mem_read {command : Text} {policy : Policy} {c : Chain}
    (h : Chain.read command policy = .ok c) {s : Selector} (mem : s ∈ c.toList) :
    s.name ⊆ command := by
  unfold Chain.read readPartial at h
  split at h
  · cases h
  · next rest found =>
    rw [PartialChain.toList_of_toChain h] at mem
    have inner := List.Subset.trans (subset_of_mem_readParameters mem) (withoutParens_subset _)
    have blanks : Text.dropBlanks rest ⊆ rest := List.filter_subset_self _
    rw [Text.after?_eq_some.mp found]
    exact List.subset_append_of_subset_right _ (List.Subset.trans inner blanks)

end MarkupGrader.Selector
