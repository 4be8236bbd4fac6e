import MarkupGrader.Proofs.Selector.Names

/-! The attribute values in a chain are pieces of the command it was read from, with the blanks taken
out. So no blank is in any of them. -/

namespace MarkupGrader.Selector

/-- All attribute values that the selector asks for are pieces of the text. -/
abbrev ValuesIn (t : Text) (s : Selector) : Prop := ∀ pair ∈ s.attributes, pair.2 ⊆ t

theorem ValuesIn.mono {t u : Text} {s : Selector} (h : ValuesIn t s) (sub : t ⊆ u) :
    ValuesIn u s := fun pair mem => List.Subset.trans (h pair mem) sub

theorem subset_of_readPredicate {piece predicate key value : Text}
    (h : readPredicate piece predicate = .ok (key, value)) : value ⊆ predicate := by
  unfold readPredicate at h
  split at h
  · cases h
  · next found =>
    split at h
    · cases h
    · split at h
      · cases h
      · next inner =>
        cases h
        obtain ⟨⟨front, tail⟩, quoted, last⟩ := Option.bind_eq_some_iff.mp inner
        obtain ⟨c, -, outer, -⟩ := Text.splitFirst?_eq_some found
        obtain ⟨d, -, middle, -⟩ := Text.splitFirst?_eq_some quoted
        obtain ⟨⟨right, left⟩, reversed, eq⟩ := Option.map_eq_some_iff.mp last
        obtain ⟨e, -, whole, -⟩ := Text.splitFirst?_eq_some reversed
        cases eq
        intro x hx
        have inside : x ∈ tail := by
          rw [← List.mem_reverse, whole]
          exact List.mem_append_right _ (List.mem_cons_of_mem _ (List.mem_reverse.mp hx))
        rw [outer, middle]
        exact List.mem_append_right _ (List.mem_cons_of_mem _ (List.mem_append_right _
          (List.mem_cons_of_mem _ inside)))

theorem valuesIn_addPredicates {piece t : Text} {ps : List Text} (sub : ∀ p ∈ ps, p ⊆ t)
    {s s' : Selector} (values : ValuesIn t s) (h : addPredicates piece ps s = .ok s') :
    ValuesIn t s' := by
  induction ps generalizing s with
  | nil =>
    cases h
    exact values
  | cons p more ih =>
    obtain ⟨own, others⟩ := List.forall_mem_cons.mp sub
    unfold addPredicates at h
    cases read : readPredicate piece p with
    | error failure =>
      rw [read] at h
      cases h
    | ok pair =>
      rw [read] at h
      have value := List.Subset.trans (subset_of_readPredicate read) own
      refine ih others (s := s.withAttribute pair.1 pair.2) (fun q hq => ?_) h
      rcases mem_insertNew hq with rfl | hq
      · exact value
      · exact values q hq

theorem subset_inner_of_splitLevel {piece name inner : Text}
    (h : splitLevel piece = .ok (name, some inner)) : inner ⊆ piece := by
  unfold splitLevel at h
  split at h
  · split at h <;> cases h
  · next found =>
    obtain ⟨c, -, eq, -⟩ := Text.splitFirst?_eq_some found
    split at h
    · cases h
    · next closed =>
      cases h
      rw [eq, Text.before?_eq_some.mp closed]
      exact List.subset_append_of_subset_right _ (List.subset_cons_of_subset _
        (List.subset_append_left _ _))

theorem valuesIn_readLevel {piece : Text} {s : Selector} (h : readLevel piece = .ok s) :
    ValuesIn piece s := by
  have none : ∀ name, ValuesIn piece (named name) := fun name pair mem => by cases mem
  unfold readLevel at h
  cases split : splitLevel piece with
  | error failure =>
    rw [split] at h
    cases h
  | ok parts =>
    obtain ⟨name, inner⟩ := parts
    rw [split] at h
    simp only [bind, Except.bind] at h
    split at h
    · cases h
    · split at h
      · cases h
        exact none name
      · next inner =>
        split at h
        · cases h
          exact none name
        · have sub := subset_inner_of_splitLevel split
          refine valuesIn_addPredicates (fun p hp => ?_) (none name) h
          exact List.Subset.trans (subset_of_mem_splitOutside hp) sub

theorem valuesIn_readLevels {pieces : List Text} {read : List Selector} {t : Text}
    (sub : ∀ piece ∈ pieces, piece ⊆ t) (values : ∀ s ∈ read, ValuesIn t s) :
    ∀ s ∈ (readLevels pieces read).selectors, ValuesIn t s := by
  induction pieces generalizing read with
  | nil => exact values
  | cons piece more ih =>
    obtain ⟨own, others⟩ := List.forall_mem_cons.mp sub
    unfold readLevels
    split
    · next s level =>
      exact ih others (List.forall_mem_cons.mpr ⟨(valuesIn_readLevel level).mono own, values⟩)
    · exact values

theorem Chain.solid_of_mem_read {command : Text} {policy : Policy} {c : Chain}
    (h : Chain.read command policy = .ok c) {s : Selector} (mem : s ∈ c.toList) :
    ∀ pair ∈ s.attributes, ∀ x ∈ pair.2, Text.isBlank x = false := by
  unfold Chain.read readPartial at h
  split at h
  · cases h
  · next rest found =>
    rw [PartialChain.toList_of_toChain h] at mem
    have inside : ValuesIn (Text.dropBlanks rest) s := by
      unfold readParameters at mem
      split at mem
      · cases mem
      · refine valuesIn_readLevels (fun piece hp => ?_) (by simp) s mem
        exact List.Subset.trans (subset_of_mem_levels hp) (withoutParens_subset _)
    intro pair hp x hx
    have solid := (List.mem_filter.mp (inside pair hp hx)).2
    simpa using solid

end MarkupGrader.Selector
