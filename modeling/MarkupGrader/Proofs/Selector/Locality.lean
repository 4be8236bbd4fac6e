import MarkupGrader.Proofs.Selector.Written

/-! What a command says at its right end does not depend on what stands to the left of it. The levels
of a text that a scan comes through from the right are levels of any text that ends in it, and the
first of them that cannot be read hides all that stands before it. -/

namespace MarkupGrader.Selector

/-- What a list of levels, innermost first, is read as: the selectors of those before the first that
cannot be read, and why it cannot. -/
inductive ReadsAs : List Text → List Selector → Option Failure → Prop
  | whole {pieces : List Text} {ss : List Selector} (each : pieces.map readLevel = ss.map .ok) :
      ReadsAs pieces ss none
  | broken {before after : List Text} {bad : Text} {ss : List Selector} {f : Failure}
      (each : before.map readLevel = ss.map .ok) (fails : readLevel bad = .error f) :
      ReadsAs (before ++ bad :: after) ss (some f)

variable {pieces : List Text} {ss : List Selector} {failure : Option Failure}

theorem ReadsAs.cons {piece : Text} {s : Selector} (level : readLevel piece = .ok s)
    (h : ReadsAs pieces ss failure) : ReadsAs (piece :: pieces) (s :: ss) failure := by
  cases h with
  | whole each =>
    refine .whole ?_
    rw [List.map_cons, List.map_cons, level, each]
  | @broken before after bad ss f each fails =>
    refine @broken (piece :: before) after bad (s :: ss) f ?_ fails
    rw [List.map_cons, List.map_cons, level, each]

theorem exists_readsAs (pieces : List Text) : ∃ ss failure, ReadsAs pieces ss failure := by
  induction pieces with
  | nil => exact ⟨[], none, .whole rfl⟩
  | cons piece more ih =>
    cases level : readLevel piece with
    | error f => exact ⟨[], some f, @ReadsAs.broken [] more piece [] f rfl level⟩
    | ok s =>
      obtain ⟨ss, failure, rest⟩ := ih
      exact ⟨s :: ss, failure, rest.cons level⟩

theorem readLevels_cons_of_error {piece : Text} {f : Failure} (fails : readLevel piece = .error f)
    (more : List Text) (read : List Selector) :
    readLevels (piece :: more) read = ⟨read, some f⟩ := by
  rw [readLevels, fails]

theorem readLevels_append (each : pieces.map readLevel = ss.map .ok) (more : List Text)
    (read : List Selector) :
    readLevels (pieces ++ more) read = readLevels more (ss.reverse ++ read) := by
  induction pieces generalizing ss read with
  | nil =>
    obtain rfl : ss = [] := List.map_eq_nil_iff.mp each.symm
    rfl
  | cons piece rest ih =>
    obtain ⟨s, others, rfl, level, each⟩ := List.map_eq_cons_iff.mp each.symm
    rw [List.cons_append, readLevels, ← level]
    simp only [ih each.symm, List.reverse_cons, List.append_assoc, List.singleton_append]

theorem ReadsAs.readLevels_eq (h : ReadsAs pieces ss failure) (read : List Selector) :
    readLevels pieces read = ⟨ss.reverse ++ read, failure⟩ := by
  cases h with
  | whole each =>
    have all := readLevels_append each [] read
    rwa [List.append_nil] at all
  | broken each fails => rw [readLevels_append each, readLevels_cons_of_error fails]

theorem ReadsAs.map_eq (h : ReadsAs pieces ss none) : pieces.map readLevel = ss.map .ok := by
  cases h with
  | whole each => exact each

theorem ReadsAs.none_iff (h : ReadsAs pieces ss failure) :
    failure = none ↔ ∀ piece ∈ pieces, ∃ s, readLevel piece = .ok s := by
  cases h with
  | whole each =>
    refine ⟨fun _ piece mem => ?_, fun _ => rfl⟩
    have read : readLevel piece ∈ ss.map Except.ok := each ▸ List.mem_map_of_mem mem
    obtain ⟨s, -, level⟩ := List.mem_map.mp read
    exact ⟨s, level.symm⟩
  | @broken before after bad ss f each fails =>
    refine ⟨nofun, fun readable => ?_⟩
    obtain ⟨s, level⟩ := readable bad (List.mem_append_right _ List.mem_cons_self)
    rw [fails] at level
    cases level

/-- No level beyond the first that cannot be read is looked at. -/
theorem readLevels_append_of_error (bad : ∃ piece ∈ pieces, ∃ f, readLevel piece = .error f)
    (more : List Text) (read : List Selector) :
    readLevels (pieces ++ more) read = readLevels pieces read := by
  obtain ⟨ss, failure, h⟩ := exists_readsAs pieces
  cases h with
  | whole each =>
    obtain ⟨piece, mem, f, fails⟩ := bad
    obtain ⟨s, level⟩ := (ReadsAs.whole each).none_iff.mp rfl piece mem
    rw [fails] at level
    cases level
  | broken each fails =>
    rw [List.append_assoc, readLevels_append each, readLevels_append each, List.cons_append,
      readLevels_cons_of_error fails, readLevels_cons_of_error fails]

theorem readParameters_of_ne_nil {t : Text} (filled : t ≠ []) :
    readParameters t = readLevels (levels t) [] := by
  rw [readParameters, if_neg (by simpa using filled)]

/-- A text that a scan comes through from the right is split and read as if it stood alone. What
stands to the left of it is read only if all its levels can be, and otherwise does not matter. -/
theorem readPartial_beside {left right : Text} (leftSolid : ∀ c ∈ left, Text.isBlank c = false)
    (rightSolid : ∀ c ∈ right, Text.isBlank c = false) (filled : right ≠ [])
    (outside : right.reverse.foldl Nesting.leftward .outside = .outside) :
    levels (left ++ ">" ++ right) = levels right ++ levels left ∧
    ((∀ piece ∈ levels right, ∃ s, readLevel piece = .ok s) →
      ∃ (inner outer : List Selector) (failure : Option Failure),
        (levels right).map readLevel = inner.map .ok ∧ ReadsAs (levels left) outer failure ∧
        readPartial (keyword ++ "(" ++ (left ++ ">" ++ right) ++ ")") =
          .ok ⟨outer.reverse ++ inner.reverse, failure⟩) ∧
    ((∃ piece ∈ levels right, ∃ f, readLevel piece = .error f) →
      readPartial (keyword ++ "(" ++ (left ++ ">" ++ right) ++ ")") =
        readPartial (keyword ++ "(" ++ right ++ ")")) := by
  have whole : left ++ ">" ++ right = left ++ '>' :: right := List.append_assoc _ _ _
  have split : levels (left ++ '>' :: right) = levels right ++ levels left :=
    levels_append left outside
  have solid : ∀ c ∈ left ++ '>' :: right, Text.isBlank c = false := by
    rw [List.forall_mem_append, List.forall_mem_cons]
    exact ⟨leftSolid, rfl, rightSolid⟩
  have read : readPartial (keyword ++ "(" ++ (left ++ '>' :: right) ++ ")") =
      .ok (readLevels (levels right ++ levels left) []) := by
    rw [readPartial_enclosed solid, readParameters_of_ne_nil (by simp), split]
  rw [whole]
  refine ⟨split, fun readable => ?_, fun bad => ?_⟩
  · obtain ⟨inner, first, own⟩ := exists_readsAs (levels right)
    obtain ⟨outer, failure, others⟩ := exists_readsAs (levels left)
    obtain rfl : first = none := own.none_iff.mpr readable
    refine ⟨inner, outer, failure, own.map_eq, others, ?_⟩
    rw [read, readLevels_append own.map_eq, others.readLevels_eq, List.append_nil]
  · rw [read, readLevels_append_of_error bad, readPartial_enclosed rightSolid,
      readParameters_of_ne_nil filled]

/-- An attribute list that is not closed is no harm to what stands to the right of it. -/
theorem readPartial_beside_unclosed :
    let left : Text := "body>div(class=\"a"
    let right : Text := "ul(title=\"x>y\")>li"
    (∀ c ∈ left, Text.isBlank c = false) ∧ (∀ c ∈ right, Text.isBlank c = false) ∧ right ≠ [] ∧
      right.reverse.foldl Nesting.leftward .outside = .outside ∧
      (∀ piece ∈ levels right, ∃ s, readLevel piece = .ok s) ∧
      levels (left ++ ">" ++ right) = levels right ++ levels left ∧
      ∃ (inner outer : List Selector) (failure : Option Failure),
        (levels right).map readLevel = inner.map .ok ∧ ReadsAs (levels left) outer failure ∧
        readPartial (keyword ++ "(" ++ (left ++ ">" ++ right) ++ ")") =
          .ok ⟨outer.reverse ++ inner.reverse, failure⟩ := by
  intro left right
  have leftSolid : ∀ c ∈ left, Text.isBlank c = false := by simp [left, Text.isBlank]
  have rightSolid : ∀ c ∈ right, Text.isBlank c = false := by simp [right, Text.isBlank]
  have filled : right ≠ [] := by decide
  have outside : right.reverse.foldl Nesting.leftward .outside = .outside := by decide
  have split : levels right = ["li".toList, "ul(title=\"x>y\")".toList] := by decide
  have readable : ∀ piece ∈ levels right, ∃ s, readLevel piece = .ok s := by
    rw [split, List.forall_mem_cons, List.forall_mem_singleton]
    exact ⟨⟨named "li", rfl⟩, ⟨(named "ul").withAttribute "title" "x>y", rfl⟩⟩
  obtain ⟨apart, whole, -⟩ := readPartial_beside leftSolid rightSolid filled outside
  exact ⟨leftSolid, rightSolid, filled, outside, readable, apart, whole readable⟩

end MarkupGrader.Selector
