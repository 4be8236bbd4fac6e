import MarkupGrader.Proofs.Selector.Cuts

/-! The pieces of a split. A scan cuts only where its nesting is the one it began with, so that it
goes through a piece as if the piece stood alone. Into which pieces a text is cut is told by the
pieces themselves. -/

namespace MarkupGrader

namespace Text

theorem join_concat (separator : Text) {parts : List Text} (nonempty : parts ≠ []) (t : Text) :
    join separator (parts ++ [t]) = join separator parts ++ (separator ++ t) := by
  induction parts with
  | nil => exact absurd rfl nonempty
  | cons first rest ih =>
    cases rest with
    | nil => rw [List.singleton_append, join_cons_cons, join_singleton, join_singleton]
    | cons second more =>
      rw [List.cons_append, List.cons_append, join_cons_cons, ← List.cons_append,
        ih (List.cons_ne_nil _ _), join_cons_cons, List.append_assoc, List.append_assoc]

theorem reverse_join (separator : Text) (parts : List Text) :
    (join separator parts).reverse = join separator.reverse (parts.map List.reverse).reverse := by
  induction parts with
  | nil => rfl
  | cons first rest ih =>
    cases rest with
    | nil => simp only [List.map_singleton, List.reverse_singleton, join_singleton]
    | cons second more =>
      have behind : ((second :: more).map List.reverse).reverse ≠ [] := by simp
      rw [join_cons_cons, List.reverse_append, List.reverse_append, ih, List.map_cons (a := first),
        List.reverse_cons, join_concat _ behind, List.append_assoc]

end Text

namespace Selector

variable {delimiter : Char} {step : Nesting → Char → Nesting} {n : Nesting} {t piece : Text}
  {pieces : List Text}

/-- A scan crosses the first piece from the given nesting and each other one from outside. At the
end of each but the last it is outside, where it cuts. -/
inductive Pieces (delimiter : Char) (step : Nesting → Char → Nesting) : Nesting → List Text → Prop
  | last {n m : Nesting} {t : Text} (crossed : Crosses delimiter step n t m) :
      Pieces delimiter step n [t]
  | cut {n : Nesting} {t : Text} {more : List Text} (crossed : Crosses delimiter step n t .outside)
      (others : Pieces delimiter step .outside more) : Pieces delimiter step n (t :: more)

theorem Crosses.splitOutside_append (h : Crosses delimiter step n t .outside) (u : Text) :
    Selector.splitOutside delimiter step n (t ++ delimiter :: u) =
      t :: Selector.splitOutside delimiter step .outside u := by
  generalize out : Nesting.outside = m at h
  induction h with
  | nil n =>
    subst out
    exact if_pos ⟨rfl, rfl⟩
  | cons uncut _ ih =>
    rw [List.cons_append, Selector.splitOutside, if_neg uncut, ih out]
    rfl

theorem Pieces.consFirst {c : Char} (uncut : ¬ (c = delimiter ∧ n = .outside))
    (h : Pieces delimiter step (step n c) pieces) :
    Pieces delimiter step n (Selector.consFirst c pieces) := by
  cases h with
  | last crossed => exact .last (.cons uncut crossed)
  | cut crossed others => exact .cut (.cons uncut crossed) others

theorem pieces_splitOutside (delimiter : Char) (step : Nesting → Char → Nesting) (n : Nesting)
    (t : Text) : Pieces delimiter step n (splitOutside delimiter step n t) := by
  induction t generalizing n with
  | nil => exact .last (.nil n)
  | cons c rest ih =>
    unfold splitOutside
    split
    · next cut =>
      obtain ⟨-, rfl⟩ := cut
      exact .cut (.nil _) (ih _)
    · next uncut => exact (ih _).consFirst uncut

theorem Pieces.ne_nil (h : Pieces delimiter step n pieces) : pieces ≠ [] := by
  cases h <;> exact List.cons_ne_nil _ _

theorem pieces_of_crosses (each : ∀ t ∈ pieces, Crosses delimiter step .outside t .outside)
    (nonempty : pieces ≠ []) : Pieces delimiter step .outside pieces := by
  induction pieces with
  | nil => exact absurd rfl nonempty
  | cons t rest ih =>
    obtain ⟨own, others⟩ := List.forall_mem_cons.mp each
    cases rest with
    | nil => exact .last own
    | cons second more => exact .cut own (ih others (List.cons_ne_nil _ _))

theorem Pieces.splitOutside_join (h : Pieces delimiter step n pieces) :
    splitOutside delimiter step n (Text.join [delimiter] pieces) = pieces := by
  induction h with
  | last crossed => rw [Text.join_singleton, crossed.splitOutside]
  | cut crossed others ih =>
    obtain ⟨second, more, rfl⟩ := List.exists_cons_of_ne_nil others.ne_nil
    rw [Text.join_cons_cons]
    exact (crossed.splitOutside_append _).trans (congrArg _ ih)

/-- There is one way to cut a text, and it is that of the splitter. -/
theorem splitOutside_eq_iff : splitOutside delimiter step n t = pieces ↔
    Pieces delimiter step n pieces ∧ Text.join [delimiter] pieces = t := by
  constructor
  · rintro rfl
    exact ⟨pieces_splitOutside .., join_splitOutside ..⟩
  · rintro ⟨cuts, rfl⟩
    exact cuts.splitOutside_join

theorem Pieces.exists_crosses (h : Pieces delimiter step .outside pieces) (mem : piece ∈ pieces) :
    ∃ m, Crosses delimiter step .outside piece m := by
  generalize out : Nesting.outside = n at h
  induction h with
  | last crossed =>
    obtain rfl := List.mem_singleton.mp mem
    exact ⟨_, crossed⟩
  | cut crossed _ ih =>
    rcases List.mem_cons.mp mem with rfl | mem
    · exact ⟨_, crossed⟩
    · exact out ▸ ih mem rfl

theorem splitOutside_of_mem (mem : piece ∈ splitOutside delimiter step .outside t) :
    splitOutside delimiter step .outside piece = [piece] := by
  obtain ⟨m, crossed⟩ := (pieces_splitOutside delimiter step .outside t).exists_crosses mem
  exact crossed.splitOutside

theorem levels_eq_iff : levels t = pieces ↔
    Pieces '>' Nesting.leftward .outside (pieces.map List.reverse) ∧
      Text.join ">" pieces.reverse = t := by
  have turned : levels t = pieces ↔
      splitOutside '>' Nesting.leftward .outside t.reverse = pieces.map List.reverse :=
    ⟨fun h => by rw [← h, levels]; simp, fun h => by rw [levels, h]; simp⟩
  have joined : Text.join ['>'] (pieces.map List.reverse) = (Text.join ">" pieces.reverse).reverse := by
    rw [Text.reverse_join, List.map_reverse, List.reverse_reverse]
    rfl
  rw [turned, splitOutside_eq_iff, joined, List.reverse_inj]

theorem predicates_eq_iff : predicates t = pieces ↔
    Pieces '|' Nesting.rightward .outside pieces ∧ Text.join "|" pieces = t :=
  splitOutside_eq_iff

theorem levels_join {ts : List Text} (each : ∀ t ∈ ts, IsLevel t) (nonempty : ts ≠ []) :
    levels (Text.join ">" ts) = ts.reverse := by
  have turned : ∀ t ∈ ts.reverse.map List.reverse,
      Crosses '>' Nesting.leftward .outside t .outside :=
    List.forall_mem_map.mpr fun t ht => each t (List.mem_reverse.mp ht)
  exact levels_eq_iff.mpr
    ⟨pieces_of_crosses turned (by simpa using nonempty), by rw [List.reverse_reverse]⟩

theorem predicates_join {ts : List Text} (each : ∀ t ∈ ts, IsPredicate t) (nonempty : ts ≠ []) :
    predicates (Text.join "|" ts) = ts :=
  predicates_eq_iff.mpr ⟨pieces_of_crosses each nonempty, rfl⟩

/-- Neither splitter loses anything: the levels from the outermost to the innermost, and the
predicates, are the text again when they are joined. No piece can be split further. -/
theorem split_lossless (t : Text) :
    (Text.join ">" (levels t).reverse = t ∧ ∀ piece ∈ levels t, levels piece = [piece]) ∧
    Text.join "|" (predicates t) = t ∧ ∀ piece ∈ predicates t, predicates piece = [piece] := by
  refine ⟨⟨(levels_eq_iff.mp rfl).2, fun piece mem => ?_⟩,
    (predicates_eq_iff.mp rfl).2, fun piece mem => splitOutside_of_mem mem⟩
  obtain ⟨scanned, inside, rfl⟩ := List.mem_map.mp mem
  rw [levels, List.reverse_reverse, splitOutside_of_mem inside, List.map_singleton]

/-- A level with delimiters in a value, beside one that is not closed and takes in all to its
left. -/
theorem split_lossless_delimiters :
    let t : Text := "body>div(class=\"a)>a(title=\"x>(y|z\"|id=\"|\")>p"
    levels t = ["p".toList, "a(title=\"x>(y|z\"|id=\"|\")".toList,
        "body>div(class=\"a)".toList] ∧
      levels "body>div(class=\"a)" = ["body>div(class=\"a)".toList] ∧
      predicates "title=\"x>(y|z\"|id=\"|\"" = ["title=\"x>(y|z\"".toList, "id=\"|\"".toList] ∧
      predicates "id=\"|\"" = ["id=\"|\"".toList] := by
  intro t
  have cut : levels t = ["p".toList, "a(title=\"x>(y|z\"|id=\"|\")".toList,
      "body>div(class=\"a)".toList] := by decide
  have inner : predicates "title=\"x>(y|z\"|id=\"|\"" =
      ["title=\"x>(y|z\"".toList, "id=\"|\"".toList] := by decide
  have level := (split_lossless t).1.2 "body>div(class=\"a)" (by rw [cut]; decide)
  have predicate := (split_lossless "title=\"x>(y|z\"|id=\"|\"").2.2 "id=\"|\"" (by rw [inner]; decide)
  exact ⟨cut, level, inner, predicate⟩

end Selector
end MarkupGrader
