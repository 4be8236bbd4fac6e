import Mathlib
import MarkupGrader.Selector.Split

/-! Where the splitters cut. A text that a scan crosses without meeting a delimiter outside is one
piece. A delimiter that is met outside is a cut, and both sides of it are split by themselves. -/

namespace MarkupGrader.Selector

variable {delimiter : Char} {step : Nesting → Char → Nesting} {n m k : Nesting} {t u : Text}

theorem consFirst_append (c : Char) {pieces : List Text} (h : pieces ≠ []) (more : List Text) :
    consFirst c (pieces ++ more) = consFirst c pieces ++ more := by
  cases pieces with
  | nil => exact absurd rfl h
  | cons piece rest => rfl

theorem splitOutside_append (still : step .outside delimiter = .outside)
    (outside : t.foldl step n = .outside) (u : Text) :
    splitOutside delimiter step n (t ++ delimiter :: u) =
      splitOutside delimiter step n t ++ splitOutside delimiter step .outside u := by
  induction t generalizing n with
  | nil =>
    obtain rfl : n = .outside := outside
    have cut : splitOutside delimiter step .outside (delimiter :: u) =
        [] :: splitOutside delimiter step .outside u := by
      rw [splitOutside]
      exact if_pos ⟨rfl, rfl⟩
    exact cut
  | cons c t ih =>
    rw [List.cons_append, splitOutside, splitOutside]
    split
    · next cut =>
      obtain ⟨rfl, rfl⟩ := cut
      have rest : t.foldl step .outside = .outside := by
        rwa [List.foldl_cons, still] at outside
      rw [ih rest, List.cons_append]
    · rw [ih outside, consFirst_append c splitOutside_ne_nil]

/-- From one nesting a scan comes through the text to another and cuts nowhere. -/
inductive Crosses (delimiter : Char) (step : Nesting → Char → Nesting) :
    Nesting → Text → Nesting → Prop
  | nil (n : Nesting) : Crosses delimiter step n [] n
  | cons {n m : Nesting} {c : Char} {t : Text} (uncut : ¬ (c = delimiter ∧ n = .outside))
      (rest : Crosses delimiter step (step n c) t m) : Crosses delimiter step n (c :: t) m

theorem Crosses.append (ht : Crosses delimiter step n t m) (hu : Crosses delimiter step m u k) :
    Crosses delimiter step n (t ++ u) k := by
  induction ht with
  | nil n => exact hu
  | cons uncut _ ih => exact .cons uncut (ih hu)

theorem crosses_of_still (still : ∀ c ∈ t, ¬ (c = delimiter ∧ n = .outside) ∧ step n c = n) :
    Crosses delimiter step n t n := by
  induction t with
  | nil => exact .nil n
  | cons c t ih =>
    obtain ⟨⟨uncut, same⟩, rest⟩ := List.forall_mem_cons.mp still
    refine .cons uncut ?_
    rw [same]
    exact ih rest

theorem Crosses.splitOutside (h : Crosses delimiter step n t m) :
    splitOutside delimiter step n t = [t] := by
  induction h with
  | nil n => rfl
  | cons uncut _ ih =>
    rw [Selector.splitOutside, if_neg uncut, ih]
    rfl

theorem levels_append (u : Text) (outside : t.reverse.foldl Nesting.leftward .outside = .outside) :
    levels (u ++ '>' :: t) = levels t ++ levels u := by
  have cut : splitOutside '>' Nesting.leftward .outside (t.reverse ++ '>' :: u.reverse) =
      splitOutside '>' Nesting.leftward .outside t.reverse ++
        splitOutside '>' Nesting.leftward .outside u.reverse := splitOutside_append rfl outside _
  have split : (u ++ '>' :: t).reverse = t.reverse ++ '>' :: u.reverse := by simp
  rw [levels, split, cut, List.map_append]
  rfl

abbrev IsLevel (t : Text) : Prop := Crosses '>' Nesting.leftward .outside t.reverse .outside

abbrev IsPredicate (t : Text) : Prop := Crosses '|' Nesting.rightward .outside t .outside

end MarkupGrader.Selector
