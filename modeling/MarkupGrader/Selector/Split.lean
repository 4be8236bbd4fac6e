import MarkupGrader.Text.Basic

/-! Two splitters for selector text. Both cut at a delimiter only outside quotes and parentheses;
one walks from right to left and minds quotes only inside parentheses, the other walks from left to
right and minds them everywhere. A closing of what was never opened is ignored. -/

namespace MarkupGrader.Selector

/-- How deep in parentheses a scan is, and whether it is inside quotes. -/
structure Nesting where
  depth : Nat
  quoted : Bool
  deriving DecidableEq, Repr

namespace Nesting

def outside : Nesting := ⟨0, false⟩

def leftward (n : Nesting) (c : Char) : Nesting :=
  if c = '"' ∧ 0 < n.depth then { n with quoted := !n.quoted }
  else if c = ')' ∧ n.quoted = false then { n with depth := n.depth + 1 }
  else if c = '(' ∧ n.quoted = false then { n with depth := n.depth - 1 }
  else n

def rightward (n : Nesting) (c : Char) : Nesting :=
  if c = '"' then { n with quoted := !n.quoted }
  else if c = '(' ∧ n.quoted = false then { n with depth := n.depth + 1 }
  else if c = ')' ∧ n.quoted = false then { n with depth := n.depth - 1 }
  else n

end Nesting

def consFirst (c : Char) : List Text → List Text
  | [] => [[c]]
  | piece :: more => (c :: piece) :: more

def splitOutside (delimiter : Char) (step : Nesting → Char → Nesting) : Nesting → Text → List Text
  | _, [] => [[]]
  | n, c :: rest =>
    if c = delimiter ∧ n = .outside then [] :: splitOutside delimiter step n rest
    else consFirst c (splitOutside delimiter step (step n c) rest)

theorem splitOutside_ne_nil {delimiter : Char} {step : Nesting → Char → Nesting} {n : Nesting}
    {t : Text} : splitOutside delimiter step n t ≠ [] := by
  cases t with
  | nil => simp [splitOutside]
  | cons c rest =>
    unfold splitOutside
    split
    · simp
    · cases splitOutside delimiter step (step n c) rest <;> simp [consFirst]

theorem join_consFirst (separator : Text) (c : Char) {pieces : List Text} (h : pieces ≠ []) :
    Text.join separator (consFirst c pieces) = c :: Text.join separator pieces := by
  cases pieces with
  | nil => exact absurd rfl h
  | cons piece more =>
    cases more <;> simp [consFirst, Text.join, List.intercalate]

theorem join_splitOutside (delimiter : Char) (step : Nesting → Char → Nesting) (n : Nesting)
    (t : Text) : Text.join [delimiter] (splitOutside delimiter step n t) = t := by
  induction t generalizing n with
  | nil => simp [splitOutside, Text.join]
  | cons c rest ih =>
    unfold splitOutside
    split
    · next h =>
      obtain ⟨piece, more, eq⟩ := List.exists_cons_of_ne_nil (splitOutside_ne_nil (n := n))
      rw [eq, h.1]
      have := ih n
      rw [eq] at this
      simpa [Text.join, List.intercalate] using this
    · rw [join_consFirst _ _ splitOutside_ne_nil, ih]

def levels (t : Text) : List Text :=
  (splitOutside '>' Nesting.leftward .outside t.reverse).map List.reverse

def predicates (t : Text) : List Text := splitOutside '|' Nesting.rightward .outside t

end MarkupGrader.Selector
