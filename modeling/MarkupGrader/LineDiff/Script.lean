import MarkupGrader.LineDiff.Frontier

/-! A shortest difference of two lists of lines. Common lines at both ends are kept, and what is
between them is halved. -/

namespace MarkupGrader.LineDiff

def hunk (sign : Sign) (lines : List Text) : List Hunk :=
  if lines.isEmpty then [] else [⟨sign, lines⟩]

def replaced (old new : List Text) : List Hunk := hunk .removed old ++ hunk .added new

def script (fuel : Nat) (old new : List Text) : List Hunk :=
  let front := commonFront old new
  let oldRest := old.drop front
  let newRest := new.drop front
  let back := commonBack oldRest newRest
  let oldMiddle := oldRest.take (oldRest.length - back)
  let newMiddle := newRest.take (newRest.length - back)
  let middle : List Hunk :=
    if oldMiddle.isEmpty || newMiddle.isEmpty then replaced oldMiddle newMiddle
    else
      match fuel, halfway? oldMiddle newMiddle with
      | fuel + 1, some (x, y) =>
        script fuel (oldMiddle.take x) (newMiddle.take y) ++
          script fuel (oldMiddle.drop x) (newMiddle.drop y)
      | _, _ => replaced oldMiddle newMiddle
  hunk .kept (old.take front) ++ (middle ++ hunk .kept (oldRest.drop (oldRest.length - back)))

end MarkupGrader.LineDiff
