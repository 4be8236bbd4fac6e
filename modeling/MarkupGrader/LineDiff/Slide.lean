import MarkupGrader.LineDiff.Script

/-! Hunks that are slid together. Added lines that also come before or after them among the kept
lines can stand there as well; they go up and then down as far as they can, so that neighbouring
changes become one. -/

namespace MarkupGrader.LineDiff

/-- A hunk with those above it, the nearest one first, and those below it. -/
structure Focus where
  above : List Hunk
  hunk : Hunk
  below : List Hunk

def keepAbove (lines : List Text) : List Hunk → List Hunk
  | ⟨.kept, old⟩ :: rest => ⟨.kept, lines ++ old⟩ :: rest
  | hunks => ⟨.kept, lines⟩ :: hunks

def keepBelow (lines : List Text) : List Hunk → List Hunk
  | ⟨.kept, old⟩ :: rest => ⟨.kept, old ++ lines⟩ :: rest
  | hunks => ⟨.kept, lines⟩ :: hunks

namespace Focus

def up? (f : Focus) : Option Focus :=
  match f.above with
  | [] => none
  | prev :: above =>
    match f.hunk.sign, prev.sign with
    | .added, .kept =>
      let n := commonBack prev.lines f.hunk.lines
      let stay := prev.lines.take (prev.lines.length - n)
      let moved := prev.lines.drop (prev.lines.length - n)
      if n = 0 then none
      else some ⟨LineDiff.hunk .kept stay ++ above,
        ⟨.added, moved ++ f.hunk.lines.take (f.hunk.lines.length - n)⟩, keepAbove moved f.below⟩
    | .added, .removed => some ⟨above, f.hunk, prev :: f.below⟩
    | .removed, .added => some ⟨above, f.hunk, prev :: f.below⟩
    | .added, .added => some ⟨above, ⟨.added, prev.lines ++ f.hunk.lines⟩, f.below⟩
    | .removed, .removed => some ⟨above, ⟨.removed, prev.lines ++ f.hunk.lines⟩, f.below⟩
    | .removed, .kept => none
    | .kept, _ => none

def down? (f : Focus) : Option Focus :=
  match f.below with
  | [] => none
  | next :: below =>
    match f.hunk.sign, next.sign with
    | .added, .kept =>
      let n := commonFront next.lines f.hunk.lines
      let moved := next.lines.take n
      if n = 0 then none
      else some ⟨keepBelow moved f.above, ⟨.added, f.hunk.lines.drop n ++ moved⟩,
        LineDiff.hunk .kept (next.lines.drop n) ++ below⟩
    | .added, .removed => some ⟨next :: f.above, f.hunk, below⟩
    | .removed, .added => some ⟨next :: f.above, f.hunk, below⟩
    | .added, .added => some ⟨f.above, ⟨.added, f.hunk.lines ++ next.lines⟩, below⟩
    | .removed, .removed => some ⟨f.above, ⟨.removed, f.hunk.lines ++ next.lines⟩, below⟩
    | .removed, .kept => none
    | .kept, _ => none

def steps (step? : Focus → Option Focus) : Nat → Focus → Focus
  | 0, f => f
  | fuel + 1, f =>
    match step? f with
    | some f => steps step? fuel f
    | none => f

/-- The number of steps past the hunks, each of which passes a line or a hunk. -/
def stepsPast (hunks : List Hunk) : Nat := hunks.foldr (fun h n => h.lines.length + 1 + n) 0

def up (f : Focus) : Focus := steps up? (stepsPast f.above) f

def down (f : Focus) : Focus := steps down? (stepsPast f.below) f

end Focus

/-- Slides the hunks of one sign, behind those that have been dealt with. -/
def slide (sign : Sign) : Nat → List Hunk → List Hunk → List Hunk
  | 0, above, below => above.reverse ++ below
  | _ + 1, above, [] => above.reverse
  | fuel + 1, above, h :: below =>
    if h.sign = sign then
      let f := (Focus.mk above h below).up.down
      slide sign fuel (f.hunk :: f.above) f.below
    else slide sign fuel (h :: above) below

def compact (hunks : List Hunk) : List Hunk :=
  let removed := slide .removed (Focus.stepsPast hunks) [] hunks
  slide .added (Focus.stepsPast removed) [] removed

def hunks (old new : List Text) : List Hunk := compact (script (old.length + new.length) old new)

def render (old new : Text) : Text :=
  renderHunks [] [] (hunks (Text.terminatedLines old) (Text.terminatedLines new))

end MarkupGrader.LineDiff
