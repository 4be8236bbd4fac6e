import MarkupGrader.Text.Lines

/-! The difference of two texts as hunks of lines, from the first line to the last. The kept and the
removed lines are those of the old text, the kept and the added ones those of the new text. -/

namespace MarkupGrader.LineDiff

inductive Sign
  | kept
  | removed
  | added
  deriving DecidableEq

def Sign.char : Sign → Char
  | kept => ' '
  | removed => '-'
  | added => '+'

structure Hunk where
  sign : Sign
  lines : List Text
  deriving DecidableEq

def oldLines (hunks : List Hunk) : List Text :=
  hunks.flatMap fun h => if h.sign = .added then [] else h.lines

def newLines (hunks : List Hunk) : List Text :=
  hunks.flatMap fun h => if h.sign = .removed then [] else h.lines

/-- The number of lines that two lists of lines have in common at their beginning. -/
def commonFront : List Text → List Text → Nat
  | a :: as, b :: bs => if a = b then commonFront as bs + 1 else 0
  | _, _ => 0

def commonBack (as bs : List Text) : Nat := commonFront as.reverse bs.reverse

/-- A line with its sign. One without a terminator gets a line feed. -/
def renderLine (sign : Sign) (line : Text) : Text :=
  let ending : Text := match line.getLast? with
    | some c => if c = '\n' ∨ c = '\r' then [] else ['\n']
    | none => ['\n']
  sign.char :: line ++ ending

def renderLines (sign : Sign) (lines : List Text) : Text := lines.flatMap (renderLine sign)

/-- Writes hunks. Between kept lines the removed ones, `removed` and those to come, stand before the
added ones. -/
def renderHunks (removed added : List Text) : List Hunk → Text
  | [] => renderLines .removed removed ++ renderLines .added added
  | ⟨.kept, lines⟩ :: rest =>
    renderLines .removed removed ++ renderLines .added added ++
      (renderLines .kept lines ++ renderHunks [] [] rest)
  | ⟨.removed, lines⟩ :: rest => renderHunks (removed ++ lines) added rest
  | ⟨.added, lines⟩ :: rest => renderHunks removed (added ++ lines) rest

end MarkupGrader.LineDiff
