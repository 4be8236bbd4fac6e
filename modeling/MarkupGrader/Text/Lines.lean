import MarkupGrader.Text.Basic

/-! Lines end with a line feed, optionally preceded by a carriage return, and neither belongs to the
line. A text that ends with a line feed has no further empty line after it. -/

namespace MarkupGrader.Text

def lines : Text → List Text
  | [] => []
  | '\n' :: rest => [] :: lines rest
  | '\r' :: '\n' :: rest => [] :: lines rest
  | c :: rest =>
    match lines rest with
    | [] => [[c]]
    | line :: more => (c :: line) :: more

/-- The text in pieces that each keep the terminator they end with: a line feed, a carriage return,
or the two together. -/
def terminatedLines : Text → List Text
  | [] => []
  | '\r' :: '\n' :: rest => ['\r', '\n'] :: terminatedLines rest
  | c :: rest =>
    if c = '\n' ∨ c = '\r' then [c] :: terminatedLines rest
    else match terminatedLines rest with
      | [] => [[c]]
      | line :: more => (c :: line) :: more

end MarkupGrader.Text
