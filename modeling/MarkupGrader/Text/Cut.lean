import MarkupGrader.Text.Bytes

/-! Cutting is slicing that can fail. What is cut out of a text begins and ends with characters of
it; a span that does not is given back as the error. -/

namespace MarkupGrader.Text

/-- Whether a character begins at a byte position or the text ends there. -/
def isBoundary : Text → Nat → Bool
  | _, 0 => true
  | [], _ + 1 => false
  | c :: rest, n + 1 => c.utf8Size ≤ n + 1 && isBoundary rest (n + 1 - c.utf8Size)

def cut (t : Text) (span : Span) : Except Span Text :=
  if span.start ≤ span.stop ∧ span.stop ≤ t.byteLength ∧ t.isBoundary span.start ∧
    t.isBoundary span.stop then .ok (t.slice span)
  else .error span

end MarkupGrader.Text
