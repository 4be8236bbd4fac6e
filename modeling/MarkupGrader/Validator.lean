import MarkupGrader.Fault
import MarkupGrader.Outcome

/-! A validator answers the three questions for one language. It keeps nothing from one call to the
next, and a call may give an answer, give a fault, or break down. -/

namespace MarkupGrader

inductive Reply (α : Type)
  | answer (a : α)
  | fault (f : Fault)
  | breakdown

namespace Reply

def ofExcept {α : Type} : Except Fault α → Reply α
  | .ok a => .answer a
  | .error f => .fault f

end Reply

structure Validator where
  identify : Reply Text
  checkSyntax : Text → Reply Outcome
  query : Text → Text → Reply Outcome

end MarkupGrader
