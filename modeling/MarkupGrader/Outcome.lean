import MarkupGrader.Command

/-! Outcomes are what a check says of a learner's page. Each has a response text, and a host that
only sees the text recovers the outcome from it as well as the text allows. -/

namespace MarkupGrader

inductive Outcome
  | success
  | syntaxErrors (text : Text)
  | styleViolation (text : Text)
  | missingElement (name : Text)
  /-- A failure whose wording the host does not know. -/
  | rejected (text : Text)
  /-- The module wrote nothing. -/
  | unanswered
  deriving DecidableEq

namespace Outcome

def successWord : Text := "SUCCESS"

def blockedMark : Text := "Error:"

def missingBefore : Text := "The required '"

def missingAfter : Text := "' element is missing or incorrect"

def isSuccess (o : Outcome) : Bool := o == .success

def toResponse : Outcome → Text
  | success => successWord
  | syntaxErrors text => text
  | styleViolation text => text
  | missingElement name => missingBefore ++ name ++ missingAfter
  | rejected text => text
  | unanswered => []

def message : Outcome → Text
  | unanswered => "no response from the checker"
  | outcome => outcome.toResponse

/-- The element named by a response of the form that `toResponse` gives a missing element. -/
def missingName? (text : Text) : Option Text :=
  (Text.after? missingBefore text).bind (Text.before? missingAfter)

def ofSyntaxResponse (text : Text) : Outcome :=
  if text = successWord then .success else .syntaxErrors text

def ofQueryResponse (command text : Text) : Outcome :=
  if text = successWord then .success
  else if text.isEmpty then .unanswered
  else if text.startsWith blockedMark then .syntaxErrors text
  else
    match Command.ofText command with
    | .styleCheck => .styleViolation text
    | .contains _ =>
      match missingName? text with
      | some name => .missingElement name
      | none => .rejected text
    | .other _ => .rejected text

end Outcome
end MarkupGrader
