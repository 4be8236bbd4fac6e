import MarkupGrader.Language.Basic
import MarkupGrader.Fault
import MarkupGrader.Outcome

/-! The report on one submission: the answers up to where the check ended, and what the learner is
shown. -/

namespace MarkupGrader

structure QueryResult where
  command : Text
  outcome : Outcome
  deriving DecidableEq

structure Report where
  language : Language
  identity : Option Text
  syntaxResult : Option Outcome
  queries : List QueryResult
  /-- The fault that ended the check. -/
  fault : Option Fault
  /-- What the learner is shown, in order. -/
  feedback : List Text
  passed : Bool
  deriving DecidableEq

namespace Report

def new (l : Language) : Report := ⟨l, none, none, [], none, [], false⟩

def noCode : Text := "No code was entered."

def passedMessage : Text := "Success!  You may now advance to the next lesson."

def message (r : Report) : Text := if r.passed then passedMessage else Text.join "\n" r.feedback

def abort (r : Report) (f : Fault) : Report :=
  { r with
    feedback := r.feedback ++ ["CodeChecker Error (" ++ Text.ofNat f.code ++ ")"]
    fault := some f }

def addFeedback (r : Report) (o : Outcome) : Report :=
  if o.isSuccess then r else { r with feedback := r.feedback ++ [o.message] }

def withSyntax (r : Report) (o : Outcome) : Report :=
  { r.addFeedback o with syntaxResult := some o }

def withQuery (r : Report) (command : Text) (o : Outcome) : Report :=
  { r.addFeedback o with queries := r.queries ++ [⟨command, o⟩] }

def finish (r : Report) : Report := { r with passed := r.feedback.isEmpty }

end Report
end MarkupGrader
