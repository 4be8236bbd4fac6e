import MarkupGrader.Diagnostic
import MarkupGrader.Document.Build
import MarkupGrader.Layout
import MarkupGrader.Selector.Reading
import MarkupGrader.Validator

/-! The grader of HTML pages: a syntax check by diagnostics, a style check against the canonical
layout, and queries by chains of selectors. -/

namespace MarkupGrader

namespace Grader

structure Options where
  indent : Nat
  requireDoctype : Bool
  lineEnding : LineEnding
  policy : Selector.Policy
  responseCapacity : Nat
  /-- Queries for elements are held back while there are diagnostics. -/
  gateOnSyntax : Bool
  deriving DecidableEq, Repr

def Options.default : Options := ⟨2, true, .auto, .strict, 4096, false⟩

def Options.layout (o : Options) : Layout.Options := ⟨o.indent, o.lineEnding⟩

end Grader

structure Grader where
  options : Grader.Options
  recovery : Markup.Recovery

namespace Grader

def styleMismatch : Text := "Style Error: remember to indent and put new tags on new lines!"

def blockedBySyntax : Text := "Error: cannot check style if there are syntax errors!"

def identity : Text := "HTML Checker 0.1.0"

def diagnostics (g : Grader) (code : Text) : List Diagnostic :=
  Diagnostic.collect code (Markup.parse g.recovery code) g.options.requireDoctype

def document (g : Grader) (code : Text) : Document := Document.parse g.recovery code

def format (g : Grader) (code : Text) : Except Fault Text :=
  Layout.format (g.document code) g.options.layout

def evaluate (g : Grader) (code command : Text) : Except Fault ChainMatch :=
  ((Selector.Chain.read command g.options.policy).mapError Fault.ofSelector).map
    (g.document code).tree.follow

def checkSyntax (g : Grader) (code : Text) : Except Fault Outcome :=
  match g.diagnostics code with
  | [] => .ok .success
  | found => .ok (.syntaxErrors (Diagnostic.render found))

def checkStyle (g : Grader) (code : Text) : Except Fault Outcome := do
  g.options.layout.validate
  if (g.diagnostics code).isEmpty then
    let formatted ← g.format code
    if Layout.isCanonical code formatted then .ok .success else .ok (.styleViolation styleMismatch)
  else .ok (.syntaxErrors blockedBySyntax)

def contains (g : Grader) (code command : Text) : Except Fault Outcome := do
  if g.options.gateOnSyntax && !(g.diagnostics code).isEmpty then
    .ok (.syntaxErrors blockedBySyntax)
  else
    let report ← g.evaluate code command
    match report.missing with
    | some name => .ok (.missingElement name)
    | none => .ok .success

def query (g : Grader) (code command : Text) : Except Fault Outcome :=
  match Command.ofText command with
  | .styleCheck => g.checkStyle code
  | .contains text => g.contains code text
  | .other _ => .ok .unanswered

def validator (g : Grader) : Validator where
  identify := .answer identity
  checkSyntax code := .ofExcept (g.checkSyntax code)
  query code command := .ofExcept (g.query code command)

end Grader
end MarkupGrader
