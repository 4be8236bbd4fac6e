import MarkupGrader.Submission.Check
import MarkupGrader.Json

/-! A report as JSON. -/

namespace MarkupGrader

def Outcome.toJson (o : Outcome) : Json :=
  let tagged (kind : Text) (detail : Json) : Json :=
    .object [("kind", .string kind), ("detail", detail)]
  match o with
  | success => .object [("kind", .string "success")]
  | syntaxErrors text => tagged "syntax_errors" (.string text)
  | styleViolation text => tagged "style_violation" (.string text)
  | missingElement name => tagged "missing_element" (.object [("name", .string name)])
  | rejected text => tagged "rejected" (.string text)
  | unanswered => .object [("kind", .string "unanswered")]

def Language.toJson (l : Language) : Json :=
  .object [("id", .string l.id), ("name", .string l.name)]

def QueryResult.toJson (q : QueryResult) : Json :=
  .object [("command", .string q.command), ("outcome", q.outcome.toJson)]

def Report.toJson (r : Report) : Json :=
  .object [
    ("language", r.language.toJson),
    ("identity", .ofOption .string r.identity),
    ("syntax", .ofOption Outcome.toJson r.syntaxResult),
    ("queries", .array (r.queries.map QueryResult.toJson)),
    ("error", .ofOption (fun f : Fault =>
      .object [("code", .number f.code), ("message", .string f.message)]) r.fault),
    ("feedback", .array (r.feedback.map .string)),
    ("passed", .bool r.passed)]

end MarkupGrader
