import MarkupGrader.Connection
import MarkupGrader.Submission.Report

/-! The check of one submission: the syntax check and then the queries, in order. Syntax errors do
not keep the queries from being asked, but the first query that fails is the last, and a fault ends
the check at once. -/

namespace MarkupGrader.Submission

variable {σ : Type}

def runQueries (ask : Text → Except Fault Outcome) : List Text → Report → Report
  | [], r => r.finish
  | command :: rest, r =>
    match ask command with
    | .error fault => r.abort fault
    | .ok o =>
      if o.isSuccess then runQueries ask rest (r.withQuery command o)
      else (r.withQuery command o).finish

def check (k : Connection) (code : Text) (queries : List Text) : Report :=
  let r := Report.new k.language
  match k.identify with
  | .error fault => r.abort fault
  | .ok identity =>
    let r := { r with identity := some identity }
    match k.checkSyntax code with
    | .error fault => r.abort fault
    | .ok o => runQueries (k.query code) queries (r.withSyntax o)

def openConnection (r : Registry σ) (c : Option Cache) (l : Language) (w : σ) :
    Except Fault Connection × Option Cache × σ :=
  let (result, k, c, w) : Except Fault Unit × Connection × Option Cache × σ :=
    match c with
    | some c =>
      let (result, k, c, w) := (Connection.new l.id l.name).loadCached r c w
      (result, k, some c, w)
    | none =>
      let (result, k, w) := (Connection.new l.id l.name).load r w
      (result, k, none, w)
  match result with
  | .error fault => (.error fault, c, w)
  | .ok () =>
    match k.init with
    | (.error fault, _) => (.error fault, c, w)
    | (.ok (), k) => (.ok k, c, w)

def run (r : Registry σ) (c : Option Cache) (l : Language) (code : Text) (queries : List Text)
    (w : σ) : Report × Option Cache × σ :=
  if code.isEmpty then ({ Report.new l with feedback := [Report.noCode] }, c, w)
  else
    match openConnection r c l w with
    | (.error fault, c, w) => ((Report.new l).abort fault, c, w)
    | (.ok k, c, w) => (check k code queries, c, w)

end MarkupGrader.Submission
