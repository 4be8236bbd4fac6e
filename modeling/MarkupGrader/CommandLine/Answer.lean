import MarkupGrader.CommandLine.Help
import MarkupGrader.Submission.ReportJson
import MarkupGrader.LineDiff.Slide
import MarkupGrader.Settings.Reading

/-! What the program answers to a command line: an exit code and what is printed. The files are
given by a function from their names. -/

namespace MarkupGrader.CommandLine

structure Answer where
  code : Nat
  stdout : Text
  stderr : Text
  deriving DecidableEq

inductive Failure
  | settings (path : Text) (failure : Settings.Failure)
  | registry (fault : Fault)
  | unreadable (path : Text) (fault : FileFault)
  | unknownLanguage (name : Text)
  | noIdentity (language : Language) (fault : Fault)
  | selector (failure : Selector.Failure)
  | layout (fault : Fault)

namespace Failure

def message : Failure → Text
  | settings path failure => failure.message (some path)
  | registry fault => fault.message
  | unreadable path _ => "failed to read " ++ path
  | unknownLanguage name => "no registered language named '" ++ name ++ "'"
  | noIdentity language _ => "module for " ++ language.display ++ " did not identify"
  | selector failure => failure.message
  | layout fault => fault.message

def cause? : Failure → Option Text
  | settings _ failure => some failure.cause
  | unreadable _ fault => some fault.message
  | noIdentity _ fault => some fault.message
  | registry _ | unknownLanguage _ | selector _ | layout _ => none

def render (f : Failure) : Text :=
  let cause : Text := match f.cause? with
    | some cause => "\n\nCaused by:\n    " ++ Text.replaceChar '\n' "\n    " cause
    | none => []
  "Error: " ++ f.message ++ cause ++ "\n"

end Failure

namespace Answer

def printed (t : Text) : Answer := ⟨0, t, []⟩

def ofFailure (f : Failure) : Answer := ⟨1, [], f.render⟩

def ofResult (r : Except Failure Answer) : Answer :=
  match r with
  | .ok a => a
  | .error f => ofFailure f

/-- To words that cannot be used; how to use them is left to the help pages. -/
def misuse : Answer := ⟨2, [], []⟩

end Answer

abbrev Files := Text → Except FileFault Text

def readInput (files : Files) (path : Text) : Except Failure Text :=
  (files path).mapError (.unreadable path)

def readSettings (files : Files) (config? : Option Text) : Except Failure Settings :=
  match config? with
  | some path => (Settings.readContents (files path)).mapError (.settings path)
  | none => .ok .default

abbrev Languages := Registry Unit

/-- The id that is given, or that of the first language with the name. -/
def languageId (r : Languages) (name : Text) (id? : Option Text) : Except Failure Text :=
  match id?, r.findByName name with
  | some id, _ => .ok id
  | none, some l => .ok l.id
  | none, none => .error (.unknownLanguage name)

def feedbackLine (line : Text) : Text := "  " ++ line ++ "\n"

def reportAnswer (asJson : Bool) (report : Report) : Answer :=
  let text : Text :=
    if asJson then report.toJson.render 0 ++ "\n"
    else if report.passed then report.message ++ "\n"
    else "Not quite:\n" ++ (report.feedback.flatMap Text.lines).flatMap feedbackLine
  ⟨if report.passed then 0 else 1, text, []⟩

def check (files : Files) (r : Languages) (name : Text) (id? : Option Text) (file : Text)
    (queries : List Text) (asJson : Bool) : Except Failure Answer := do
  let id ← languageId r name id?
  let code ← readInput files file
  let (report, _, _) := Submission.run r none ⟨id, name⟩ code queries ()
  .ok (reportAnswer asJson report)

def identify (r : Languages) (name : Text) (id? : Option Text) : Except Failure Answer := do
  let id ← languageId r name id?
  let (h, _) := Connection.start r id name ()
  match h.identify with
  | .ok identity => .ok (.printed (identity ++ "\n"))
  | .error fault => .error (.noIdentity h.language fault)

/-- One selector on each line, each further to the right than the one before. -/
def renderChain (depth : Nat) : List Selector → Text
  | [] => []
  | s :: rest => Text.indent 2 depth ++ s.display ++ "\n" ++ renderChain (depth + 1) rest

/-- What stops the reading of a chain is shown even if the chain can be used as it is. -/
def selector (policy : Selector.Policy) (command : Text) : Answer :=
  match Selector.readPartial command with
  | .error f => .ofFailure (.selector f)
  | .ok p =>
    let warning : Text := match p.failure with
      | some f => "parse stopped: " ++ f.message ++ "\n"
      | none => []
    let a : Answer := match p.toChain policy with
      | .ok c => .printed (renderChain 0 c.toList)
      | .error f => .ofFailure (.selector f)
    { a with stderr := warning ++ a.stderr }

def format (files : Files) (g : Grader) (file : Text) (asDiff : Bool) : Except Failure Answer := do
  let code ← readInput files file
  let formatted ← (g.format code).mapError .layout
  if asDiff then
    .ok (.printed ("--- " ++ file ++ " (submitted)\n+++ " ++ file ++ " (canonical)\n" ++
      LineDiff.render code formatted))
  else .ok (.printed formatted)

def languageLine (l : Language) (module : Text) : Text :=
  "  " ++ Text.padLeft 4 l.id ++ "  " ++ Text.padRight 12 l.name ++ " " ++ module ++ "\n"

def listLanguages (r : Languages) : Answer :=
  .printed ("Registered languages:\n" ++
    r.languages.flatMap fun (l, module) => languageLine l module)

/-- Does a task. The settings come first, and they are checked even if the task needs none. -/
def runTask (recovery : Markup.Recovery) (files : Files) (config? : Option Text) (task : Task) :
    Except Failure Answer := do
  let settings ← readSettings files config?
  let r ← (settings.registry recovery).mapError Failure.registry
  match task with
  | .check name id? file queries asJson => check files r name id? file queries asJson
  | .identify name id? => identify r name id?
  | .selector command => .ok (selector settings.options.policy command)
  | .format file asDiff => format files ⟨settings.options, recovery⟩ file asDiff
  | .languages => .ok (listLanguages r)

def answer (recovery : Markup.Recovery) (files : Files) : Option Request → Answer
  | none => .misuse
  | some (.run config? task) => .ofResult (runTask recovery files config? task)
  | some (.help topic) => .printed topic.page
  | some .version => .printed versionLine

end MarkupGrader.CommandLine
