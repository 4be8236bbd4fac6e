import MarkupGrader.CommandLine.Request

/-! The pages that show how the program is used. -/

namespace MarkupGrader.CommandLine

def programName : Text := "lesson-checker"

def versionLine : Text := programName ++ " 0.1.0\n"

/-- A word and what it means, where the longest word has `width` characters. -/
def helpRowText (width : Nat) (row : Text × Text) : Text :=
  "  " ++ Text.padRight width row.1 ++ "  " ++ row.2 ++ "\n"

def helpSection (title : Text) (rows : List (Text × Text)) : Text :=
  let width := (rows.map fun row => row.1.length).foldl max 0
  "\n" ++ title ++ ":\n" ++ rows.flatMap (helpRowText width)

def helpPage (about usage : Text) (sections : List (Text × List (Text × Text))) : Text :=
  about ++ "\n\nUsage: " ++ programName ++ usage ++ "\n" ++
    sections.flatMap fun (title, rows) => helpSection title rows

def Verb.about : Verb → Text
  | check => "Run a lesson check on a file"
  | identify => "Print a module's identification string"
  | selector => "Parse a contains(...) command and print its selector chain"
  | format => "Print the canonical form of an HTML file"
  | languages => "List registered languages"

def helpAbout : Text := "Print this message or the help of the given subcommand(s)"

def configRow : Text × Text := ("    --config <CONFIG>", "Checker configuration file")

def verboseRow : Text × Text := ("-v, --verbose", "Log module loading and every check")

def helpRow : Text × Text := ("-h, --help", "Print help")

def Verb.usage : Verb → Text
  | check => " check [OPTIONS] --language <LANGUAGE> <FILE>"
  | identify => " identify [OPTIONS] --language <LANGUAGE>"
  | selector => " selector [OPTIONS] <COMMAND>"
  | format => " format [OPTIONS] <FILE>"
  | languages => " languages [OPTIONS]"

def Verb.operandRows : Verb → List (Text × Text)
  | check => [("<FILE>", "File containing the student's code")]
  | identify => []
  | selector => [("<COMMAND>", "")]
  | format => [("<FILE>", "")]
  | languages => []

def Verb.optionRows : Verb → List (Text × Text)
  | check =>
    [configRow, ("-l, --language <LANGUAGE>", "Language name, e.g. HTML"),
      ("    --id <ID>", "Language id (looked up from the name if omitted)"), verboseRow,
      ("-q, --query <QUERIES>", "Query to run after the syntax check; repeatable"),
      ("    --json", "Print the report as JSON"), helpRow]
  | identify =>
    [configRow, ("-l, --language <LANGUAGE>", ""), ("    --id <ID>", ""), verboseRow, helpRow]
  | selector => [configRow, verboseRow, helpRow]
  | format =>
    [configRow, ("-d, --diff", "Show a diff against the canonical form instead"), verboseRow,
      helpRow]
  | languages => [configRow, verboseRow, helpRow]

def Topic.page : Topic → Text
  | program =>
    helpPage "Check student code against lesson requirements" " [OPTIONS] <COMMAND>"
      [("Commands", Verb.all.map (fun v => (v.name, v.about)) ++ [(helpVerb, helpAbout)]),
        ("Options", [configRow, verboseRow, helpRow, ("-V, --version", "Print version")])]
  | verb v =>
    let operands : List (Text × List (Text × Text)) :=
      if v.operandRows.isEmpty then [] else [("Arguments", v.operandRows)]
    let options : List (Text × List (Text × Text)) := [("Options", v.optionRows)]
    helpPage v.about v.usage (operands ++ options)
  | help =>
    helpPage helpAbout " help [COMMAND]..."
      [("Arguments", [("[COMMAND]...", "Print help for the subcommand(s)")])]

end MarkupGrader.CommandLine
