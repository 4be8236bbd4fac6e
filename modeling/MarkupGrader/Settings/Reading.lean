import MarkupGrader.FileFault
import MarkupGrader.Settings.Fields
import MarkupGrader.Text.Lines

/-! Reading of settings from a text or a file, and the messages for settings that cannot be used. -/

namespace MarkupGrader.Settings

inductive Failure
  | unreadable (fault : FileFault)
  /-- With the name in the table header above the place that is refused. -/
  | notToml (heading : Option Text)
  | invalid (issues : List Issue)
  deriving DecidableEq

/-- The name in the last line that begins with a bracket among the lines up to a byte. -/
def heading? (t : Text) (offset : Nat) : Option Text :=
  let before := (Text.lines (Text.takeBytes offset t)).map Text.trim
  match before.reverse.find? fun line => line.head? == some '[' with
  | none => none
  | some line =>
    let name := Text.trim ((line.dropWhile (· == '[')).takeWhile (· != ']'))
    if name.isEmpty then none else some name

def read (t : Text) : Except Failure Settings :=
  match (Toml.parse t).bind ofEntries with
  | .error offset => .error (.notToml (heading? t offset))
  | .ok s => (s.validate.mapError .invalid).map fun _ => s

def readContents (contents : Except FileFault Text) : Except Failure Settings :=
  match contents with
  | .error fault => .error (.unreadable fault)
  | .ok t => read t

/-- The message for settings from the file at `path?`, or from elsewhere if there is no path. What
is wrong with a text that is not TOML is not told in more detail than by its heading. -/
def Failure.message (path? : Option Text) (f : Failure) : Text :=
  let origin : Text := match path? with
    | some path => " (" ++ path ++ ")"
    | none => []
  match f with
  | .unreadable fault =>
    "cannot read checker config " ++ path?.getD [] ++ ": " ++ fault.message
  | .notToml heading =>
    let inHeading : Text := match heading with
      | some name => " in [" ++ name ++ "]"
      | none => []
    "checker config" ++ origin ++ " is not valid TOML" ++ inHeading ++ ": "
  | .invalid issues => "invalid checker config" ++ origin ++ ":\n" ++ Issue.messages issues

/-- What lies behind a failure, if that has a message of its own. -/
def Failure.cause : Failure → Text
  | .unreadable fault => fault.message
  | .notToml _ => []
  | .invalid issues => Issue.messages issues

end MarkupGrader.Settings
