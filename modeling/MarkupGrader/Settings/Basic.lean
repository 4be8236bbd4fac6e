import MarkupGrader.Language.Registry

/-! Settings of a checker: how the grader of HTML pages works, and which further languages there
are. Checking the settings lists everything that is wrong with them. -/

namespace MarkupGrader

namespace Settings

structure LanguageEntry where
  id : Text
  name : Text
  module : Text
  deriving DecidableEq

inductive Issue
  | outOfRange (field problem : Text)
  | missingField (language : Option Text) (field : Text)
  | unknownModule (language module : Text)
  | duplicateLanguage (id name : Text)
  deriving DecidableEq

def Issue.message : Issue → Text
  | outOfRange field problem => "'" ++ field ++ "' out of range: " ++ problem
  | missingField (some id) field =>
    "language '" ++ id ++ "' missing required field '" ++ field ++ "'"
  | missingField none field => "language missing required field '" ++ field ++ "'"
  | unknownModule language module =>
    "language '" ++ language ++ "' uses unknown module '" ++ module ++ "'"
  | duplicateLanguage id name =>
    "language '" ++ name ++ "' (id " ++ id ++ ") is registered twice"

def Issue.messages (issues : List Issue) : Text := Text.join "\n" (issues.map message)

end Settings

structure Settings where
  options : Grader.Options
  languages : List Settings.LanguageEntry
  deriving DecidableEq

namespace Settings

def default : Settings := ⟨.default, []⟩

def LanguageEntry.language (e : LanguageEntry) : Language := ⟨e.id, e.name⟩

def optionIssues (o : Grader.Options) : List Issue :=
  (if 1 ≤ o.indent ∧ o.indent ≤ Layout.maxIndent then []
    else [.outOfRange "html.indent"
      (Text.ofNat o.indent ++ " is outside 1..=" ++ Text.ofNat Layout.maxIndent)]) ++
  (if Buffer.minimumCapacity ≤ o.responseCapacity then []
    else [.outOfRange "html.response_capacity"
      (Text.ofNat o.responseCapacity ++ " is below the minimum of " ++
        Text.ofNat Buffer.minimumCapacity)])

def entryIssues (earlier : List LanguageEntry) (e : LanguageEntry) : List Issue :=
  (if (Text.trim e.id).isEmpty then [.missingField none "id"] else []) ++
  (if (Text.trim e.name).isEmpty then [.missingField (some e.id) "name"] else []) ++
  (if e.module = Registry.htmlModule then [] else [.unknownModule e.name e.module]) ++
  (if earlier.any (fun old => old.id == e.id && old.name.lower == e.name.lower) then
    [.duplicateLanguage e.id e.name] else [])

def languageIssues (earlier : List LanguageEntry) : List LanguageEntry → List Issue
  | [] => []
  | e :: rest => entryIssues earlier e ++ languageIssues (e :: earlier) rest

def issues (s : Settings) : List Issue := optionIssues s.options ++ languageIssues [] s.languages

def validate (s : Settings) : Except (List Issue) Unit :=
  if s.issues.isEmpty then .ok () else .error s.issues

variable {σ : Type}

def registerAll (g : Grader) : List LanguageEntry → Registry σ → Except Fault (Registry σ)
  | [], r => .ok r
  | e :: rest, r =>
    match Registry.builtinLoader? e.module g with
    | none => .error (.moduleLoadFailed e.name)
    | some loader => registerAll g rest (r.register ⟨e.language, e.module, loader⟩)

def registry (s : Settings) (recovery : Markup.Recovery) : Except Fault (Registry σ) :=
  let g : Grader := ⟨s.options, recovery⟩
  registerAll g s.languages (.withBuiltins g)

end Settings
end MarkupGrader
