import MarkupGrader.Text.Basic

/-! The words of a command line: the verbs, and the switches that each of them takes. -/

namespace MarkupGrader.CommandLine

inductive Verb
  | check
  | identify
  | selector
  | format
  | languages
  deriving DecidableEq

def Verb.all : List Verb := [.check, .identify, .selector, .format, .languages]

def Verb.name : Verb → Text
  | check => "check"
  | identify => "identify"
  | selector => "selector"
  | format => "format"
  | languages => "languages"

def Verb.ofName? (t : Text) : Option Verb := all.find? fun v => v.name == t

def helpVerb : Text := "help"

inductive SwitchKind
  | flag
  /-- A value that may be any text, once or any number of times. -/
  | text (isRepeatable : Bool)
  /-- The name of a file, which is not empty. -/
  | path
  | help
  | version
  deriving DecidableEq

structure Switch where
  name : Text
  letter? : Option Char
  kind : SwitchKind
  deriving DecidableEq

namespace Switch

def takesValue (s : Switch) : Bool :=
  match s.kind with
  | .text _ | .path => true
  | .flag | .help | .version => false

def config : Switch := ⟨"config", none, .path⟩

def verbose : Switch := ⟨"verbose", some 'v', .flag⟩

def help : Switch := ⟨"help", some 'h', .help⟩

def version : Switch := ⟨"version", some 'V', .version⟩

def language : Switch := ⟨"language", some 'l', .text false⟩

def id : Switch := ⟨"id", none, .text false⟩

def query : Switch := ⟨"query", some 'q', .text true⟩

def json : Switch := ⟨"json", none, .flag⟩

def diff : Switch := ⟨"diff", some 'd', .flag⟩

end Switch

def leadingSwitches : List Switch := [.config, .verbose, .help, .version]

def Verb.switches (v : Verb) : List Switch :=
  let own : List Switch := match v with
    | check => [.language, .id, .query, .json]
    | identify => [.language, .id]
    | selector => []
    | format => [.diff]
    | languages => []
  own ++ [.config, .verbose, .help]

inductive Operand
  | none
  | text
  | path
  deriving DecidableEq

def Verb.operand : Verb → Operand
  | check => .path
  | identify => .none
  | selector => .text
  | format => .path
  | languages => .none

end MarkupGrader.CommandLine
