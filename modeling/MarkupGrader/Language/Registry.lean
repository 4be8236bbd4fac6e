import MarkupGrader.Boundary.Exports
import MarkupGrader.Grader
import MarkupGrader.Language.Basic

/-! The registry knows which module serves which language. A module is loaded anew each time it is
resolved; what loading depends on and may change is a world of any type `σ`. Registering a language
again replaces its entry and puts it last. -/

namespace MarkupGrader

abbrev Loader (σ : Type) := σ → Except Fault Exports × σ

structure Registration (σ : Type) where
  language : Language
  module : Text
  loader : Loader σ

structure Registry (σ : Type) where
  entries : List (Registration σ)

namespace Registry

variable {σ : Type}

def empty : Registry σ := ⟨[]⟩

def register (r : Registry σ) (e : Registration σ) : Registry σ :=
  ⟨r.entries.filter (fun old => !old.language.same e.language) ++ [e]⟩

def find? (r : Registry σ) (id name : Text) : Option (Registration σ) :=
  r.entries.find? (·.language.isCalled id name)

def resolve (r : Registry σ) (id name : Text) : Loader σ :=
  match r.find? id name with
  | some e => e.loader
  | none => fun w => (.error (.moduleLoadFailed name), w)

def languages (r : Registry σ) : List (Language × Text) :=
  r.entries.map fun e => (e.language, e.module)

def findByName (r : Registry σ) (name : Text) : Option Language :=
  (r.entries.map (·.language)).find? (Text.sameName ·.name name)

def describe (r : Registry σ) : Text :=
  "[" ++ Text.join ", " (r.entries.map fun e =>
    "(" ++ e.language.describe ++ ", " ++ Text.quote e.module ++ ")") ++ "]"

def htmlModule : Text := "html"

def htmlLanguage : Language := ⟨"1", "HTML"⟩

def htmlLoader (g : Grader) : Loader σ := fun w =>
  (.ok (.ofValidator g.validator g.options.responseCapacity), w)

def builtinLoader? (module : Text) (g : Grader) : Option (Loader σ) :=
  if module = htmlModule then some (htmlLoader g) else none

def withBuiltins (g : Grader) : Registry σ :=
  empty.register ⟨htmlLanguage, htmlModule, htmlLoader g⟩

end Registry
end MarkupGrader
