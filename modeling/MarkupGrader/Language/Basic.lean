import MarkupGrader.Text.Quoted

/-! A language as lessons refer to it: an id and a display name. Two languages are the same if the
ids are equal and the names differ at most in case. -/

namespace MarkupGrader

structure Language where
  id : Text
  name : Text
  deriving DecidableEq

namespace Language

def isCalled (l : Language) (id name : Text) : Bool := l.id == id && Text.sameName l.name name

def same (a b : Language) : Bool := a.isCalled b.id b.name

def key (l : Language) : Text × Text := (l.id, l.name.lower)

theorem same_iff {a b : Language} : a.same b = true ↔ a.key = b.key := by
  simp [same, isCalled, key, Text.sameName]

/-- Hands a language to a hasher, which takes in one text after the other. -/
def feed {S : Type} (write : S → Text → S) (l : Language) (s : S) : S :=
  write (write s l.id) l.name.lower

def display (l : Language) : Text := l.name ++ " (" ++ l.id ++ ")"

def describe (l : Language) : Text :=
  "LanguageKey \x7b id: " ++ Text.quote l.id ++ ", name: " ++ Text.quote l.name ++ " \x7d"

end Language
end MarkupGrader
