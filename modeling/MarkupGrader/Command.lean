import MarkupGrader.Selector.Reading

/-! A query is a command text. One exact word asks for the style check, and every text that begins
with the selector keyword asks for an element. -/

namespace MarkupGrader

inductive Command
  | styleCheck
  /-- The whole text, with its keyword. -/
  | contains (text : Text)
  | other (text : Text)
  deriving DecidableEq

namespace Command

def styleWord : Text := "StyleCheck"

def ofText (t : Text) : Command :=
  if t = styleWord then .styleCheck
  else if t.startsWith Selector.keyword then .contains t
  else .other t

end Command
end MarkupGrader
