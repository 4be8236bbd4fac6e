import MarkupGrader.Text.Basic
import MarkupGrader.Text.Hidden

/-! Quoted form of a text, for showing it exactly. Quotes, backslashes and control characters are
escaped, and so is every character that would not show by itself. -/

namespace MarkupGrader.Text

def hexadecimal (n : Nat) : Text := Nat.toDigits 16 n

def quoteChar (c : Char) : Text :=
  if c = '"' then "\\\""
  else if c = '\\' then "\\\\"
  else if c = '\n' then "\\n"
  else if c = '\r' then "\\r"
  else if c = '\t' then "\\t"
  else if c.toNat = 0 then "\\0"
  else if isHidden c then "\\u\x7b" ++ hexadecimal c.toNat ++ "\x7d"
  else [c]

def quote (t : Text) : Text := "\"" ++ t.flatMap quoteChar ++ "\""

end MarkupGrader.Text
