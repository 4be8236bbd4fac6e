import MarkupGrader.Text.Basic

/-! Values in JSON, and their written form with one item or field on each line. -/

namespace MarkupGrader

inductive Json
  | null
  | bool (b : Bool)
  | number (n : Nat)
  | string (t : Text)
  | array (items : List Json)
  | object (fields : List (Text × Json))

namespace Json

def hexDigits (n : Nat) : Text := [Nat.digitChar (n / 16), Nat.digitChar (n % 16)]

def escapeChar (c : Char) : Text :=
  if c = '"' then "\\\""
  else if c = '\\' then "\\\\"
  else if c = '\n' then "\\n"
  else if c = '\r' then "\\r"
  else if c = '\t' then "\\t"
  else if c.toNat = 0x08 then "\\b"
  else if c.toNat = 0x0C then "\\f"
  else if c.toNat < 0x20 then "\\u00" ++ hexDigits c.toNat
  else [c]

def quote (t : Text) : Text := "\"" ++ t.flatMap escapeChar ++ "\""

def newline (depth : Nat) : Text := "\n" ++ Text.indent 2 depth

def bracket (opening closing : Text) (depth : Nat) (items : List Text) : Text :=
  if items.isEmpty then opening ++ closing
  else
    opening ++ newline (depth + 1) ++ Text.join ("," ++ newline (depth + 1)) items ++
      newline depth ++ closing

mutual

def render (depth : Nat) : Json → Text
  | null => "null"
  | bool b => if b then "true" else "false"
  | number n => Text.ofNat n
  | string t => quote t
  | array items => bracket "[" "]" depth (renderItems (depth + 1) items)
  | object fields => bracket "\x7b" "\x7d" depth (renderFields (depth + 1) fields)

def renderItems (depth : Nat) : List Json → List Text
  | [] => []
  | item :: rest => render depth item :: renderItems depth rest

def renderFields (depth : Nat) : List (Text × Json) → List Text
  | [] => []
  | (name, value) :: rest => (quote name ++ ": " ++ render depth value) :: renderFields depth rest

end

def ofOption {α : Type} (f : α → Json) : Option α → Json
  | none => null
  | some a => f a

end Json
end MarkupGrader
