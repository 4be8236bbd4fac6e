import MarkupGrader.Text.Bytes

/-! Tokens of a TOML text. Splitting a text into tokens never fails: a string without its closing
quotes goes on to the end of its line, or of the text, and is refused when it is decoded. -/

namespace MarkupGrader.Toml

inductive TokenKind
  | dot
  | equals
  | comma
  | leftBracket
  | rightBracket
  | leftBrace
  | rightBrace
  | blank
  | newline
  | comment
  | basicString
  | literalString
  | longBasicString
  | longLiteralString
  | atom
  deriving DecidableEq, Repr

structure Token where
  kind : TokenKind
  start : Nat
  text : Text
  deriving DecidableEq

namespace Token

def stop (t : Token) : Nat := t.start + Text.byteLength t.text

def isString (t : Token) : Bool :=
  t.kind == .basicString || t.kind == .literalString || t.kind == .longBasicString ||
    t.kind == .longLiteralString

end Token

def isBlankChar (c : Char) : Bool := c == ' ' || c == '\t'

def isLineChar (c : Char) : Bool := !(c == '\n' || c == '\r')

/-- Quotes do not end an atom, so that one in a wrong place is part of what is refused. -/
def isAtomChar (c : Char) : Bool := !(".=,[]\x7b\x7d \t#\r\n".toList.contains c)

/-- The length of a string up to its closing quote or the end of the line. -/
def basicLength : Text → Nat
  | [] => 0
  | '"' :: _ => 1
  | '\n' :: _ => 0
  | '\\' :: '\\' :: rest => 2 + basicLength rest
  | '\\' :: '"' :: rest => 2 + basicLength rest
  | _ :: rest => 1 + basicLength rest

def literalLength : Text → Nat
  | [] => 0
  | '\'' :: _ => 1
  | '\n' :: _ => 0
  | _ :: rest => 1 + literalLength rest

/-- Up to two more quotes directly before the closing three belong to the string. -/
def extraQuotes (quote : Char) (t : Text) : Nat := min 2 (t.takeWhile (· == quote)).length

def longBasicLength : Text → Nat
  | [] => 0
  | '"' :: '"' :: '"' :: rest => 3 + extraQuotes '"' rest
  | '\\' :: '\\' :: rest => 2 + longBasicLength rest
  | '\\' :: '"' :: rest => 2 + longBasicLength rest
  | _ :: rest => 1 + longBasicLength rest

def longLiteralLength : Text → Nat
  | [] => 0
  | '\'' :: '\'' :: '\'' :: rest => 3 + extraQuotes '\'' rest
  | _ :: rest => 1 + longLiteralLength rest

/-- The kind of the token that begins with `c`, and how many more characters it has. -/
def tokenShape (c : Char) (rest : Text) : TokenKind × Nat :=
  if c = '.' then (.dot, 0)
  else if c = '=' then (.equals, 0)
  else if c = ',' then (.comma, 0)
  else if c = '[' then (.leftBracket, 0)
  else if c = ']' then (.rightBracket, 0)
  else if c = '\x7b' then (.leftBrace, 0)
  else if c = '\x7d' then (.rightBrace, 0)
  else if isBlankChar c then (.blank, (rest.takeWhile isBlankChar).length)
  else if c = '#' then (.comment, (rest.takeWhile isLineChar).length)
  else if c = '\n' then (.newline, 0)
  else if c = '\r' then (.newline, if rest.head? = some '\n' then 1 else 0)
  else if c = '"' then
    match Text.after? "\"\"" rest with
    | some inner => (.longBasicString, 2 + longBasicLength inner)
    | none => (.basicString, basicLength rest)
  else if c = '\'' then
    match Text.after? "''" rest with
    | some inner => (.longLiteralString, 2 + longLiteralLength inner)
    | none => (.literalString, literalLength rest)
  else (.atom, (rest.takeWhile isAtomChar).length)

def tokens (start : Nat) : Text → List Token
  | [] => []
  | c :: rest =>
    let (kind, more) := tokenShape c rest
    let token : Token := ⟨kind, start, c :: rest.take more⟩
    token :: tokens token.stop (rest.drop more)
termination_by t => t.length
decreasing_by simp only [List.length_drop, List.length_cons]; omega

end MarkupGrader.Toml
