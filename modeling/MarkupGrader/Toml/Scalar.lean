import MarkupGrader.Toml.Token

/-! Decoding of the keys and scalar values of a TOML text. What is not written as it should be is
refused with the byte at which that shows. Of numbers with a fraction and of dates only the form is
checked. -/

namespace MarkupGrader.Toml

inductive Scalar
  | string (t : Text)
  | integer (n : Int)
  | float
  | boolean (b : Bool)
  | datetime
  deriving DecidableEq

def isControl (c : Char) : Bool := (c.toNat < 0x20 && c != '\t') || c.toNat == 0x7F

def hexValue? (c : Char) : Option Nat :=
  if c.isDigit then some (c.toNat - '0'.toNat)
  else if 'a'.toNat ≤ c.toNat ∧ c.toNat ≤ 'f'.toNat then some (c.toNat - 'a'.toNat + 10)
  else if 'A'.toNat ≤ c.toNat ∧ c.toNat ≤ 'F'.toNat then some (c.toNat - 'A'.toNat + 10)
  else none

def hexChar? (digits : Text) : Option Char := do
  let n ← digits.foldlM (fun n c => (hexValue? c).map (16 * n + ·)) 0
  if n < 0xD800 ∨ (0xE000 ≤ n ∧ n < 0x110000) then some (Char.ofNat n) else none

def simpleEscape? (c : Char) : Option Char :=
  if c = 'b' then some (Char.ofNat 0x08)
  else if c = 't' then some '\t'
  else if c = 'n' then some '\n'
  else if c = 'f' then some (Char.ofNat 0x0C)
  else if c = 'r' then some '\r'
  else if c = 'e' then some (Char.ofNat 0x1B)
  else if c = '"' then some '"'
  else if c = '\\' then some '\\'
  else none

def hexDigitsOf (c : Char) : Nat :=
  if c = 'x' then 2 else if c = 'u' then 4 else if c = 'U' then 8 else 0

/-- The character of an escape sequence behind its backslash, and the length of the sequence. -/
def escape? : Text → Option (Char × Nat)
  | [] => none
  | c :: rest =>
    match simpleEscape? c with
    | some d => some (d, 1)
    | none =>
      let n := hexDigitsOf c
      if n = 0 ∨ rest.length < n then none
      else (hexChar? (rest.take n)).map fun d => (d, 1 + n)

def endsLine (t : Text) : Bool :=
  let rest := t.dropWhile isBlankChar
  rest.head? == some '\n' || (Text.after? "\r\n" rest).isSome

/-- Decodes the content of a string with escapes, which begins at byte `start`. The first `skip`
characters belong to an escape sequence already decoded; white space is passed over if `trimming`.
Line breaks are allowed if `long`. -/
def decodeEscaped (long : Bool) (start skip : Nat) (trimming : Bool) : Text → Except Nat Text
  | [] => .ok []
  | c :: rest =>
    let next := start + c.utf8Size
    if 0 < skip then decodeEscaped long next (skip - 1) trimming rest
    else if trimming && (isBlankChar c || c == '\n' || (c == '\r' && rest.head? == some '\n')) then
      decodeEscaped long next 0 true rest
    else if c = '\\' then
      match escape? rest with
      | some (d, length) => (decodeEscaped long next length false rest).map (d :: ·)
      | none =>
        if long && endsLine rest then decodeEscaped long next 0 true rest else .error start
    else if long && (c == '\n' || (c == '\r' && rest.head? == some '\n')) then
      (decodeEscaped long next 0 false rest).map (c :: ·)
    else if isControl c then .error start
    else (decodeEscaped long next 0 false rest).map (c :: ·)

def decodeLiteral (long : Bool) (start : Nat) : Text → Except Nat Text
  | [] => .ok []
  | c :: rest =>
    let next := start + c.utf8Size
    if long && (c == '\n' || (c == '\r' && rest.head? == some '\n')) then
      (decodeLiteral long next rest).map (c :: ·)
    else if isControl c then .error start
    else (decodeLiteral long next rest).map (c :: ·)

/-- The content between quotes, or the byte at which the closing ones are missing. -/
def unquoted (quotes : Text) (t : Token) : Except Nat (Nat × Text) :=
  match (Text.after? quotes t.text).bind (Text.before? quotes) with
  | some inner => .ok (t.start + quotes.length, inner)
  | none => .error t.stop

def dropFirstBreak (start : Nat) (t : Text) : Nat × Text :=
  match Text.after? "\n" t, Text.after? "\r\n" t with
  | some rest, _ => (start + 1, rest)
  | none, some rest => (start + 2, rest)
  | none, none => (start, t)

def decodeString (t : Token) : Except Nat Text :=
  match t.kind with
  | .basicString => do
    let (start, inner) ← unquoted "\"" t
    decodeEscaped false start 0 false inner
  | .longBasicString => do
    let (start, inner) ← unquoted "\"\"\"" t
    let (start, inner) := dropFirstBreak start inner
    decodeEscaped true start 0 false inner
  | .literalString => do
    let (start, inner) ← unquoted "'" t
    decodeLiteral false start inner
  | .longLiteralString => do
    let (start, inner) ← unquoted "'''" t
    let (start, inner) := dropFirstBreak start inner
    decodeLiteral true start inner
  | _ => .error t.start

def isBareKeyChar (c : Char) : Bool := c.isAlphanum || c == '-' || c == '_'

def decodeKey (t : Token) : Except Nat Text :=
  match t.kind with
  | .atom =>
    if t.text.isEmpty then .error t.start
    else if t.text.all isBareKeyChar then .ok t.text
    else .error (t.start + Text.byteLength (t.text.takeWhile isBareKeyChar))
  | .basicString | .literalString => decodeString t
  | _ => .error t.start

/-- The digits of a number in which single underscores may stand between digits. -/
def digits? (isDigit : Char → Bool) (t : Text) : Option Text :=
  let separated := t.head? != some '_' && t.getLast? != some '_' &&
    (t.zip t.tail).all fun pair => !(pair == ('_', '_'))
  let digits := t.filter (· != '_')
  if separated && !digits.isEmpty && digits.all isDigit then some digits else none

def valueIn (base : Nat) (digits : Text) : Nat :=
  digits.foldl (fun n c => base * n + (hexValue? c).getD 0) 0

def splitSign : Text → Bool × Text
  | '-' :: rest => (true, rest)
  | '+' :: rest => (false, rest)
  | t => (false, t)

def decimal? (t : Text) : Option Text :=
  (digits? Char.isDigit t).bind fun digits =>
    if t.head? = some '0' ∧ 1 < t.length then none else some digits

def isBelow (base : Nat) (c : Char) : Bool := (hexValue? c).any (· < base)

def minInteger : Int := -9223372036854775808

def maxInteger : Int := 9223372036854775807

/-- Signed integers of 64 bits, in decimal or, without a sign, in another base. -/
def integer? (t : Text) : Option Int :=
  let based (base : Nat) (rest : Text) : Option Int :=
    (digits? (isBelow base) rest).map fun digits => (valueIn base digits : Int)
  let n : Option Int :=
    match t with
    | '0' :: 'x' :: rest => based 16 rest
    | '0' :: 'o' :: rest => based 8 rest
    | '0' :: 'b' :: rest => based 2 rest
    | t =>
      let (negative, rest) := splitSign t
      (decimal? rest).map fun digits =>
        let n : Int := valueIn 10 digits
        if negative then -n else n
  n.filter fun n => decide (minInteger ≤ n) && decide (n ≤ maxInteger)

def exponent? (t : Text) : Option Int :=
  let (negative, rest) := splitSign t
  (digits? Char.isDigit rest).map fun digits =>
    let n : Int := valueIn 10 digits
    if negative then -n else n

/-- The least number that is rounded to infinity instead of to the largest double. -/
def doubleLimit : Nat := (Nat.pow 2 54 - 1) * Nat.pow 2 970

/-- Whether a number with the digits `whole`, a point, and the digits `fraction` is too large when
it is multiplied by a power of ten. -/
def exceedsDouble (whole fraction : Text) (exponent : Int) : Bool :=
  let digits := (whole ++ fraction).dropWhile (· == '0')
  let scale : Int := exponent - fraction.length
  let magnitude : Int := digits.length + scale
  if digits.isEmpty || magnitude < 309 then false
  else if 309 < magnitude then true
  else if 0 ≤ scale then doubleLimit ≤ valueIn 10 digits * Nat.pow 10 scale.toNat
  else doubleLimit * Nat.pow 10 (-scale).toNat ≤ valueIn 10 digits

/-- The digits of a number in front of and behind its point, where there is one. -/
def mantissa? (t : Text) : Option (Text × Option Text) :=
  match Text.splitFirst? (· == '.') t with
  | some (whole, fraction) => do
    let whole ← decimal? whole
    let fraction ← digits? Char.isDigit fraction
    some (whole, some fraction)
  | none => (decimal? t).map fun whole => (whole, none)

def isFloat (t : Text) : Bool :=
  let t := (splitSign t).2
  if t = "inf" ∨ t = "nan" then true
  else
    match Text.splitFirst? (fun c => c == 'e' || c == 'E') t with
    | some (mantissa, exponent) =>
      match mantissa? mantissa, exponent? exponent with
      | some (whole, fraction), some n => !exceedsDouble whole (fraction.getD []) n
      | _, _ => false
    | none =>
      match mantissa? t with
      | some (whole, some fraction) => !exceedsDouble whole fraction 0
      | _ => false

/-- The number written with exactly `n` digits at the beginning, and the rest. -/
def fixed? (n : Nat) (t : Text) : Option (Nat × Text) :=
  let front := t.take n
  if front.length = n ∧ front.all Char.isDigit then some (valueIn 10 front, t.drop n) else none

def daysIn (year month : Nat) : Nat :=
  if month = 2 then
    if year % 4 = 0 ∧ (year % 100 ≠ 0 ∨ year % 400 = 0) then 29 else 28
  else if month = 4 ∨ month = 6 ∨ month = 9 ∨ month = 11 then 30
  else 31

def date? (t : Text) : Option Text := do
  let (year, t) ← fixed? 4 t
  let t ← Text.after? "-" t
  let (month, t) ← fixed? 2 t
  let t ← Text.after? "-" t
  let (day, t) ← fixed? 2 t
  if 1 ≤ month ∧ month ≤ 12 ∧ 1 ≤ day ∧ day ≤ daysIn year month then some t else none

def fraction? (t : Text) : Option Text :=
  match t with
  | '.' :: rest =>
    let left := rest.dropWhile Char.isDigit
    if left.length < rest.length then some left else none
  | t => some t

def time? (t : Text) : Option Text := do
  let (hour, t) ← fixed? 2 t
  let t ← Text.after? ":" t
  let (minute, t) ← fixed? 2 t
  if hour ≤ 23 ∧ minute ≤ 59 then
    match Text.after? ":" t with
    | some t => do
      let (second, t) ← fixed? 2 t
      if second ≤ 60 then fraction? t else none
    | none => some t
  else none

def isZone (t : Text) : Bool :=
  match t with
  | [] => true
  | ['Z'] => true
  | ['z'] => true
  | c :: rest =>
    (c == '+' || c == '-') &&
      (do
        let (hour, t) ← fixed? 2 rest
        let t ← Text.after? ":" t
        let (minute, t) ← fixed? 2 t
        some (hour ≤ 23 && minute ≤ 59 && t.isEmpty)).getD false

def isDatetime (t : Text) : Bool :=
  match date? t with
  | some [] => true
  | some (c :: rest) => (c == 'T' || c == 't' || c == ' ') && (time? rest).any isZone
  | none => (time? t).any List.isEmpty

def decodeScalar (t : Token) : Except Nat Scalar :=
  if t.isString then (decodeString t).map .string
  else if t.text = "true" then .ok (.boolean true)
  else if t.text = "false" then .ok (.boolean false)
  else
    match integer? t.text with
    | some n => .ok (.integer n)
    | none =>
      if isFloat t.text then .ok .float
      else if isDatetime t.text then .ok .datetime
      else .error t.start

end MarkupGrader.Toml
