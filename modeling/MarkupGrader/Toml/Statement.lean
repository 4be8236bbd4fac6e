import MarkupGrader.Toml.Token

/-! Statements of a TOML text: table headers and key-value pairs, with their keys and values not yet
decoded. A text that has not this form is refused with the byte at which reading stopped. A key or a
value that is left out stands as an empty atom in its place, and is refused when it is decoded. -/

namespace MarkupGrader.Toml

inductive RawValue
  | scalar (t : Token)
  | array (start : Nat) (items : List RawValue)
  | inline (start : Nat) (pairs : List (List Token × RawValue))

inductive Statement
  /-- A header with one bracket on each side, or with two for an array of tables. -/
  | header (start : Nat) (isArray : Bool) (keys : List Token)
  | pair (keys : List Token) (value : RawValue)

def absent (start : Nat) : Token := ⟨.atom, start, []⟩

def isKey (t : Token) : Bool := t.isString || t.kind == .atom

def Token.opensDirectlyBehind (t before : Token) : Bool :=
  t.kind == .leftBracket && t.start == before.stop

def Token.closesDirectlyBehind (t before : Token) : Bool :=
  t.kind == .rightBracket && t.start == before.stop

def position (stop : Nat) : List Token → Nat
  | [] => stop
  | t :: _ => t.start

/-- The further parts of a dotted key, and whether the last of them is present. -/
def dotKeys (stop : Nat) : List Token → List Token × Bool × List Token
  | [] => ([], true, [])
  | d :: rest =>
    if d.kind != .dot then ([], true, d :: rest)
    else
      match rest with
      | [] => ([absent stop], false, [])
      | t :: more =>
        if isKey t then
          let (keys, complete, left) := dotKeys stop more
          (t :: keys, complete, left)
        else if t.kind == .dot then
          let (keys, complete, left) := dotKeys stop (t :: more)
          (absent t.start :: keys, complete, left)
        else ([absent t.start], false, t :: more)

def keyPath (stop : Nat) : List Token → List Token × Bool × List Token
  | [] => ([absent stop], false, [])
  | t :: rest =>
    if isKey t then
      let (keys, complete, left) := dotKeys stop rest
      (t :: keys, complete, left)
    else if t.kind == .dot then
      let (keys, complete, left) := dotKeys stop (t :: rest)
      (absent t.start :: keys, complete, left)
    else ([absent t.start], false, t :: rest)

def looksLikeDate (t : Text) : Bool :=
  t.length == 10 && t[4]? == some '-' && t[7]? == some '-'

/-- Joins the atoms and dots that follow without a gap, and a time behind a date. -/
def joinScalar (t : Token) : List Token → Token × List Token
  | [] => (t, [])
  | next :: rest =>
    if (next.kind == .dot || next.kind == .atom) && next.start == t.stop then
      joinScalar ⟨.atom, t.start, t.text ++ next.text⟩ rest
    else if next.kind == .atom && next.start == t.stop + 1 && looksLikeDate t.text &&
        next.text.head?.any Char.isDigit then
      joinScalar ⟨.atom, t.start, t.text ++ ' ' :: next.text⟩ rest
    else (t, next :: rest)

mutual

def rawValue (stop : Nat) : Nat → List Token → Except Nat (RawValue × List Token)
  | 0, ts => .error (position stop ts)
  | _ + 1, [] => .ok (.scalar (absent stop), [])
  | fuel + 1, t :: rest =>
    match t.kind with
    | .comment | .comma | .newline => .ok (.scalar (absent t.start), t :: rest)
    | .leftBracket =>
      (arrayItems stop fuel false rest).map fun (items, left) => (.array t.start items, left)
    | .leftBrace =>
      (inlinePairs stop fuel false rest).map fun (pairs, left) => (.inline t.start pairs, left)
    | .dot | .atom =>
      let (t, left) := joinScalar ⟨.atom, t.start, t.text⟩ rest
      .ok (.scalar t, left)
    | .basicString | .literalString | .longBasicString | .longLiteralString =>
      .ok (.scalar t, rest)
    | .equals | .rightBracket | .rightBrace | .blank => .error t.start

/-- The items up to the closing bracket; `needsComma` if one must come before the next. -/
def arrayItems (stop : Nat) : Nat → Bool → List Token → Except Nat (List RawValue × List Token)
  | 0, _, ts => .error (position stop ts)
  | _ + 1, _, [] => .error stop
  | fuel + 1, needsComma, t :: rest =>
    match t.kind with
    | .comment | .newline => arrayItems stop fuel needsComma rest
    | .rightBracket => .ok ([], rest)
    | .comma => if needsComma then arrayItems stop fuel false rest else .error t.start
    | _ =>
      if needsComma then .error t.start
      else do
        let (item, left) ← rawValue stop fuel (t :: rest)
        let (items, left) ← arrayItems stop fuel true left
        .ok (item :: items, left)

def inlinePairs (stop : Nat) :
    Nat → Bool → List Token → Except Nat (List (List Token × RawValue) × List Token)
  | 0, _, ts => .error (position stop ts)
  | _ + 1, _, [] => .error stop
  | fuel + 1, needsComma, t :: rest =>
    match t.kind with
    | .comment | .newline => inlinePairs stop fuel needsComma rest
    | .rightBrace => .ok ([], rest)
    | .comma => if needsComma then inlinePairs stop fuel false rest else .error t.start
    | _ =>
      if needsComma then .error t.start
      else do
        let (keys, _, left) := keyPath stop (t :: rest)
        match left with
        | ⟨.equals, _, _⟩ :: left =>
          let (value, left) ← rawValue stop fuel left
          let (pairs, left) ← inlinePairs stop fuel true left
          .ok ((keys, value) :: pairs, left)
        | left => .error (position stop left)

end

def endLine (stop : Nat) (ts : List Token) : Except Nat (List Token) :=
  match ts with
  | [] => .ok []
  | t :: rest =>
    match t.kind with
    | .newline => .ok rest
    | .comment => .ok rest
    | _ => .error (position stop ts)

/-- Reads a header behind its first bracket. Where no key stands, the rest of the line does not
matter. -/
def header (stop : Nat) (first : Token) (ts : List Token) : Except Nat (Statement × List Token) :=
  let isArray := ts.head?.any (·.opensDirectlyBehind first)
  let (keys, complete, left) := keyPath stop (if isArray then ts.tail else ts)
  let statement := Statement.header first.start isArray keys
  match left with
  | ⟨.rightBracket, start, text⟩ :: left =>
    let close : Token := ⟨.rightBracket, start, text⟩
    if isArray then
      if left.head?.any (·.closesDirectlyBehind close) then
        (endLine stop left.tail).map fun left => (statement, left)
      else .error close.stop
    else (endLine stop left).map fun left => (statement, left)
  | left =>
    if complete then .error ((keys.getLast?.map Token.stop).getD stop)
    else .ok (statement, left.dropWhile fun t => t.kind != .newline)

def pair (stop fuel : Nat) (keys : List Token) (ts : List Token) :
    Except Nat (Statement × List Token) :=
  match ts with
  | ⟨.equals, _, _⟩ :: rest => do
    let (value, left) ← rawValue stop fuel rest
    let left ← endLine stop left
    .ok (.pair keys value, left)
  | ts => .error (position stop ts)

/-- The statements of a text that ends at byte `stop`, from its tokens without the blanks. -/
def statements (stop : Nat) : Nat → List Token → Except Nat (List Statement)
  | 0, ts => if ts.isEmpty then .ok [] else .error (position stop ts)
  | _ + 1, [] => .ok []
  | fuel + 1, t :: rest =>
    match t.kind with
    | .newline | .comment => statements stop fuel rest
    | .rightBracket | .comma | .leftBrace | .rightBrace | .blank => .error t.start
    | .leftBracket => do
      let (s, left) ← header stop t rest
      let more ← statements stop fuel left
      .ok (s :: more)
    | .equals => do
      let (s, left) ← pair stop fuel [absent t.start] (t :: rest)
      let more ← statements stop fuel left
      .ok (s :: more)
    | _ => do
      let (keys, _, left) := keyPath stop (t :: rest)
      let (s, left) ← pair stop fuel keys left
      let more ← statements stop fuel left
      .ok (s :: more)

end MarkupGrader.Toml
