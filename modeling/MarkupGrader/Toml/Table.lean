import MarkupGrader.Toml.Scalar
import MarkupGrader.Toml.Statement

/-! The contents of a TOML text. A table keeps its entries in the order in which they were
completed, and with each item the byte at which it begins. A table that was only named on the way to
another one begins nowhere. -/

namespace MarkupGrader.Toml

structure Key where
  start : Nat
  name : Text
  deriving DecidableEq

/-- How a table came about: by a header, on the way of a header to a table in it, on the way of a
dotted key, or between braces. -/
inductive Origin
  | header
  | implicit
  | dotted
  | inline
  deriving DecidableEq

inductive Item
  | scalar (start : Nat) (value : Scalar)
  | array (start : Nat) (items : List Item)
  | table (start : Option Nat) (origin : Origin) (entries : List (Key × Item))
  /-- The tables of one or more headers with double brackets. -/
  | tables (elements : List (Nat × List (Key × Item)))

abbrev Entries := List (Key × Item)

namespace Item

def start? : Item → Option Nat
  | scalar start _ => some start
  | array start _ => some start
  | table start _ _ => start
  | tables elements => elements.head?.map Prod.fst

end Item

namespace Entries

def get? (name : Text) (es : Entries) : Option Item :=
  (es.find? fun entry => entry.1.name == name).map Prod.snd

def set (name : Text) (item : Item) (es : Entries) : Entries :=
  es.map fun (k, old) => if k.name = name then (k, item) else (k, old)

def erase (name : Text) (es : Entries) : Entries := es.filter fun entry => entry.1.name != name

/-- Changes the entries of the table at a path, and makes the tables that are missing on the way.
The path leads into the last table of an array of tables. A dotted path does not lead into a table
with a header of its own, and no path leads into a value. -/
def change {α : Type} (isDotted : Bool) (f : Origin → Entries → Except Nat (α × Entries)) :
    List Key → Origin → Entries → Except Nat (α × Entries)
  | [], origin, es => f origin es
  | k :: path, _, es =>
    match get? k.name es with
    | none => do
      let origin : Origin := if isDotted then .dotted else .implicit
      let (a, inner) ← change isDotted f path origin []
      .ok (a, es ++ [(k, .table none origin inner)])
    | some (.table start origin inner) =>
      if origin = .inline ∨ (isDotted = true ∧ origin = .header) then .error k.start
      else do
        let (a, inner) ← change isDotted f path origin inner
        .ok (a, set k.name (.table start origin inner) es)
    | some (.tables elements) =>
      match elements.getLast? with
      | none => .error k.start
      | some (start, inner) => do
        let (a, inner) ← change isDotted f path .header inner
        .ok (a, set k.name (.tables (elements.dropLast ++ [(start, inner)])) es)
    | some _ => .error k.start

def addPair (es : Entries) (path : List Key) (k : Key) (item : Item) : Except Nat Entries :=
  (change true (fun origin inner =>
    if (!path.isEmpty && origin != .dotted) || (get? k.name inner).isSome then .error k.start
    else .ok ((), inner ++ [(k, item)])) path .header es).map Prod.snd

/-- Takes out the table that a header with single brackets names. The table may have been named on
the way to another one before, but not have been given. -/
def openTable (es : Entries) (path : List Key) (k : Key) : Except Nat (Entries × Entries) :=
  change false (fun _ inner =>
    match get? k.name inner with
    | none => .ok ([], inner)
    | some (.table _ .implicit old) => .ok (old, erase k.name inner)
    | some _ => .error k.start) path .header es

def closeTable (es : Entries) (path : List Key) (k : Key) (start : Nat) (body : Entries) :
    Except Nat Entries :=
  (change false (fun _ inner =>
    .ok ((), erase k.name inner ++ [(k, .table (some start) .header body)])) path .header es).map
      Prod.snd

/-- Adds a table to an array of tables, which may be a new one. -/
def appendTable (es : Entries) (path : List Key) (k : Key) (start : Nat) (body : Entries) :
    Except Nat Entries :=
  (change false (fun _ inner =>
    match get? k.name inner with
    | none => .ok ((), inner ++ [(k, .tables [(start, body)])])
    | some (.tables elements) =>
      .ok ((), set k.name (.tables (elements ++ [(start, body)])) inner)
    | some _ => .error k.start) path .header es).map Prod.snd

end Entries

def decodeKeyAt (t : Token) : Except Nat Key := (decodeKey t).map fun name => ⟨t.start, name⟩

/-- The decoded keys of a path: those on the way, and the last. -/
def decodePath (keys : List Token) : Except Nat (List Key × Key) := do
  let keys ← keys.mapM decodeKeyAt
  match keys.getLast? with
  | some last => .ok (keys.dropLast, last)
  | none => .error 0

mutual

def decodeValue : RawValue → Except Nat Item
  | .scalar t => (decodeScalar t).map (.scalar t.start)
  | .array start items => (decodeItems items).map (.array start)
  | .inline start pairs => (decodePairs pairs []).map (.table (some start) .inline)

def decodeItems : List RawValue → Except Nat (List Item)
  | [] => .ok []
  | v :: rest => do
    let item ← decodeValue v
    let items ← decodeItems rest
    .ok (item :: items)

def decodePairs : List (List Token × RawValue) → Entries → Except Nat Entries
  | [], es => .ok es
  | (keys, v) :: rest, es => do
    let (path, k) ← decodePath keys
    let item ← decodeValue v
    let es ← es.addPair path k item
    decodePairs rest es

end

def decodeBody : List Statement → Entries → Except Nat Entries
  | .pair keys v :: rest, es => do
    let es ← decodePairs [(keys, v)] es
    decodeBody rest es
  | _, es => .ok es

/-- Adds the tables of the statements to the entries of the whole text. -/
def decodeTables : List Statement → Entries → Except Nat Entries
  | [], root => .ok root
  | .pair _ _ :: rest, root => decodeTables rest root
  | .header start isArray keys :: rest, root => do
    let (path, k) ← decodePath keys
    if isArray then
      let body ← decodeBody rest []
      let root ← root.appendTable path k start body
      decodeTables rest root
    else
      let (old, root) ← root.openTable path k
      let body ← decodeBody rest old
      let root ← root.closeTable path k start body
      decodeTables rest root

/-- The first line break or comment that is not written as it should be. -/
def badBlank? : List Token → Option Nat
  | [] => none
  | t :: rest =>
    match t.kind with
    | .newline => if t.text = ['\r'] then some t.start else badBlank? rest
    | .comment => if t.text.any isControl then some t.start else badBlank? rest
    | _ => badBlank? rest

def maxDepth : Nat := 80

/-- The first bracket that is nested too deep, when `depth` of them are open. -/
def tooDeep? (depth : Nat) : List Token → Option Nat
  | [] => none
  | t :: rest =>
    match t.kind with
    | .leftBracket | .leftBrace =>
      if depth < maxDepth then tooDeep? (depth + 1) rest else some t.start
    | .rightBracket | .rightBrace => tooDeep? (depth - 1) rest
    | _ => tooDeep? depth rest

def dropMark (t : Text) : Nat × Text :=
  let mark := Char.ofNat 0xFEFF
  if t.head? = some mark then (mark.utf8Size, t.tail) else (0, t)

/-- Reads a TOML text, or gives the byte at which it is not TOML. A byte order mark in front is
passed over. What is wrong with the form of any line comes before what is wrong with its content. -/
def parse (t : Text) : Except Nat Entries := do
  let (start, t) := dropMark t
  let ts := (tokens start t).filter fun token => token.kind != .blank
  let stop := start + Text.byteLength t
  let read := statements stop (2 * ts.length + 2) ts
  let formFault? : Option Nat := match read with
    | .error e => some e
    | .ok _ => none
  match ([formFault?, badBlank? ts, tooDeep? 0 ts].filterMap id).min? with
  | some e => .error e
  | none => do
    let statements ← read
    let root ← decodeBody statements []
    decodeTables statements root

end MarkupGrader.Toml
