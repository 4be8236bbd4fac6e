import MarkupGrader.Selector.Basic
import MarkupGrader.Selector.Split
import MarkupGrader.Text.Blank

/-! Reading a `contains` command. Blanks do not count. The levels are read from right to left, and
the first that cannot be read ends the reading; what stands to its right is kept. -/

namespace MarkupGrader.Selector

def keyword : Text := "contains"

/-- What was read of a chain: its innermost selectors, and why the next level could not be read. -/
structure PartialChain where
  selectors : List Selector
  failure : Option Failure
  deriving DecidableEq

namespace PartialChain

def isComplete (p : PartialChain) : Bool := p.failure.isNone && !p.selectors.isEmpty

/-- Under the strict policy the chain must be complete and begin at the head or the body. Under the
lenient one whatever was read is the chain, if that is anything. -/
def toChain (p : PartialChain) : Policy → Except Failure Chain
  | .strict =>
    match p.failure with
    | some failure => .error failure
    | none => do
      let chain ← Chain.ofList p.selectors
      if chain.first.name = "head" ∨ chain.first.name = "body" then .ok chain
      else .error (.invalidAnchor chain.first.name)
  | .lenient =>
    if p.selectors.isEmpty then .error (p.failure.getD .emptyChain)
    else Chain.ofList p.selectors

end PartialChain

/-- The name and the value of a predicate. The value lies between the first and the last quote. -/
def readPredicate (piece predicate : Text) : Except Failure (Text × Text) :=
  match Text.splitFirst? (· = '=') predicate with
  | none => .error (.missingEquals piece predicate)
  | some (key, rest) =>
    if key.isEmpty then .error (.missingAttributeName piece predicate)
    else
      match (Text.splitFirst? (· = '"') rest).bind fun (_, tail) =>
          Text.splitLast? (· = '"') tail with
      | none => .error (.unquotedValue piece predicate)
      | some (value, _) => .ok (key, value)

/-- The element name and the text inside the parentheses, if the level has any. -/
def splitLevel (piece : Text) : Except Failure (Text × Option Text) :=
  match Text.splitFirst? (· = '(') piece with
  | none =>
    if ')' ∈ piece then .error (.unbalancedParens piece) else .ok (piece, none)
  | some (name, rest) =>
    match Text.before? ")" rest with
    | none => .error (.unbalancedParens piece)
    | some inner => .ok (name, some inner)

/-- Adds the predicates from left to right, up to the first that cannot be read. -/
def addPredicates (piece : Text) : List Text → Selector → Except Failure Selector
  | [], s => .ok s
  | p :: more, s => do
    let (key, value) ← readPredicate piece p
    addPredicates piece more (s.withAttribute key value)

def readLevel (piece : Text) : Except Failure Selector := do
  let (name, inner) ← splitLevel piece
  if name.isEmpty then .error (.missingName piece)
  else
    match inner with
    | none => .ok (named name)
    | some inner =>
      if inner.isEmpty then .ok (named name)
      else addPredicates piece (predicates inner) (named name)

def readLevels : List Text → List Selector → PartialChain
  | [], read => ⟨read, none⟩
  | piece :: more, read =>
    match readLevel piece with
    | .ok s => readLevels more (s :: read)
    | .error failure => ⟨read, some failure⟩

def withoutParens (t : Text) : Text :=
  ((Text.after? "(" t).bind (Text.before? ")")).getD t

def readParameters (parameters : Text) : PartialChain :=
  if parameters.isEmpty then ⟨[], some .emptyChain⟩
  else readLevels (levels parameters) []

def readPartial (command : Text) : Except Failure PartialChain :=
  match Text.after? keyword command with
  | none => .error (.missingKeyword command)
  | some rest => .ok (readParameters (withoutParens (Text.dropBlanks rest)))

def Chain.read (command : Text) (policy : Policy) : Except Failure Chain :=
  readPartial command >>= fun p => p.toChain policy

end MarkupGrader.Selector
