import MarkupGrader.Boundary.Buffer
import MarkupGrader.Boundary.ErrorCode
import MarkupGrader.Validator

/-! The table of symbols that a module publishes: the capacity it wants for its responses and one
entry point for each operation. An entry point takes its texts as units and overwrites a buffer. -/

namespace MarkupGrader

inductive Symbol
  | capacity (n : Nat)
  | identify (entry : Buffer → Buffer)
  | checkSyntax (entry : Text.Units → Buffer → Buffer)
  | query (entry : Text.Units → Text.Units → Buffer → Buffer)

def Symbol.display : Symbol → Text
  | capacity n => "Capacity(" ++ Text.ofNat n ++ ")"
  | identify _ => "Identify(..)"
  | checkSyntax _ => "CheckSyntax(..)"
  | query _ => "Query(..)"

structure Exports where
  symbols : List (Text × Symbol)

namespace Exports

def capacityName : Text := "respBufSize"

def empty : Exports := ⟨[]⟩

def erase (e : Exports) (name : Text) : Exports := ⟨e.symbols.filter (·.1 != name)⟩

def insert (e : Exports) (name : Text) (symbol : Symbol) : Exports :=
  ⟨(name, symbol) :: (e.erase name).symbols⟩

def get? (e : Exports) (name : Text) : Option Symbol := e.symbols.lookup name

def capacity? (e : Exports) : Option Nat :=
  match e.get? capacityName with
  | some (.capacity n) => some n
  | _ => none

def identify? (e : Exports) : Option (Buffer → Buffer) :=
  match e.get? Operation.identify.name with
  | some (.identify entry) => some entry
  | _ => none

def checkSyntax? (e : Exports) : Option (Text.Units → Buffer → Buffer) :=
  match e.get? Operation.checkSyntax.name with
  | some (.checkSyntax entry) => some entry
  | _ => none

def query? (e : Exports) : Option (Text.Units → Text.Units → Buffer → Buffer) :=
  match e.get? Operation.query.name with
  | some (.query entry) => some entry
  | _ => none

def respond {α : Type} (render : α → Text) (b : Buffer) : Reply α → Buffer
  | .answer a => b.putText (render a)
  | .fault f => b.putCode (ErrorCode.ofFault f)
  | .breakdown => b.putCode ErrorCode.breakdown

/-- Hands on the text that was read, or writes the code of its failure. -/
def withText (units : Text.Units) (b : Buffer) (use : Text → Buffer) : Buffer :=
  match Buffer.textOf units with
  | .ok t => use t
  | .error code => b.putCode code

def ofValidator (v : Validator) (capacity : Nat) : Exports :=
  empty
    |>.insert capacityName (.capacity capacity)
    |>.insert Operation.identify.name (.identify fun b =>
      if b.hasRoom then respond id b v.identify else b.refuse)
    |>.insert Operation.checkSyntax.name (.checkSyntax fun code b =>
      if b.hasRoom then
        withText code b fun code => respond Outcome.toResponse b (v.checkSyntax code)
      else b.refuse)
    |>.insert Operation.query.name (.query fun code command b =>
      if b.hasRoom then
        withText code b fun code => withText command b fun command =>
          respond Outcome.toResponse b (v.query code command)
      else b.refuse)

end Exports
end MarkupGrader
