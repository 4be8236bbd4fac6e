import MarkupGrader.Selector.Reading

/-! A memo of commands that were read before. It keeps failures as well as successes, and when it
is full it is emptied before the next new command goes in. -/

namespace MarkupGrader.Selector

structure Memo where
  entries : List (Text × Except Failure PartialChain)

namespace Memo

def empty : Memo := ⟨[]⟩

def limit : Nat := 256

def size (m : Memo) : Nat := m.entries.length

def read (m : Memo) (command : Text) : Except Failure PartialChain × Memo :=
  match m.entries.lookup command with
  | some reading => (reading, m)
  | none =>
    let kept := if limit ≤ m.size then [] else m.entries
    let reading := readPartial command
    (reading, ⟨(command, reading) :: kept⟩)

end Memo
end MarkupGrader.Selector
