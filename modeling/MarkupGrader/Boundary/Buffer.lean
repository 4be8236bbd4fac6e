import MarkupGrader.Text.Units

/-! A response buffer is a fixed number of UTF-16 units that a module overwrites in place. It holds
a text that ends before the first zero, or a zero followed by an error code, where code zero says
that nothing was written. A buffer of fewer than two units can hold no response; a call on it is
refused, and a single unit is then set to the digit zero. -/

namespace MarkupGrader

abbrev Buffer := List UInt16

inductive Response
  | text (t : Text)
  | error (code : UInt16)
  | refused
  | empty
  deriving DecidableEq

namespace Buffer

def minimumCapacity : Nat := 2

def refusalUnit : UInt16 := 48

def noResponse : UInt16 := 0

def invalidText : UInt16 := 22

def ofCapacity (capacity : Nat) : Buffer := List.replicate capacity 0

def hasRoom (b : Buffer) : Bool := minimumCapacity ≤ b.length

def overwrite (b : Buffer) (units : Text.Units) : Buffer :=
  units.take b.length ++ b.drop units.length

@[simp] theorem length_overwrite (b : Buffer) (units : Text.Units) :
    (b.overwrite units).length = b.length := by
  simp [overwrite]; omega

def refuse (b : Buffer) : Buffer := b.overwrite [refusalUnit]

def refuseIfSmall (b : Buffer) : Buffer := if b.hasRoom then b else b.refuse

def putCode (code : UInt16) (b : Buffer) : Buffer :=
  if b.hasRoom then b.overwrite [0, code] else b.refuse

@[simp] theorem length_putCode (code : UInt16) (b : Buffer) :
    (b.putCode code).length = b.length := by
  unfold putCode; split <;> simp [refuse]

def fitting (room : Nat) : Text → Text
  | [] => []
  | c :: rest =>
    let size := (Text.charUnits c).length
    if size ≤ room then c :: fitting (room - size) rest else []

/-- Writes as much of a text as leaves room for the zero behind it. -/
def putText (t : Text) (b : Buffer) : Buffer :=
  if b.hasRoom then
    if t.isEmpty then b.putCode noResponse
    else b.overwrite (Text.toUnits (fitting (b.length - 1) t) ++ [0])
  else b.refuse

@[simp] theorem length_putText (t : Text) (b : Buffer) : (b.putText t).length = b.length := by
  unfold putText; split
  · split <;> simp
  · simp [refuse]

def textOf (units : Text.Units) : Except UInt16 Text :=
  match Text.ofUnits? (units.takeWhile (· != 0)) with
  | some t => .ok t
  | none => .error invalidText

def response (b : Buffer) : Response :=
  match b with
  | first :: second :: _ =>
    if first = 0 then
      if second = noResponse then .empty else .error second
    else
      match textOf b with
      | .ok t => .text t
      | .error code => .error code
  | _ => .refused

end Buffer
end MarkupGrader
