import MarkupGrader.Fault

/-! Only a number crosses the boundary in place of a fault. A code is written when reading it back
gives the same kind of fault, and every other fault is written as an internal one. -/

namespace MarkupGrader.ErrorCode

def configuration : UInt16 := 1

def selector : UInt16 := 2

def breakdown : UInt16 := 3

def internal : UInt16 := 4

/-- Codes of a failed conversion of text: invalid, out of range, cut short. -/
def isMarshaling (code : UInt16) : Bool := code == 22 || code == 34 || code == 80

def isFault (code : UInt16) : Bool :=
  !(code == 0 || code == configuration || code == selector) && !isMarshaling code

def ofFault : Fault → UInt16
  | .moduleConfigurationFailed _ => configuration
  | .selectorParseFailed _ => selector
  | .encodingConversionFailed code => if isMarshaling code then code else internal
  | .moduleFault _ code => if isFault code then code else internal
  | _ => internal

def toFault (operation : Operation) (code : UInt16) : Fault :=
  if isMarshaling code then .encodingConversionFailed code
  else if code = configuration then
    .moduleConfigurationFailed (operation.name ++ " rejected a parser option")
  else if code = selector then
    .selectorParseFailed (operation.name ++ " could not parse the selector chain")
  else .moduleFault operation code

end MarkupGrader.ErrorCode
