import MarkupGrader.Text.Basic
import MarkupGrader.Selector.Basic

/-! Faults are failures of the checking itself: a module that is absent, broken or misconfigured, a
command that cannot be read. What is wrong with a learner's page is never a fault. Each kind of
fault has a number that is shown in place of its message. -/

namespace MarkupGrader

inductive Operation
  | identify
  | checkSyntax
  | query
  deriving DecidableEq, Repr

def Operation.name : Operation → Text
  | identify => "Identify"
  | checkSyntax => "CheckSyntax"
  | query => "Query"

inductive Fault
  | moduleLoadFailed (language : Text)
  | missingCapacity
  | missingIdentify
  | missingCheckSyntax
  | missingQuery
  | bufferTooSmall (capacity : Nat)
  | encodingConversionFailed (code : UInt16)
  | moduleConfigurationFailed (message : Text)
  | selectorParseFailed (message : Text)
  | moduleFault (operation : Operation) (code : UInt16)
  deriving DecidableEq

namespace Fault

def message : Fault → Text
  | moduleLoadFailed language => "no validation module for language " ++ language
  | missingCapacity => "module does not export a response capacity"
  | missingIdentify => "module does not export Identify"
  | missingCheckSyntax => "module does not export CheckSyntax"
  | missingQuery => "module does not export Query"
  | bufferTooSmall capacity =>
    "response buffer capacity " ++ Text.ofNat capacity ++ " is below the minimum of 2"
  | encodingConversionFailed code =>
    "text encoding conversion failed (code " ++ Text.ofNat code.toNat ++ ")"
  | moduleConfigurationFailed message => "module configuration error: " ++ message
  | selectorParseFailed message => "invalid selector: " ++ message
  | moduleFault operation code =>
    "module " ++ operation.name ++ " failed (code " ++ Text.ofNat code.toNat ++ ")"

def code : Fault → Nat
  | moduleLoadFailed _ => 1
  | missingCapacity => 2
  | missingIdentify => 3
  | missingCheckSyntax => 4
  | missingQuery => 5
  | encodingConversionFailed _ => 6
  | bufferTooSmall _ => 7
  | moduleConfigurationFailed _ => 8
  | selectorParseFailed _ => 9
  | moduleFault _ _ => 10

def ofSelector (failure : Selector.Failure) : Fault := .selectorParseFailed failure.message

end Fault
end MarkupGrader
