import Conformance.Text.Template
import Conformance.Ty.Variance

/-!
# Wordings

Every message of the checks, with named places for the values it speaks of.
-/

namespace Conformance

/-- What a message says. -/
inductive Wording
  | memberMissing
  | memberNotClassVar
  | memberMismatch
  | memberInvariant
  | memberFinalInProtocol
  | memberNotFinalInProtocol
  | mismatch
  | unsolvable
  | argumentMismatch
  | parameterMismatch
  | parameterName
  | extraParameter
  | defaultMissing
  | tooFewParameters
  | argsMissing
  | kwargsMissing
  | returnMismatch
  | noOverload
  | getterMissing
  | setterMissing
  | deleterMissing
  | accessorMismatch
  | incompatible
  | protocolIncompatible
  | moduleIncompatible
  | shouldBe (expected : Variance)
deriving DecidableEq, Repr

namespace Wording

open Template (hole)

private def quoted (name : String) : String := "\"" ++ hole name ++ "\""

def text : Wording → String
  | memberMissing => quoted "name" ++ " is not present"
  | memberNotClassVar => quoted "name" ++ " is not a class variable"
  | memberMismatch => quoted "name" ++ " is an incompatible type"
  | memberInvariant => quoted "name" ++ " is invariant because it is mutable"
  | memberFinalInProtocol => quoted "name" ++ " is marked Final in protocol"
  | memberNotFinalInProtocol => quoted "name" ++ " is not marked Final in protocol"
  | mismatch =>
    "Type " ++ quoted "sourceType" ++ " cannot be assigned to type " ++ quoted "destType"
  | unsolvable =>
    "Type " ++ quoted "sourceType" ++ " is incompatible with type variable " ++ quoted "name" ++
      " (currently " ++ quoted "destType" ++ ")"
  | argumentMismatch =>
    "Type parameter " ++ quoted "name" ++ " is " ++ hole "variance" ++ ", but " ++
      quoted "sourceType" ++ " is not compatible with " ++ quoted "destType"
  | parameterMismatch =>
    "Parameter " ++ hole "index" ++ ": type " ++ quoted "sourceType" ++
      " cannot be assigned to type " ++ quoted "destType"
  | parameterName =>
    "Parameter name mismatch: " ++ quoted "destName" ++ " versus " ++ quoted "srcName"
  | extraParameter => "Extra parameter " ++ quoted "name"
  | defaultMissing => "Parameter " ++ quoted "name" ++ " is missing default argument"
  | tooFewParameters =>
    "Function accepts too few positional parameters; expected " ++ hole "expected" ++
      " but received " ++ hole "received"
  | argsMissing => "Parameter \"*" ++ hole "name" ++ "\" has no corresponding parameter"
  | kwargsMissing => "Parameter \"**" ++ hole "name" ++ "\" has no corresponding parameter"
  | returnMismatch =>
    "Function return type " ++ quoted "sourceType" ++ " is incompatible with type " ++
      quoted "destType"
  | noOverload => "No overloaded function matches type " ++ quoted "type"
  | getterMissing => "Property getter method is missing"
  | setterMissing => "Property setter method is missing"
  | deleterMissing => "Property deleter method is missing"
  | accessorMismatch => "Property " ++ hole "accessor" ++ " method is incompatible"
  | incompatible =>
    "Type " ++ quoted "sourceType" ++ " is incompatible with declared type " ++ quoted "destType"
  | protocolIncompatible =>
    quoted "sourceType" ++ " is incompatible with protocol " ++ quoted "destType"
  | moduleIncompatible =>
    "Module " ++ quoted "sourceType" ++ " is incompatible with protocol " ++ quoted "destType"
  | shouldBe expected =>
    "Type variable " ++ quoted "variable" ++ " used in generic protocol " ++ quoted "class" ++
      " should be " ++ expected.name

def template (w : Wording) : Template := ⟨w.text⟩

/-- The message with its values put in. -/
def format (w : Wording) (values : List (String × String)) : String := w.template.format values

end Wording

end Conformance
