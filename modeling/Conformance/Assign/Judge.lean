import Conformance.Assign.Check

/-!
# Judges

The comparisons of types call each other, and each call of the outermost ones goes one level down.
The parts of a comparison are written against a judge, which answers the calls one level down.
-/

namespace Conformance

/-- The answers one level down. -/
structure Judge where
  /-- A value of the source type may stand where the destination type is declared. -/
  assign : (mode : Mode) → (dest source : Option Ty) → Check Bool
  /-- An instance of the candidate, or its class object, satisfies the protocol. -/
  conforms : (mode : Mode) → (asObject : Bool) → (protocol candidate : ClassTy) → Check Bool
  /-- A module satisfies the protocol. -/
  moduleConforms :
    (mode : Mode) → (protocol : ClassTy) → (name : String) → (table : TableId) → Check Bool

namespace Judge

/-- Compares without solving or explaining. -/
def accepts (j : Judge) (dest source : Ty) : Check Bool :=
  Check.detached (j.assign .default (some dest) (some source))

end Judge

/-- Runs a comparison and, if the answer is no, adds messages. -/
def explained (act : Check Bool) (messages : Check Unit) : Check Bool := do
  if ← act then pure true
  else
    messages
    pure false

end Conformance
