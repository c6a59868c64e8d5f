/-!
# Variance
-/

namespace Conformance

/-- How a type that takes an argument changes with the argument. -/
inductive Variance
  | invariant
  | covariant
  | contravariant
deriving DecidableEq, Repr

def Variance.name : Variance → String
  | .invariant => "invariant"
  | .covariant => "covariant"
  | .contravariant => "contravariant"

end Conformance
