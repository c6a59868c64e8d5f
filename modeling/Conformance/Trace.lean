/-!
# The trace

A verbose session writes a line for each comparison with a protocol, before the comparison begins.
-/

namespace Conformance

inductive TraceLine
  /-- A class is compared at a depth, with a number of comparisons in progress. -/
  | matchingClass (candidate protocol : String) (depth : Int) (pending : Nat)
  | matchingModule (module protocol : String)
deriving DecidableEq, Repr

namespace TraceLine

def text : TraceLine → String
  | matchingClass candidate protocol depth pending =>
    "matching " ++ candidate ++ " against protocol '" ++ protocol ++ "' (depth " ++
      toString depth ++ ", pending " ++ toString pending ++ ")"
  | matchingModule module protocol =>
    "matching module '" ++ module ++ "' against protocol '" ++ protocol ++ "'"

/-- The line as it is written. -/
def render (line : TraceLine) : String := "[TypeChecker] " ++ line.text ++ "\n"

end TraceLine

end Conformance
