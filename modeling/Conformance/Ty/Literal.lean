import Conformance.Ty.Basic

/-!
# Literal types
-/

namespace Conformance

namespace Ty

/-- Whether a literal value occurs within a number of levels of unions and, if asked, of type
arguments. -/
def hasLiteralAt (inArgs : Bool) : Nat → Ty → Bool
  | 0, _ => false
  | n + 1, union members => members.any (hasLiteralAt inArgs n)
  | n + 1, cls c =>
    (c.isInstance && c.literal.isSome) ||
      (inArgs && c.argList.any fun arg => arg.any (hasLiteralAt inArgs n))
  | _ + 1, _ => false

def hasLiteral (t : Ty) (inArgs : Bool) : Bool := hasLiteralAt inArgs levels t

end Ty

end Conformance
