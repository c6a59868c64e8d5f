import Conformance.Ty.Same

/-!
# Unions

A union is built by one function, which takes the members of unions apart, drops repetitions and
lets an unknown type or a type of anything stand for the whole.
-/

namespace Conformance

namespace Ty

/-- The members of a union, or the type itself. -/
def alternatives : Ty → List Ty
  | union members => members
  | t => [t]

section

variable (inf : Inference)

/-- Adds a type at the end unless the same type is there. -/
def insertDistinct (found : List Ty) (t : Ty) : List Ty :=
  if found.any (fun u => same inf u t) then found else found ++ [t]

/-- The first of each group of types that are the same. -/
def distinct (ts : List Ty) : List Ty := ts.foldl (insertDistinct inf) []

/-- The type of what belongs to one of the given types. Left out types do not count. -/
def combine (types : List (Option Ty)) : Ty :=
  let given := types.filterMap id
  match given.find? isAnyOrUnknown with
  | some t => t
  | none =>
    match distinct inf (given.flatMap alternatives) with
    | [] => unknown
    | [t] => t
    | members => union members

end

end Ty

end Conformance
