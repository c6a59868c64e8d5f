import Conformance.Assign.Judge

/-!
# Solving type variables

A variable takes the first type that is compared with it, provided the type fits the bound. Later
types have to agree with the solution: they widen it, to a union if need be, where values flow into
the variable, and narrow it where they flow out.
-/

namespace Conformance

open Check

section

variable (w : World) (j : Judge) (mode : Mode)

/-- The type that is recorded: an instance without its literal value, unless literals are kept. -/
def solutionCandidate (t : Ty) : Ty :=
  match t with
  | .cls c => if !mode.keepLiterals && c.isInstance then .cls (c.withLiteral none) else t
  | _ => t

/-- The candidate fits the bound of a variable that values flow into. -/
def fitsBound (v : TypeVar) (candidate : Ty) : Check Bool := do
  match v.bound with
  | none => pure true
  | some bound =>
    if mode.reverse || candidate.isAnyOrUnknown then pure true
    else
      explained (child (solvingFor none (j.assign .default (some bound) (some candidate))))
        (tell .mismatch fun inf =>
          [("sourceType", candidate.text w.classes.nameOf inf), ("destType", v.name)])

def unsolvable (v : TypeVar) (candidate existing : Ty) : Check Bool :=
  refuse .unsolvable fun inf =>
    [("sourceType", candidate.text w.classes.nameOf inf), ("name", v.name),
      ("destType", existing.text w.classes.nameOf inf)]

/-- Values flow into the variable: the wider of the two types, or else their union. -/
def widen (v : TypeVar) (existing candidate : Ty) : Check Bool := do
  if ← j.accepts existing candidate then pure true
  else if ← j.accepts candidate existing then
    solve v candidate
    pure true
  else
    let inf ← inference
    solve v (Ty.combine inf [some existing, some candidate])
    pure true

/-- Values flow out of the variable: the narrower of the two types. -/
def narrow (v : TypeVar) (existing candidate : Ty) : Check Bool := do
  if ← j.accepts candidate existing then pure true
  else if ← j.accepts existing candidate then
    solve v candidate
    pure true
  else unsolvable w v candidate existing

/-- Brings the solution for a variable in line with a type. -/
def solveVar (v : TypeVar) (t : Ty) : Check Bool := do
  let candidate := solutionCandidate mode t
  if !(← fitsBound w j mode v candidate) then pure false
  else
    let σ ← solution
    match σ.bind (·.get? v) with
    | none =>
      solve v candidate
      pure true
    | some existing =>
      if mode.invariant then
        let inf ← inference
        if existing.same inf candidate then pure true else unsolvable w v candidate existing
      else if mode.reverse then narrow w j v existing candidate
      else widen j v existing candidate

end

end Conformance
