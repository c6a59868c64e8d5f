import Conformance.Assign.Judge

/-!
# Comparing type arguments

The arguments of a class are compared one by one, each as the variance of the parameter demands.
Where the same types are demanded, the two lists are compared place by place.
-/

namespace Conformance

open Check

/-- An argument of the source with the one of the destination that it is compared with, and the
parameter that both are given for. -/
structure ArgumentPair where
  dest : Option Ty
  source : Option Ty
  param : Option TypeVar

/-- The arguments of a destination beyond its last one repeat the last one; without any they are
unknown. -/
def pairArguments (params : List TypeVar) (dests sources : List (Option Ty)) :
    List ArgumentPair :=
  sources.mapIdx fun i source =>
    if dests.isEmpty then ⟨some .unknown, source, none⟩
    else
      let k := min i (dests.length - 1)
      ⟨(dests[k]?).join, source, params[k]?⟩

section

variable (w : World) (j : Judge) (mode : Mode)

/-- Arguments for which no parameter is known are compared as covariant. -/
def ArgumentPair.variance (p : ArgumentPair) : Variance :=
  match p.param with
  | some v => v.variance
  | none => .covariant

def Mode.forArgument (variance : Variance) : Mode :=
  match variance with
  | .covariant => { mode with keepLiterals := true }
  | .contravariant => { mode with keepLiterals := true, reverse := !mode.reverse }
  | .invariant => { mode with keepLiterals := true, invariant := true }

def ArgumentPair.assign (p : ArgumentPair) : Check Bool :=
  let compare :=
    if p.variance = .contravariant then j.assign (mode.forArgument p.variance) p.source p.dest
    else j.assign (mode.forArgument p.variance) p.dest p.source
  child <| explained (child compare)
    (tell .argumentMismatch fun inf =>
      [("name", (p.param.map (·.name)).getD "?"), ("variance", p.variance.name),
        ("sourceType", Ty.optionText w.classes.nameOf inf p.source),
        ("destType", Ty.optionText w.classes.nameOf inf p.dest)])

/-- Each type argument of the source fits the one of the destination. -/
def assignArguments (dest source : ClassTy) : Check Bool :=
  match source.args with
  | none => pure true
  | some sources =>
    allOf (ArgumentPair.assign w j mode)
      (pairArguments (w.classes.decl dest.id).params dest.argList sources)

/-- Views of one class, apart from the type arguments. -/
def sameView (dest source : ClassTy) : Bool :=
  dest.sameClass source && dest.isInstance == source.isInstance && dest.literal == source.literal

/-- The two types are the same, where variables of type arguments may be solved to make them so. -/
def assignInvariant (dest source : Ty) : Check Bool := do
  let inf ← inference
  if dest.same inf source then pure true
  else
    match dest, source with
    | .cls d, .cls s =>
      if sameView d s then
        let pairs := padPairs d.argList s.argList
        if ← allOf (fun p => child (j.assign mode p.1 p.2)) pairs then pure true
        else mismatch w source dest
      else mismatch w source dest
    | _, _ => mismatch w source dest

end

end Conformance
