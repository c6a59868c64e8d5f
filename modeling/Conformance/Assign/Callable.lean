import Conformance.Assign.Bind

/-!
# Assigning callables

Which parameters are compared with which follows from the two parameter lists alone: it is a list of
steps, each a comparison of two types or a fault. The parameters are compared the other way round,
then the return types.
-/

namespace Conformance

open Check

/-- The parameters of a function by the way they take arguments. -/
structure ParamGroups where
  positional : List Param
  /-- Plain parameters behind the one that takes the remaining positional arguments. -/
  keywordOnly : List Param
  args : Option Param
  kwargs : Option Param

namespace ParamGroups

def add (g : ParamGroups) (p : Param) : ParamGroups :=
  match p.kind with
  | .args => { g with args := some p }
  | .kwargs => { g with kwargs := some p }
  | .simple =>
    if g.args.isSome then { g with keywordOnly := g.keywordOnly ++ [p] }
    else { g with positional := g.positional ++ [p] }

def ofList (params : List Param) : ParamGroups := params.foldl add ⟨[], [], none, none⟩

end ParamGroups

/-- The first parameter that takes an argument under a keyword. -/
def findKeyword (params : List Param) (name : String) : Option Param :=
  params.find? fun p => p.name == name && !p.isPositionalOnly

inductive ParamStep
  /-- What the destination passes has to fit what the source takes. -/
  | compare (index : Nat) (dest source : Param)
  | fault (wording : Wording) (values : List (String × String))

namespace ParamStep

def nameFault (dest source : Param) : List ParamStep :=
  if !dest.isPositionalOnly && !source.isPositionalOnly && dest.name != source.name then
    [fault .parameterName [("destName", dest.name), ("srcName", source.name)]]
  else []

def tooFew (dest source : ParamGroups) : ParamStep :=
  fault .tooFewParameters
    [("expected", toString dest.positional.length), ("received", toString source.positional.length)]

/-- The positional parameters of the destination from an index on. -/
def positional (dest source : ParamGroups) : Nat → List Param → List Param → List ParamStep
  | _, [], _ => []
  | i, d :: ds, s :: ss => nameFault d s ++ compare i d s :: positional dest source (i + 1) ds ss
  | i, d :: ds, [] =>
    match source.args with
    | some a => compare i d a :: positional dest source (i + 1) ds []
    | none => [tooFew dest source]

/-- The positional parameters that the source has beyond those of the destination. -/
def extra (dest : ParamGroups) : Nat → List Param → List ParamStep
  | _, [] => []
  | i, s :: ss =>
    let step :=
      if s.hasDefault then []
      else
        match dest.args with
        | some a => [compare i a s]
        | none =>
          if !s.isPositionalOnly && (findKeyword dest.keywordOnly s.name).isSome then []
          else [fault .defaultMissing [("name", s.name)]]
    step ++ extra dest (i + 1) ss

/-- The parameter of the source that takes a keyword of the destination. -/
def takesKeyword (dest source : ParamGroups) (name : String) : Option Param :=
  (findKeyword source.keywordOnly name).or <|
    (findKeyword (source.positional.drop dest.positional.length) name).or source.kwargs

def keyword (dest source : ParamGroups) (d : Param) : ParamStep :=
  match takesKeyword dest source d.name with
  | some s => compare dest.positional.length d s
  | none => fault .extraParameter [("name", d.name)]

/-- A keyword of the source that the destination does not name. -/
def extraKeyword (dest : ParamGroups) (s : Param) : List ParamStep :=
  if s.hasDefault || (findKeyword dest.keywordOnly s.name).isSome then []
  else
    match dest.kwargs with
    | some k => [compare dest.positional.length k s]
    | none => [fault .defaultMissing [("name", s.name)]]

/-- A parameter that takes the remaining arguments needs one on the other side. -/
def rest (index : Nat) (missing : Wording) (dest source : Option Param) : List ParamStep :=
  match dest, source with
  | none, _ => []
  | some d, none => [fault missing [("name", d.name)]]
  | some d, some s => [compare index d s]

/-- All steps, in order. -/
def plan (dest source : ParamGroups) : List ParamStep :=
  let n := dest.positional.length
  positional dest source 0 dest.positional source.positional ++
    extra dest n (source.positional.drop n) ++
    dest.keywordOnly.map (keyword dest source) ++
    source.keywordOnly.flatMap (extraKeyword dest) ++
    rest n .argsMissing dest.args source.args ++
    rest n .kwargsMissing dest.kwargs source.kwargs

end ParamStep

section

variable (w : World) (j : Judge) (mode : Mode)

/-- Parameters are compared the other way round, and their types need not be the same. -/
def Mode.forParams : Mode := { mode with reverse := !mode.reverse, invariant := false }

def Mode.forReturn : Mode := { mode with invariant := false }

def ParamStep.run : ParamStep → Check Bool
  | fault wording values => refuse wording fun _ => values
  | compare index dest source =>
    child <| explained
      (child (j.assign mode.forParams (some source.typeOrUnknown) (some dest.typeOrUnknown)))
      (tell .parameterMismatch fun inf =>
        [("index", toString (index + 1)),
          ("sourceType", dest.typeOrUnknown.text w.classes.nameOf inf),
          ("destType", source.typeOrUnknown.text w.classes.nameOf inf)])

def assignReturn (dest source : Ty) : Check Bool :=
  child <| explained
    (child (j.assign mode.forReturn (some dest) (some source)))
    (tell .returnMismatch fun inf =>
      [("sourceType", source.text w.classes.nameOf inf),
        ("destType", dest.text w.classes.nameOf inf)])

/-- The source function may stand for the destination function. -/
def assignFunction (dest source : FunctionTy) : Check Bool := do
  demand dest
  demand source
  let params ←
    allOf (ParamStep.run w j mode)
      (ParamStep.plan (.ofList dest.params) (.ofList source.params))
  let inf ← inference
  let ret ← assignReturn w j mode (inf.returnType dest) (inf.returnType source)
  pure (params && ret)

def noOverload (t : Ty) : Check Bool :=
  refuse .noOverload fun inf => [("type", t.text w.classes.nameOf inf)]

/-- One overload of the source has to fit. -/
def assignToFunction (dest : FunctionTy) (source : Ty) : Check Bool := do
  match source with
  | .function f => assignFunction w j mode dest f
  | .overloaded overloads =>
    if ← silently (anyOf (fun f => attempt (assignFunction w j mode dest f)) overloads) then
      pure true
    else noOverload w (.function dest)
  | _ => mismatch w source (.function dest)

/-- Each overload of the destination has to be met; the first that is not ends the comparison. -/
def assignToOverloads (source : Ty) : List FunctionTy → Check Bool
  | [] => pure true
  | f :: fs => do
    if ← child (assignToFunction w j mode f source) then assignToOverloads source fs
    else noOverload w (.function f)

/-- What is called where the source is called: an instance is called through its call method. -/
def calledType (source : Ty) : Check Ty := do
  if source.isInstance then
    let bound ← boundCall w j source
    pure (bound.getD source)
  else pure source

/-- The source may be called as the destination is. -/
def assignToCallable (dest source : Ty) : Check Bool := do
  let called ← calledType w j source
  if !called.isCallable then mismatch w source dest
  else
    match dest with
    | .function f => assignToFunction w j mode f called
    | .overloaded overloads => assignToOverloads w j mode called overloads
    | _ => mismatch w source dest

end

end Conformance
