import Conformance.Assign.Callable
import Conformance.Assign.Protocol
import Conformance.Assign.ToClass
import Conformance.Assign.Variable

/-!
# Assignability

One step of a comparison for each shape of the two types, and the judge of a number of levels that
the steps make up. Below the last level every comparison is taken to hold.
-/

namespace Conformance

open Check

section

variable (w : World) (j : Judge) (mode : Mode)

/-- The source variable that is to be solved. -/
def reverseVar? (σ : Option Solution) (source : Ty) : Option TypeVar :=
  match source with
  | .var v => if mode.reverse && σ.any (·.solves v.scope) then some v else none
  | _ => none

/-- The destination is a variable. One that is not to be solved accepts itself alone. -/
def assignToVar (v : TypeVar) (source : Ty) : Check Bool := do
  let inf ← inference
  let σ ← solution
  if (Ty.var v).same inf source then pure true
  else if !mode.reverse && σ.any (·.solves v.scope) then solveVar w j mode v source
  else if source.isAnyOrUnknown then pure true
  else mismatch w source (.var v)

/-- A source variable that is not to be solved stands for its bound. -/
def boundOf (v : TypeVar) : Ty := v.bound.getD (Builtin.instanceOf Builtin.object)

/-- Each member of a source union has to fit. -/
def assignFromUnion (dest : Ty) (members : List Ty) : Check Bool := do
  if ← allOf (fun t => child (j.assign mode (some dest) (some t))) members then pure true
  else mismatch w (.union members) dest

/-- One member of a destination union has to accept the source. -/
def assignToUnion (members : List Ty) (source : Ty) : Check Bool := do
  let accepts := fun t => attempt (j.assign mode (some t) (some source))
  if ← silently (anyOf accepts members) then pure true
  else mismatch w source (.union members)

/-- Compares by the shape of the destination. -/
def assignByShape (dest source : Ty) : Check Bool := do
  match dest with
  | .cls c => assignToClass w j mode c source
  | .function _ | .overloaded _ => assignToCallable w j mode dest source
  | .noneObject | .module _ _ =>
    let inf ← inference
    if dest.same inf source then pure true else mismatch w source dest
  | .unknown | .any | .var _ | .union _ => mismatch w source dest

/-- Compares two types of which neither accepts everything and the destination is no variable. -/
def assignProper (dest source : Ty) : Check Bool :=
  if mode.invariant then assignInvariant w j mode dest source
  else
    match source, dest with
    | .var v, _ => j.assign mode (some dest) (some (boundOf v))
    | .union members, _ => assignFromUnion w j mode dest members
    | _, .union members => assignToUnion w j mode members source
    | _, _ => assignByShape w j mode dest source

/-- Compares two types. -/
def assignTy (dest source : Ty) : Check Bool := do
  let σ ← solution
  match reverseVar? mode σ source with
  | some v => solveVar w j mode v dest
  | none =>
    match dest with
    | .var v => assignToVar w j mode v source
    | _ =>
      if dest.isAnyOrUnknown || source.isAnyOrUnknown then pure true
      else assignProper w j mode dest source

/-- A type that is left out accepts everything and fits everywhere, and an object fits itself without a
comparison. -/
def assignStep (dest source : Option Ty) : Check Bool :=
  match dest, source with
  | some d, some s => if w.identity.identical d s then pure true else assignTy w j mode d s
  | _, _ => pure true

variable {w j mode}

/-- Two types that are compared as one object are equal. -/
theorem assignStep_cases (dest source : Ty) :
    dest = source ∧ assignStep w j mode (some dest) (some source) = pure true ∨
      assignStep w j mode (some dest) (some source) = assignTy w j mode dest source := by
  cases h : w.identity.identical dest source with
  | true => exact .inl ⟨w.identity.eq_of_identical h, if_pos h⟩
  | false => exact .inr (if_neg (Bool.eq_false_iff.1 h))

theorem assignStep_of_ne {dest source : Ty} (h : dest ≠ source) :
    assignStep w j mode (some dest) (some source) = assignTy w j mode dest source :=
  (assignStep_cases dest source).resolve_left fun identical => h identical.1

end

section

variable (w : World)

/-- The level at which a judge of a number of levels stands, counted from the outermost. -/
def depthOf (levels : Nat) : Int := (Ty.levels : Int) - levels

def traceClass (levels : Nat) (protocol candidate : ClassTy) : Check Unit :=
  trace w fun s =>
    .matchingClass (candidate.text w.classes.nameOf s.inference) (w.nameOf protocol)
      (depthOf levels) s.pending.length

def traceModule (protocol : ClassTy) (name : String) : Check Unit :=
  trace w fun _ => .matchingModule name (w.nameOf protocol)

/-- The judge below the last level. -/
def accepting : Judge where
  assign _ _ _ := cutOff
  conforms _ _ protocol candidate := do
    traceClass w 0 protocol candidate
    cutOff
  moduleConforms _ protocol name _ := do
    traceModule w protocol name
    cutOff

/-- The judge at a level that is answered by the judge of the next one. -/
def judgeStep (levels : Nat) (j : Judge) : Judge where
  assign mode dest source := assignStep w j mode dest source
  conforms mode asObject protocol candidate := do
    traceClass w levels protocol candidate
    matchClass w j .own mode asObject protocol candidate
  moduleConforms mode protocol name table := do
    traceModule w protocol name
    matchModule w j mode protocol table

/-- The judge of a number of levels. A level is set up only when it is asked. -/
def judge : Nat → Judge
  | 0 => accepting w
  | n + 1 =>
    { assign := fun mode dest source =>
        (judgeStep w (n + 1) (judge n)).assign mode dest source
      conforms := fun mode asObject protocol candidate =>
        (judgeStep w (n + 1) (judge n)).conforms mode asObject protocol candidate
      moduleConforms := fun mode protocol name table =>
        (judgeStep w (n + 1) (judge n)).moduleConforms mode protocol name table }

theorem judge_succ (n : Nat) : judge w (n + 1) = judgeStep w (n + 1) (judge w n) := rfl

theorem assign_cases (n : Nat) (mode : Mode) (dest source : Ty) :
    dest = source ∧ (judge w (n + 1)).assign mode (some dest) (some source) = pure true ∨
      (judge w (n + 1)).assign mode (some dest) (some source) =
        assignTy w (judge w n) mode dest source :=
  assignStep_cases dest source

variable {w} in
theorem assign_of_ne {n : Nat} {mode : Mode} {dest source : Ty} (h : dest ≠ source) :
    (judge w (n + 1)).assign mode (some dest) (some source) =
      assignTy w (judge w n) mode dest source :=
  assignStep_of_ne h

/-- The number of levels that are left at a depth. -/
def levelsAt (depth : Int) : Nat := ((Ty.levels : Int) - depth).toNat

/-- The judge at a depth; a depth beyond the last level leaves no levels. -/
def judgeAt (depth : Int) : Judge := judge w (levelsAt depth)

/-- Compares a class with a protocol on one of the two stacks, without tracing. -/
def conformsFrom (choice : StackChoice) (depth : Int) (mode : Mode) (asObject : Bool)
    (protocol candidate : ClassTy) : Check Bool :=
  match levelsAt depth with
  | 0 => cutOff
  | n + 1 => matchClass w (judge w n) choice mode asObject protocol candidate

/-- Compares a class with a protocol on a stack that the caller brings. -/
def conformsOn : (depth : Int) → Mode → (asObject : Bool) → (protocol candidate : ClassTy) →
    Check Bool :=
  conformsFrom w .lent

/-- Compares a module with a protocol, without tracing. -/
def moduleConformsAt (depth : Int) (mode : Mode) (protocol : ClassTy) (table : TableId) :
    Check Bool :=
  match levelsAt depth with
  | 0 => cutOff
  | n + 1 => matchModule w (judge w n) mode protocol table

end

end Conformance
