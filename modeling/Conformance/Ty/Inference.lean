import Conformance.Ty.Basic

/-!
# Return types found out on demand

A deferred return type is found out at most once per cell: the first demand calls the finder, which
is recorded under the name of the function, and the cell is settled whether the finder returns a type
or fails. Until then, and after a failure, the return type counts as unknown. A copy of a function
that is still open gets a cell of its own, so each copy calls the finder again.
-/

namespace Conformance

/-- A finder failed with this message. -/
structure InferenceError where
  message : String
deriving DecidableEq, Repr

/-- The cells handed out, each settled or open, and the functions whose finders were called. -/
structure Inference where
  settled : Array Bool
  calls : List String
deriving Repr

namespace Inference

def start : Inference := ⟨#[], []⟩

instance : Inhabited Inference := ⟨start⟩

def isSettled (inf : Inference) (cell : CellId) : Bool := inf.settled.getD cell false

def settle (inf : Inference) (cell : CellId) : Inference :=
  { inf with settled := inf.settled.setIfInBounds cell true }

/-- A new open cell. -/
def newCell : StateM Inference CellId := fun inf =>
  (inf.settled.size, { inf with settled := inf.settled.push false })

/-- The return type as far as it is known. -/
def returnType (inf : Inference) (f : FunctionTy) : Ty :=
  match f.ret with
  | .declared t => t
  | .undeclared => .unknown
  | .deferred cell outcome =>
    if inf.isSettled cell then
      match outcome with
      | .returns t => t.getD .unknown
      | .raises _ => .unknown
    else .unknown

/-- The return type is to be found out and has not been asked for. -/
def isOpen (inf : Inference) (f : FunctionTy) : Bool :=
  match f.ret with
  | .deferred cell _ => !inf.isSettled cell
  | _ => false

/-- Asks for the return type of a function. -/
def demand (f : FunctionTy) : ExceptT InferenceError (StateM Inference) Unit := do
  match f.ret with
  | .deferred cell outcome =>
    let inf ← get
    if inf.isSettled cell then pure ()
    else
      set { inf.settle cell with calls := inf.calls ++ [f.name] }
      match outcome with
      | .returns _ => pure ()
      | .raises message => throw ⟨message⟩
  | _ => pure ()

/-- An open return type moves to a cell of its own. -/
def renew (ret : Return) : StateM Inference Return := do
  match ret with
  | .deferred cell outcome =>
    let inf ← get
    if inf.isSettled cell then pure ret
    else
      let fresh ← newCell
      pure (.deferred fresh outcome)
  | _ => pure ret

/-- A copy of a function with other parameters. -/
def withParams (f : FunctionTy) (params : List Param) : StateM Inference FunctionTy := do
  let ret ← renew f.ret
  pure { f with params := params, ret := ret }

theorem isSettled_settle {inf : Inference} {cell : CellId} (h : cell < inf.settled.size)
    (other : CellId) :
    (inf.settle cell).isSettled other = (decide (cell = other) || inf.isSettled other) := by
  simp only [isSettled, settle, Array.getD_eq_getD_getElem?, Array.getElem?_setIfInBounds]
  by_cases hc : cell = other
  · subst hc
    simp [h]
  · simp [hc]

end Inference

end Conformance
