import Conformance.Assign.Judge

/-!
# Binding methods

A method that is reached through an instance or a class object loses its first parameter to the
receiver. What is declared for the first parameter is compared with the receiver, and the variables
solved by that are put into the rest of the signature. A receiver that does not fit yields no
function.
-/

namespace Conformance

open Check

section

variable (w : World) (j : Judge)

/-- The scopes that the receiver of a function may solve. -/
def receiverScopes (f : FunctionTy) (first : Param) : Solution :=
  let σ := Solution.forScope f.scope
  match first.type with
  | some (.var v) => σ.addScope v.scope
  | _ => σ

/-- The receiver may stand where the first parameter is. -/
def receiverFits (first : Param) (receiver : Option Ty) : Check Bool :=
  match first.type, receiver with
  | some t, some r => j.assign .default (some t) (some r)
  | _, _ => pure true

/-- Compares a receiver with the first parameter. The solution it leads to, or none if it does not
fit. -/
def solveReceiver (f : FunctionTy) (first : Param) (receiver : Option Ty) :
    Check (Option Solution) :=
  silently <| solvingFor (some (receiverScopes f first)) do
    if ← receiverFits j first receiver then solution else pure none

/-- Gives a function its receiver. A function that takes no plain first parameter stays as it
is. -/
def bindReceiver (f : FunctionTy) (receiver : Option Ty) (strip : Bool) :
    Check (Option FunctionTy) := do
  match f.params with
  | [] => pure (some f)
  | first :: _ =>
    if first.kind ≠ .simple then pure (some f)
    else
      match ← solveReceiver j f first receiver with
      | none => pure none
      | some σ =>
        demand f
        let bound ← lift (f.substitute w.classes σ)
        if strip then
          let bound ← lift (Inference.withParams bound bound.params.tail)
          pure (some bound)
        else pure (some bound)

/-- How a function is reached. -/
structure Receiver where
  /-- The instance or class object; a function that is reached without one still loses its first
  parameter. -/
  base : Option Ty
  /-- Constructors take the class object. -/
  constructors : Bool
  /-- What the first parameter is compared with in place of the base. -/
  first : Option Ty

def Receiver.of (base : Ty) : Receiver := ⟨some base, false, none⟩

/-- The type of an instance for a class object, else the type itself. -/
def instanceFor (t : Ty) : Ty :=
  match t.asClassObject? with
  | some c => .cls c.toInstance
  | none => t

/-- The class object for an instance, else the type itself. -/
def classObjectFor (t : Ty) : Ty :=
  match t.asInstance? with
  | some c => .cls c.toClassObject
  | none => t

/-- A function in terms of the type arguments of the class that declares it. -/
def seenThrough (f : FunctionTy) (owner : Option ClassTy) : Check FunctionTy :=
  match owner with
  | some c => lift (f.specialize w.classes c)
  | none => pure f

/-- Binds a function that is reached through a receiver. -/
def bindFunction (r : Receiver) (f : FunctionTy) (owner : Option ClassTy) :
    Check (Option FunctionTy) := do
  let f ← seenThrough w f owner
  match r.base with
  | none => bindReceiver w j f none true
  | some base =>
    match f.kind with
    | .staticMethod => pure (some f)
    | .classMethod => bindReceiver w j f (some (r.first.getD (classObjectFor base))) true
    | .instanceMethod =>
      if r.constructors && f.name == "__new__" then
        bindReceiver w j f (some (r.first.getD (classObjectFor base))) true
      else
        bindReceiver w j f (some (r.first.getD (instanceFor base)))
          (base.isInstance || r.first.isSome)

def bindOverloads (r : Receiver) (owner : Option ClassTy) :
    List FunctionTy → Check (List FunctionTy)
  | [] => pure []
  | f :: fs => do
    let bound ← bindFunction w j r f owner
    let others ← bindOverloads r owner fs
    pure (bound.toList ++ others)

/-- Binds a member. Overloads whose receiver does not fit are dropped; what is not callable stays
as it is. -/
def bind (r : Receiver) (t : Ty) (owner : Option ClassTy) : Check (Option Ty) := do
  match t with
  | .function f =>
    let bound ← bindFunction w j r f owner
    pure (bound.map .function)
  | .overloaded overloads =>
    match ← bindOverloads w j r owner overloads with
    | [] => pure none
    | [f] => pure (some (.function f))
    | fs => pure (some (.overloaded fs))
  | _ => pure (some t)

/-- The bound call method of an instance. -/
def boundCall (object : Ty) : Check (Option Ty) := do
  match object.asClass? with
  | none => pure none
  | some c =>
    match ← lift (w.classes.lookup c "__call__") with
    | none => pure none
    | some found =>
      match found.owner with
      | none => pure none
      | some owner =>
        let t ← lift (w.classes.typeOf found)
        if t.isCallable then bind w j (.of object) t (some owner) else pure none

end

end Conformance
