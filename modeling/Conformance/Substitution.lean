import Conformance.Solution

/-!
# Substitution

Puts the types found for type variables in their place. A generic class without arguments whose
scope is being solved takes its own parameters as arguments; a union is built anew; a function is
copied, so that an open return type is found out for each copy, and one that is known becomes
declared. Substitution gives up below a number of levels.
-/

namespace Conformance

namespace Substitution

section

variable (classes : ClassTable) (σ : Solution) (unsolvedUnknown : Bool)

/-- The type that stands for a variable. -/
def ofVar (v : TypeVar) : Ty :=
  if v.access ≠ .whole ∨ !σ.solves v.scope then .var v
  else
    match σ.get? v with
    | some t => t
    | none => if unsolvedUnknown then .unknown else .var v

def ofOption (sub : Ty → StateM Inference Ty) : Option Ty → StateM Inference (Option Ty)
  | none => pure none
  | some t => do
    let t ← sub t
    pure (some t)

def ofClassTy (sub : Ty → StateM Inference Ty) (c : ClassTy) : StateM Inference ClassTy := do
  match c.args with
  | some args =>
    let args ← args.mapM (ofOption sub)
    pure { c with args := some args }
  | none =>
    let d := classes.decl c.id
    if d.params.isEmpty || !σ.solves d.scope then pure c
    else
      let args ← d.params.mapM fun v => ofOption sub (some (.var v))
      pure (c.withArgs args true)

def ofParam (sub : Ty → StateM Inference Ty) (p : Param) : StateM Inference Param := do
  let t ← ofOption sub p.type
  pure { p with type := t }

def ofReturn (sub : Ty → StateM Inference Ty) (f : FunctionTy) : StateM Inference Return := do
  match f.ret with
  | .declared t =>
    let t ← sub t
    pure (.declared t)
  | .undeclared => pure .undeclared
  | .deferred _ _ =>
    let inf ← get
    if inf.isOpen f then Inference.renew f.ret
    else
      let t ← sub (inf.returnType f)
      pure (.declared t)

def ofFunction (sub : Ty → StateM Inference Ty) (f : FunctionTy) : StateM Inference FunctionTy := do
  let params ← f.params.mapM (ofParam sub)
  let ret ← ofReturn sub f
  pure { f with params := params, ret := ret }

/-- Substitution to a number of levels. -/
def ofTyAt : Nat → Ty → StateM Inference Ty
  | 0, t => pure t
  | n + 1, t => do
    match t with
    | .var v => pure (ofVar σ unsolvedUnknown v)
    | .cls c =>
      let c ← ofClassTy classes σ (ofTyAt n) c
      pure (.cls c)
    | .function f =>
      let f ← ofFunction (ofTyAt n) f
      pure (.function f)
    | .overloaded overloads =>
      let overloads ← overloads.mapM (ofFunction (ofTyAt n))
      pure (.overloaded overloads)
    | .union members =>
      let members ← members.mapM (ofTyAt n)
      let inf ← get
      pure (Ty.combine inf (members.map some))
    | .unknown | .any | .noneObject | .module _ _ => pure t

end

end Substitution

open Substitution

/-- The type with its solved variables replaced; the others stay, or become unknown if so asked. -/
def Ty.substitute (classes : ClassTable) (σ : Solution) (unsolvedUnknown : Bool) (t : Ty) :
    StateM Inference Ty :=
  if σ.isEmpty && !unsolvedUnknown then pure t
  else ofTyAt classes σ unsolvedUnknown Ty.levels t

/-- Substitution in a function. -/
def FunctionTy.substitute (classes : ClassTable) (σ : Solution) (f : FunctionTy) :
    StateM Inference FunctionTy :=
  if σ.isEmpty then pure f
  else ofFunction (ofTyAt classes σ false (Ty.levels - 1)) f

/-- Substitution in the arguments of a class. -/
def ClassTy.substitute (classes : ClassTable) (σ : Solution) (unsolvedUnknown : Bool)
    (c : ClassTy) : StateM Inference ClassTy :=
  if σ.isEmpty && !unsolvedUnknown then pure c
  else ofClassTy classes σ (ofTyAt classes σ unsolvedUnknown (Ty.levels - 1)) c

/-- The variables that a member of a class sees: the type arguments of the class and, where a
receiver is given, the class of the receiver. None if there is nothing to see. -/
def memberSolution (classes : ClassTable) (owner : ClassTy) (self : Option ClassTy) :
    Option Solution :=
  match self with
  | some s => some ((Solution.ofClass classes owner).withSelf classes owner s)
  | none => if owner.args.isSome then some (Solution.ofClass classes owner) else none

/-- A type written in a class as seen through a view of the class. -/
def Ty.specialize (classes : ClassTable) (owner : ClassTy) (self : Option ClassTy) (t : Ty) :
    StateM Inference Ty :=
  match memberSolution classes owner self with
  | some σ => t.substitute classes σ false
  | none => pure t

def FunctionTy.specialize (classes : ClassTable) (owner : ClassTy) (f : FunctionTy) :
    StateM Inference FunctionTy :=
  match memberSolution classes owner none with
  | some σ => f.substitute classes σ
  | none => pure f

def ClassTy.specialize (classes : ClassTable) (c owner : ClassTy) : StateM Inference ClassTy :=
  match memberSolution classes owner none with
  | some σ => c.substitute classes σ false
  | none => pure c

/-- A base of a class in terms of the type arguments of a view of the class. -/
def ClassTy.specializeBase (classes : ClassTable) (c base : ClassTy) : StateM Inference ClassTy :=
  if base.args.isSome then base.substitute classes (Solution.ofClass classes c) false
  else pure base

/-- The trailing pair of parameters that stands for the rest of a parameter specification. -/
def Param.isSpecRest (p : Param) (kind : ParamKind) (access : Access) : Bool :=
  p.kind == kind &&
    match p.type with
    | some (.var v) => v.access == access
    | _ => false

/-- A function without the trailing pair that stands for the rest of a parameter specification. -/
def FunctionTy.dropSpecRest (f : FunctionTy) : StateM Inference FunctionTy :=
  match f.params.reverse with
  | last :: beforeLast :: rest =>
    if beforeLast.isSpecRest .args .args && last.isSpecRest .kwargs .kwargs then
      Inference.withParams f rest.reverse
    else pure f
  | _ => pure f

def Ty.dropSpecRest (t : Ty) : StateM Inference Ty := do
  match t with
  | .function f =>
    let f ← f.dropSpecRest
    pure (.function f)
  | _ => pure t

/-- Substitution yields a view of the same class. -/
theorem ClassTy.id_substitute (classes : ClassTable) (σ : Solution) (unsolvedUnknown : Bool) (c : ClassTy)
    (inf : Inference) : (c.substitute classes σ unsolvedUnknown inf).1.id = c.id := by
  unfold ClassTy.substitute
  split
  · rfl
  · obtain ⟨id, isInstance, args, explicit, literal⟩ := c
    cases args with
    | some args => rfl
    | none =>
      unfold Substitution.ofClassTy
      dsimp only
      split <;> rfl

/-- The three ways to substitute agree. -/
theorem Ty.substitute_cls (classes : ClassTable) (σ : Solution) (u : Bool) (c : ClassTy) :
    (Ty.cls c).substitute classes σ u = Ty.cls <$> c.substitute classes σ u := by
  unfold Ty.substitute ClassTy.substitute
  split <;> rfl

theorem Ty.substitute_function (classes : ClassTable) (σ : Solution) (f : FunctionTy) :
    (Ty.function f).substitute classes σ false = Ty.function <$> f.substitute classes σ := by
  unfold Ty.substitute FunctionTy.substitute
  simp only [Bool.not_false, Bool.and_true]
  split <;> rfl

end Conformance
