import Conformance.Assign.Bind

/-!
# Assigning properties

A property of the destination asks for each accessor that it has, and the two accessors are compared
as methods of the source object.
-/

namespace Conformance

open Check

inductive Accessor
  | getter
  | setter
  | deleter
deriving DecidableEq, Repr

namespace Accessor

def all : List Accessor := [getter, setter, deleter]

def name : Accessor → String
  | getter => "getter"
  | setter => "setter"
  | deleter => "deleter"

def missing : Accessor → Wording
  | getter => .getterMissing
  | setter => .setterMissing
  | deleter => .deleterMissing

def of (accessor : Accessor) (d : ClassDecl) : Option FunctionTy :=
  match accessor with
  | getter => d.getter
  | setter => d.setter
  | deleter => d.deleter

end Accessor

/-- Two properties, the classes that declare them, and what stands for the receiver's class in the
destination. -/
structure PropertyPair where
  dest : ClassTy
  source : ClassTy
  destOwner : ClassTy
  sourceOwner : ClassTy
  self : Option Solution

section

variable (w : World) (j : Judge)

/-- An accessor of the destination as it is compared. -/
def PropertyPair.required (p : PropertyPair) (dest : FunctionTy) : Check FunctionTy := do
  let dest ← lift (dest.specialize w.classes p.destOwner)
  match p.self with
  | some σ => lift (dest.substitute w.classes σ)
  | none => pure dest

/-- Compares two accessors as bound to the source object. -/
def PropertyPair.compare (p : PropertyPair) (dest source : FunctionTy) : Check Bool := do
  demand source
  let source ← lift (source.specialize w.classes p.sourceOwner)
  let dest ← p.required w dest
  let receiver := Receiver.of (.cls p.sourceOwner.toInstance)
  let boundDest ← bindFunction w j receiver dest none
  let boundSource ← bindFunction w j receiver source none
  match boundDest, boundSource with
  | some d, some s => child (j.assign .default (some (.function d)) (some (.function s)))
  | _, _ => pure false

def PropertyPair.assignAccessor (p : PropertyPair) (accessor : Accessor) : Check Bool := do
  match accessor.of (w.classes.decl p.dest.id), accessor.of (w.classes.decl p.source.id) with
  | none, _ => pure true
  | some _, none => refuse accessor.missing fun _ => []
  | some dest, some source =>
    explained (p.compare w j dest source)
      (tell .accessorMismatch fun _ => [("accessor", accessor.name)])

/-- The source property may stand for the destination property. -/
def assignProperty (p : PropertyPair) : Check Bool :=
  allOf (p.assignAccessor w j) Accessor.all

/-- The type that reading a property yields; if it is not to be found out, only a declared one. -/
def getterType (property : ClassTy) (findOut : Bool) : Check (Option Ty) := do
  match (w.classes.decl property.id).getter with
  | none => pure none
  | some getter =>
    if findOut then
      demand getter
      let inf ← inference
      pure (some (inf.returnType getter))
    else pure getter.declaredReturn

end

end Conformance
