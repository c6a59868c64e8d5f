import Conformance.Assign.Arguments
import Conformance.Assign.Bind

/-!
# Assigning to classes

A class accepts what derives from it, with fitting type arguments. Beyond that, integers stand for
floats and both for complex numbers, a class object is an instance of its metaclass, and a protocol
accepts what satisfies it.
-/

namespace Conformance

open Check

section

variable (w : World) (j : Judge) (mode : Mode)

/-- An integer may stand for a float, and either for a complex number. -/
def isPromotion (dest source : ClassTy) : Bool :=
  (w.classes.isBuiltin dest "float" && w.classes.derives source Builtin.int) ||
    (w.classes.isBuiltin dest "complex" &&
      (w.classes.derives source Builtin.int || w.classes.derives source Builtin.float))

/-- What the linearization of the source says about a destination class. -/
inductive Derivation
  /-- Something of which nothing is known comes first. -/
  | unresolved
  /-- The first entry that is a view of the destination class. -/
  | derived (ancestor : ClassTy)
  | unrelated

/-- Looks for a class among the entries of a linearization. -/
def findAncestor (dest : ClassTy) : List Ancestor → Derivation
  | [] => .unrelated
  | .unresolved _ _ :: _ => .unresolved
  | .resolved c :: rest => if c.sameClass dest then .derived c else findAncestor dest rest

/-- An entry of the linearization of a class, in terms of the type arguments of the class. -/
def ancestorOf (source ancestor : ClassTy) : Check ClassTy :=
  if ancestor.sameClass source then pure source.toClassObject
  else lift (ancestor.specialize w.classes source)

/-- Two instances, or two class objects. -/
def assignClassToClass (dest source : ClassTy) : Check Bool := do
  if dest.literal.isSome then
    if dest.sameClass source && source.literal == dest.literal then pure true
    else mismatch w (.cls source) (.cls dest)
  else if w.classes.isBuiltin dest "object" || isPromotion w dest source then pure true
  else
    let lineage := .resolved source.toClassObject :: (w.classes.decl source.id).mro
    match findAncestor dest lineage with
    | .unresolved => pure true
    | .derived ancestor =>
      if dest.args.isNone then pure true
      else
        let ancestor ← ancestorOf w source ancestor
        assignArguments w j mode dest ancestor
    | .unrelated =>
      if w.classes.isProtocol dest then j.conforms mode false dest source
      else mismatch w (.cls source) (.cls dest)

/-- A class object where an instance is declared. -/
def assignClassObject (dest source : ClassTy) : Check Bool :=
  if w.classes.isProtocol dest then j.conforms mode true dest source
  else if w.classes.isBuiltin dest "type" then pure true
  else
    match w.classes.metaclass? source with
    | some metaclass =>
      if metaclass.sameClass source then mismatch w (.cls source) (.cls dest)
      else j.assign mode (some (.cls dest)) (some (.cls metaclass.toInstance))
    | none => mismatch w (.cls source) (.cls dest)

/-- A function where an instance is declared: a protocol with a call method accepts what may be
called as that method is. -/
def assignCallableToClass (dest : ClassTy) (source : Ty) : Check Bool := do
  if dest.isInstance && w.classes.isProtocol dest then
    match ← boundCall w j (.cls dest) with
    | some call => j.assign mode (some call) (some source)
    | none => mismatch w source (.cls dest)
  else mismatch w source (.cls dest)

/-- The source may stand where the class is declared. Everything is an object. -/
def assignToClass (dest : ClassTy) (source : Ty) : Check Bool :=
  if dest.isInstance && w.classes.isBuiltin dest "object" then pure true
  else
    match source with
    | .cls c =>
      if dest.isInstance == c.isInstance then assignClassToClass w j mode dest c
      else if dest.isInstance then assignClassObject w j mode dest c
      else mismatch w source (.cls dest)
    | .module name table =>
      if dest.isInstance && w.classes.isProtocol dest then j.moduleConforms mode dest name table
      else mismatch w source (.cls dest)
    | .function _ | .overloaded _ => assignCallableToClass w j mode dest source
    | _ => mismatch w source (.cls dest)

end

end Conformance
