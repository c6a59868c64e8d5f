import Conformance.Assign.Basic

/-!
# Comparing specializations of one protocol

Two specializations of a generic protocol are compared member by member, which shows how the
protocol changes with its arguments: the variance that its members call for.
-/

namespace Conformance

open Check

section

variable (w : World) (j : Judge)

/-- A member of the protocol as both specializations see it. -/
def compareMember (dest source : ClassTy) (e : String × Member) : Check Bool := do
  let (name, m) := e
  if !m.flags.inClass || m.flags.ignored then pure true
  else
    match ← lift (w.classes.lookup source name), m.declaredType with
    | some found, some t =>
      let sourceType ← lift (w.classes.typeOf found)
      let destType ← lift (t.specialize w.classes dest none)
      match Match.property? w destType, Match.property? w sourceType with
      | some d, some s => assignProperty w j ⟨d, s, dest, source, none⟩
      | _, _ =>
        j.assign { Mode.default with invariant := m.isMutableVariable }
          (some destType) (some sourceType)
    | _, _ => pure true

/-- Compares members until one does not fit. -/
def compareMembers (dest source : ClassTy) : List (String × Member) → Check Bool
  | [] => pure true
  | e :: es => do
    if ← compareMember w j dest source e then compareMembers dest source es else pure false

/-- A base that is a generic protocol, and not one of the builtin classes that make protocols. -/
def isGenericProtocol (c : ClassTy) : Bool :=
  w.classes.isProtocol c && !w.classes.isBuiltin c "object" && !w.classes.isBuiltin c "Protocol" &&
    !w.classes.isBuiltin c "Generic" && !(w.classes.decl c.id).params.isEmpty

/-- The generic protocols among the bases of a class. -/
def protocolBases (c : ClassTy) : List ClassTy :=
  ((w.classes.decl c.id).bases.filterMap Ancestor.class?).filter (isGenericProtocol w)

/-- Compares two specializations of a base as a protocol and another specialization see it. -/
def compareBase (fits : (dest source : ClassTy) → Check Bool) (dest source base : ClassTy) :
    Check Bool := do
  let d ← lift (dest.specializeBase w.classes base)
  let s ← lift (source.specializeBase w.classes base)
  fits d s

/-- The source specialization may stand for the destination specialization of the same protocol:
its own members fit, and so do its generic protocol bases. -/
def specializationStep (fits : (dest source : ClassTy) → Check Bool) (dest source : ClassTy) :
    Check Bool := do
  let own ←
    silently <| solvingFor (some .empty) <|
      compareMembers w j dest source (w.classes.decl dest.id).members.entries
  let bases ← allOf (compareBase w fits dest source) (protocolBases w dest)
  pure (own && bases)

/-- Compares two specializations to the given height of the hierarchy. -/
def compareSpecializations : (height : Nat) → (dest source : ClassTy) → Check Bool
  | 0 => fun _ _ => pure true
  | height + 1 => specializationStep w j (compareSpecializations height)

/-- No chain of bases is longer than there are classes. -/
def fitsItself (dest source : ClassTy) : Check Bool :=
  compareSpecializations w j w.classes.size dest source

end

section

variable (w : World)

/-- The arguments of a protocol of which one is set apart and all others are the same. -/
def argumentsAround (params : List TypeVar) (index : Nat) (apart : TypeVar → Ty) (other : Ty) :
    List (Option Ty) :=
  params.mapIdx fun i v => some (if i = index then apart v else other)

/-- The variance that the members of a protocol call for in one of its parameters, by the way to
compare two specializations; `other` takes the place of all other parameters. -/
def expectedVariance (fits : (dest source : ClassTy) → Check Bool) (protocol : ClassTy)
    (index : Nat) (other : Ty) : Check Variance := do
  let params := (w.classes.decl protocol.id).params
  let generic := protocol.toClassObject.generic
  let object := generic.withArgs
    (argumentsAround params index (fun _ => Builtin.instanceOf Builtin.object) other) true
  let itself := generic.withArgs (argumentsAround params index (fun v => .var v) other) true
  if ← fits object itself then pure .covariant
  else if ← fits itself object then pure .contravariant
  else pure .invariant

end

end Conformance
