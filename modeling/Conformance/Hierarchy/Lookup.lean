import Conformance.Hierarchy.Linearization

/-!
# Looking up members

A member is that of the nearest class in the linearization that declares it in its body or through
its receiver. A base of which nothing is known may have any member.
-/

namespace Conformance

/-- A member and the class that declares it, as seen through the view that was searched; no class
if it comes from a base of which nothing is known. -/
structure FoundMember where
  member : Member
  owner : Option ClassTy
  isInstanceMember : Bool
  isClassVar : Bool

namespace FoundMember

/-- The member of a base of which nothing is known. -/
def unresolved : FoundMember := ⟨.unresolved, none, false, false⟩

/-- The member under a class that declares it; none if it is neither declared in the body nor
assigned through the receiver. -/
def of? (m : Member) (owner : ClassTy) : Option FoundMember :=
  if m.flags.inInstance then some ⟨m, some owner, true, false⟩
  else if m.flags.inClass then some ⟨m, some owner, false, m.flags.classVar⟩
  else none

end FoundMember

namespace ClassTable

/-- The first entry of a linearization that has the member, as it stands there. -/
def findIn (classes : ClassTable) (name : String) : List Ancestor → Option FoundMember
  | [] => none
  | .unresolved _ _ :: _ => some .unresolved
  | .resolved c :: rest =>
    match (classes.decl c.id).members.find? name with
    | none => findIn classes name rest
    | some m =>
      match FoundMember.of? m c with
      | some found => some found
      | none => findIn classes name rest

/-- The member that a class has under a name, its own before those of its ancestors. -/
def lookup (classes : ClassTable) (c : ClassTy) (name : String) :
    StateM Inference (Option FoundMember) := do
  let ancestors := (classes.decl c.id).mro
  match classes.findIn name [.resolved c.toClassObject] with
  | some found => pure (some found)
  | none =>
    match classes.findIn name ancestors with
    | none => pure none
    | some found =>
      match found.owner with
      | none => pure (some found)
      | some owner =>
        let owner ← owner.specialize classes c
        pure (some { found with owner := some owner })

/-- The type of a found member as seen through its owner. -/
def typeOf (classes : ClassTable) (found : FoundMember) : StateM Inference Ty := do
  match found.owner with
  | none => pure .unknown
  | some owner =>
    let inf ← get
    (found.member.effectiveType inf).specialize classes owner none

end ClassTable

end Conformance
