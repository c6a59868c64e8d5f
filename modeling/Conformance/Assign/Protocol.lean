import Conformance.Assign.Arguments
import Conformance.Assign.Property

/-!
# Satisfying protocols

A protocol asks for the members that it and the protocols among its ancestors declare, each name
once, as its nearest declaration says. The type parameters of the protocol are solved from the
members, and at the end the solution is compared with the type arguments. A comparison that is
already in progress is taken to hold, which ends the cycles of protocols that mention themselves.
-/

namespace Conformance

open Check

/-- A member that a protocol asks for, and the protocol that declares it. -/
structure Requirement where
  owner : ClassTy
  name : String
  member : Member

namespace Requirement

/-- Members of the class body count, except slots and, where an instance is compared, the hook that
makes a class object take type arguments. -/
def counts (asObject : Bool) (name : String) (m : Member) : Bool :=
  m.flags.inClass && !m.flags.ignored && name != "__slots__" &&
    (asObject || name != "__class_getitem__")

/-- The protocols that a protocol extends, itself first. -/
def protocols (classes : ClassTable) (protocol : ClassTy) : List ClassTy :=
  ((.resolved protocol.generic :: (classes.decl protocol.id).mro).filterMap Ancestor.class?).filter
    classes.isProtocol

/-- What one protocol declares itself. -/
def ofDeclared (classes : ClassTable) (asObject : Bool) (owner : ClassTy) : List Requirement :=
  ((classes.decl owner.id).members.entries.filter fun e => counts asObject e.1 e.2).map
    fun e => ⟨owner, e.1, e.2⟩

/-- The first requirement of each name. -/
def nearest (rs : List Requirement) : List Requirement :=
  rs.foldl (fun found r => if found.any (·.name == r.name) then found else found ++ [r]) []

/-- Everything that a protocol asks for, in order. -/
def all (classes : ClassTable) (asObject : Bool) (protocol : ClassTy) : List Requirement :=
  nearest ((protocols classes protocol).flatMap (ofDeclared classes asObject))

end Requirement

/-- A comparison of a class with a protocol. The candidate is the class whose members are looked
at. -/
structure Match where
  protocol : ClassTy
  candidate : ClassTy
  asObject : Bool
  /-- What stands for the receiver's class in the members of the protocol. -/
  self : Solution

section

variable (w : World) (j : Judge)

/-- A type written in the protocol that asks for a member, in terms of the one that is compared. -/
def Requirement.seenFrom (r : Requirement) (protocol : ClassTy) (t : Ty) : Check Ty :=
  if r.owner.sameClass protocol then pure t else lift (t.specialize w.classes r.owner none)

namespace Match

/-- Literal types are kept in the solution if the candidate has any. -/
def mode (m : Match) : Mode :=
  { Mode.default with keepLiterals := (Ty.cls m.candidate).hasLiteral true }

def receiver (m : Match) : Receiver :=
  .of (.cls (if m.asObject then m.candidate else m.candidate.toInstance))

/-- The member that a class object has through its metaclass. -/
def findOnMetaclass (m : Match) (name : String) : Check (Option FoundMember) :=
  match w.classes.metaclass? m.candidate with
  | some metaclass => if m.asObject then lift (w.classes.lookup metaclass name) else pure none
  | none => pure none

/-- The member of the metaclass, for a class object, or else that of the candidate; the flag says
whether it is the metaclass that has it. -/
def find (m : Match) (name : String) : Check (Option (FoundMember × Bool)) := do
  match ← m.findOnMetaclass w name with
  | some found => pure (some (found, true))
  | none =>
    let found ← lift (w.classes.lookup m.candidate name)
    pure (found.map fun f => (f, false))

/-- Asks for the return type of a member that is a function without overloads. -/
def demandPlain (t : Ty) : Check Unit :=
  match t with
  | .function f => demand f
  | _ => pure ()

/-- The type of the member that was found, with the candidate for the receiver's class. -/
def foundType (m : Match) (found : FoundMember) : Check Ty := do
  match found.owner with
  | none => pure .unknown
  | some owner =>
    let inf ← inference
    let t := found.member.effectiveType inf
    demandPlain t
    lift (t.specialize w.classes owner (some m.candidate))

/-- The bound member, or the member as it is if the receiver does not fit. -/
def boundOr (r : Receiver) (t : Ty) (owner : Option ClassTy) : Check Ty := do
  match ← bind w j r t owner with
  | some bound => lift bound.dropSpecRest
  | none => pure t

/-- The two types as they are compared: methods without their receivers, and the candidate for the
receiver's class. Methods of a metaclass receive the class object itself. -/
def comparedTypes (m : Match) (found : FoundMember) (fromMetaclass : Bool) (dest source : Ty) :
    Check (Ty × Ty) := do
  if !source.isCallable then
    let dest ← lift (dest.substitute w.classes m.self false)
    pure (dest, source)
  else if fromMetaclass then
    let object := Ty.cls m.candidate
    let r : Receiver := ⟨some object, false, some object⟩
    let source ← boundOr w j r source none
    let dest ← boundOr w j r dest none
    pure (dest, source)
  else
    let dest ← lift (dest.substitute w.classes m.self false)
    let source ← boundOr w j m.receiver source found.owner
    let dest ← boundOr w j (.of (.cls m.candidate.toInstance)) dest found.owner
    pure (dest, source)

/-- The class of a property. -/
def property? (t : Ty) : Option ClassTy :=
  t.asInstance?.bind fun c => if w.classes.isProperty c then some c.toClassObject else none

/-- A property is satisfied by a property or, for reading, by anything of the type it yields. -/
def assignToProperty (m : Match) (r : Requirement) (property : ClassTy) (source : Ty) :
    Check Bool := do
  match property? w source, m.asObject with
  | some sourceProperty, false =>
    child (assignProperty w j
      ⟨property, sourceProperty, r.owner, m.candidate, some m.self⟩)
  | _, _ =>
    match ← getterType w property true with
    | none => pure false
    | some t => child (j.assign m.mode (some t) (some source))

def tellMember (wording : Wording) (r : Requirement) : Check Unit :=
  tell wording fun _ => [("name", r.name)]

/-- The types of the two members fit. Variables that may be assigned again must have the same
type. -/
def assignMember (m : Match) (r : Requirement) (dest source : Ty) : Check Bool :=
  match property? w dest with
  | some property =>
    explained (m.assignToProperty w j r property source) (tellMember .memberMismatch r)
  | none =>
    let mutable := r.member.isMutableVariable
    explained
      (child (j.assign { m.mode with invariant := mutable } (some dest) (some source)))
      (do
        if mutable then tellMember .memberInvariant r
        tellMember .memberMismatch r)

/-- Both members are final variables or neither is. -/
def agreeOnFinal (r : Requirement) (found : FoundMember) : Check Bool :=
  if r.member.isFinal == found.member.isFinal then pure true
  else
    refuse (if r.member.isFinal then .memberFinalInProtocol else .memberNotFinalInProtocol)
      fun _ => [("name", r.name)]

/-- The member that was found has the type that is asked for. -/
def matchType (m : Match) (r : Requirement) (found : FoundMember) (fromMetaclass : Bool) :
    Check Bool := do
  match r.member.declaredType with
  | none => pure true
  | some t =>
    let dest ← r.seenFrom w m.protocol t
    let source ← m.foundType w found
    let (dest, source) ← m.comparedTypes w j found fromMetaclass dest source
    child do
      let fits ← m.assignMember w j r dest source
      let agree ← agreeOnFinal r found
      pure (fits && agree)

/-- A class variable is asked for and found. -/
def agreeOnClassVar (r : Requirement) (found : FoundMember) : Check Bool :=
  if r.member.flags.classVar && !found.member.flags.inClass then
    refuse .memberNotClassVar fun _ => [("name", r.name)]
  else pure true

/-- The candidate has what a requirement asks for. -/
def matchMember (m : Match) (r : Requirement) : Check Bool := do
  match ← m.find w r.name with
  | none => refuse .memberMissing fun _ => [("name", r.name)]
  | some (found, fromMetaclass) =>
    let fits ← m.matchType w j r found fromMetaclass
    let agree ← agreeOnClassVar r found
    pure (fits && agree)

/-- The comparison of a class with a protocol, both as class objects. A typed dictionary is looked
at through the class that stands for all of them. -/
def of (protocol candidate : ClassTy) (asObject : Bool) : Match :=
  let self :=
    (Solution.forScope (w.classes.decl protocol.id).scope).withSelf w.classes protocol candidate
  let candidate :=
    if w.classes.isTypedDict candidate && !w.typedDict.isInstance then w.typedDict else candidate
  ⟨protocol, candidate, asObject, self⟩

end Match

/-- Solves the parameters of a protocol by what the requirements find, and compares the solution
with the type arguments if all of them are met. -/
def meetAll (mode : Mode) (protocol : ClassTy) (rs : List Requirement)
    (meets : Requirement → Check Bool) : Check Bool := do
  let d := w.classes.decl protocol.id
  let (met, solved) ← solvingFor (some (Solution.forScope d.scope)) do
    let met ← allOf meets rs
    let σ ← solution
    pure (met, σ.getD .empty)
  if met && !d.params.isEmpty && protocol.args.isSome then
    let found ← lift (protocol.generic.substitute w.classes solved true)
    assignArguments w j mode protocol found
  else pure met

/-- Compares a class with a protocol; both are class objects. -/
def matchMembers (mode : Mode) (asObject : Bool) (protocol candidate : ClassTy) : Check Bool := do
  if mode.invariant then
    let inf ← inference
    pure ((Ty.cls protocol).same inf (.cls candidate))
  else
    let m := Match.of w protocol candidate asObject
    meetAll w j mode protocol (Requirement.all w.classes asObject protocol) (m.matchMember w j)

/-- The comparison is in progress. -/
def isPending (inf : Inference) (entries : List Pending) (entry : Pending) : Bool :=
  entries.any fun e =>
    (Ty.cls e.candidate).same inf (.cls entry.candidate) &&
      (Ty.cls e.protocol).same inf (.cls entry.protocol)

/-- Compares a class with a protocol unless that is in progress on the chosen stack. -/
def matchClass (choice : StackChoice) (mode : Mode) (asObject : Bool)
    (protocol candidate : ClassTy) : Check Bool := do
  let entry : Pending := ⟨candidate.toClassObject, protocol.toClassObject⟩
  let s ← get
  if isPending s.inference (pendingOn choice s) entry then
    record (.assumed ⟨entry, asObject⟩)
    pure true
  else
    whilePending choice ⟨entry, asObject⟩
      (matchMembers w j mode asObject entry.protocol entry.candidate)

/-- The type of a module member as it is compared: functions of a module stand for bound
methods. -/
def moduleRequiredType (protocol : ClassTy) (r : Requirement) (t source : Ty) : Check Ty := do
  let dest ← r.seenFrom w protocol t
  if source.isCallable && dest.isCallable then
    let bound ← bind w j (.of (.cls protocol.toInstance)) dest (some protocol)
    pure (bound.getD dest)
  else pure dest

/-- A module has what a requirement asks for. -/
def matchModuleMember (protocol : ClassTy) (members : MemberTable) (r : Requirement) :
    Check Bool := do
  match members.find? r.name with
  | none => refuse .memberMissing fun _ => [("name", r.name)]
  | some member =>
    match r.member.declaredType with
    | none => pure true
    | some t =>
      let inf ← inference
      let source := member.effectiveType inf
      let dest ← moduleRequiredType w j protocol r t source
      child <| explained (child (j.assign .default (some dest) (some source)))
        (Match.tellMember .memberMismatch r)

/-- Compares a module with a protocol. -/
def matchModule (mode : Mode) (protocol : ClassTy) (table : TableId) : Check Bool :=
  let protocol := protocol.toClassObject
  meetAll w j mode protocol (Requirement.all w.classes true protocol)
    (matchModuleMember w j protocol (w.moduleMembers table))

end

end Conformance
