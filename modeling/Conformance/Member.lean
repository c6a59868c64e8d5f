import Conformance.Ty.Union

/-!
# Members

What a class body or a module declares: named members in the order of their first declaration, each
with its declarations.
-/

namespace Conformance

inductive DeclarationKind
  | variable
  | parameter
  | function
  | classDef
deriving DecidableEq, Repr

/-- One declaration of a member: the type written for it and the type found for its value. -/
structure Declaration where
  kind : DeclarationKind
  annotation : Option Ty
  inferred : Option Ty
  isFinal : Bool

namespace Declaration

def annotated (t : Option Ty) (isFinal : Bool) : Declaration := ⟨.variable, t, none, isFinal⟩

def unannotated (t : Option Ty) (isFinal : Bool) : Declaration := ⟨.variable, none, t, isFinal⟩

def function (t : Option Ty) : Declaration := ⟨.function, t, none, false⟩

def classDef (t : Option Ty) : Declaration := ⟨.classDef, t, none, false⟩

/-- Functions, classes and final variables declare a type, written or not. -/
def isTyped (d : Declaration) : Bool :=
  d.kind == .function || d.kind == .classDef || d.annotation.isSome ||
    (d.kind == .variable && d.isFinal)

/-- The type that a typed declaration declares. -/
def declaredType (d : Declaration) : Ty := (d.annotation.or d.inferred).getD .unknown

end Declaration

structure MemberFlags where
  /-- Declared in the class body. -/
  inClass : Bool
  /-- Assigned through the receiver in a method. -/
  inInstance : Bool
  classVar : Bool
  /-- Takes no part in matching a protocol. -/
  ignored : Bool
deriving DecidableEq, Repr

namespace MemberFlags

def none : MemberFlags := ⟨false, false, false, false⟩

def classBody : MemberFlags := ⟨true, false, false, false⟩

end MemberFlags

/-- A member with its declarations, or with a type that stands for them. -/
structure Member where
  flags : MemberFlags
  declarations : List Declaration
  synthesized : Option Ty

namespace Member

def ofType (flags : MemberFlags) (t : Option Ty) : Member := ⟨flags, [], t⟩

def ofDeclarations (flags : MemberFlags) (ds : List Declaration) : Member := ⟨flags, ds, none⟩

/-- The member that a base of unknown type may have under any name. -/
def unresolved : Member := ofType .none (some .unknown)

def typedDeclarations (m : Member) : List Declaration := m.declarations.filter (·.isTyped)

def hasTypedDeclarations (m : Member) : Bool :=
  m.synthesized.isSome || m.declarations.any (·.isTyped)

/-- A typed declaration is that of a final variable. -/
def isFinal (m : Member) : Bool :=
  m.typedDeclarations.any fun d => d.kind == .variable && d.isFinal

/-- The first declaration is that of a variable that may be assigned again. -/
def isMutableVariable (m : Member) : Bool :=
  match m.declarations with
  | d :: _ => d.kind == .variable && !d.isFinal
  | [] => false

/-- The type of the last typed declaration. -/
def declaredType (m : Member) : Option Ty :=
  match m.typedDeclarations.getLast? with
  | some d => some d.declaredType
  | none => m.synthesized

/-- The declared type, else the union of the types found for the values. -/
def effectiveType (m : Member) (inf : Inference) : Ty :=
  match m.declaredType with
  | some t => t
  | none => Ty.combine inf (m.declarations.map (·.inferred))

end Member

/-- Members under distinct names, in the order in which they were added. -/
structure MemberTable where
  entries : List (String × Member)

namespace MemberTable

def empty : MemberTable := ⟨[]⟩

instance : Inhabited MemberTable := ⟨empty⟩

def find? (table : MemberTable) (name : String) : Option Member := table.entries.lookup name

def names (table : MemberTable) : List String := table.entries.map (·.1)

def size (table : MemberTable) : Nat := table.entries.length

/-- Adds a member at the end; none if the name is taken. -/
def insert? (table : MemberTable) (name : String) (m : Member) : Option MemberTable :=
  if (table.find? name).isSome then none else some ⟨table.entries ++ [(name, m)]⟩

end MemberTable

end Conformance
