import Conformance.Member

/-!
# Class declarations

What the views of one class share, and the table of all declared classes. Classes are only ever
added; a class is known by its place in the table.
-/

namespace Conformance

structure ClassFlags where
  builtin : Bool
  protocol : Bool
  typedDict : Bool
  property : Bool
  isFinal : Bool
deriving DecidableEq, Repr

namespace ClassFlags

def none : ClassFlags := ⟨false, false, false, false, false⟩

end ClassFlags

/-- A base of a class or an entry of its linearization: a class object, or something that is not
one, of which nothing is known. The mark tells the written occurrences of the latter apart, and is
zero where there is nothing to tell apart. -/
inductive Ancestor
  | resolved (c : ClassTy)
  | unresolved (t : Option Ty) (mark : Nat)

namespace Ancestor

def unknown : Ancestor := unresolved (some .unknown) 0

/-- A base as it is written. -/
def ofBase (t : Option Ty) (mark : Nat) : Ancestor :=
  match t with
  | some (.cls c) => if c.isInstance then unresolved t mark else resolved c
  | some .unknown | some .any | some .noneObject | none => unresolved t 0
  | _ => unresolved t mark

def toTy : Ancestor → Option Ty
  | resolved c => some (.cls c)
  | unresolved t _ => t

/-- The class object, of a base that is one. -/
def class? : Ancestor → Option ClassTy
  | resolved c => some c
  | unresolved _ _ => none

/-- The class that an entry is a view of, a class object or not. -/
def classId? : Ancestor → Option ClassId
  | resolved c => some c.id
  | unresolved (some (.cls c)) _ => some c.id
  | unresolved _ _ => none

/-- Both are views of one class, or one occurrence of something that is no class object. -/
def same : Ancestor → Ancestor → Bool
  | resolved c, resolved d => c.sameClass d
  | unresolved t m, unresolved u n => m == n && t.map Ty.category == u.map Ty.category
  | _, _ => false

end Ancestor

/-- The declaration of a class. The linearization holds the ancestors without the class itself,
nearest first. -/
structure ClassDecl where
  name : String
  fullName : String
  scope : String
  flags : ClassFlags
  bases : List Ancestor
  mro : List Ancestor
  members : MemberTable
  params : List TypeVar
  metaclass : Option Ty
  getter : Option FunctionTy
  setter : Option FunctionTy
  deleter : Option FunctionTy

namespace ClassDecl

def fresh (name fullName scope : String) (flags : ClassFlags) : ClassDecl :=
  ⟨name, fullName, scope, flags, [], [], .empty, [], none, none, none, none⟩

instance : Inhabited ClassDecl := ⟨fresh "" "" "" .none⟩

end ClassDecl

/-- The classes declared so far. -/
structure ClassTable where
  decls : Array ClassDecl

namespace ClassTable

def empty : ClassTable := ⟨#[]⟩

instance : Inhabited ClassTable := ⟨empty⟩

def size (table : ClassTable) : Nat := table.decls.size

def decl (table : ClassTable) (id : ClassId) : ClassDecl := table.decls.getD id default

def push (table : ClassTable) (d : ClassDecl) : ClassTable := ⟨table.decls.push d⟩

def modify (table : ClassTable) (id : ClassId) (f : ClassDecl → ClassDecl) : ClassTable :=
  ⟨table.decls.modify id f⟩

def nameOf (table : ClassTable) (id : ClassId) : String := (table.decl id).name

/-- The scope that a type belongs to: that of a class or function, or that of a variable. -/
def scopeOf (table : ClassTable) : Ty → String
  | .cls c => (table.decl c.id).scope
  | .function f => f.scope
  | .var v => v.scope
  | _ => ""

/-- A builtin class; of the given name unless that is empty. -/
def isBuiltin (table : ClassTable) (c : ClassTy) (name : String) : Bool :=
  (table.decl c.id).flags.builtin && (name.isEmpty || table.nameOf c.id == name)

def isProtocol (table : ClassTable) (c : ClassTy) : Bool := (table.decl c.id).flags.protocol

def isTypedDict (table : ClassTable) (c : ClassTy) : Bool := (table.decl c.id).flags.typedDict

def isProperty (table : ClassTable) (c : ClassTy) : Bool := (table.decl c.id).flags.property

/-- The class object that makes the class objects of this class. -/
def metaclass? (table : ClassTable) (c : ClassTy) : Option ClassTy :=
  (table.decl c.id).metaclass.bind Ty.asClassObject?

/-- The variable that stands for the receiver in the members of a class. -/
def selfVar (table : ClassTable) (c : ClassTy) : TypeVar :=
  TypeVar.self (table.nameOf c.id) (table.decl c.id).scope c

/-- Whether the second class is the first or one of its ancestors. -/
def derives (table : ClassTable) (c ancestor : ClassTy) : Bool :=
  c.sameClass ancestor || (table.decl c.id).mro.any (·.classId? == some ancestor.id)

theorem decl_of_size_le {table : ClassTable} {id : ClassId} (h : table.size ≤ id) :
    table.decl id = default := by
  rw [decl, Array.getD_eq_getD_getElem?, Array.getElem?_eq_none h, Option.getD_none]

@[simp] theorem size_push (table : ClassTable) (d : ClassDecl) :
    (table.push d).size = table.size + 1 := by
  simp [push, size]

@[simp] theorem size_modify (table : ClassTable) (id : ClassId) (f : ClassDecl → ClassDecl) :
    (table.modify id f).size = table.size := by
  simp [modify, size]

theorem decl_push (table : ClassTable) (d : ClassDecl) (id : ClassId) :
    (table.push d).decl id = if id = table.size then d else table.decl id := by
  simp only [decl, push, size, Array.getD_eq_getD_getElem?, Array.getElem?_push]
  split <;> rfl

/-- A change of a declaration changes no other. -/
theorem decl_modify (table : ClassTable) (id other : ClassId) (f : ClassDecl → ClassDecl) :
    (table.modify id f).decl other =
      if id = other ∧ other < table.size then f (table.decl other) else table.decl other := by
  simp only [decl, modify, size, Array.getD_eq_getD_getElem?, Array.getElem?_modify]
  rcases Nat.lt_or_ge other table.decls.size with h | h
  · by_cases hid : id = other <;> simp [hid, h]
  · simp [Nat.not_lt.2 h]

end ClassTable

end Conformance
