import Conformance.Hierarchy.Lookup

/-!
# Declaring classes

The catalog holds the declared classes and numbers the scopes of type variables. Every class and
every function that is given a scope takes the next number, so no two scopes are alike.
-/

namespace Conformance

structure Catalog where
  classes : ClassTable
  nextScope : Nat
  /-- The next number for a base that is no class object. -/
  nextMark : Nat

namespace Catalog

def empty : Catalog := ⟨.empty, 0, 1⟩

instance : Inhabited Catalog := ⟨empty⟩

/-- The scope of the given number. -/
def scopeName (name : String) (number : Nat) : String := name ++ "." ++ toString number

/-- The name of a class with that of its module in front. -/
def qualified (moduleName name : String) : String :=
  if moduleName.isEmpty then name else moduleName ++ "." ++ name

/-- Declares a class that has no bases yet. -/
def addClass (cat : Catalog) (name : String) (flags : ClassFlags) (moduleName : String) :
    ClassTy × Catalog :=
  let fullName := qualified moduleName name
  let d := ClassDecl.fresh name fullName (scopeName fullName cat.nextScope) flags
  (.ofId cat.classes.size,
    { cat with classes := cat.classes.push d, nextScope := cat.nextScope + 1 })

/-- A scope for the type variables of a function. -/
def functionScope (cat : Catalog) (name : String) : String × Catalog :=
  (scopeName name cat.nextScope, { cat with nextScope := cat.nextScope + 1 })

def modify (cat : Catalog) (c : ClassTy) (f : ClassDecl → ClassDecl) : Catalog :=
  { cat with classes := cat.classes.modify c.id f }

def scopeOf (cat : Catalog) (c : ClassTy) : String := (cat.classes.decl c.id).scope

/-- Adds a type variable at the end of the parameters of a class. -/
def addParam (cat : Catalog) (c : ClassTy) (v : TypeVar) : Catalog :=
  cat.modify c fun d => { d with params := d.params ++ [v] }

/-- Adds a member to a class; none if the name is taken. -/
def addMember? (cat : Catalog) (c : ClassTy) (name : String) (m : Member) : Option Catalog :=
  ((cat.classes.decl c.id).members.insert? name m).map fun table =>
    cat.modify c fun d => { d with members := table }

/-- Numbers the bases from the next mark on. -/
def markBases (mark : Nat) : List (Option Ty) → List Ancestor
  | [] => []
  | t :: ts => Ancestor.ofBase t mark :: markBases (mark + 1) ts

/-- Sets the bases of a class and orders its ancestors anew; the flag says whether an order
exists. -/
def setBases (cat : Catalog) (c : ClassTy) (bases : List (Option Ty)) :
    StateM Inference (Catalog × Bool) := do
  let marked := cat.modify c fun d => { d with bases := markBases cat.nextMark bases }
  let (classes, consistent) ← marked.classes.linearize c.id
  pure ({ marked with classes := classes, nextMark := cat.nextMark + bases.length }, consistent)

/-- The metaclass of the first base that is a class object. -/
def inheritedMetaclass (cat : Catalog) (bases : List (Option Ty)) : Option Ty :=
  (bases.findSome? fun t => t.bind Ty.asClassObject?).bind fun c =>
    (cat.classes.decl c.id).metaclass

end Catalog

end Conformance
