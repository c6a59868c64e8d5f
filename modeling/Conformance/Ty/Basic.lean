import Conformance.Ty.Variance

/-!
# Types

A type is a tree. Classes and the tables of modules are referred to by number, so a type does not
contain what they declare, and a type may mention a class that is still being declared. Where a
type may be left out (a parameter without annotation, a missing argument) it is an option.

A function without a declared return type may have one that is found out on demand. Its outcome is
fixed from the start; whether it has been asked for yet is kept under the number of a cell (see
`Conformance.Inference`).
-/

namespace Conformance

abbrev ClassId := Nat

abbrev TableId := Nat

abbrev CellId := Nat

inductive ParamKind
  | simple
  /-- Takes the remaining positional arguments. -/
  | args
  /-- Takes the remaining keyword arguments. -/
  | kwargs
deriving DecidableEq, Repr

inductive MethodKind
  | instanceMethod
  | classMethod
  | staticMethod
deriving DecidableEq, Repr

/-- The part of a parameter specification that a mention of it stands for. -/
inductive Access
  | whole
  | args
  | kwargs
deriving DecidableEq, Repr

mutual

inductive Ty
  | unknown
  | any
  /-- The type of the one null object. -/
  | noneObject
  | cls (c : ClassTy)
  | module (name : String) (table : TableId)
  | function (f : FunctionTy)
  | overloaded (overloads : List FunctionTy)
  | var (v : TypeVar)
  | union (members : List Ty)

/-- A view of a class: the class object or an instance of it, perhaps with type arguments, perhaps
narrowed to one literal value. -/
structure ClassTy where
  id : ClassId
  isInstance : Bool
  args : Option (List (Option Ty))
  explicit : Bool
  literal : Option String

structure FunctionTy where
  name : String
  params : List Param
  ret : Return
  kind : MethodKind
  scope : String

structure Param where
  kind : ParamKind
  name : String
  type : Option Ty
  hasDefault : Bool

/-- The return type of a function as declared, or how it is found out. -/
inductive Return
  | declared (t : Ty)
  | undeclared
  | deferred (cell : CellId) (outcome : Outcome)

/-- What finding out a return type yields. -/
inductive Outcome
  | returns (t : Option Ty)
  | raises (message : String)

structure TypeVar where
  name : String
  scope : String
  variance : Variance
  bound : Option Ty
  isSelf : Bool
  isParamSpec : Bool
  access : Access

end

instance : Inhabited Ty := ⟨.unknown⟩

inductive Category
  | unknown
  | any
  | noneObject
  | cls
  | module
  | function
  | overloaded
  | var
  | union
deriving DecidableEq, Repr

namespace Ty

/-- Nested comparisons and substitutions give up below this many levels. -/
def levels : Nat := 15

def category : Ty → Category
  | unknown => .unknown
  | any => .any
  | noneObject => .noneObject
  | cls _ => .cls
  | module _ _ => .module
  | function _ => .function
  | overloaded _ => .overloaded
  | var _ => .var
  | union _ => .union

def isAnyOrUnknown : Ty → Bool
  | unknown | any => true
  | _ => false

def isCallable : Ty → Bool
  | function _ | overloaded _ => true
  | _ => false

def asClass? : Ty → Option ClassTy
  | cls c => some c
  | _ => none

def asFunction? : Ty → Option FunctionTy
  | function f => some f
  | _ => none

/-- The class of an instance. -/
def asInstance? : Ty → Option ClassTy
  | cls c => if c.isInstance then some c else none
  | _ => none

/-- The class of a class object. -/
def asClassObject? : Ty → Option ClassTy
  | cls c => if c.isInstance then none else some c
  | _ => none

def isInstance (t : Ty) : Bool := t.asInstance?.isSome

def isClassObject (t : Ty) : Bool := t.asClassObject?.isSome

end Ty

namespace ClassTy

/-- The class object of a class without type arguments. -/
def ofId (id : ClassId) : ClassTy := ⟨id, false, none, false, none⟩

instance : Inhabited ClassTy := ⟨ofId 0⟩

def toInstance (c : ClassTy) : ClassTy := { c with isInstance := true }

def toClassObject (c : ClassTy) : ClassTy := { c with isInstance := false }

def withArgs (c : ClassTy) (args : List (Option Ty)) (explicit : Bool) : ClassTy :=
  { c with args := some args, explicit := explicit }

/-- The class without type arguments. -/
def generic (c : ClassTy) : ClassTy := { c with args := none, explicit := false }

def withLiteral (c : ClassTy) (literal : Option String) : ClassTy := { c with literal := literal }

/-- Both are views of one class. -/
def sameClass (c d : ClassTy) : Bool := c.id == d.id

/-- The type arguments, none if they are left out. -/
def argList (c : ClassTy) : List (Option Ty) := c.args.getD []

end ClassTy

namespace Param

/-- A name that begins with two underscores and does not end with two takes no keyword. -/
def isPositionalOnly (p : Param) : Bool := p.name.startsWith "__" && !p.name.endsWith "__"

/-- A parameter without annotation accepts anything. -/
def typeOrUnknown (p : Param) : Ty := p.type.getD .unknown

end Param

namespace FunctionTy

def declaredReturn (f : FunctionTy) : Option Ty :=
  match f.ret with
  | .declared t => some t
  | _ => none

end FunctionTy

namespace TypeVar

def make (name scope : String) (variance : Variance) (bound : Option Ty) : TypeVar :=
  ⟨name, scope, variance, bound, false, false, .whole⟩

def paramSpec (name scope : String) : TypeVar :=
  ⟨name, scope, .invariant, none, false, true, .whole⟩

/-- The variable that stands for the class of the receiver, bound to an instance of the class. -/
def self (name scope : String) (c : ClassTy) : TypeVar :=
  ⟨"Self@" ++ name, scope, .invariant, some (.cls c.generic.toInstance), true, false, .whole⟩

end TypeVar

/-- The pairs at the same place of two lists; the shorter list goes on with unknown types. -/
def padPairs : List (Option Ty) → List (Option Ty) → List (Option Ty × Option Ty)
  | [], bs => bs.map fun b => (some .unknown, b)
  | a :: as, [] => (a :: as).map fun a => (a, some .unknown)
  | a :: as, b :: bs => (a, b) :: padPairs as bs

theorem length_padPairs (as bs : List (Option Ty)) :
    (padPairs as bs).length = max as.length bs.length := by
  fun_induction padPairs as bs <;> simp_all

/-- What holds of an unknown type and of the entries of a list holds of that side of the pairs. -/
theorem forall_mem_padPairs {P Q : Option Ty → Prop} {as bs : List (Option Ty)}
    (left : P (some .unknown)) (right : Q (some .unknown)) (ha : ∀ a ∈ as, P a)
    (hb : ∀ b ∈ bs, Q b) : ∀ p ∈ padPairs as bs, P p.1 ∧ Q p.2 := by
  fun_induction padPairs as bs with
  | case1 bs => simpa [left] using hb
  | case2 a as => simpa [right] using ha
  | case3 a as b bs ih =>
    rw [List.forall_mem_cons] at ha hb
    exact List.forall_mem_cons.2 ⟨⟨ha.1, hb.1⟩, ih ha.2 hb.2⟩

theorem padPairs_swap (as bs : List (Option Ty)) :
    padPairs bs as = (padPairs as bs).map Prod.swap := by
  fun_induction padPairs as bs with
  | case1 bs => cases bs <;> simp [padPairs]
  | case2 a as => simp [padPairs]
  | case3 a as b bs ih => simp [padPairs, ih]

/-- The pairs are related if the entries at each place are, an unknown type beyond the last one. -/
theorem forall_padPairs_iff {R : Option Ty → Option Ty → Prop}
    (unknown : R (some .unknown) (some .unknown)) (as bs : List (Option Ty)) :
    (∀ p ∈ padPairs as bs, R p.1 p.2) ↔
      ∀ i : Nat, R ((as[i]?).getD (some .unknown)) ((bs[i]?).getD (some .unknown)) := by
  fun_induction padPairs as bs with
  | case1 bs =>
    simp only [List.mem_map, forall_exists_index, and_imp, forall_apply_eq_imp_iff₂]
    refine ⟨fun h i => ?_, fun h b hb => ?_⟩
    · cases hi : bs[i]? with
      | none => simpa using unknown
      | some b => simpa using h b (List.mem_of_getElem? hi)
    · obtain ⟨i, hi⟩ := List.getElem?_of_mem hb
      simpa [hi] using h i
  | case2 a as =>
    simp only [List.mem_map, forall_exists_index, and_imp, forall_apply_eq_imp_iff₂]
    refine ⟨fun h i => ?_, fun h b hb => ?_⟩
    · cases hi : (a :: as)[i]? with
      | none => simpa using unknown
      | some b => simpa using h b (List.mem_of_getElem? hi)
    · obtain ⟨i, hi⟩ := List.getElem?_of_mem hb
      simpa [hi] using h i
  | case3 a as b bs ih =>
    rw [List.forall_mem_cons, ih]
    refine ⟨fun h i => ?_, fun h => ⟨by simpa using h 0, fun i => by simpa using h (i + 1)⟩⟩
    cases i with
    | zero => simpa using h.1
    | succ i => simpa using h.2 i

end Conformance
