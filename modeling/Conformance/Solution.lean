import Conformance.Hierarchy.ClassTable

/-!
# Solutions of type variables

A solution says which scopes are being solved and which types were found for type variables so far.
A variable is known by its name and its scope.
-/

namespace Conformance

/-- The key of a variable: its name and its scope with an at sign between them. -/
def TypeVar.key (v : TypeVar) : String := v.name ++ "@" ++ v.scope

structure Solution where
  scopes : List String
  entries : List (String × Option Ty)

namespace Solution

def empty : Solution := ⟨[], []⟩

instance : Inhabited Solution := ⟨empty⟩

def isEmpty (σ : Solution) : Bool := σ.entries.isEmpty

def size (σ : Solution) : Nat := σ.entries.length

/-- The empty scope is never solved. -/
def solves (σ : Solution) (scope : String) : Bool := !scope.isEmpty && σ.scopes.contains scope

def addScope (σ : Solution) (scope : String) : Solution :=
  if scope.isEmpty || σ.solves scope then σ else { σ with scopes := σ.scopes ++ [scope] }

def forScope (scope : String) : Solution := empty.addScope scope

/-- Replaces the value of a key where it stands, or adds it at the end. -/
def update (key : String) (t : Option Ty) : List (String × Option Ty) → List (String × Option Ty)
  | [] => [(key, t)]
  | e :: es => if e.1 = key then (key, t) :: es else e :: update key t es

/-- Records a type for a variable. -/
def insert (σ : Solution) (v : TypeVar) (t : Option Ty) : Solution :=
  { σ with entries := update v.key t σ.entries }

/-- The type found for a variable. -/
def get? (σ : Solution) (v : TypeVar) : Option Ty := (σ.entries.lookup v.key).join

/-- Gives each type parameter of a class its argument; parameters beyond the arguments are
unknown. Without arguments nothing is recorded. -/
def ofClass (classes : ClassTable) (c : ClassTy) : Solution :=
  let d := classes.decl c.id
  match c.args with
  | none => forScope d.scope
  | some args => go (forScope d.scope) d.params args
where
  go (σ : Solution) : List TypeVar → List (Option Ty) → Solution
    | [], _ => σ
    | v :: vs, [] => go (σ.insert v (some .unknown)) vs []
    | v :: vs, t :: ts => go (σ.insert v t) vs ts

/-- Lets the receiver of a class stand for an instance of another. -/
def withSelf (σ : Solution) (classes : ClassTable) (c self : ClassTy) : Solution :=
  let v := classes.selfVar c
  (σ.addScope v.scope).insert v (some (.cls self.toInstance))

theorem lookup_update (key other : String) (t : Option Ty) (es : List (String × Option Ty)) :
    (update key t es).lookup other = if other = key then some t else es.lookup other := by
  induction es with
  | nil =>
    by_cases h : other = key
    · simp [update, h]
    · simp [update, List.lookup_cons, h, beq_eq_false_iff_ne.2 h]
  | cons e es ih =>
    obtain ⟨k, u⟩ := e
    by_cases hk : k = key
    · subst hk
      by_cases h : other = k
      · simp [update, h]
      · simp [update, List.lookup_cons, h, beq_eq_false_iff_ne.2 h]
    · by_cases h : other = k
      · subst h
        simp [update, hk]
      · simp [update, hk, List.lookup_cons, beq_eq_false_iff_ne.2 h, ih]

/-- Recording a type for a variable changes the answer for its key alone. -/
theorem get?_insert (σ : Solution) (v w : TypeVar) (t : Option Ty) :
    (σ.insert v t).get? w = if w.key = v.key then t else σ.get? w := by
  by_cases h : w.key = v.key <;> simp [get?, insert, lookup_update, h]

@[simp] theorem scopes_insert (σ : Solution) (v : TypeVar) (t : Option Ty) :
    (σ.insert v t).scopes = σ.scopes := rfl

end Solution

end Conformance
