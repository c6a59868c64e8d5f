import Conformance.Ty.Inference

/-!
# Sameness of types

Two types are the same if they are equal up to what does not matter for a comparison: missing type
arguments and annotations count as unknown, the order of a union is free, and a return type counts
as far as it is known. The comparison gives up below a number of levels and then takes types of one
category for the same.
-/

namespace Conformance

section

variable (inf : Inference)

def sameOption (same : Ty → Ty → Bool) : Option Ty → Option Ty → Bool
  | none, none => true
  | some a, some b => same a b
  | _, _ => false

def sameParam (same : Ty → Ty → Bool) (p q : Param) : Bool :=
  p.kind == q.kind && p.name == q.name && same p.typeOrUnknown q.typeOrUnknown

/-- Two lists agree at each place. -/
def allPairs {α : Type} (same : α → α → Bool) : List α → List α → Bool
  | [], [] => true
  | a :: as, b :: bs => same a b && allPairs same as bs
  | _, _ => false

def sameFunction (same : Ty → Ty → Bool) (f g : FunctionTy) : Bool :=
  f.kind == g.kind && allPairs (sameParam same) f.params g.params &&
    same (inf.returnType f) (inf.returnType g)

def sameClassTy (same : Ty → Ty → Bool) (c d : ClassTy) : Bool :=
  c.sameClass d && c.isInstance == d.isInstance && c.literal == d.literal &&
    (padPairs c.argList d.argList).all fun p => sameOption same p.1 p.2

/-- Sameness to a number of levels. -/
def sameAt : Nat → Ty → Ty → Bool
  | 0, a, b => a.category == b.category
  | n + 1, a, b =>
    match a, b with
    | .unknown, .unknown => true
    | .any, .any => true
    | .noneObject, .noneObject => true
    | .cls c, .cls d => sameClassTy (sameAt n) c d
    | .module _ t, .module _ u => t == u
    | .function f, .function g => sameFunction inf (sameAt n) f g
    | .overloaded fs, .overloaded gs =>
      allPairs (fun f g => sameAt n (.function f) (.function g)) fs gs
    | .var v, .var w => v.name == w.name && v.scope == w.scope && v.access == w.access
    | .union ts, .union us =>
      ts.length == us.length && ts.all fun t => us.any fun u => sameAt n t u
    | _, _ => false

/-- The two types are the same. -/
def Ty.same (a b : Ty) : Bool := sameAt inf Ty.levels a b

end

theorem allPairs_self {α : Type} {same : α → α → Bool} (as : List α)
    (h : ∀ a ∈ as, same a a = true) : allPairs same as as = true := by
  induction as with
  | nil => rfl
  | cons a as ih => simp_all [allPairs]

theorem padPairs_self (as : List (Option Ty)) : padPairs as as = as.map fun a => (a, a) := by
  induction as with
  | nil => rfl
  | cons a as ih => simp [padPairs, ih]

theorem sameOption_self {same : Ty → Ty → Bool} (h : ∀ t, same t t = true) (t : Option Ty) :
    sameOption same t t = true := by
  cases t <;> simp [sameOption, h]

/-- A type is the same as itself. -/
theorem sameAt_self (inf : Inference) (n : Nat) (t : Ty) : sameAt inf n t t = true := by
  induction n generalizing t with
  | zero => simp [sameAt]
  | succ n ih =>
    cases t with
    | cls c =>
      simp only [sameAt, sameClassTy, ClassTy.sameClass, padPairs_self]
      simp [sameOption_self ih]
    | function f =>
      simp only [sameAt, sameFunction, ih, Bool.and_true]
      simp [allPairs_self, sameParam, ih]
    | overloaded fs => simp [sameAt, allPairs_self, ih]
    | union ts =>
      simp only [sameAt, beq_self_eq_true, Bool.true_and, List.all_eq_true, List.any_eq_true]
      exact fun t ht => ⟨t, ht, ih t⟩
    | _ => simp [sameAt]

end Conformance
