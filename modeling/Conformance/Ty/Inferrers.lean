import Conformance.Ty.Basic

/-!
# Inferrers

What an inferrer yields is part of the type of its function, and types are finite trees. A program calls
its inferrers later, and what they yield may mention any function, that of the inferrer included. Such
functions have types if none of them comes back to itself; otherwise there is no end to what a type
would hold, nor to its text.
-/

namespace Conformance

/-- The functions of a program whose return types are to be found out, with what their inferrers yield
once the types of all these functions are given. -/
structure Inferrers where
  function : Nat → FunctionTy
  cell : Nat → CellId
  yields : (Nat → FunctionTy) → Nat → Outcome

namespace Inferrers

/-- Types of the functions, each of which holds what its inferrer yields. -/
structure FiniteTypes (I : Inferrers) where
  type : Nat → FunctionTy
  holds (i : Nat) : type i = { I.function i with ret := .deferred (I.cell i) (I.yields type i) }

/-- There are none if an inferrer yields its own function. -/
theorem FiniteTypes.yields_ne_itself {I : Inferrers} (f : I.FiniteTypes) (i : Nat) :
    I.yields f.type i ≠ .returns (some (.function (f.type i))) := by
  intro own
  have held := congrArg sizeOf (f.holds i)
  rw [own] at held
  simp only [FunctionTy.mk.sizeOf_spec, Return.deferred.sizeOf_spec, Outcome.returns.sizeOf_spec,
    Option.some.sizeOf_spec, Ty.function.sizeOf_spec] at held
  omega

variable (I : Inferrers)

/-- The type of a function whose inferrer yields what is put together from the functions before it. -/
def typeOf (i : Nat) : FunctionTy :=
  { I.function i with
    ret := .deferred (I.cell i)
      (I.yields (fun k => if _earlier : k < i then typeOf k else I.function k) i) }
termination_by i

/-- Functions have types if each inferrer looks only at the functions before its own. -/
def finiteTypes (ordered : ∀ f g i, (∀ k < i, f k = g k) → I.yields f i = I.yields g i) :
    I.FiniteTypes where
  type := I.typeOf
  holds i := by
    rw [typeOf, ordered _ I.typeOf i fun k before => dif_pos before]

end Inferrers

end Conformance
