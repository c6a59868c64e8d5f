import Conformance.Proofs.Learning
import Conformance.Proofs.Sameness

/-!
# The cells of a type

A type mentions the return types that are kept in cells wherever it mentions the functions that they
belong to. Whether two types are the same depends on which of their cells are settled, and on nothing
else that is known about return types.
-/

namespace Conformance

/-- The type mentions a function whose return type is kept in the cell. -/
inductive Ty.Defers (cell : CellId) : Ty → Prop
  | here {f : FunctionTy} {outcome : Outcome} (ret : f.ret = .deferred cell outcome) :
      Ty.Defers cell (.function f)
  | found {f : FunctionTy} {other : CellId} {t : Ty}
      (ret : f.ret = .deferred other (.returns (some t))) (inner : Ty.Defers cell t) :
      Ty.Defers cell (.function f)
  | declared {f : FunctionTy} {t : Ty} (ret : f.ret = .declared t) (inner : Ty.Defers cell t) :
      Ty.Defers cell (.function f)
  | param {f : FunctionTy} {p : Param} {t : Ty} (here : p ∈ f.params) (typed : p.type = some t)
      (inner : Ty.Defers cell t) : Ty.Defers cell (.function f)
  | overload {fs : List FunctionTy} {f : FunctionTy} (here : f ∈ fs)
      (inner : Ty.Defers cell (.function f)) : Ty.Defers cell (.overloaded fs)
  | argument {c : ClassTy} {t : Ty} (here : some t ∈ c.argList) (inner : Ty.Defers cell t) :
      Ty.Defers cell (.cls c)
  | bound {v : TypeVar} {t : Ty} (bound : v.bound = some t) (inner : Ty.Defers cell t) :
      Ty.Defers cell (.var v)
  | alternative {ts : List Ty} {t : Ty} (here : t ∈ ts) (inner : Ty.Defers cell t) :
      Ty.Defers cell (.union ts)

def Inference.AgreeOn (inf inf' : Inference) (t : Ty) : Prop :=
  ∀ cell, t.Defers cell → inf'.isSettled cell = inf.isSettled cell

variable {inf inf' : Inference}

theorem Ty.Defers.of_returnType {cell : CellId} {f : FunctionTy}
    (h : (inf.returnType f).Defers cell) : (Ty.function f).Defers cell := by
  unfold Inference.returnType at h
  cases hr : f.ret with
  | declared t =>
    rw [hr] at h
    exact .declared hr h
  | undeclared =>
    rw [hr] at h
    cases h
  | deferred other outcome =>
    rw [hr] at h
    dsimp only at h
    split at h
    · cases outcome with
      | returns t =>
        cases t with
        | none => cases h
        | some t => exact .found hr h
      | raises message => cases h
    · cases h

namespace Inference.AgreeOn

variable {t u : Ty} {f : FunctionTy}

theorem argument {c : ClassTy} (h : inf.AgreeOn inf' (.cls c)) {o : Option Ty}
    (ho : o ∈ c.argList) (ht : o = some t) : inf.AgreeOn inf' t :=
  fun cell hc => h cell (.argument (ht ▸ ho) hc)

theorem alternative {ts : List Ty} (h : inf.AgreeOn inf' (.union ts)) (ht : t ∈ ts) :
    inf.AgreeOn inf' t :=
  fun cell hc => h cell (.alternative ht hc)

theorem overload {fs : List FunctionTy} (h : inf.AgreeOn inf' (.overloaded fs)) (hf : f ∈ fs) :
    inf.AgreeOn inf' (.function f) :=
  fun cell hc => h cell (.overload hf hc)

theorem typeOrUnknown (h : inf.AgreeOn inf' (.function f)) {p : Param} (hp : p ∈ f.params) :
    inf.AgreeOn inf' p.typeOrUnknown := by
  unfold Param.typeOrUnknown
  intro cell hc
  cases typed : p.type with
  | none =>
    rw [typed] at hc
    cases hc
  | some t =>
    rw [typed] at hc
    exact h cell (.param hp typed hc)

theorem returned (h : inf.AgreeOn inf' (.function f)) : inf.AgreeOn inf' (inf.returnType f) :=
  fun cell hc => h cell hc.of_returnType

theorem returnType_eq (h : inf.AgreeOn inf' (.function f)) :
    inf'.returnType f = inf.returnType f := by
  unfold Inference.returnType
  cases hr : f.ret with
  | deferred cell outcome =>
    dsimp only
    rw [h cell (.here hr)]
  | _ => rfl

theorem unknown : inf.AgreeOn inf' .unknown := fun _ hc => nomatch hc

/-- What the cells of two types say is all that their sameness depends on. -/
theorem sameAt_eq (ht : inf.AgreeOn inf' t) (hu : inf.AgreeOn inf' u) (n : Nat) :
    sameAt inf' n t u = sameAt inf n t u := by
  induction n generalizing t u with
  | zero => rfl
  | succ n ih =>
    have functions {f g : FunctionTy} (hf : inf.AgreeOn inf' (.function f))
        (hg : inf.AgreeOn inf' (.function g)) :
        sameFunction inf' (sameAt inf' n) f g = sameFunction inf (sameAt inf n) f g := by
      simp only [sameFunction, hf.returnType_eq, hg.returnType_eq, ih hf.returned hg.returned]
      congr 2
      refine allPairs_congr fun p hp q hq => ?_
      simp only [sameParam, ih (hf.typeOrUnknown hp) (hg.typeOrUnknown hq)]
    cases t with
    | cls c =>
      cases u with
      | cls d =>
        simp only [sameAt, sameClassTy]
        congr 1
        have given := forall_mem_padPairs
          (P := fun o => ∀ t, o = some t → inf.AgreeOn inf' t)
          (Q := fun o => ∀ t, o = some t → inf.AgreeOn inf' t)
          (fun t h => Option.some.inj h ▸ unknown) (fun t h => Option.some.inj h ▸ unknown)
          (fun o ho t h => ht.argument ho h) (fun o ho t h => hu.argument ho h)
        exact all_congr fun p hp => sameOption_congr fun t ht u hu =>
          ih ((given p hp).1 t ht) ((given p hp).2 u hu)
      | _ => rfl
    | function f =>
      cases u with
      | function g => exact functions ht hu
      | _ => rfl
    | overloaded fs =>
      cases u with
      | overloaded gs =>
        exact allPairs_congr fun f hf g hg => ih (ht.overload hf) (hu.overload hg)
      | _ => rfl
    | union ts =>
      cases u with
      | union us =>
        simp only [sameAt]
        congr 1
        refine all_congr fun t' ht' => ?_
        rw [Bool.eq_iff_iff, List.any_eq_true, List.any_eq_true]
        refine exists_congr fun u' => and_congr_right fun hu' => ?_
        rw [ih (ht.alternative ht') (hu.alternative hu')]
      | _ => rfl
    | _ => cases u <;> rfl

theorem same_eq (ht : inf.AgreeOn inf' t) (hu : inf.AgreeOn inf' u) :
    t.same inf' u = t.same inf u :=
  ht.sameAt_eq hu Ty.levels

end Inference.AgreeOn

end Conformance
