import Conformance.Assign.SelfComparison

/-!
# Handing out cells

Lookups and substitutions copy functions, and a copy of a function whose return type is still to be
found out gets a cell of its own. Nothing else about return types changes.
-/

namespace Conformance

/-- Open cells were added; which cells are settled and which finders were called stays the same. -/
structure Inference.Opened (inf inf' : Inference) : Prop where
  size : inf.settled.size ≤ inf'.settled.size
  settled (cell : CellId) : inf'.isSettled cell = inf.isSettled cell
  calls : inf'.calls = inf.calls

namespace Inference.Opened

theorem refl (inf : Inference) : inf.Opened inf := ⟨Nat.le_refl _, fun _ => rfl, rfl⟩

theorem trans {a b c : Inference} (h : a.Opened b) (h' : b.Opened c) : a.Opened c :=
  ⟨Nat.le_trans h.size h'.size, fun cell => (h'.settled cell).trans (h.settled cell),
    h'.calls.trans h.calls⟩

end Inference.Opened

def Opens {α : Type} (m : StateM Inference α) : Prop :=
  ∀ inf : Inference, inf.Opened (m inf).2

section

variable {α β : Type}

theorem opens_pure (a : α) : Opens (pure a) := fun inf => .refl inf

private theorem opens_get : Opens (get : StateM Inference Inference) := fun inf => .refl inf

theorem opens_bind {m : StateM Inference α} {k : α → StateM Inference β} (h : Opens m)
    (hk : ∀ a, Opens (k a)) : Opens (m >>= k) :=
  fun inf => (h inf).trans (hk (m inf).1 (m inf).2)

theorem opens_mapM {f : α → StateM Inference β} (h : ∀ a, Opens (f a)) (as : List α) :
    Opens (as.mapM f) := by
  induction as with
  | nil => exact opens_pure []
  | cons a as ih =>
    rw [List.mapM_cons]
    exact opens_bind (h a) fun b => opens_bind ih fun bs => opens_pure _

theorem opens_newCell : Opens Inference.newCell := by
  intro inf
  refine ⟨?_, fun cell => ?_, rfl⟩
  · change inf.settled.size ≤ (inf.settled.push false).size
    simp
  · change (inf.settled.push false).getD cell false = inf.settled.getD cell false
    simp only [Array.getD_eq_getD_getElem?, Array.getElem?_push]
    split
    · rename_i fresh
      simp [fresh]
    · rfl

private theorem opens_renew (ret : Return) : Opens (Inference.renew ret) := by
  unfold Inference.renew
  split
  · refine opens_bind opens_get fun inf => ?_
    split
    · exact opens_pure _
    · exact opens_bind opens_newCell fun fresh => opens_pure _
  · exact opens_pure _

theorem opens_withParams (f : FunctionTy) (params : List Param) :
    Opens (Inference.withParams f params) :=
  opens_bind (opens_renew f.ret) fun _ => opens_pure _

end

/-! ## Substitution -/

section

variable {classes : ClassTable} {σ : Solution} {unsolvedUnknown : Bool}
  {sub : Ty → StateM Inference Ty}

theorem opens_ofOption (hs : ∀ t, Opens (sub t)) (t : Option Ty) :
    Opens (Substitution.ofOption sub t) := by
  cases t with
  | none => exact opens_pure none
  | some t => exact opens_bind (hs t) fun t => opens_pure _

private theorem opens_ofClassTy (hs : ∀ t, Opens (sub t)) (c : ClassTy) :
    Opens (Substitution.ofClassTy classes σ sub c) := by
  unfold Substitution.ofClassTy
  split
  · exact opens_bind (opens_mapM (opens_ofOption hs) _) fun args => opens_pure _
  · dsimp only
    split
    · exact opens_pure c
    · exact opens_bind (opens_mapM (fun v => opens_ofOption hs _) _) fun args => opens_pure _

theorem opens_ofFunction (hs : ∀ t, Opens (sub t)) (f : FunctionTy) :
    Opens (Substitution.ofFunction sub f) := by
  refine opens_bind (opens_mapM (fun p => ?_) _) fun params => opens_bind ?_ fun ret => opens_pure _
  · exact opens_bind (opens_ofOption hs _) fun t => opens_pure _
  · unfold Substitution.ofReturn
    split
    · exact opens_bind (hs _) fun t => opens_pure _
    · exact opens_pure _
    · refine opens_bind opens_get fun inf => ?_
      split
      · exact opens_renew _
      · exact opens_bind (hs _) fun t => opens_pure _

theorem opens_ofTyAt (n : Nat) (t : Ty) :
    Opens (Substitution.ofTyAt classes σ unsolvedUnknown n t) := by
  induction n generalizing t with
  | zero => exact opens_pure t
  | succ n ih =>
    unfold Substitution.ofTyAt
    cases t with
    | cls c => exact opens_bind (opens_ofClassTy ih c) fun c => opens_pure _
    | function f => exact opens_bind (opens_ofFunction ih f) fun f => opens_pure _
    | overloaded fs =>
      exact opens_bind (opens_mapM (opens_ofFunction ih) fs) fun fs => opens_pure _
    | union ts =>
      exact opens_bind (opens_mapM ih ts) fun ts => opens_bind opens_get fun inf => opens_pure _
    | _ => exact opens_pure _

theorem opens_substitute (σ : Solution) (unsolvedUnknown : Bool) (t : Ty) :
    Opens (t.substitute classes σ unsolvedUnknown) := by
  unfold Ty.substitute
  split
  · exact opens_pure t
  · exact opens_ofTyAt _ t

theorem opens_substituteFunction (σ : Solution) (f : FunctionTy) :
    Opens (f.substitute classes σ) := by
  unfold FunctionTy.substitute
  split
  · exact opens_pure f
  · exact opens_ofFunction (opens_ofTyAt _) f

theorem opens_substituteClass (σ : Solution) (unsolvedUnknown : Bool) (c : ClassTy) :
    Opens (c.substitute classes σ unsolvedUnknown) := by
  unfold ClassTy.substitute
  split
  · exact opens_pure c
  · exact opens_ofClassTy (opens_ofTyAt _) c

theorem opens_specialize (owner : ClassTy) (self : Option ClassTy) (t : Ty) :
    Opens (t.specialize classes owner self) := by
  unfold Ty.specialize
  split
  · exact opens_substitute _ _ t
  · exact opens_pure t

theorem opens_specializeFunction (owner : ClassTy) (f : FunctionTy) :
    Opens (f.specialize classes owner) := by
  unfold FunctionTy.specialize
  split
  · exact opens_substituteFunction _ f
  · exact opens_pure f

theorem opens_specializeClass (owner c : ClassTy) : Opens (c.specialize classes owner) := by
  unfold ClassTy.specialize
  split
  · exact opens_substituteClass _ _ c
  · exact opens_pure c

theorem opens_specializeBase (c base : ClassTy) : Opens (c.specializeBase classes base) := by
  unfold ClassTy.specializeBase
  split
  · exact opens_substituteClass _ _ base
  · exact opens_pure base

theorem opens_dropSpecRest (t : Ty) : Opens t.dropSpecRest := by
  unfold Ty.dropSpecRest
  split
  · refine opens_bind ?_ fun f => opens_pure _
    unfold FunctionTy.dropSpecRest
    split
    · split
      · exact opens_withParams _ _
      · exact opens_pure _
    · exact opens_pure _
  · exact opens_pure t

/-! ## Lookups -/

theorem opens_lookup (c : ClassTy) (name : String) : Opens (classes.lookup c name) := by
  unfold ClassTable.lookup
  dsimp only
  split
  · exact opens_pure _
  · split
    · exact opens_pure none
    · split
      · exact opens_pure _
      · exact opens_bind (opens_specializeClass c _) fun owner => opens_pure _

theorem opens_typeOf (found : FoundMember) : Opens (classes.typeOf found) := by
  unfold ClassTable.typeOf
  split
  · exact opens_pure _
  · exact opens_bind opens_get fun inf => opens_specialize _ none _

end

end Conformance
