import Conformance.Proofs.Plain
import Conformance.Proofs.Run

/-!
# Closed types

No type variable occurs in a closed type, so nothing is ever put into it. A solution that has
nothing to put into the signature of a method leaves its bound form to the receiver alone: the first
parameter goes, and the rest stays as it is declared.
-/

namespace Conformance

open Check

/-- No type variable occurs in the type, not even as a parameter of a class that is mentioned without
its arguments, and no literal value. -/
inductive Ty.Closed (classes : ClassTable) : Ty → Prop
  | unknown : Ty.Closed classes .unknown
  | any : Ty.Closed classes .any
  | noneObject : Ty.Closed classes .noneObject
  | module (name : String) (table : TableId) : Ty.Closed classes (.module name table)
  | bare {c : ClassTy} (bare : c.args = none) (nongeneric : (classes.decl c.id).params = [])
      (plain : c.literal = none) : Ty.Closed classes (.cls c)
  | special {c : ClassTy} {ts : List (Option Ty)} (given : c.args = some ts)
      (args : ∀ t, some t ∈ ts → Ty.Closed classes t) (plain : c.literal = none) :
      Ty.Closed classes (.cls c)
  | function {f : FunctionTy} (params : ∀ p ∈ f.params, ∀ t, p.type = some t → Ty.Closed classes t)
      (ret : ∀ t, f.ret = .declared t → Ty.Closed classes t) : Ty.Closed classes (.function f)
  | overloaded {fs : List FunctionTy}
      (params : ∀ f ∈ fs, ∀ p ∈ f.params, ∀ t, p.type = some t → Ty.Closed classes t)
      (ret : ∀ f ∈ fs, ∀ t, f.ret = .declared t → Ty.Closed classes t) :
      Ty.Closed classes (.overloaded fs)
  | union {ts : List Ty} (each : ∀ t ∈ ts, Ty.Closed classes t) : Ty.Closed classes (.union ts)

theorem Ty.Closed.not_var {classes : ClassTable} {t : Ty} (h : t.Closed classes) (v : TypeVar) :
    t ≠ .var v := by
  rintro rfl
  cases h

/-- What is recorded of a closed type is the type itself. -/
theorem Ty.Closed.solutionCandidate_eq {classes : ClassTable} {t : Ty} (h : t.Closed classes)
    (mode : Mode) : solutionCandidate mode t = t := by
  unfold solutionCandidate
  split
  · rename_i c
    split
    · have plain : c.literal = none := by
        cases h <;> assumption
      obtain ⟨id, isInstance, args, explicit, literal⟩ := c
      cases plain
      rfl
    · rfl
  · rfl

namespace Fragment

variable {F : Fragment} {w : World} {σ : Solution} {f : FunctionTy}

def Fixes (F : Fragment) (w : World) (σ : Solution) (t : Ty) : Prop :=
  ∀ n, F.Steady (· = t) (Substitution.ofTyAt w.classes σ false n t)

/-- The solution has nothing to put into the signature of the function. -/
structure FixesSignature (F : Fragment) (w : World) (σ : Solution) (f : FunctionTy) : Prop where
  params : ∀ p ∈ f.params, ∀ t, p.type = some t → F.Fixes w σ t
  ret : ∀ t, f.ret = .declared t → F.Fixes w σ t
  settled : ∀ cell outcome, f.ret ≠ .deferred cell outcome

theorem fixes_var {v : TypeVar} (h : Substitution.ofVar σ false v = .var v) :
    F.Fixes w σ (.var v) := by
  intro n
  cases n with
  | zero => exact steady_pure rfl
  | succ n => exact steady_pure h

theorem FixesSignature.steady (h : F.FixesSignature w σ f) (n : Nat) :
    F.Steady (· = f)
      (Substitution.ofFunction (Substitution.ofTyAt w.classes σ false n) f) :=
  steady_ofFunction_eq (fun p hp t ht => h.params p hp t ht n) (fun t ht => h.ret t ht n) h.settled

theorem FixesSignature.fixes (h : F.FixesSignature w σ f) : F.Fixes w σ (.function f) := by
  intro n
  cases n with
  | zero => exact steady_pure rfl
  | succ n => exact steady_bind (h.steady n) fun g hg => steady_pure (congrArg Ty.function hg)

/-- Nothing is put into a closed type. -/
theorem fixes_closed {t : Ty} (closed : t.Closed w.classes) (has : F.Has t) (σ : Solution) :
    F.Fixes w σ t := by
  have signature {f : FunctionTy} (has : F.HasFunction f)
      (params : ∀ p ∈ f.params, ∀ t, p.type = some t → F.Has t → F.Fixes w σ t)
      (ret : ∀ t, f.ret = .declared t → F.Has t → F.Fixes w σ t) : F.FixesSignature w σ f :=
    ⟨fun p hp t ht => params p hp t ht (has.params p hp t ht),
      fun t ht => ret t ht (has.declared t ht), has.settled⟩
  induction closed with
  | unknown | any | noneObject | module =>
    intro n
    cases n <;> exact steady_pure rfl
  | bare bare nongeneric plain =>
    intro n
    cases n with
    | zero => exact steady_pure rfl
    | succ n =>
      refine steady_bind (steady_ofClassTy_eq (fun t ht => ?_) fun _ => .inl nongeneric)
        fun c hc => steady_pure (congrArg Ty.cls hc)
      rw [ClassTy.argList, bare] at ht
      cases ht
  | @special c ts given args plain ih =>
    intro n
    cases n with
    | zero => exact steady_pure rfl
    | succ n =>
      refine steady_bind (steady_ofClassTy_eq (fun t ht u hu => ?_) fun bare => ?_)
        fun c hc => steady_pure (congrArg Ty.cls hc)
      · have inside : F.Has u := HasClass.args has t ht u hu
        rw [ClassTy.argList, given, hu] at ht
        exact ih u ht inside n
      · cases bare.symm.trans given
  | function params ret ihp ihr => exact (signature has ihp ihr).fixes
  | overloaded params ret ihp ihr =>
    intro n
    cases n with
    | zero => exact steady_pure rfl
    | succ n =>
      cases has with
      | overloaded has =>
        refine steady_bind (steady_mapM_eq fun f hf => ?_) fun fs hfs =>
          steady_pure (congrArg Ty.overloaded hfs)
        exact (signature (has f hf) (ihp f hf) (ihr f hf)).steady n
  | @union ts each ih =>
    intro n
    cases n with
    | zero => exact steady_pure rfl
    | succ n =>
      cases has with
      | union has built =>
        refine steady_bind (steady_mapM_eq fun t ht => ih t ht (has t ht) n)
          fun us (hus : us = ts) => ?_
        refine steady_bind (steady_get rfl) fun inf (hinf : F.inf = inf) => steady_pure ?_
        rw [hus, ← hinf]
        exact built.combine_eq

/-! ## Seen through a class -/

theorem Fixes.substitute {t : Ty} (h : F.Fixes w σ t) :
    F.Steady (· = t) (t.substitute w.classes σ false) := by
  unfold Ty.substitute
  split
  · exact steady_pure rfl
  · exact h Ty.levels

/-- A type is seen as it is written if nothing that is seen with it can be put into it. -/
theorem steady_specialize_eq {t : Ty} {owner : ClassTy} {self : Option ClassTy}
    (h : ∀ σ, memberSolution w.classes owner self = some σ → F.Fixes w σ t) :
    F.Steady (· = t) (t.specialize w.classes owner self) := by
  unfold Ty.specialize
  split
  · exact (h _ ‹_›).substitute
  · exact steady_pure rfl

private theorem steady_specializeFunction_eq {owner : ClassTy}
    (h : ∀ σ, memberSolution w.classes owner none = some σ → F.FixesSignature w σ f) :
    F.Steady (· = f) (f.specialize w.classes owner) := by
  unfold FunctionTy.specialize
  split
  · unfold FunctionTy.substitute
    split
    · exact steady_pure rfl
    · exact (h _ ‹_›).steady (Ty.levels - 1)
  · exact steady_pure rfl

end Fragment

/-! ## Bound methods -/

/-- The function without its first parameter, if that is a plain one. -/
def FunctionTy.withoutFirst (f : FunctionTy) : FunctionTy :=
  match f.params with
  | [] => f
  | first :: rest => if first.kind ≠ .simple then f else { f with params := rest }

def FunctionTy.withoutReceiver (f : FunctionTy) : FunctionTy :=
  if f.kind = .staticMethod then f else f.withoutFirst

section

variable {f : FunctionTy}

theorem params_withoutReceiver : f.withoutReceiver.params.Sublist f.params := by
  unfold FunctionTy.withoutReceiver FunctionTy.withoutFirst
  split
  · exact .refl _
  · split
    · exact .refl _
    · rename_i first rest hp
      split
      · exact .refl _
      · rw [hp]
        exact List.sublist_cons_self first rest

theorem ret_withoutReceiver : f.withoutReceiver.ret = f.ret := by
  unfold FunctionTy.withoutReceiver FunctionTy.withoutFirst
  split
  · rfl
  · split
    · rfl
    · split <;> rfl

theorem Fragment.HasFunction.withoutReceiver {F : Fragment} (h : F.HasFunction f) :
    F.HasFunction f.withoutReceiver :=
  .function (fun p hp => h.params p (params_withoutReceiver.subset hp))
    (fun t ht => h.declared t (ret_withoutReceiver ▸ ht))
    fun cell outcome => ret_withoutReceiver (f := f) ▸ h.settled cell outcome

variable {F : Fragment} {w : World} {j : Judge} {s : CheckState}

private theorem exec_solveReceiver {first : Param} (unannotated : first.type = none)
    (receiver : Option Ty) :
    exec (solveReceiver j f first receiver) s = (.ok (some (receiverScopes f first)), s) := by
  unfold solveReceiver receiverFits
  rw [unannotated]
  rfl

private theorem exec_bindReceiver (settled : ∀ cell outcome, f.ret ≠ .deferred cell outcome)
    (unannotated : ∀ p ∈ f.params.head?, p.type = none) (receiver : Option Ty) :
    exec (bindReceiver w j f receiver true) s = (.ok (some f.withoutFirst), s) := by
  unfold bindReceiver FunctionTy.withoutFirst
  cases hp : f.params with
  | nil => rfl
  | cons first rest =>
    rw [hp] at unannotated
    dsimp only
    split
    · rfl
    · have nothing : (receiverScopes f first).isEmpty = true := by
        unfold receiverScopes
        rw [unannotated first rfl]
        exact List.isEmpty_iff.2 (Fragment.entries_addScope _ _)
      have kept : exec (lift (f.substitute w.classes (receiverScopes f first))) s = (.ok f, s) := by
        rw [FunctionTy.substitute, if_pos nothing]
        rfl
      rw [exec_bind_of_ok (exec_solveReceiver (unannotated first rfl) receiver)]
      dsimp only
      have demanded : exec (demand f) s = (.ok (), s) := by
        rw [exec_demand, Fragment.demand_eq settled]
      have renewed : Inference.withParams f rest s.inference =
          ({ f with params := rest }, s.inference) := by
        change ({ f with params := rest, ret := (Inference.renew f.ret s.inference).1 },
          (Inference.renew f.ret s.inference).2) = _
        rw [Fragment.renew_eq settled]
      rw [exec_bind_of_ok demanded, exec_bind_of_ok kept, if_pos rfl, hp, List.tail_cons,
        exec_bind_of_ok (exec_lift_of_eq renewed)]
      rfl

section

variable {owner : Option ClassTy}
  (seen : ∀ c, owner = some c → ∀ σ, memberSolution w.classes c none = some σ →
    F.FixesSignature w σ f)
  (settled : ∀ cell outcome, f.ret ≠ .deferred cell outcome) (unannotated : f.Unannotated)
  (c : ClassTy) (hs : s.inference = F.inf)
include seen settled unannotated hs

/-- A method whose receiver is not annotated and whose signature is seen as it is written loses its
receiver alone. -/
theorem exec_bindFunction :
    exec (bindFunction w j (.of (.cls c.toInstance)) f owner) s =
      (.ok (some f.withoutReceiver), s) := by
  have through : exec (seenThrough w f owner) s = (.ok f, s) := by
    cases owner with
    | none => rfl
    | some c =>
      obtain ⟨g, hg, rfl⟩ := Fragment.steady_specializeFunction_eq (seen c rfl)
      rw [← hs] at hg
      exact exec_lift_of_eq hg
  unfold bindFunction FunctionTy.withoutReceiver
  rw [exec_bind_of_ok through]
  dsimp only [Receiver.of]
  cases hk : f.kind with
  | staticMethod => rfl
  | classMethod | instanceMethod =>
    have first : ∀ p ∈ f.params.head?, p.type = none :=
      unannotated.resolve_left fun static => by cases hk.symm.trans static
    exact exec_bindReceiver settled first _

theorem exec_bind_function :
    exec (bind w j (.of (.cls c.toInstance)) (.function f) owner) s =
      (.ok (some (.function f.withoutReceiver)), s) := by
  unfold Conformance.bind
  dsimp only
  rw [exec_bind_of_ok (exec_bindFunction seen settled unannotated c hs)]
  rfl

end

end

end Conformance
