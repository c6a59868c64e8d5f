import Conformance.Proofs.Decided

/-!
# Type schemes

A scheme is a type with places for other types, which its variables mark. Put into such a type,
two choices of types are compared place by place: what it comes to depends on how the type uses each
variable, along with itself, the other way round, or in a place where no change is allowed.
-/

namespace Conformance

open Check

/-- The type is built of variables, of classes without parameters, of classes with arguments and of
functions with plain parameters, and is nested no deeper than so many levels. -/
inductive Ty.Scheme (classes : ClassTable) : Nat → Ty → Prop
  | var {n : Nat} (v : TypeVar) : Ty.Scheme classes (n + 1) (.var v)
  | noneObject {n : Nat} : Ty.Scheme classes (n + 1) .noneObject
  | bare {n : Nat} {c : ClassTy} (bare : c.args = none)
      (nongeneric : (classes.decl c.id).params = []) : Ty.Scheme classes (n + 1) (.cls c)
  | special {n : Nat} {c : ClassTy} {ts : List (Option Ty)} (given : c.args = some ts)
      (args : ∀ t, some t ∈ ts → Ty.Scheme classes n t) : Ty.Scheme classes (n + 1) (.cls c)
  | function {n : Nat} {f : FunctionTy} (simple : ∀ p ∈ f.params, p.kind = .simple)
      (settled : ∀ cell outcome, f.ret ≠ .deferred cell outcome)
      (params : ∀ p ∈ f.params, ∀ t, p.type = some t → Ty.Scheme classes n t)
      (ret : ∀ t, f.ret = .declared t → Ty.Scheme classes n t) :
      Ty.Scheme classes (n + 1) (.function f)

/-- Whether a type is a scheme, by its parts. -/
def Ty.isScheme (classes : ClassTable) : Nat → Ty → Bool
  | _ + 1, .var _ | _ + 1, .noneObject => true
  | n + 1, .cls c =>
    match c.args with
    | none => (classes.decl c.id).params.isEmpty
    | some ts => ts.all (·.all (isScheme classes n))
  | n + 1, .function f =>
    f.params.all (fun p => p.kind == .simple && p.type.all (isScheme classes n)) &&
      match f.ret with
      | .declared t => isScheme classes n t
      | .undeclared => true
      | .deferred _ _ => false
  | _, _ => false

private theorem scheme_of_isScheme {classes : ClassTable} {n : Nat} {t : Ty}
    (h : t.isScheme classes n = true) : t.Scheme classes n := by
  induction n generalizing t with
  | zero => simp [Ty.isScheme] at h
  | succ n ih =>
    cases t with
    | var v => exact .var v
    | noneObject => exact .noneObject
    | cls c =>
      rw [Ty.isScheme] at h
      cases hc : c.args with
      | none => exact .bare hc (List.isEmpty_iff.1 (by rwa [hc] at h))
      | some ts =>
        rw [hc] at h
        exact .special hc fun t ht => ih (List.all_eq_true.1 h _ ht)
    | function f =>
      rw [Ty.isScheme, Bool.and_eq_true, List.all_eq_true] at h
      obtain ⟨params, ret⟩ := h
      have param {p : Param} (hp : p ∈ f.params) :
          p.kind = .simple ∧ p.type.all (Ty.isScheme classes n) = true := by
        simpa using params p hp
      refine .function (fun p hp => (param hp).1) (fun cell outcome hr => ?_)
        (fun p hp t ht => ih ?_) fun t ht => ih ?_
      · rw [hr] at ret
        cases ret
      · have typed := (param hp).2
        rwa [ht] at typed
      · rwa [ht] at ret
    | unknown | any | module _ _ | overloaded _ | union _ => cases h

private theorem scheme_iff {classes : ClassTable} {n : Nat} {t : Ty} :
    t.Scheme classes n ↔ t.isScheme classes n = true := by
  refine ⟨fun h => ?_, scheme_of_isScheme⟩
  induction h with
  | var v | noneObject => rfl
  | bare bare nongeneric =>
    rw [Ty.isScheme, bare]
    exact List.isEmpty_iff.2 nongeneric
  | special given args ih =>
    rw [Ty.isScheme, given]
    refine List.all_eq_true.2 fun o ho => ?_
    cases o with
    | none => rfl
    | some t => exact ih t ho
  | @function n f simple settled params ret ihp ihr =>
    rw [Ty.isScheme, Bool.and_eq_true, List.all_eq_true]
    refine ⟨fun p hp => ?_, ?_⟩
    · rw [simple p hp]
      cases hp' : p.type with
      | none => rfl
      | some t => exact ihp p hp t hp'
    · cases hr : f.ret with
      | declared t => exact ihr t hr
      | undeclared => rfl
      | deferred cell outcome => exact absurd hr (settled cell outcome)

instance (classes : ClassTable) (n : Nat) (t : Ty) : Decidable (t.Scheme classes n) :=
  decidable_of_iff _ scheme_iff.symm

namespace Variance

/-- The other way round. -/
def opposite : Variance → Variance
  | covariant => contravariant
  | contravariant => covariant
  | invariant => invariant

/-- How a type varies with what a part of it varies with, by how it varies with the part. -/
def compose : Variance → Variance → Variance
  | covariant, v => v
  | contravariant, v => v.opposite
  | invariant, _ => invariant

private theorem choose_opposite (v : Variance) (along against equal : Prop) :
    v.opposite.choose along against equal ↔ v.choose against along equal := by
  cases v <;> rfl

end Variance

/-- The variable occurs in the type. -/
inductive Ty.Mentions (v : TypeVar) : Ty → Prop
  | var : Ty.Mentions v (.var v)
  | argument {c : ClassTy} {ts : List (Option Ty)} {t : Ty} (given : c.args = some ts)
      (here : some t ∈ ts) (inner : Ty.Mentions v t) : Ty.Mentions v (.cls c)
  | param {f : FunctionTy} {p : Param} {t : Ty} (here : p ∈ f.params) (typed : p.type = some t)
      (inner : Ty.Mentions v t) : Ty.Mentions v (.function f)
  | ret {f : FunctionTy} {t : Ty} (declared : f.ret = .declared t) (inner : Ty.Mentions v t) :
      Ty.Mentions v (.function f)

/-- The type varies with the variable in this way at one of the places where it occurs. -/
inductive Ty.Uses (w : World) (v : TypeVar) : Variance → Ty → Prop
  | var : Ty.Uses w v .covariant (.var v)
  | argument {c : ClassTy} {ts : List (Option Ty)} {i : Nat} {t : Ty} {u : Variance}
      (given : c.args = some ts) (compared : ¬ c.Uncompared w) (here : ts[i]? = some (some t))
      (varies : argumentVariance w c i ≠ .invariant) (inner : Ty.Uses w v u t) :
      Ty.Uses w v ((argumentVariance w c i).compose u) (.cls c)
  | fixed {c : ClassTy} {ts : List (Option Ty)} {i : Nat} {t : Ty} (given : c.args = some ts)
      (compared : ¬ c.Uncompared w) (here : ts[i]? = some (some t))
      (fixed : argumentVariance w c i = .invariant) (inner : Ty.Mentions v t) :
      Ty.Uses w v .invariant (.cls c)
  | param {f : FunctionTy} {p : Param} {t : Ty} {u : Variance} (here : p ∈ f.params)
      (typed : p.type = some t) (inner : Ty.Uses w v u t) : Ty.Uses w v u.opposite (.function f)
  | ret {f : FunctionTy} {t : Ty} {u : Variance} (declared : f.ret = .declared t)
      (inner : Ty.Uses w v u t) : Ty.Uses w v u (.function f)

variable {F : Fragment} {w : World} {n : Nat} {t : Ty}

/-- Nothing occurs in a class without type arguments. -/
theorem Ty.not_mentions_of_bare {c : ClassTy} {v : TypeVar} (bare : c.args = none) :
    ¬ (Ty.cls c).Mentions v := by
  intro mentioned
  cases mentioned with
  | argument given => cases bare.symm.trans given

theorem Ty.not_uses_of_bare {c : ClassTy} {v : TypeVar} {u : Variance} (bare : c.args = none) :
    ¬ (Ty.cls c).Uses w v u := by
  intro used
  cases used with
  | argument given | fixed given => cases bare.symm.trans given

/-! ## Functions with plain parameters -/

private theorem ParamGroups.ofList_simple {ps : List Param} (simple : ∀ p ∈ ps, p.kind = .simple) :
    ParamGroups.ofList ps = ⟨ps, [], none, none⟩ := by
  have added : ∀ qs : List Param,
      ps.foldl add ⟨qs, [], none, none⟩ = ⟨qs ++ ps, [], none, none⟩ := by
    induction ps with
    | nil => simp
    | cons p ps ih =>
      intro qs
      rw [List.forall_mem_cons] at simple
      have here : add ⟨qs, [], none, none⟩ p = ⟨qs ++ [p], [], none, none⟩ := by
        simp [add, simple.1]
      rw [List.foldl_cons, here, ih simple.2, List.append_assoc, List.singleton_append]
  exact added []

private theorem ParamStep.plan_simple {φ ψ : Param → Param} {ps : List Param}
    (name : ∀ p, (φ p).name = (ψ p).name) :
    plan ⟨ps.map φ, [], none, none⟩ ⟨ps.map ψ, [], none, none⟩ =
      ps.mapIdx fun i p => compare i (φ p) (ψ p) := by
  have first : ∀ (dest source : ParamGroups) (i : Nat),
      positional dest source i (ps.map φ) (ps.map ψ) =
        ps.mapIdx fun k p => compare (i + k) (φ p) (ψ p) := by
    intro dest source
    induction ps with
    | nil => exact fun _ => rfl
    | cons p ps ih =>
      intro i
      have same : nameFault (φ p) (ψ p) = [] := by simp [nameFault, name p]
      simp only [List.map_cons, positional, same, List.nil_append, List.mapIdx_cons, ih,
        Nat.add_zero, Nat.add_assoc, Nat.add_comm 1]
  have beyond : (ps.map ψ).drop ps.length = [] := by simp
  simp [plan, first, beyond, extra, rest]

section

variable {φ ψ : Ty → Ty} {m : Nat} {mode : Mode} {inf : Inference}

private theorem decides_unknown (m : Nat) (mode : Mode) (t : Ty) :
    Decides inf True ((judge w m).assign mode (some .unknown) (some t)) := by
  cases m with
  | zero => exact .cutOff trivial
  | succ m =>
    refine decides_assign (fun _ => trivial) ?_
    refine .solution fun σ hσ => ?_
    rw [hσ.reverseVar?]
    exact .yes trivial

private theorem decides_getD {o : Option Ty} {p : Ty → Prop}
    (h : ∀ t, o = some t →
      Decides inf (p t) ((judge w m).assign mode (some (φ t)) (some (ψ t)))) :
    Decides inf (∀ t, o = some t → p t)
      ((judge w m).assign mode (some ((o.map φ).getD .unknown))
        (some ((o.map ψ).getD .unknown))) := by
  cases o with
  | some t => exact (h t rfl).iff (by simp)
  | none => exact (decides_unknown m mode _).iff (by simp)

private theorem same_getD {o : Option Ty} {p : Ty → Prop}
    (h : ∀ t, o = some t → (sameAt inf m (φ t) (ψ t) = true ↔ p t)) :
    sameAt inf m ((o.map φ).getD .unknown) ((o.map ψ).getD .unknown) = true ↔
      ∀ t, o = some t → p t := by
  cases o with
  | some t => exact (h t rfl).trans (by simp)
  | none => simp [sameAt_self]

end

private theorem FunctionTy.declaredReturn_eq {f : FunctionTy} {t : Ty} :
    f.declaredReturn = some t ↔ f.ret = .declared t := by
  unfold declaredReturn
  cases f.ret <;> simp

private theorem Inference.returnType_getD {f : FunctionTy}
    (settled : ∀ cell outcome, f.ret ≠ .deferred cell outcome) (inf : Inference) :
    inf.returnType f = f.declaredReturn.getD .unknown := by
  unfold returnType FunctionTy.declaredReturn
  cases hr : f.ret with
  | deferred cell outcome => exact absurd hr (settled cell outcome)
  | _ => rfl

private theorem allPairs_map {α β : Type} (same : β → β → Bool) (f g : α → β) (as : List α) :
    allPairs same (as.map f) (as.map g) = as.all fun a => same (f a) (g a) := by
  induction as with
  | nil => rfl
  | cons a as ih => simp [allPairs, ih]

namespace Fragment

section

variable {ρ τ : Solution} {k m : Nat} {f : FunctionTy} {along against equal : Ty → Prop}
  (settled : ∀ cell outcome, f.ret ≠ .deferred cell outcome)
include settled

private theorem returnType_filled (ρ : Solution) (k : Nat) :
    F.inf.returnType (F.fillFunction w ρ k f) =
      (f.declaredReturn.map (F.fill w ρ k)).getD .unknown := by
  rw [returnType_fillFunction k settled, Inference.returnType_getD settled]
  cases f.declaredReturn with
  | none => exact fill_unknown w ρ k
  | some t => rfl

variable
  (params : ∀ p ∈ f.params, ∀ t, p.type = some t →
    Meets w F.inf n (F.fill w ρ k t) (F.fill w τ k t) (along t) (equal t))
  (ret : ∀ t, f.ret = .declared t →
    Meets w F.inf n (F.fill w ρ k t) (F.fill w τ k t) (along t) (equal t))
include params ret

private theorem same_function (hm : n ≤ m) :
    sameAt F.inf (m + 1) (.function (F.fillFunction w ρ k f))
        (.function (F.fillFunction w τ k f)) = true ↔
      (∀ p ∈ f.params, ∀ t, p.type = some t → equal t) ∧ ∀ t, f.ret = .declared t → equal t := by
  have each : ∀ p ∈ f.params,
      (sameParam (sameAt F.inf m) (F.fillParam w ρ k p) (F.fillParam w τ k p) = true ↔
        ∀ t, p.type = some t → equal t) := by
    intro p hp
    have typed := same_getD (o := p.type) fun t ht => (params p hp t ht).same hm
    simpa [sameParam, fillParam, Param.typeOrUnknown] using typed
  have returned := same_getD (o := f.declaredReturn) fun t ht =>
    (ret t (FunctionTy.declaredReturn_eq.1 ht)).same hm
  simp only [FunctionTy.declaredReturn_eq] at returned
  simp only [sameAt, sameFunction, returnType_filled settled, Bool.and_eq_true, returned]
  refine and_congr_left fun _ => ?_
  simp only [fillFunction, beq_self_eq_true, true_and, allPairs_map, List.all_eq_true]
  exact forall₂_congr each

omit params in
private theorem decides_function {mode : Mode} (simple : ∀ p ∈ f.params, p.kind = .simple)
    (back : ∀ p ∈ f.params, ∀ t, p.type = some t →
      Meets w F.inf n (F.fill w τ k t) (F.fill w ρ k t) (against t) (equal t))
    (hm : n ≤ m) :
    Decides F.inf
      ((∀ p ∈ f.params, ∀ t, p.type = some t → against t) ∧
        ∀ t, f.ret = .declared t → along t)
      (assignFunction w (judge w m) mode (F.fillFunction w ρ k f) (F.fillFunction w τ k f)) := by
  have plan : ParamStep.plan (.ofList (F.fillFunction w ρ k f).params)
      (.ofList (F.fillFunction w τ k f).params) =
        f.params.mapIdx fun i p => .compare i (F.fillParam w ρ k p) (F.fillParam w τ k p) := by
    have kept (υ : Solution) : ∀ p ∈ f.params.map (F.fillParam w υ k), p.kind = .simple := by
      intro p hp
      obtain ⟨q, hq, rfl⟩ := List.mem_map.1 hp
      exact simple q hq
    have name : ∀ p, (F.fillParam w ρ k p).name = (F.fillParam w τ k p).name := fun _ => rfl
    rw [fillFunction, fillFunction, ParamGroups.ofList_simple (kept ρ),
      ParamGroups.ofList_simple (kept τ), ParamStep.plan_simple name]
  have taken : Decides F.inf
      (∀ (i : Nat) p, f.params[i]? = some p → ∀ t, p.type = some t → against t)
      (allOf (ParamStep.run w (judge w m) mode) (f.params.mapIdx fun i p =>
        .compare i (F.fillParam w ρ k p) (F.fillParam w τ k p))) := by
    refine .allOf_mapIdx fun i p hp => (Decides.explained (Decides.child ?_)).child
    exact decides_getD fun t ht => (back p (List.mem_of_getElem? hp) t ht).loose hm rfl
  have returned : Decides F.inf (∀ t, f.declaredReturn = some t → along t)
      (assignReturn w (judge w m) mode (F.inf.returnType (F.fillFunction w ρ k f))
        (F.inf.returnType (F.fillFunction w τ k f))) := by
    refine (Decides.explained (Decides.child ?_)).child
    rw [returnType_filled settled, returnType_filled settled]
    exact decides_getD fun t ht => (ret t (FunctionTy.declaredReturn_eq.1 ht)).loose hm rfl
  unfold assignFunction
  refine .demand (settled_fillFunction k settled) (.demand (settled_fillFunction k settled) ?_)
  rw [plan]
  refine taken.bind fun b hb => .inference (returned.bind fun b' hb' => (Decides.pure _).iff ?_)
  rw [Bool.and_eq_true, hb, hb']
  simp only [FunctionTy.declaredReturn_eq]
  refine and_congr_left fun _ => ⟨fun all p hp => ?_, fun all i p hp => ?_⟩
  · obtain ⟨i, hi⟩ := List.getElem?_of_mem hp
    exact all i p hi
  · exact all p (List.mem_of_getElem? hp)

omit settled params in
private theorem fits_of_eq
    (back : ∀ p ∈ f.params, ∀ t, p.type = some t →
      Meets w F.inf n (F.fill w τ k t) (F.fill w ρ k t) (against t) (equal t))
    (one : F.fillFunction w ρ k f = F.fillFunction w τ k f) :
    (∀ p ∈ f.params, ∀ t, p.type = some t → against t) ∧ ∀ t, f.ret = .declared t → along t := by
  constructor
  · intro p hp t ht
    have param := List.map_inj_left.1 (congrArg FunctionTy.params one) p hp
    have type := congrArg Param.type param
    simp only [fillParam, ht, Option.map_some, Option.some.injEq] at type
    exact (back p hp t ht).itself type.symm
  · intro t ht
    have type := congrArg FunctionTy.ret one
    simp only [fillFunction, fillReturn, ht, Return.declared.injEq] at type
    exact (ret t ht).itself type

private theorem meets_function (hn : n < Ty.levels) (simple : ∀ p ∈ f.params, p.kind = .simple)
    (back : ∀ p ∈ f.params, ∀ t, p.type = some t →
      Meets w F.inf n (F.fill w τ k t) (F.fill w ρ k t) (against t) (equal t)) :
    Meets w F.inf (n + 1) (.function (F.fillFunction w ρ k f))
      (.function (F.fillFunction w τ k f))
      ((∀ p ∈ f.params, ∀ t, p.type = some t → against t) ∧
        ∀ t, f.ret = .declared t → along t)
      ((∀ p ∈ f.params, ∀ t, p.type = some t → equal t) ∧
        ∀ t, f.ret = .declared t → equal t) := by
  have itself := fits_of_eq ret back
  refine ⟨fun one => itself (Ty.function.inj one), fun hm mode loose => ?_,
    fun hm mode strict => ?_, fun hm => ?_⟩
  · obtain ⟨m, rfl⟩ := Nat.exists_eq_add_of_le' (Nat.le_trans (Nat.le_add_left 1 n) hm)
    have hm : n ≤ m := by omega
    refine decides_assign (fun one => itself (Ty.function.inj one)) ?_
    refine decides_assignTy (fun v h => nomatch h) rfl rfl ?_
    unfold assignProper
    rw [if_neg (by simp [loose])]
    refine Decides.after (fun _ _ => rfl) ?_
    change Decides F.inf _
      (assignFunction w (judge w m) mode (F.fillFunction w ρ k f) (F.fillFunction w τ k f))
    exact decides_function settled ret simple back hm
  · obtain ⟨m, rfl⟩ := Nat.exists_eq_add_of_le' (Nat.le_trans (Nat.le_add_left 1 n) hm)
    have same : (Ty.function (F.fillFunction w ρ k f)).same F.inf
        (.function (F.fillFunction w τ k f)) = true ↔ _ :=
      same_function (m := 14) settled params ret (Nat.le_of_lt_succ hn)
    refine decides_assign (fun one => same.1 (one ▸ sameAt_self _ _ _)) ?_
    refine decides_strict (fun v h => nomatch h) rfl rfl strict same ?_
    rintro _ _ _ ⟨⟩
  · obtain ⟨m, rfl⟩ := Nat.exists_eq_add_of_le' (Nat.le_trans (Nat.le_add_left 1 n) hm)
    exact same_function settled params ret (by omega)

end

end Fragment

/-! ## What schemes meet -/

private theorem meets_noneObject {inf : Inference} :
    Meets w inf 1 .noneObject .noneObject True True := by
  have same : ∀ m, sameAt inf m .noneObject .noneObject = true ↔ True :=
    fun m => iff_true_intro (sameAt_self inf m _)
  refine ⟨fun _ => trivial, fun hm mode loose => ?_, fun hm mode strict => ?_,
    fun {m} _ => same m⟩
  · obtain ⟨m, rfl⟩ := Nat.exists_eq_add_of_le' hm
    refine decides_assign (fun _ => trivial) ?_
    refine decides_assignTy (fun v h => nomatch h) rfl rfl ?_
    unfold assignProper
    rw [if_neg (by simp [loose])]
    refine .inference ?_
    rw [if_pos (show Ty.same inf .noneObject .noneObject = true from sameAt_self inf _ _)]
    exact .yes trivial
  · obtain ⟨m, rfl⟩ := Nat.exists_eq_add_of_le' hm
    refine decides_assign (fun _ => trivial) ?_
    exact decides_strict (fun v h => nomatch h) rfl rfl strict (same Ty.levels)
      fun h => absurd trivial h

private theorem steady_bare {c : ClassTy} (bare : c.args = none)
    (nongeneric : (w.classes.decl c.id).params = []) (ρ : Solution) :
    F.Steady (· = .cls c) (Substitution.ofTyAt w.classes ρ false (n + 1) (.cls c)) := by
  have kept : Substitution.ofClassTy w.classes ρ (Substitution.ofTyAt w.classes ρ false n) c =
      pure c := by
    unfold Substitution.ofClassTy
    simp only [bare, nongeneric, List.isEmpty_nil, Bool.true_or, if_true]
  unfold Substitution.ofTyAt
  dsimp only
  rw [kept]
  exact Fragment.steady_pure rfl

namespace Ty

variable {along against equal : TypeVar → Prop}

def Allows (w : World) (along against equal : TypeVar → Prop) (t : Ty) : Prop :=
  ∀ v u, t.Uses w v u → u.choose (along v) (against v) (equal v)

private theorem allows_special {c : ClassTy} {ts : List (Option Ty)} (given : c.args = some ts) :
    Ty.Allows w along against equal (.cls c) ↔
      c.Uncompared w ∨ ∀ (i : Nat) (t : Ty), ts[i]? = some (some t) →
        (argumentVariance w c i).choose (t.Allows w along against equal)
          (t.Allows w against along equal) (∀ v, t.Mentions v → equal v) := by
  refine ⟨fun h => or_iff_not_imp_left.2 fun compared i t hi => ?_, ?_⟩
  · have used {v : TypeVar} {u : Variance} (varies : argumentVariance w c i ≠ .invariant)
        (hu : t.Uses w v u) :=
      h v _ (.argument given compared hi varies hu)
    cases hv : argumentVariance w c i with
    | covariant =>
      rw [hv] at used
      exact fun v u hu => used (by decide) hu
    | contravariant =>
      rw [hv] at used
      exact fun v u hu => (Variance.choose_opposite u _ _ _).1 (used (by decide) hu)
    | invariant => exact fun v hv' => h v _ (.fixed given compared hi hv hv')
  · rintro (uncompared | each) v u hu
    · cases hu <;> exact absurd uncompared ‹_›
    · cases hu with
      | @argument _ ts' i t u given' _ hi varies inner =>
        cases given.symm.trans given'
        have here := each i t hi
        cases hv : argumentVariance w c i with
        | covariant =>
          rw [hv] at here
          exact here v u inner
        | contravariant =>
          rw [hv] at here
          exact (Variance.choose_opposite u _ _ _).2 (here v u inner)
        | invariant => exact absurd hv varies
      | @fixed _ ts' i t given' _ hi fixed inner =>
        cases given.symm.trans given'
        have here := each i t hi
        rw [fixed] at here
        exact here v inner

private theorem allows_function {f : FunctionTy} :
    Ty.Allows w along against equal (.function f) ↔
      (∀ p ∈ f.params, ∀ t, p.type = some t → t.Allows w against along equal) ∧
        ∀ t, f.ret = .declared t → t.Allows w along against equal := by
  refine ⟨fun h => ⟨fun p hp t ht v u hu => ?_, fun t ht v u hu => h v u (.ret ht hu)⟩, ?_⟩
  · exact (Variance.choose_opposite u _ _ _).1 (h v _ (.param hp ht hu))
  · rintro ⟨params, ret⟩ v u hu
    cases hu with
    | @param _ p t u hp ht inner =>
      exact (Variance.choose_opposite u _ _ _).2 (params p hp t ht v u inner)
    | ret ht inner => exact ret _ ht v u inner

end Ty

namespace Ty.Scheme

variable {ρ τ : Solution}

/-- Nothing is found out in a scheme. -/
theorem steady (h : t.Scheme w.classes n) (ρ : Solution) :
    F.Steady (fun _ => True) (Substitution.ofTyAt w.classes ρ false n t) := by
  induction h with
  | var v => exact Fragment.steady_pure trivial
  | noneObject => exact Fragment.steady_pure trivial
  | bare bare nongeneric =>
    exact Fragment.steady_imp (steady_bare bare nongeneric ρ) fun _ _ => trivial
  | special given _ args =>
    exact Fragment.steady_imp (Fragment.steady_cls given args) fun _ _ => trivial
  | function _ settled _ _ params ret =>
    exact Fragment.steady_imp (Fragment.steady_function params ret settled) fun _ _ => trivial

theorem fill_bare {c : ClassTy} (bare : c.args = none)
    (nongeneric : (w.classes.decl c.id).params = []) (ρ : Solution) :
    F.fill w ρ (n + 1) (.cls c) = .cls c :=
  (steady_bare bare nongeneric ρ).eq.2

theorem fill_special {c : ClassTy} {ts : List (Option Ty)} (given : c.args = some ts)
    (args : ∀ t, some t ∈ ts → t.Scheme w.classes n) (ρ : Solution) :
    F.fill w ρ (n + 1) (.cls c) =
      .cls (c.withArgs (ts.map (Option.map (F.fill w ρ n))) c.explicit) :=
  (Fragment.steady_cls given fun u hu => (args u hu).steady ρ).eq.2

theorem fill_function {f : FunctionTy} (settled : ∀ cell outcome, f.ret ≠ .deferred cell outcome)
    (params : ∀ p ∈ f.params, ∀ t, p.type = some t → t.Scheme w.classes n)
    (ret : ∀ t, f.ret = .declared t → t.Scheme w.classes n) (ρ : Solution) :
    F.fill w ρ (n + 1) (.function f) = .function (F.fillFunction w ρ n f) :=
  (Fragment.steady_function (fun p hp t ht => (params p hp t ht).steady ρ)
    (fun t ht => (ret t ht).steady ρ) settled).eq.2

/-- Two choices of types for the variables of a scheme meet if they meet wherever the scheme
uses the variables. -/
theorem meets (h : t.Scheme w.classes n) (hn : n ≤ Ty.levels)
    {along against equal : TypeVar → Prop}
    (ahead : ∀ v, Meets w F.inf 1 (Substitution.ofVar ρ false v) (Substitution.ofVar τ false v)
      (along v) (equal v))
    (back : ∀ v, Meets w F.inf 1 (Substitution.ofVar τ false v) (Substitution.ofVar ρ false v)
      (against v) (equal v)) :
    Meets w F.inf n (F.fill w ρ n t) (F.fill w τ n t)
      (t.Allows w along against equal) (∀ v, t.Mentions v → equal v) := by
  induction h generalizing ρ τ along against with
  | @var n v =>
    refine ((ahead v).mono (Nat.le_add_left 1 n)).iff ⟨?_, fun h => h v .covariant .var⟩
      ⟨?_, fun h => h v .var⟩
    · rintro here _ _ ⟨⟩
      exact here
    · rintro here _ ⟨⟩
      exact here
  | @noneObject n =>
    refine (meets_noneObject.mono (Nat.le_add_left 1 n)).iff (iff_of_true trivial ?_)
      (iff_of_true trivial ?_)
    · rintro _ _ ⟨⟩
    · rintro _ ⟨⟩
  | @bare n c bare nongeneric =>
    rw [fill_bare bare nongeneric, fill_bare bare nongeneric]
    refine ((meets_self bare).mono (Nat.le_add_left 1 n)).iff (iff_of_true trivial ?_)
      (iff_of_true trivial ?_)
    · exact fun v u used => absurd used (Ty.not_uses_of_bare bare)
    · exact fun v mentioned => absurd mentioned (Ty.not_mentions_of_bare bare)
  | @special n c ts given args ih =>
    rw [fill_special given args, fill_special given args]
    refine (meets_arguments (fun t ht => ih t ht (Nat.le_of_lt hn) ahead back)
      (fun t ht => ih t ht (Nat.le_of_lt hn) back ahead) hn c.explicit).iff
        (Ty.allows_special given).symm ⟨fun all v hv => ?_, fun all t ht v hv => ?_⟩
    · cases hv with
      | argument given' here inner =>
        cases given.symm.trans given'
        exact all _ here v inner
    · exact all v (.argument given ht hv)
  | @function n f simple settled params ret ihp ihr =>
    rw [fill_function settled params ret, fill_function settled params ret]
    refine (Fragment.meets_function settled
      (fun p hp t ht => ihp p hp t ht (Nat.le_of_lt hn) ahead back)
      (fun t ht => ihr t ht (Nat.le_of_lt hn) ahead back) hn simple
      (fun p hp t ht => ihp p hp t ht (Nat.le_of_lt hn) back ahead)).iff
        Ty.allows_function.symm ⟨fun all v hv => ?_, fun all => ⟨?_, ?_⟩⟩
    · cases hv with
      | param hp ht inner => exact all.1 _ hp _ ht v inner
      | ret ht inner => exact all.2 _ ht v inner
    · exact fun p hp t ht v hv => all v (.param hp ht hv)
    · exact fun t ht v hv => all v (.ret ht hv)

end Ty.Scheme

end Conformance
