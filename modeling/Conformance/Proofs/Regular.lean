import Conformance.Proofs.Closure
import Conformance.Proofs.ParamPlan

/-!
# Regular types

A type is regular if a comparison with itself cannot go wrong: no more type arguments are given than
the class has parameters, each keyword of a function names one parameter, and the alternatives of a
union are no type variables, which a comparison would replace by their bounds. Substitution keeps
types regular.
-/

namespace Conformance

/-- The type is compared alternative by alternative. -/
def Ty.branches : Ty → Bool
  | .union _ | .overloaded _ => true
  | _ => false

/-- What regular types may contain. -/
structure Kinds where
  branches : Prop
  literals : Prop

inductive Regular (w : World) (K : Kinds) : Ty → Prop
  | unknown : Regular w K .unknown
  | any : Regular w K .any
  | noneObject : Regular w K .noneObject
  | module (name : String) (table : TableId) : Regular w K (.module name table)
  | cls {c : ClassTy} (args : ∀ t ∈ c.argList, ∀ u, t = some u → Regular w K u)
      (fits : c.argList.length ≤ (w.classes.decl c.id).params.length)
      (literal : c.literal = none ∨ K.literals) : Regular w K (.cls c)
  | function {f : FunctionTy} (params : ∀ p ∈ f.params, ∀ u, p.type = some u → Regular w K u)
      (ret : ∀ u, f.ret = .declared u → Regular w K u)
      (named : (ParamGroups.ofList f.params).Named) : Regular w K (.function f)
  | overloaded {fs : List FunctionTy} (branches : K.branches)
      (each : ∀ f ∈ fs, Regular w K (.function f)) : Regular w K (.overloaded fs)
  | var {v : TypeVar} (bound : ∀ u, v.bound = some u → Regular w K u)
      (whole : ∀ u, v.bound = some u → u.branches = false) : Regular w K (.var v)
  | union {ts : List Ty} (branches : K.branches) (each : ∀ t ∈ ts, Regular w K t)
      (proper : ∀ t ∈ ts, ∀ v, t ≠ .var v) : Regular w K (.union ts)

namespace Regular

variable {w : World} {K : Kinds} {c : ClassTy} {f : FunctionTy}

theorem args (h : Regular w K (.cls c)) : ∀ t ∈ c.argList, ∀ u, t = some u → Regular w K u := by
  cases h
  assumption

theorem fits (h : Regular w K (.cls c)) :
    c.argList.length ≤ (w.classes.decl c.id).params.length := by
  cases h
  assumption

theorem literal (h : Regular w K (.cls c)) : c.literal = none ∨ K.literals := by
  cases h
  assumption

theorem params (h : Regular w K (.function f)) :
    ∀ p ∈ f.params, ∀ u, p.type = some u → Regular w K u := by
  cases h
  assumption

theorem ret (h : Regular w K (.function f)) : ∀ u, f.ret = .declared u → Regular w K u := by
  cases h
  assumption

theorem named (h : Regular w K (.function f)) : (ParamGroups.ofList f.params).Named := by
  cases h
  assumption

theorem toInstance (h : Regular w K (.cls c)) : Regular w K (.cls c.toInstance) :=
  .cls h.args h.fits h.literal

theorem toClassObject (h : Regular w K (.cls c)) : Regular w K (.cls c.toClassObject) :=
  .cls h.args h.fits h.literal

theorem branches_of {t : Ty} (h : Regular w K t) (ht : t.branches = true) : K.branches := by
  cases h with
  | overloaded branches _ => exact branches
  | union branches _ _ => exact branches
  | _ => cases ht

theorem typeOrUnknown {p : Param} (h : ∀ u, p.type = some u → Regular w K u) :
    Regular w K p.typeOrUnknown := by
  unfold Param.typeOrUnknown
  cases hp : p.type with
  | none => exact .unknown
  | some t => exact h t hp

theorem returnType (h : Regular w K (.function f))
    (settled : ∀ cell outcome, f.ret ≠ .deferred cell outcome) (inf : Inference) :
    Regular w K (inf.returnType f) := by
  have declared := h.ret
  unfold Inference.returnType
  cases hr : f.ret with
  | declared t => exact declared t hr
  | undeclared => exact .unknown
  | deferred cell outcome => exact absurd hr (settled cell outcome)

/-- What a union is built of is regular, and so is the union. -/
theorem combine (inf : Inference) (branches : K.branches) {ts : List Ty}
    (h : ∀ t ∈ ts, Regular w K t ∧ ∀ v, t ≠ .var v) :
    Regular w K (Ty.combine inf (ts.map some)) ∧ ∀ v, Ty.combine inf (ts.map some) ≠ .var v := by
  have given (t : Ty) (ht : some t ∈ ts.map some) : Regular w K t ∧ ∀ v, t ≠ .var v :=
    h t (by simpa using ht)
  have alternative (u : Ty) : Fragment.AlternativeOf (ts.map some) u →
      Regular w K u ∧ ∀ v, u ≠ .var v := by
    rintro ⟨t, ht, -, hu⟩
    obtain ⟨regular, proper⟩ := given t ht
    unfold Ty.alternatives at hu
    split at hu
    · cases regular with
      | union _ each proper => exact ⟨each u hu, proper u hu⟩
    · rw [List.mem_singleton.1 hu]
      exact ⟨regular, proper⟩
  exact Fragment.combine_cases ⟨.unknown, fun _ h => nomatch h⟩ given alternative
    fun us each _ _ => ⟨.union branches (fun t ht => (alternative t (each t ht)).1)
      fun t ht => (alternative t (each t ht)).2, fun _ h => nomatch h⟩

end Regular

namespace Fragment

/-- The parameters, ancestors and metaclasses of the classes of a fragment are regular. -/
structure RegularIn (F : Fragment) (w : World) (K : Kinds) : Prop where
  params : ∀ {id}, F.ids id → ∀ v ∈ (w.classes.decl id).params, Regular w K (.var v)
  mro : ∀ {id}, F.ids id → ∀ c, Ancestor.resolved c ∈ (w.classes.decl id).mro → Regular w K (.cls c)
  metaclass : ∀ {c}, F.ids c.id → ∀ m, w.classes.metaclass? c = some m → Regular w K (.cls m)

variable {F : Fragment} {w : World} {K : Kinds} {σ : Solution}

/-! ## Substitution -/

section

variable {α β : Type} {P : α → Prop} {Q : β → Prop}

def value (F : Fragment) (m : StateM Inference α) : α := (m F.inf).1

theorem Steady.eq {m : StateM Inference α} (h : F.Steady P m) :
    m F.inf = (F.value m, F.inf) ∧ P (F.value m) := by
  obtain ⟨a, ha, hp⟩ := h
  unfold value
  rw [ha]
  exact ⟨rfl, hp⟩

theorem steady_mapM_map {f : α → StateM Inference β} {as : List α}
    (h : ∀ a ∈ as, F.Steady (fun _ => True) (f a)) :
    F.Steady (· = as.map fun a => F.value (f a)) (as.mapM f) := by
  induction as with
  | nil => exact steady_pure rfl
  | cons a as ih =>
    rw [List.mapM_cons]
    refine steady_bind ⟨_, (h a List.mem_cons_self).eq.1, rfl⟩ fun b hb => ?_
    refine steady_bind (ih fun a' ha' => h a' (List.mem_cons_of_mem a ha')) fun bs hbs => ?_
    exact steady_pure (by rw [← hb, hbs, List.map_cons])

end

section

variable {sub : Ty → StateM Inference Ty}
  (hs : ∀ t, F.Has t → Regular w K t →
    F.Steady (fun u => Regular w K u ∧ ((∀ v, t ≠ .var v) → ∀ v, u ≠ .var v)) (sub t))
include hs

private theorem steady_ofOption_regular {t : Option Ty} (h : F.HasOption t)
    (hr : ∀ u, t = some u → Regular w K u) :
    F.Steady (fun o => ∀ u, o = some u → Regular w K u) (Substitution.ofOption sub t) := by
  cases t with
  | none => exact steady_pure fun _ h => nomatch h
  | some t =>
    refine steady_bind (hs t (h t rfl) (hr t rfl)) fun u hu => steady_pure ?_
    rintro _ ⟨⟩
    exact hu.1

private theorem steady_ofFunction_regular {f : FunctionTy} (h : F.HasFunction f)
    (hr : Regular w K (.function f)) :
    F.Steady (fun g => Regular w K (.function g)) (Substitution.ofFunction sub f) := by
  let φ : Param → Param := fun p => F.value (Substitution.ofParam sub p)
  have params : ∀ p ∈ f.params, F.Steady (fun q => ∀ u, q.type = some u → Regular w K u)
      (Substitution.ofParam sub p) := fun p hp =>
    steady_bind (steady_ofOption_regular hs (h.params p hp) (hr.params p hp)) fun _ ht =>
      steady_pure ht
  have settled := h.settled
  have declared := h.declared
  have regular := hr.ret
  have returned : F.Steady (fun ret => ∀ u, ret = .declared u → Regular w K u)
      (Substitution.ofReturn sub f) := by
    unfold Substitution.ofReturn
    cases hret : f.ret with
    | declared t =>
      refine steady_bind (hs t (declared t hret) (regular t hret)) fun u hu => steady_pure ?_
      rintro _ ⟨⟩
      exact hu.1
    | undeclared => exact steady_pure fun _ h => nomatch h
    | deferred cell outcome => exact absurd hret (settled cell outcome)
  refine steady_bind (steady_mapM_map fun p hp => steady_imp (params p hp) fun _ _ => trivial)
    fun ps (hps : ps = f.params.map φ) => ?_
  refine steady_bind returned fun ret hret => steady_pure (.function ?_ hret ?_)
  · intro q hq
    obtain ⟨p, hp, rfl⟩ := List.mem_map.1 (hps ▸ hq)
    exact (params p hp).eq.2
  · dsimp only
    rw [hps, ParamGroups.ofList_map (φ := φ) fun _ => rfl]
    exact hr.named.map (φ := φ) fun _ => rfl

private theorem steady_ofClassTy_regular (hw : F.Scopes w) (hk : F.RegularIn w K) {c : ClassTy}
    (h : F.HasClass c) (hr : Regular w K (.cls c)) :
    F.Steady (fun d => Regular w K (.cls d)) (Substitution.ofClassTy w.classes σ sub c) := by
  have args := h.args
  have regular := hr.args
  have fits := hr.fits
  unfold Substitution.ofClassTy
  cases hc : c.args with
  | some ts =>
    rw [ClassTy.argList, hc] at args regular fits
    have each : ∀ t ∈ ts, F.Steady (fun o => ∀ u, o = some u → Regular w K u)
        (Substitution.ofOption sub t) := fun t ht =>
      steady_ofOption_regular hs (args t ht) (regular t ht)
    refine steady_bind (steady_mapM_map fun t ht => steady_imp (each t ht) fun _ _ => trivial)
      fun us hus => steady_pure (.cls ?_ ?_ hr.literal)
    · intro o ho
      obtain ⟨t, ht, rfl⟩ := List.mem_map.1 (hus ▸ ho)
      exact (each t ht).eq.2
    · rw [ClassTy.argList, Option.getD_some, hus, List.length_map]
      exact fits
  | none =>
    dsimp only
    split
    · exact steady_pure hr
    · have each : ∀ v ∈ (w.classes.decl c.id).params,
          F.Steady (fun o => ∀ u, o = some u → Regular w K u)
            (Substitution.ofOption sub (some (.var v))) := by
        intro v hv
        refine steady_ofOption_regular hs (hasOption_some (hw.params h.ids v hv).2) ?_
        rintro _ ⟨⟩
        exact hk.params h.ids v hv
      refine steady_bind (steady_mapM_map fun v hv => steady_imp (each v hv) fun _ _ => trivial)
        fun us hus => steady_pure (.cls ?_ ?_ hr.literal)
      · intro o ho
        obtain ⟨v, hv, rfl⟩ := List.mem_map.1 (hus ▸ ho)
        exact (each v hv).eq.2
      · have length : us.length = (w.classes.decl c.id).params.length := by
          rw [hus, List.length_map]
        exact Nat.le_of_eq length

end

variable (hw : F.Scopes w) (hk : F.RegularIn w K)
include hw hk

private theorem steady_ofTyAt_regular (hσ : ∀ v t, σ.get? v = some t → Regular w K t) (n : Nat)
    {t : Ty}
    (h : F.Has t) (hr : Regular w K t) :
    F.Steady (fun u => Regular w K u ∧ ((∀ v, t ≠ .var v) → ∀ v, u ≠ .var v))
      (Substitution.ofTyAt w.classes σ false n t) := by
  induction n generalizing t with
  | zero => exact steady_pure ⟨hr, id⟩
  | succ n ih =>
    have sub : ∀ t, F.Has t → Regular w K t →
        F.Steady (fun u => Regular w K u ∧ ((∀ v, t ≠ .var v) → ∀ v, u ≠ .var v))
          (Substitution.ofTyAt w.classes σ false n t) := fun t ht htr => ih ht htr
    unfold Substitution.ofTyAt
    cases h with
    | unknown | any | noneObject | module => exact steady_pure ⟨hr, id⟩
    | @var v here bound =>
      refine steady_pure ⟨?_, fun proper => absurd rfl (proper v)⟩
      unfold Substitution.ofVar
      split
      · exact hr
      · split
        · rename_i u hu
          exact hσ v u hu
        · exact hr
    | cls id narrow args =>
      exact steady_bind (steady_ofClassTy_regular sub hw hk (.cls id narrow args) hr)
        fun c hc => steady_pure ⟨hc, fun _ _ h => Ty.noConfusion h⟩
    | function params ret settled =>
      exact steady_bind (steady_ofFunction_regular sub (.function params ret settled) hr)
        fun f hf => steady_pure ⟨hf, fun _ _ h => Ty.noConfusion h⟩
    | overloaded each =>
      cases hr with
      | overloaded branches regular =>
        exact steady_bind
          (steady_mapM fun f hf => steady_ofFunction_regular sub (each f hf) (regular f hf))
          fun fs hfs => steady_pure ⟨.overloaded branches hfs, fun _ _ h => Ty.noConfusion h⟩
    | union each built =>
      cases hr with
      | union branches regular proper =>
        refine steady_bind (steady_mapM (Q := fun u => Regular w K u ∧ ∀ v, u ≠ .var v)
          fun t ht => steady_imp (sub t (each t ht) (regular t ht))
            fun u hu => ⟨hu.1, hu.2 (proper t ht)⟩) fun ts hts => ?_
        refine steady_bind (steady_get (P := (F.inf = ·)) rfl) fun inf hinf => steady_pure ?_
        have combined := Regular.combine inf branches hts
        exact ⟨combined.1, fun _ => combined.2⟩

/-- An ancestor seen through a regular class is regular. -/
theorem steady_specializeClass_regular {c owner : ClassTy} (h : F.HasClass c)
    (hr : Regular w K (.cls c)) (ho : Regular w K (.cls owner)) :
    F.Steady (fun d => Regular w K (.cls d)) (c.specialize w.classes owner) := by
  have solution : ∀ v t, (Solution.ofClass w.classes owner).get? v = some t → Regular w K t := by
    intro v t ht
    obtain ⟨e, he, het⟩ := mem_entries_of_get? ht
    rcases mem_entries_ofClass he with unknown | given
    · cases unknown.symm.trans het
      exact .unknown
    · exact ho.args _ given t het
  unfold ClassTy.specialize memberSolution
  dsimp only
  split
  · rename_i σ hσ
    split at hσ
    · cases hσ
      unfold ClassTy.substitute
      split
      · exact steady_pure hr
      · exact steady_ofClassTy_regular
          (fun t ht htr => steady_ofTyAt_regular hw hk solution _ ht htr) hw hk h hr
    · cases hσ
  · exact steady_pure hr

end Fragment

end Conformance
