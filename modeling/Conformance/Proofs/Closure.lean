import Conformance.Proofs.Fragment

/-!
# Closure of fragments

A world covers a fragment if what its classes and modules declare belongs to it. Then what is
substituted in types of the fragment, and what is looked up in its classes, belongs to it too.
-/

namespace Conformance

/-! ## Requirements -/

private theorem Requirement.mem_of_mem_nearest {rs : List Requirement} {r : Requirement}
    (h : r ∈ nearest rs) : r ∈ rs := by
  have folded : ∀ (rs found : List Requirement),
      r ∈ rs.foldl (fun found r => if found.any (·.name == r.name) then found else found ++ [r])
        found → r ∈ found ∨ r ∈ rs := by
    intro rs
    induction rs with
    | nil => exact fun _ h => .inl h
    | cons r' rs ih =>
      intro found h
      rw [List.foldl_cons] at h
      rcases ih _ h with h | h
      · split at h
        · exact .inl h
        · rcases List.mem_append.1 h with h | h
          · exact .inl h
          · exact .inr (List.mem_singleton.1 h ▸ List.mem_cons_self)
      · exact .inr (List.mem_cons_of_mem r' h)
  exact (folded rs [] h).resolve_left List.not_mem_nil

/-- Each requirement is declared by a protocol among the ancestors. -/
theorem Requirement.declared_of_mem_all {classes : ClassTable} {asObject : Bool}
    {protocol : ClassTy} {r : Requirement} (h : r ∈ all classes asObject protocol) :
    r.owner ∈ protocols classes protocol ∧
      (r.name, r.member) ∈ (classes.decl r.owner.id).members.entries := by
  obtain ⟨owner, ho, hr⟩ := List.mem_flatMap.1 (mem_of_mem_nearest h)
  obtain ⟨e, he, rfl⟩ := List.mem_map.1 hr
  exact ⟨ho, (List.mem_filter.1 he).1⟩

theorem mem_of_findAncestor {dest ancestor : ClassTy} {lineage : List Ancestor}
    (h : findAncestor dest lineage = .derived ancestor) : Ancestor.resolved ancestor ∈ lineage := by
  induction lineage with
  | nil => cases h
  | cons a rest ih =>
    cases a with
    | unresolved t mark => cases h
    | resolved c =>
      unfold findAncestor at h
      split at h
      · cases h
        exact List.mem_cons_self
      · exact List.mem_cons_of_mem _ (ih h)

namespace Fragment

/-- The type parameters of the classes of a fragment. A narrow fragment has none, and its type
variables are none of its classes. -/
structure Scopes (F : Fragment) (w : World) : Prop where
  params : ∀ {id}, F.ids id → ∀ v ∈ (w.classes.decl id).params, F.wide ∧ F.Has (.var v)
  apart : F.wide ∨ ∀ {id}, F.ids id → ∀ v, F.vars v → v.scope ≠ (w.classes.decl id).scope

/-- The type of a member that belongs to the fragment once the class that is searched takes the
place of its receiver's class. -/
structure Receives (F : Fragment) (w : World) (id : ClassId) (t : Ty) : Prop where
  settled : ∀ f, t = .function f → ∀ cell outcome, f.ret ≠ .deferred cell outcome
  becomes : ∀ {owner c}, owner.id = id → F.HasClass owner → F.HasClass c →
    F.Steady F.HasMember (t.specialize w.classes owner (some c))

/-- What the classes of a fragment and the modules declare belongs to the fragment. Outside of
protocols it may mention the class of its receiver. -/
structure Covers (F : Fragment) (w : World) : Prop extends F.Scopes w where
  object : F.ids Builtin.object.id
  typedDict : F.HasClass w.typedDict
  mro : ∀ {id}, F.ids id → ∀ c, Ancestor.resolved c ∈ (w.classes.decl id).mro → F.HasClass c
  metaclass : ∀ {c}, F.ids c.id → ∀ m, w.classes.metaclass? c = some m → F.HasClass m
  accessors : ∀ {id}, F.ids id → ∀ (a : Accessor) (f : FunctionTy),
    a.of (w.classes.decl id) = some f → F.HasFunction f ∧ F.Bindable f
  members : ∀ {id}, F.ids id → ∀ e ∈ (w.classes.decl id).members.entries,
    F.HasMember (e.2.effectiveType F.inf) ∨
      (w.classes.decl id).flags.protocol = false ∧ e.1 ≠ "__call__" ∧
        F.Receives w id (e.2.effectiveType F.inf)
  modules : ∀ (table : TableId), ∀ e ∈ (w.moduleMembers table).entries,
    F.Has (e.2.effectiveType F.inf)

variable {F : Fragment} {w : World}

theorem Covers.required (hw : F.Covers w) {id : ClassId} (hi : F.ids id)
    (hp : (w.classes.decl id).flags.protocol = true) {e : String × Member}
    (he : e ∈ (w.classes.decl id).members.entries) {t : Ty} (ht : e.2.declaredType = some t) :
    F.HasMember t := by
  have effective : e.2.effectiveType F.inf = t := by
    unfold Member.effectiveType
    rw [ht]
  rcases hw.members hi e he with has | ⟨other, -⟩
  · exact effective ▸ has
  · rw [hp] at other
    cases other

theorem Covers.called (hw : F.Covers w) {id : ClassId} (hi : F.ids id) {m : Member}
    (he : ("__call__", m) ∈ (w.classes.decl id).members.entries) :
    F.HasMember (m.effectiveType F.inf) := by
  rcases hw.members hi _ he with has | ⟨-, other, -⟩
  · exact has
  · exact absurd rfl other

theorem Covers.settled (hw : F.Covers w) {id : ClassId} (hi : F.ids id) {e : String × Member}
    (he : e ∈ (w.classes.decl id).members.entries) {f : FunctionTy}
    (hf : e.2.effectiveType F.inf = .function f) (cell : CellId) (outcome : Outcome) :
    f.ret ≠ .deferred cell outcome := by
  rcases hw.members hi e he with ⟨has, -, -⟩ | ⟨-, -, receives⟩
  · rw [hf] at has
    exact HasFunction.settled has cell outcome
  · exact receives.settled f hf cell outcome

theorem hasMember_of_wide (hf : F.wide) {t : Ty} (h : F.Has t) : F.HasMember t :=
  ⟨h, fun _ _ => .inl hf, fun _ _ _ _ => .inl hf⟩

/-! ## Substitution -/

section

variable {σ : Solution} {unsolvedUnknown : Bool} {sub : Ty → StateM Inference Ty}

theorem Scopes.params_eq_nil (hw : F.Scopes w) (hf : ¬ F.wide) {id : ClassId} (hi : F.ids id) :
    (w.classes.decl id).params = [] := by
  have params := hw.params hi
  cases hd : (w.classes.decl id).params with
  | nil => rfl
  | cons v vs =>
    rw [hd] at params
    exact absurd (params v List.mem_cons_self).1 hf

private theorem steady_ofOption (hs : ∀ t, F.Has t → F.Steady F.Has (sub t)) {t : Option Ty}
    (h : F.HasOption t) : F.Steady F.HasOption (Substitution.ofOption sub t) := by
  cases t with
  | none => exact steady_pure hasOption_none
  | some t => exact steady_bind (hs t (h t rfl)) fun t ht => steady_pure (hasOption_some ht)

private theorem steady_ofParam (hs : ∀ t, F.Has t → F.Steady F.Has (sub t)) {p : Param}
    (h : F.HasOption p.type) :
    F.Steady (fun q => F.HasOption q.type) (Substitution.ofParam sub p) :=
  steady_bind (steady_ofOption hs h) fun _ ht => steady_pure ht

private theorem steady_ofReturn (hs : ∀ t, F.Has t → F.Steady F.Has (sub t)) {f : FunctionTy}
    (h : F.HasFunction f) :
    F.Steady (fun r => (∀ u, r = .declared u → F.Has u) ∧
      ∀ cell outcome, r ≠ .deferred cell outcome) (Substitution.ofReturn sub f) := by
  have settled := h.settled
  have declared := h.declared
  unfold Substitution.ofReturn
  cases hr : f.ret with
  | declared t =>
    refine steady_bind (hs t (declared t hr)) fun u hu => steady_pure ⟨?_, fun _ _ h => nomatch h⟩
    rintro _ ⟨⟩
    exact hu
  | undeclared => exact steady_pure ⟨fun _ h => (nomatch h), fun _ _ h => (nomatch h)⟩
  | deferred cell outcome => exact absurd hr (settled cell outcome)

private theorem steady_ofFunction (hs : ∀ t, F.Has t → F.Steady F.Has (sub t)) {f : FunctionTy}
    (h : F.HasFunction f) : F.Steady F.HasFunction (Substitution.ofFunction sub f) := by
  refine steady_bind (steady_mapM fun p hp => steady_ofParam hs (h.params p hp)) fun params hp => ?_
  exact steady_bind (steady_ofReturn hs h) fun ret hret => steady_pure (.function hp hret.1 hret.2)

private theorem steady_ofClassTy (hw : F.Scopes w) (hf : F.wide)
    (hs : ∀ t, F.Has t → F.Steady F.Has (sub t)) {c : ClassTy} (h : F.HasClass c) :
    F.Steady F.HasClass (Substitution.ofClassTy w.classes σ sub c) := by
  have args := h.args
  unfold Substitution.ofClassTy
  cases hc : c.args with
  | some ts =>
    rw [ClassTy.argList, hc] at args
    refine steady_bind (steady_mapM fun t ht => steady_ofOption hs (args t ht)) fun ts hts => ?_
    exact steady_pure (.cls h.ids (.inl hf) hts)
  | none =>
    dsimp only
    split
    · exact steady_pure h
    · refine steady_bind (steady_mapM fun v hv =>
        steady_ofOption hs (hasOption_some (hw.params h.ids v hv).2)) fun ts hts => ?_
      exact steady_pure (hasClass_withArgs h.ids hf hts true)

private theorem has_ofVar (hσ : F.HasSolution σ) {v : TypeVar} (h : F.Has (.var v)) :
    F.Has (Substitution.ofVar σ unsolvedUnknown v) := by
  unfold Substitution.ofVar
  split
  · exact h
  · split
    · rename_i t ht
      exact hσ.get? ht
    · split
      · exact .unknown
      · exact h

private theorem steady_ofTyAt (hw : F.Scopes w) (hf : F.wide) (hσ : F.HasSolution σ) (n : Nat)
    {t : Ty}
    (h : F.Has t) : F.Steady F.Has (Substitution.ofTyAt w.classes σ unsolvedUnknown n t) := by
  induction n generalizing t with
  | zero => exact steady_pure h
  | succ n ih =>
    have sub : ∀ t, F.Has t →
        F.Steady F.Has (Substitution.ofTyAt w.classes σ unsolvedUnknown n t) := fun t ht => ih ht
    unfold Substitution.ofTyAt
    cases h with
    | unknown | any | noneObject | module => exact steady_pure (by constructor)
    | var here bound => exact steady_pure (has_ofVar hσ (.var here bound))
    | cls id narrow args =>
      exact steady_bind (steady_ofClassTy hw hf sub (.cls id narrow args))
        fun c hc => steady_pure hc
    | function params ret settled =>
      exact steady_bind (steady_ofFunction sub (.function params ret settled))
        fun f hf => steady_pure hf
    | overloaded each =>
      exact steady_bind (steady_mapM fun f hf => steady_ofFunction sub (each f hf))
        fun fs hfs => steady_pure (.overloaded hfs)
    | union each built =>
      refine steady_bind (steady_mapM fun t ht => sub t (each t ht)) fun ts hts => ?_
      refine steady_bind (steady_get rfl) fun inf (hinf : F.inf = inf) => steady_pure ?_
      subst hinf
      refine has_combine fun t ht => ?_
      obtain ⟨u, hu, rfl⟩ := List.mem_map.1 ht
      exact hasOption_some (hts u hu)

private theorem steady_ofOption_eq {o : Option Ty}
    (h : ∀ t, o = some t → F.Steady (· = t) (sub t)) :
    F.Steady (· = o) (Substitution.ofOption sub o) := by
  cases o with
  | none => exact steady_pure rfl
  | some t =>
    exact steady_bind (h t rfl) fun u (hu : u = t) => steady_pure (congrArg some hu)

theorem steady_ofParam_eq {p : Param} (h : ∀ t, p.type = some t → F.Steady (· = t) (sub t)) :
    F.Steady (· = p) (Substitution.ofParam sub p) := by
  obtain ⟨kind, name, type, hasDefault⟩ := p
  exact steady_bind (steady_ofOption_eq h) fun u (hu : u = type) => steady_pure (by rw [hu])

/-- A function stays as it is if the types of its parameters and its return type do. -/
theorem steady_ofFunction_eq {f : FunctionTy}
    (typed : ∀ p ∈ f.params, ∀ t, p.type = some t → F.Steady (· = t) (sub t))
    (declared : ∀ t, f.ret = .declared t → F.Steady (· = t) (sub t))
    (settled : ∀ cell outcome, f.ret ≠ .deferred cell outcome) :
    F.Steady (· = f) (Substitution.ofFunction sub f) := by
  obtain ⟨name, params, ret, kind, scope⟩ := f
  have returned : F.Steady (· = ret)
      (Substitution.ofReturn sub ⟨name, params, ret, kind, scope⟩) := by
    unfold Substitution.ofReturn
    cases ret with
    | declared t =>
      exact steady_bind (declared t rfl) fun u (hu : u = t) =>
        steady_pure (congrArg Return.declared hu)
    | undeclared => exact steady_pure rfl
    | deferred cell outcome => exact absurd rfl (settled cell outcome)
  refine steady_bind (steady_mapM_eq fun p hp => steady_ofParam_eq (typed p hp))
    fun params' hp => steady_bind returned fun ret' hr => steady_pure ?_
  rw [hp, hr]

theorem HasFunction.steady_ofFunction_eq (hs : ∀ t, F.Has t → F.Steady (· = t) (sub t))
    {f : FunctionTy} (h : F.HasFunction f) : F.Steady (· = f) (Substitution.ofFunction sub f) :=
  Fragment.steady_ofFunction_eq (fun p hp t ht => hs t (h.params p hp t ht))
    (fun t ht => hs t (h.declared t ht)) h.settled

/-- A solution that has nothing to put into types of the fragment. -/
structure Untouched (F : Fragment) (w : World) (σ : Solution) : Prop where
  vars : ∀ v, F.vars v → Substitution.ofVar σ false v = .var v
  classes : ∀ {id}, F.ids id →
    (w.classes.decl id).params = [] ∨ σ.solves (w.classes.decl id).scope = false

theorem ofVar_eq_var {v : TypeVar} (h : σ.solves v.scope = false) :
    Substitution.ofVar σ unsolvedUnknown v = .var v := by
  simp [Substitution.ofVar, h]

private theorem untouched_of_narrow (hw : F.Scopes w) (hf : ¬ F.wide) (hσ : F.HasSolution σ) :
    F.Untouched w σ := by
  refine ⟨fun v hv => ?_, fun hi => .inl (hw.params_eq_nil hf hi)⟩
  rcases hσ.kept.resolve_left hf with empty | idle
  · unfold Substitution.ofVar
    split
    · rfl
    · simp [Solution.get?, empty]
  · exact ofVar_eq_var (idle v hv)

/-- A class stays as it is if its arguments do and, where it has none, no parameter becomes one. -/
theorem steady_ofClassTy_eq {c : ClassTy}
    (args : ∀ t ∈ c.argList, ∀ u, t = some u → F.Steady (· = u) (sub u))
    (bare : c.args = none →
      (w.classes.decl c.id).params = [] ∨ σ.solves (w.classes.decl c.id).scope = false) :
    F.Steady (· = c) (Substitution.ofClassTy w.classes σ sub c) := by
  obtain ⟨id, isInstance, given, explicit, literal⟩ := c
  cases given with
  | some ts =>
    refine steady_bind (steady_mapM_eq fun t ht => steady_ofOption_eq (args t ht))
      fun us (hus : us = ts) => steady_pure ?_
    rw [hus]
  | none =>
    have plain : ((w.classes.decl id).params.isEmpty ||
        !σ.solves (w.classes.decl id).scope) = true := by
      rcases bare rfl with none_there | unsolved
      · simp [none_there]
      · simp [unsolved]
    unfold Substitution.ofClassTy
    simp only [plain, if_true]
    exact steady_pure rfl

/-- Types that a solution has nothing to put into stay as they are. -/
theorem steady_ofTyAt_eq (h : F.Untouched w σ) (n : Nat) {t : Ty} (ht : F.Has t) :
    F.Steady (· = t) (Substitution.ofTyAt w.classes σ false n t) := by
  induction n generalizing t with
  | zero => exact steady_pure rfl
  | succ n ih =>
    have sub : ∀ t, F.Has t →
        F.Steady (· = t) (Substitution.ofTyAt w.classes σ false n t) :=
      fun t ht => ih ht
    unfold Substitution.ofTyAt
    cases ht with
    | unknown | any | noneObject | module => exact steady_pure rfl
    | var here bound => exact steady_pure (h.vars _ here)
    | cls id narrow args =>
      exact steady_bind (steady_ofClassTy_eq (fun t ht u hu => sub u (args t ht u hu))
        fun _ => h.classes id) fun c hc => steady_pure (congrArg Ty.cls hc)
    | @function f params ret settled =>
      have function : F.HasFunction f := .function params ret settled
      exact steady_bind (function.steady_ofFunction_eq sub)
        fun f hf => steady_pure (congrArg _ hf)
    | overloaded each =>
      exact steady_bind (steady_mapM_eq fun f hf => HasFunction.steady_ofFunction_eq sub (each f hf))
        fun fs hfs => steady_pure (congrArg _ hfs)
    | @union ts each built =>
      refine steady_bind (steady_mapM_eq fun t ht => sub t (each t ht)) fun us (hus : us = ts) => ?_
      refine steady_bind (steady_get rfl) fun inf (hinf : F.inf = inf) => steady_pure ?_
      rw [hus, ← hinf]
      exact built.combine_eq

variable (hw : F.Scopes w) (hσ : F.HasSolution σ)
include hw hσ

/-- In a narrow fragment a solution has nothing to put into a type. -/
theorem steady_substitute_eq (hf : ¬ F.wide) {t : Ty} (h : F.Has t) :
    F.Steady (· = t) (t.substitute w.classes σ false) := by
  unfold Ty.substitute
  split
  · exact steady_pure rfl
  · exact steady_ofTyAt_eq (untouched_of_narrow hw hf hσ) _ h

theorem steady_substitute {t : Ty} (h : F.HasMember t) :
    F.Steady F.HasMember (t.substitute w.classes σ false) := by
  by_cases hf : F.wide
  · unfold Ty.substitute
    split
    · exact steady_pure h
    · exact steady_imp (steady_ofTyAt hw hf hσ _ h.has) fun u hu => hasMember_of_wide hf hu
  · exact steady_imp (steady_substitute_eq hw hσ hf h.has) fun u hu => hu ▸ h

private theorem steady_substituteTy (hu : F.wide ∨ unsolvedUnknown = false) {t : Ty} (h : F.Has t) :
    F.Steady F.Has (t.substitute w.classes σ unsolvedUnknown) := by
  by_cases hf : F.wide
  · unfold Ty.substitute
    split
    · exact steady_pure h
    · exact steady_ofTyAt hw hf hσ _ h
  · cases hu.resolve_left hf
    exact steady_imp (steady_substitute_eq hw hσ hf h) fun u hu => hu ▸ h

theorem steady_substituteFunction_eq (hf : ¬ F.wide) {f : FunctionTy} (h : F.HasFunction f) :
    F.Steady (· = f) (f.substitute w.classes σ) := by
  unfold FunctionTy.substitute
  split
  · exact steady_pure rfl
  · exact h.steady_ofFunction_eq fun t ht => steady_ofTyAt_eq (untouched_of_narrow hw hf hσ) _ ht

theorem steady_substituteFunction {f : FunctionTy} (h : F.HasFunction f) :
    F.Steady (fun g => F.HasFunction g ∧ (F.Bindable f → F.Bindable g))
      (f.substitute w.classes σ) := by
  by_cases hf : F.wide
  · unfold FunctionTy.substitute
    split
    · exact steady_pure ⟨h, id⟩
    · refine steady_imp (steady_ofFunction (fun t ht => steady_ofTyAt hw hf hσ _ ht) h)
        fun g hg => ?_
      exact ⟨hg, fun _ => .inl hf⟩
  · refine steady_imp (steady_substituteFunction_eq hw hσ hf h) fun g (hg : g = f) => ?_
    subst hg
    exact ⟨h, id⟩

theorem steady_substituteClass (hu : F.wide ∨ unsolvedUnknown = false) {c : ClassTy}
    (h : F.HasClass c) :
    F.Steady (fun d => F.HasClass d ∧ d.id = c.id)
      (c.substitute w.classes σ unsolvedUnknown) := by
  have same := c.id_substitute w.classes σ unsolvedUnknown F.inf
  obtain ⟨t, ht, has⟩ : F.Steady F.Has ((Ty.cls c).substitute w.classes σ unsolvedUnknown) :=
    steady_substituteTy hw hσ hu h
  rw [Ty.substitute_cls] at ht
  rcases hr : c.substitute w.classes σ unsolvedUnknown F.inf with ⟨d, inf⟩
  rw [hr] at same
  have mapped : (Ty.cls d, inf) = (t, F.inf) := by
    rw [← ht]
    change _ = (Ty.cls (c.substitute w.classes σ unsolvedUnknown F.inf).1,
      (c.substitute w.classes σ unsolvedUnknown F.inf).2)
    rw [hr]
  cases mapped
  exact ⟨d, hr, has, same⟩

end

/-! ## Members -/

/-- Letting the receiver stand for a class of the fragment in what was found for its scope. -/
theorem hasSolution_withSelf (hw : F.Scopes w) {σ : Solution} {c self : ClassTy}
    (hc : F.ids c.id) (hs : F.HasClass self)
    (hσ : F.HasSolution σ) (hk : F.wide ∨ σ = .forScope (w.classes.decl c.id).scope) :
    F.HasSolution (σ.withSelf w.classes c self) := by
  refine hσ.withSelf ?_ hs
  rcases hw.apart with hf | apart
  · exact .inl hf
  · refine hk.imp id fun hk => ⟨?_, apart hc⟩
    rw [hk]
    exact idle_forScope (apart hc)

private theorem hasSolution_member (hw : F.Scopes w) {owner : ClassTy} {self : Option ClassTy}
    (ho : F.HasClass owner) (hs : ∀ c, self = some c → F.HasClass c) {σ : Solution}
    (h : memberSolution w.classes owner self = some σ) : F.HasSolution σ := by
  unfold memberSolution at h
  split at h
  · rename_i c
    cases h
    refine hasSolution_withSelf hw ho.ids (hs c rfl) (hasSolution_ofClass ho) ?_
    refine ho.narrow.imp id fun plain => ?_
    unfold Solution.ofClass
    rw [plain.1]
  · split at h
    · cases h
      exact hasSolution_ofClass ho
    · cases h

theorem hasClass_of_none : ∀ c, (none : Option ClassTy) = some c → F.HasClass c :=
  fun _ h => nomatch h

def Sees (F : Fragment) (w : World) (owner : ClassTy) : Prop :=
  ∀ σ, memberSolution w.classes owner none = some σ → F.HasSolution σ

theorem HasClass.sees {c : ClassTy} (h : F.HasClass c) (hw : F.Scopes w) : F.Sees w c :=
  fun _ hσ => hasSolution_member hw h hasClass_of_none hσ

section

variable (hw : F.Scopes w)
include hw

theorem steady_specialize {t : Ty} (h : F.HasMember t) {owner : ClassTy} (ho : F.HasClass owner)
    {self : Option ClassTy} (hs : ∀ c, self = some c → F.HasClass c) :
    F.Steady F.HasMember (t.specialize w.classes owner self) := by
  unfold Ty.specialize
  split
  · exact steady_substitute hw (hasSolution_member hw ho hs ‹_›) h
  · exact steady_pure h

theorem steady_specializeFunction {f : FunctionTy} (h : F.HasFunction f) {owner : ClassTy}
    (ho : F.Sees w owner) :
    F.Steady (fun g => F.HasFunction g ∧ (F.Bindable f → F.Bindable g))
      (f.specialize w.classes owner) := by
  unfold FunctionTy.specialize
  split
  · exact steady_substituteFunction hw (ho _ ‹_›) h
  · exact steady_pure ⟨h, id⟩

theorem steady_specializeClass {c owner : ClassTy} (h : F.HasClass c) (ho : F.HasClass owner) :
    F.Steady (fun d => F.HasClass d ∧ d.id = c.id) (c.specialize w.classes owner) := by
  unfold ClassTy.specialize
  split
  · exact steady_substituteClass hw (hasSolution_member hw ho hasClass_of_none ‹_›) (.inr rfl) h
  · exact steady_pure ⟨h, rfl⟩

end

/-! ## Methods that return their receiver -/

theorem solves_addScope_self {σ : Solution} {scope : String} (h : scope ≠ "") :
    (σ.addScope scope).solves scope = true := by
  have nonempty : scope.isEmpty = false := by simpa using h
  unfold Solution.addScope
  split
  · rename_i hs
    rwa [nonempty, Bool.false_or] at hs
  · simp [Solution.solves, nonempty]

/-- The receiver's class takes the place of the variable that stands for it. -/
theorem ofVar_withSelf {classes : ClassTable} (σ : Solution) {owner self : ClassTy} {u : TypeVar}
    (hw : u.access = .whole) (hk : u.key = (classes.selfVar owner).key)
    (hs : u.scope = (classes.selfVar owner).scope) (hne : (classes.selfVar owner).scope ≠ "") :
    Substitution.ofVar (σ.withSelf classes owner self) false u = .cls self.toInstance := by
  have solves : (σ.withSelf classes owner self).solves u.scope = true := by
    rw [hs]
    exact solves_addScope_self hne
  have found : (σ.withSelf classes owner self).get? u = some (.cls self.toInstance) := by
    unfold Solution.withSelf
    dsimp only
    rw [Solution.get?_insert, if_pos hk]
  unfold Substitution.ofVar
  simp [hw, solves, found]

theorem isEmpty_insert (σ : Solution) (v : TypeVar) (t : Option Ty) :
    (σ.insert v t).isEmpty = false := by
  unfold Solution.isEmpty Solution.insert
  cases σ.entries with
  | nil => rfl
  | cons e es =>
    unfold Solution.update
    split <;> rfl

private theorem steady_ofParams (hw : F.Scopes w) {σ : Solution} (hσ : F.HasSolution σ) (n : Nat)
    {params : List Param} (hp : ∀ p ∈ params, F.HasOption p.type) :
    F.Steady (fun ps => (∀ p ∈ ps, F.HasOption p.type) ∧ (¬ F.wide → ps = params))
      (params.mapM (Substitution.ofParam (Substitution.ofTyAt w.classes σ false n))) := by
  by_cases hf : F.wide
  · refine steady_imp (steady_mapM fun p hmem =>
      steady_ofParam (fun t ht => steady_ofTyAt hw hf hσ n ht) (hp p hmem)) fun ps hps => ?_
    exact ⟨hps, fun hn => absurd hf hn⟩
  · refine steady_imp (steady_mapM_eq fun p hmem =>
      steady_ofParam_eq fun t ht => steady_ofTyAt_eq (untouched_of_narrow hw hf hσ) n (hp p hmem t ht))
        fun ps hps => ?_
    exact ⟨hps ▸ hp, fun _ => hps⟩

/-- A method that returns an instance of its receiver's class, for which the variable stands, and is
of the fragment otherwise. -/
structure ReturnsSelf (F : Fragment) (v : TypeVar) (f : FunctionTy) : Prop where
  params : ∀ p ∈ f.params, F.HasOption p.type
  bindable : F.Bindable f
  ret : ∃ u, f.ret = .declared (.var u) ∧ u.access = .whole ∧ u.key = v.key ∧ u.scope = v.scope
  scope : v.scope ≠ ""

theorem receives_of_returnsSelf (hw : F.Scopes w) {id : ClassId} {f : FunctionTy}
    (self : F.ReturnsSelf (w.classes.selfVar (.ofId id)) f) : F.Receives w id (.function f) := by
  obtain ⟨u, hret, whole, key, scope⟩ := self.ret
  refine ⟨fun g hg cell outcome => ?_, fun {owner c} hid ho hc => ?_⟩
  · rw [← Ty.function.inj hg, hret]
    exact fun h => nomatch h
  · subst hid
    have given : ∀ d, some c = some d → F.HasClass d := by
      rintro _ ⟨⟩
      exact hc
    have hσ := hasSolution_member hw ho given rfl
    have key : u.key = (w.classes.selfVar owner).key := key
    have becomes : Substitution.ofVar
        ((Solution.ofClass w.classes owner).withSelf w.classes owner c) false u =
          .cls c.toInstance :=
      ofVar_withSelf _ whole key scope self.scope
    have replaced : F.Steady (· = .cls c.toInstance) (Substitution.ofTyAt w.classes
        ((Solution.ofClass w.classes owner).withSelf w.classes owner c) false 14 (.var u)) :=
      steady_pure becomes
    have returned : F.Steady (· = .declared (.cls c.toInstance)) (Substitution.ofReturn
        (Substitution.ofTyAt w.classes
          ((Solution.ofClass w.classes owner).withSelf w.classes owner c) false 14) f) := by
      unfold Substitution.ofReturn
      rw [hret]
      exact steady_bind replaced fun t ht => steady_pure (congrArg Return.declared ht)
    have function : F.Steady (fun g => F.HasFunction g ∧ F.Bindable g) (Substitution.ofFunction
        (Substitution.ofTyAt w.classes
          ((Solution.ofClass w.classes owner).withSelf w.classes owner c) false 14) f) := by
      refine steady_bind (steady_ofParams hw hσ 14 self.params) fun ps hps => ?_
      refine steady_bind returned fun ret hr => steady_pure ?_
      subst hr
      refine ⟨.function hps.1 ?_ (fun _ _ h => nomatch h), ?_⟩
      · rintro _ ⟨⟩
        exact hc.toInstance
      · by_cases hf : F.wide
        · exact .inl hf
        · have bindable := self.bindable
          unfold Bindable at bindable ⊢
          rwa [hps.2 hf]
    change F.Steady F.HasMember ((Ty.function f).substitute w.classes _ false)
    unfold Ty.substitute
    have recorded :
        ((Solution.ofClass w.classes owner).withSelf w.classes owner c).isEmpty = false :=
      isEmpty_insert _ _ _
    rw [recorded]
    refine steady_bind function fun g hg => steady_pure ?_
    exact ⟨hg.1, fun f hf => Ty.function.inj hf ▸ hg.2, fun _ h => nomatch h⟩

/-! ## Found members -/

/-- A member that was found belongs to the fragment once the class that was searched stands for its
receiver. -/
theorem steady_found (hw : F.Covers w) {owner c : ClassTy} (ho : F.HasClass owner)
    (hc : F.HasClass c) {name : String} {m : Member}
    (he : (name, m) ∈ (w.classes.decl owner.id).members.entries) :
    F.Steady F.HasMember ((m.effectiveType F.inf).specialize w.classes owner (some c)) := by
  rcases hw.members ho.ids _ he with has | ⟨-, -, receives⟩
  · refine steady_specialize hw.toScopes has ho ?_
    rintro _ ⟨⟩
    exact hc
  · exact receives.becomes rfl ho hc

theorem MemberTable.mem_of_find? {table : MemberTable} {name : String} {m : Member}
    (h : table.find? name = some m) : (name, m) ∈ table.entries := by
  obtain ⟨entries⟩ := table
  simp only [MemberTable.find?] at h ⊢
  induction entries with
  | nil => cases h
  | cons e es ih =>
    rw [List.lookup_cons] at h
    split at h
    · rename_i hn
      cases h
      rw [beq_iff_eq] at hn
      subst hn
      exact List.mem_cons_self
    · exact List.mem_cons_of_mem e (ih h)

/-- The member stands in the body of a class of the fragment, if its class is known. -/
def FoundIn (F : Fragment) (w : World) (name : String) (found : FoundMember) : Prop :=
  ∀ owner, found.owner = some owner →
    F.HasClass owner ∧ (name, found.member) ∈ (w.classes.decl owner.id).members.entries

/-- What is found among ancestors is declared by one of them, if its class is known. -/
theorem declared_of_findIn {classes : ClassTable} {name : String} {ancestors : List Ancestor}
    {found : FoundMember} (h : classes.findIn name ancestors = some found) {owner : ClassTy}
    (ho : found.owner = some owner) :
    Ancestor.resolved owner ∈ ancestors ∧
      (name, found.member) ∈ (classes.decl owner.id).members.entries := by
  induction ancestors with
  | nil => cases h
  | cons a rest ih =>
    have rest (h : classes.findIn name rest = some found) :=
      (ih h).imp (List.mem_cons_of_mem a) id
    cases a with
    | unresolved t mark =>
      cases h
      cases ho
    | resolved c =>
      unfold ClassTable.findIn at h
      split at h
      · exact rest h
      · rename_i m hm
        split at h
        · rename_i found' hf
          cases h
          have declared : found.owner = some c ∧ found.member = m := by
            unfold FoundMember.of? at hf
            split at hf
            · cases hf
              exact ⟨rfl, rfl⟩
            · split at hf
              · cases hf
                exact ⟨rfl, rfl⟩
              · cases hf
          cases declared.1.symm.trans ho
          exact ⟨List.mem_cons_self, declared.2 ▸ MemberTable.mem_of_find? hm⟩
        · exact rest h

private theorem foundIn_findIn {name : String} {ancestors : List Ancestor} {found : FoundMember}
    (ha : ∀ c, Ancestor.resolved c ∈ ancestors → F.HasClass c)
    (h : w.classes.findIn name ancestors = some found) : F.FoundIn w name found := fun owner ho =>
  (declared_of_findIn h ho).imp (ha owner) id

theorem steady_lookup (hw : F.Covers w) {c : ClassTy} (h : F.HasClass c) (name : String) :
    F.Steady (fun r => ∀ found, r = some found → F.FoundIn w name found)
      (w.classes.lookup c name) := by
  unfold ClassTable.lookup
  dsimp only
  split
  · rename_i found hf
    refine steady_pure ?_
    rintro _ ⟨⟩
    refine foundIn_findIn (fun d hd => ?_) hf
    rw [List.mem_singleton] at hd
    cases hd
    exact h.toClassObject
  · split
    · exact steady_pure fun _ h => nomatch h
    · rename_i found hf
      have inside : F.FoundIn w name found := foundIn_findIn (fun d hd => hw.mro h.ids d hd) hf
      split
      · rename_i ho
        refine steady_pure ?_
        rintro _ ⟨⟩
        exact inside
      · rename_i owner ho
        obtain ⟨hc, mem⟩ := inside owner ho
        refine steady_bind (steady_specializeClass hw.toScopes hc h) fun owner' ho' =>
          steady_pure ?_
        rintro _ ⟨⟩ _ ⟨⟩
        exact ⟨ho'.1, ho'.2.symm ▸ mem⟩

/-- The call method that an object has may be bound. -/
theorem steady_typeOf_call (hw : F.Covers w) {found : FoundMember}
    (h : F.FoundIn w "__call__" found) : F.Steady F.HasMember (w.classes.typeOf found) := by
  unfold ClassTable.typeOf
  split
  · exact steady_pure ⟨.unknown, fun _ h => (nomatch h), fun _ h => (nomatch h)⟩
  · rename_i owner ho
    obtain ⟨hc, mem⟩ := h owner ho
    refine steady_bind (steady_get rfl) fun inf (hinf : F.inf = inf) => ?_
    rw [← hinf]
    exact steady_specialize hw.toScopes (hw.called hc.ids mem) hc hasClass_of_none

theorem steady_dropSpecRest {t : Ty} (h : F.Has t) : F.Steady F.Has t.dropSpecRest := by
  unfold Ty.dropSpecRest
  split
  · rename_i f
    refine steady_bind ?_ fun g (hg : F.HasFunction g) => steady_pure hg
    unfold FunctionTy.dropSpecRest
    split
    · rename_i last beforeLast rest hr
      split
      · refine steady_withParams h fun p hp => HasFunction.params h p ?_
        rw [← List.mem_reverse, hr]
        exact List.mem_cons_of_mem _ (List.mem_cons_of_mem _ (List.mem_reverse.1 hp))
      · exact steady_pure h
    · exact steady_pure h
  · exact steady_pure h

/-! ## Receivers -/

theorem eq_of_asClassObject? {t : Ty} {c : ClassTy} (h : t.asClassObject? = some c) :
    t = .cls c := by
  cases t with
  | cls d =>
    by_cases hd : d.isInstance = true
    · simp [Ty.asClassObject?, hd] at h
    · simpa [Ty.asClassObject?, hd] using h
  | _ => cases h

theorem eq_of_asInstance? {t : Ty} {c : ClassTy} (h : t.asInstance? = some c) : t = .cls c := by
  cases t with
  | cls d =>
    by_cases hd : d.isInstance = true
    · simpa [Ty.asInstance?, hd] using h
    · simp [Ty.asInstance?, hd] at h
  | _ => cases h

/-- Whatever the receiver is taken for belongs to the fragment. -/
structure HasReceiver (F : Fragment) (r : Receiver) : Prop where
  base : ∃ t, r.base = some t ∧ F.Has t
  first : F.HasOption r.first

theorem hasReceiver_of {t : Ty} (h : F.Has t) : F.HasReceiver (.of t) :=
  ⟨⟨t, rfl, h⟩, hasOption_none⟩

theorem has_instanceFor {t : Ty} (h : F.Has t) : F.Has (instanceFor t) := by
  unfold instanceFor
  split
  · rename_i c hc
    rw [eq_of_asClassObject? hc] at h
    exact HasClass.toInstance h
  · exact h

theorem has_classObjectFor {t : Ty} (h : F.Has t) : F.Has (classObjectFor t) := by
  unfold classObjectFor
  split
  · rename_i c hc
    rw [eq_of_asInstance? hc] at h
    exact HasClass.toClassObject h
  · exact h

theorem HasReceiver.firstOr {r : Receiver} (h : F.HasReceiver r) {t : Ty} (ht : F.Has t) :
    F.HasOption (some (r.first.getD t)) := by
  refine hasOption_some ?_
  cases hr : r.first with
  | some u => exact h.first u hr
  | none => exact ht

end Fragment

end Conformance
