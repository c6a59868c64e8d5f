import Conformance.Proofs.Regular

/-!
# Occurrences of variables

The variables to be solved that occur in a type, in the order in which a comparison comes across
them, and what a solution puts in their places. The types considered consist of types of a fragment,
in which none of the variables occurs, of classes that are no protocols and of functions.
-/

namespace Conformance

/-- A place where a variable occurs. -/
structure Occurrence where
  key : String
  /-- No type may have been found for the variable before. -/
  first : Bool

/-- The occurrences before which nothing may have been found come first. -/
def FoundOnce (occs : List Occurrence) : Prop :=
  occs.Pairwise fun o p => p.first = true → o.key ≠ p.key

namespace Fragment

/-- The variables to be solved are none of the fragment's. -/
structure Apart (F : Fragment) (w : World) (σ : Solution) : Prop where
  idle : F.Idle (some σ)
  keys : ∀ u : TypeVar, σ.solves u.scope = true → ∀ v, F.vars v → v.key ≠ u.key
  classes : ∀ {id}, F.ids id →
    (w.classes.decl id).params = [] ∨ σ.solves (w.classes.decl id).scope = false

/-- A type that is compared as a whole. -/
def Whole (F : Fragment) (t : Ty) : Prop := F.Has t ∨ ∃ v, t = .var v

/-- The variables to be solved occur in the type at these places, where sources are compared with it
that are of these kinds. A variable may occur in any position. Apart from that, what takes its
arguments or parameters the other way round has no occurrences, and what is demanded to be the same
has them in type arguments only. -/
inductive Occurs (F : Fragment) (w : World) (K : Kinds) (σ : Solution) :
    Mode → Ty → List Occurrence → Prop
  | ground {m : Mode} {t : Ty} (h : F.Has t) : Occurs F w K σ m t []
  | var {m : Mode} {v : TypeVar} (solved : σ.solves v.scope = true) (whole : v.access = .whole)
      (bound : ∀ u, v.bound = some u → F.Has u)
      (exact : m.reverse = true ∨ m.invariant = true → m.keepLiterals = true ∨ ¬ K.literals) :
      Occurs F w K σ m (.var v) [⟨v.key, m.reverse || !m.invariant⟩]
  | arguments {m : Mode} {c : ClassTy} {ts : List (Option Ty)} {occs : Nat → List Occurrence}
      (ahead : m.reverse = false) (loose : m.invariant = false) (given : c.args = some ts)
      (nominal : w.classes.isProtocol c = false)
      (enough : (w.classes.decl c.id).params.length ≤ ts.length)
      (each : ∀ i t, ts[i]? = some (some t) →
        Occurs F w K σ
          (m.forArgument (ArgumentPair.variance ⟨none, none, (w.classes.decl c.id).params[i]?⟩)) t
          (occs i))
      (whole : K.branches → ∀ t, some t ∈ ts → F.Whole t) :
      Occurs F w K σ m (.cls c) ((List.range ts.length).flatMap occs)
  | places {m : Mode} {c : ClassTy} {ts : List (Option Ty)} {occs : Nat → List Occurrence}
      (ahead : m.reverse = false) (strict : m.invariant = true) (given : c.args = some ts)
      (each : ∀ i t, ts[i]? = some (some t) → Occurs F w K σ m t (occs i))
      (whole : K.branches → ∀ t, some t ∈ ts → F.Whole t) :
      Occurs F w K σ m (.cls c) ((List.range ts.length).flatMap occs)
  | function {m : Mode} {f : FunctionTy} {occs : Param → List Occurrence} {ret : List Occurrence}
      (ahead : m.reverse = false) (loose : m.invariant = false)
      (params : ∀ p ∈ f.params, Occurs F w K σ m.forParams p.typeOrUnknown (occs p))
      (args : ∀ p, (ParamGroups.ofList f.params).args = some p → occs p = [])
      (kwargs : ∀ p, (ParamGroups.ofList f.params).kwargs = some p → occs p = [])
      (settled : ∀ cell outcome, f.ret ≠ .deferred cell outcome)
      (returned : Occurs F w K σ m.forReturn (F.inf.returnType f) ret)
      (whole : K.branches → (∀ p ∈ f.params, F.Whole p.typeOrUnknown) ∧
        F.Whole (F.inf.returnType f))
      (calls : ∀ id, F.ids id → (w.classes.decl id).members.find? "__call__" = none) :
      Occurs F w K σ m (.function f)
        (((ParamGroups.ofList f.params).positional ++
          (ParamGroups.ofList f.params).keywordOnly).flatMap occs ++ ret)

/-! ## What a solution puts in their places -/

def fill (F : Fragment) (w : World) (ρ : Solution) (n : Nat) (t : Ty) : Ty :=
  F.value (Substitution.ofTyAt w.classes ρ false n t)

def fillParam (F : Fragment) (w : World) (ρ : Solution) (n : Nat) (p : Param) : Param :=
  { p with type := p.type.map (F.fill w ρ n) }

/-- The return type with the types that were found put into it. -/
def fillReturn (F : Fragment) (w : World) (ρ : Solution) (n : Nat) : Return → Return
  | .declared t => .declared (F.fill w ρ n t)
  | ret => ret

/-- The function with the types that were found put into its signature. -/
def fillFunction (F : Fragment) (w : World) (ρ : Solution) (n : Nat) (f : FunctionTy) :
    FunctionTy :=
  { f with params := f.params.map (F.fillParam w ρ n), ret := F.fillReturn w ρ n f.ret }

variable {F : Fragment} {w : World} {K : Kinds} {σ ρ : Solution} {m : Mode} {t : Ty}
  {occs : List Occurrence}

theorem solves_eq (h : ρ.scopes = σ.scopes) (scope : String) : ρ.solves scope = σ.solves scope := by
  rw [Solution.solves, Solution.solves, h]

theorem Apart.untouched (ha : F.Apart w σ) (h : ρ.scopes = σ.scopes) : F.Untouched w ρ := by
  refine ⟨fun v hv => ofVar_eq_var ?_, fun hi => ?_⟩
  · rw [solves_eq h]
    exact ha.idle v hv
  · rw [solves_eq h]
    exact ha.classes hi

theorem Apart.fill_eq (ha : F.Apart w σ) (h : ρ.scopes = σ.scopes) (n : Nat) (ht : F.Has t) :
    F.fill w ρ n t = t :=
  (steady_ofTyAt_eq (ha.untouched h) n ht).eq.2

/-- A variable to be solved is the same as no type of the fragment. -/
theorem Apart.not_same (ha : F.Apart w σ) {v : TypeVar} (solved : σ.solves v.scope = true)
    (ht : F.Has t) (inf : Inference) (k : Nat) : sameAt inf (k + 1) (.var v) t = false := by
  cases ht with
  | @var u here _ =>
    refine Bool.eq_false_iff.2 fun same => ?_
    have unsolved := ha.idle u here
    simp only [sameAt, Bool.and_eq_true, beq_iff_eq] at same
    rw [Option.any_some, ← same.1.2, solved] at unsolved
    cases unsolved
  | _ => rfl

theorem Apart.ne_var (ha : F.Apart w σ) {v : TypeVar} (solved : σ.solves v.scope = true)
    (ht : F.Has t) : t ≠ .var v := by
  rintro rfl
  have other := ha.not_same solved ht F.inf 0
  rw [sameAt_self] at other
  cases other

private theorem steady_option {n : Nat} {o : Option Ty}
    (h : ∀ u, o = some u → F.Steady (fun _ => True) (Substitution.ofTyAt w.classes ρ false n u)) :
    F.Steady (· = o.map (F.fill w ρ n))
      (Substitution.ofOption (Substitution.ofTyAt w.classes ρ false n) o) := by
  cases o with
  | none => exact steady_pure rfl
  | some u => exact steady_bind ⟨_, (h u rfl).eq.1, rfl⟩ fun u' hu => steady_pure (hu ▸ rfl)

theorem steady_cls {n : Nat} {c : ClassTy} {ts : List (Option Ty)} (given : c.args = some ts)
    (h : ∀ u, some u ∈ ts → F.Steady (fun _ => True) (Substitution.ofTyAt w.classes ρ false n u)) :
    F.Steady (· = .cls (c.withArgs (ts.map (Option.map (F.fill w ρ n))) c.explicit))
      (Substitution.ofTyAt w.classes ρ false (n + 1) (.cls c)) := by
  have option : ∀ o ∈ ts, F.Steady (· = o.map (F.fill w ρ n))
      (Substitution.ofOption (Substitution.ofTyAt w.classes ρ false n) o) :=
    fun o ho => steady_option fun u hu => h u (hu ▸ ho)
  have mapped : F.Steady (· = ts.map (Option.map (F.fill w ρ n)))
      (ts.mapM (Substitution.ofOption (Substitution.ofTyAt w.classes ρ false n))) := by
    refine steady_imp (steady_mapM_map fun o ho => steady_imp (option o ho) fun _ _ => trivial)
      fun us hus => hus.trans (List.map_congr_left fun o ho => (option o ho).eq.2)
  obtain ⟨id, isInstance, args, explicit, literal⟩ := c
  cases given
  exact steady_bind (steady_bind mapped fun us hus => steady_pure (by rw [hus]; rfl))
    fun d hd => steady_pure (congrArg Ty.cls hd)

theorem steady_function {n : Nat} {f : FunctionTy}
    (hp : ∀ p ∈ f.params, ∀ u, p.type = some u →
      F.Steady (fun _ => True) (Substitution.ofTyAt w.classes ρ false n u))
    (hr : ∀ u, f.ret = .declared u →
      F.Steady (fun _ => True) (Substitution.ofTyAt w.classes ρ false n u))
    (settled : ∀ cell outcome, f.ret ≠ .deferred cell outcome) :
    F.Steady (· = .function (F.fillFunction w ρ n f))
      (Substitution.ofTyAt w.classes ρ false (n + 1) (.function f)) := by
  have param : ∀ p ∈ f.params, F.Steady (· = F.fillParam w ρ n p)
      (Substitution.ofParam (Substitution.ofTyAt w.classes ρ false n) p) := fun p hp' =>
    steady_bind (steady_option (hp p hp')) fun o ho => steady_pure (by rw [ho]; rfl)
  have mapped : F.Steady (· = f.params.map (F.fillParam w ρ n))
      (f.params.mapM (Substitution.ofParam (Substitution.ofTyAt w.classes ρ false n))) :=
    steady_imp (steady_mapM_map fun p hp' => steady_imp (param p hp') fun _ _ => trivial)
      fun ps hps => hps.trans (List.map_congr_left fun p hp' => (param p hp').eq.2)
  obtain ⟨name, params, ret, kind, scope⟩ := f
  have returned : F.Steady (· = F.fillReturn w ρ n ret) (Substitution.ofReturn
      (Substitution.ofTyAt w.classes ρ false n) ⟨name, params, ret, kind, scope⟩) := by
    unfold Substitution.ofReturn
    cases ret with
    | declared t =>
      exact steady_bind ⟨_, (hr t rfl).eq.1, rfl⟩ fun u hu => steady_pure (hu ▸ rfl)
    | undeclared => exact steady_pure rfl
    | deferred cell outcome => exact absurd rfl (settled cell outcome)
  refine steady_bind (steady_bind mapped fun ps hps => steady_bind returned fun r hr' =>
    steady_pure ?_) fun g hg => steady_pure (congrArg Ty.function hg)
  rw [hps, hr', fillFunction]

theorem fill_unknown (w : World) (ρ : Solution) (n : Nat) : F.fill w ρ n .unknown = .unknown := by
  cases n <;> rfl

theorem typeOrUnknown_fillParam (n : Nat) (p : Param) :
    (F.fillParam w ρ n p).typeOrUnknown = F.fill w ρ n p.typeOrUnknown := by
  unfold Param.typeOrUnknown fillParam
  cases p.type with
  | none => exact (fill_unknown w ρ n).symm
  | some t => rfl

theorem settled_fillFunction (n : Nat) {f : FunctionTy}
    (settled : ∀ cell outcome, f.ret ≠ .deferred cell outcome) :
    ∀ cell outcome, (F.fillFunction w ρ n f).ret ≠ .deferred cell outcome := by
  intro cell outcome h
  unfold fillFunction at h
  cases hr : f.ret with
  | deferred cell outcome => exact absurd hr (settled cell outcome)
  | _ =>
    simp only [hr, fillReturn] at h
    cases h

theorem returnType_fillFunction (n : Nat) {f : FunctionTy}
    (settled : ∀ cell outcome, f.ret ≠ .deferred cell outcome) :
    F.inf.returnType (F.fillFunction w ρ n f) = F.fill w ρ n (F.inf.returnType f) := by
  unfold Inference.returnType fillFunction
  cases hr : f.ret with
  | declared t => rfl
  | undeclared => exact (fill_unknown w ρ n).symm
  | deferred cell outcome => exact absurd hr (settled cell outcome)

theorem typeOrUnknown_eq {p : Param} {u : Ty} (h : p.type = some u) : p.typeOrUnknown = u := by
  rw [Param.typeOrUnknown, h]
  rfl

theorem returnType_eq {f : FunctionTy} {u : Ty} (h : f.ret = .declared u) (inf : Inference) :
    inf.returnType f = u := by
  rw [Inference.returnType, h]

section

variable (ha : F.Apart w σ) (hρ : ρ.scopes = σ.scopes)
include ha hρ

/-- Nothing is found out where variables occur only at such places. -/
theorem Occurs.steady (n : Nat) (h : F.Occurs w K σ m t occs) :
    F.Steady (fun _ => True) (Substitution.ofTyAt w.classes ρ false n t) := by
  induction n generalizing m t occs with
  | zero => exact steady_pure trivial
  | succ n ih =>
    cases h with
    | ground h => exact steady_imp (steady_ofTyAt_eq (ha.untouched hρ) _ h) fun _ _ => trivial
    | var => exact steady_pure trivial
    | arguments _ _ given _ _ each | places _ _ given each =>
      refine steady_imp (steady_cls given fun u hu => ?_) fun _ _ => trivial
      obtain ⟨i, hi⟩ := List.mem_iff_getElem?.1 hu
      exact ih (each i u hi)
    | function _ _ params _ _ settled returned =>
      refine steady_imp (steady_function (fun p hp u hu => ?_) (fun u hu => ?_) settled)
        fun _ _ => trivial
      · exact ih (typeOrUnknown_eq hu ▸ params p hp)
      · exact ih (returnType_eq hu F.inf ▸ returned)

theorem fill_cls {n : Nat} {c : ClassTy} {ts : List (Option Ty)} (given : c.args = some ts)
    (each : ∀ (i : Nat) (u : Ty), ts[i]? = some (some u) → ∃ m occs, F.Occurs w K σ m u occs) :
    F.fill w ρ (n + 1) (.cls c) =
      .cls (c.withArgs (ts.map (Option.map (F.fill w ρ n))) c.explicit) := by
  refine (steady_cls given fun u hu => ?_).eq.2
  obtain ⟨i, hi⟩ := List.mem_iff_getElem?.1 hu
  obtain ⟨m, occs, h⟩ := each i u hi
  exact h.steady ha hρ n

theorem fill_function {n : Nat} {f : FunctionTy} (h : F.Occurs w K σ m (.function f) occs) :
    F.fill w ρ (n + 1) (.function f) = .function (F.fillFunction w ρ n f) := by
  cases h with
  | ground h =>
    have steady {u : Ty} (hu : F.Has u) :
        F.Steady (fun _ => True) (Substitution.ofTyAt w.classes ρ false n u) :=
      steady_imp (steady_ofTyAt_eq (ha.untouched hρ) n hu) fun _ _ => trivial
    have function : F.HasFunction f := h
    exact (steady_function (fun p hp u hu => steady (function.params p hp u hu))
      (fun u hu => steady (function.declared u hu)) function.settled).eq.2
  | function _ _ params _ _ settled returned =>
    refine (steady_function (fun p hp u hu => ?_) (fun u hu => ?_) settled).eq.2
    · exact (typeOrUnknown_eq hu ▸ params p hp).steady ha hρ n
    · exact (returnType_eq hu F.inf ▸ returned).steady ha hρ n

omit ha hρ in
private theorem mem_padPairs {a : Option Ty} {as : List (Option Ty)} (h : a ∈ as)
    (bs : List (Option Ty)) :
    ∃ b, (a, b) ∈ padPairs as bs ∧ (b = some .unknown ∨ b ∈ bs) := by
  fun_induction padPairs as bs with
  | case1 bs => cases h
  | case2 a' as => exact ⟨some .unknown, List.mem_map_of_mem h, .inl rfl⟩
  | case3 a' as b bs ih =>
    rcases List.mem_cons.1 h with rfl | h
    · exact ⟨b, List.mem_cons_self, .inr List.mem_cons_self⟩
    · obtain ⟨b', paired, found⟩ := ih h
      exact ⟨b', List.mem_cons_of_mem _ paired, found.imp id (List.mem_cons_of_mem b)⟩

omit ha hρ in
private theorem withArgs_map {c : ClassTy} {ts : List (Option Ty)} (given : c.args = some ts)
    {φ : Ty → Ty} (h : ∀ u, some u ∈ ts → φ u = u) :
    c.withArgs (ts.map (Option.map φ)) c.explicit = c := by
  have kept : ts.map (Option.map φ) = ts := by
    refine (List.map_congr_left fun o ho => ?_).trans ts.map_id
    cases o with
    | none => rfl
    | some u => rw [Option.map_some, h u ho, id_eq]
  obtain ⟨id, isInstance, args, explicit, literal⟩ := c
  cases given
  rw [kept]
  rfl

/-- As long as nothing was found, nothing is put anywhere. -/
theorem fill_of_empty (empty : ρ.entries = []) (n : Nat) (h : F.Occurs w K σ m t occs) :
    F.fill w ρ n t = t := by
  induction n generalizing m t occs with
  | zero => rfl
  | succ n ih =>
    cases h with
    | ground h => exact ha.fill_eq hρ _ h
    | @var _ v =>
      change Substitution.ofVar ρ false v = _
      unfold Substitution.ofVar
      split
      · rfl
      · simp [Solution.get?, empty]
    | arguments _ _ given _ _ each | places _ _ given each =>
      rw [fill_cls ha hρ given fun i u hi => ⟨_, _, each i u hi⟩, withArgs_map given fun u hu => ?_]
      obtain ⟨i, hi⟩ := List.mem_iff_getElem?.1 hu
      exact ih (each i u hi)
    | @function _ f _ _ ahead loose params args kwargs settled returned whole calls =>
      rw [fill_function ha hρ
        (.function ahead loose params args kwargs settled returned whole calls)]
      have kept : f.params.map (F.fillParam w ρ n) = f.params := by
        refine (List.map_congr_left fun p hp => ?_).trans f.params.map_id
        obtain ⟨kind, name, type, hasDefault⟩ := p
        cases type with
        | none => rfl
        | some u =>
          exact congrArg (Param.mk kind name · hasDefault) (congrArg some (ih (params _ hp)))
      have same : F.fillReturn w ρ n f.ret = f.ret := by
        cases hr : f.ret with
        | declared u => exact congrArg Return.declared (ih (returnType_eq hr F.inf ▸ returned))
        | _ => rfl
      rw [fillFunction, kept, same]
      cases f
      rfl

/-- Where a type is the same as one of the fragment, nothing is put into it. -/
theorem fill_of_same (strict : m.invariant = true) {n k : Nat} (hn : n ≤ k) {s : Ty}
    (h : F.Occurs w K σ m t occs) (hs : F.Has s) (same : sameAt F.inf k t s = true) :
    F.fill w ρ n t = t := by
  induction n generalizing k t s occs with
  | zero => rfl
  | succ n ih =>
    obtain ⟨k, rfl⟩ : ∃ k', k = k' + 1 := ⟨k - 1, by omega⟩
    cases h with
    | ground h => exact ha.fill_eq hρ _ h
    | var solved =>
      rw [ha.not_same solved hs F.inf k] at same
      cases same
    | arguments _ loose => rw [loose] at strict; cases strict
    | function _ loose => rw [loose] at strict; cases strict
    | @places _ c ts _ ahead _ given each =>
      rw [fill_cls ha hρ given fun i u hi => ⟨_, _, each i u hi⟩]
      cases s with
      | cls d =>
        simp only [sameAt, sameClassTy, Bool.and_eq_true, List.all_eq_true] at same
        rw [withArgs_map given fun u hu => ?_]
        obtain ⟨i, hi⟩ := List.mem_iff_getElem?.1 hu
        have given' : some u ∈ c.argList := by
          rw [ClassTy.argList, given]
          exact hu
        obtain ⟨b, hb, found⟩ := mem_padPairs given' d.argList
        have paired := same.2 _ hb
        cases b with
        | none => cases paired
        | some s' =>
          refine ih (k := k) (by omega) (each i u hi) (s := s') ?_ paired
          rcases found with unknown | found
          · cases unknown
            exact .unknown
          · exact HasClass.args hs _ found s' rfl
      | _ => cases same

end

end Fragment

end Conformance
