import Conformance.Proofs.Coincidence

/-!
# One substitution after another

To put in what one solution has found and then what another one has found comes to the same as
putting in, at once, what the first one has found with what the second one has found put in there. A
union that collapses on the way may do so earlier or later, so the two results coincide and need not
be equal.
-/

namespace Conformance

/-- With the solutions put in one after another, and no union built anew on the way, the type is
nested no deeper than so many levels. -/
inductive Ty.Nests (classes : ClassTable) : List Solution → Nat → Ty → Prop
  | unknown (σs : List Solution) (n : Nat) : Ty.Nests classes σs n .unknown
  | any (σs : List Solution) (n : Nat) : Ty.Nests classes σs n .any
  | noneObject (σs : List Solution) (n : Nat) : Ty.Nests classes σs n .noneObject
  | module (σs : List Solution) (n : Nat) (name : String) (table : TableId) :
      Ty.Nests classes σs (n + 1) (.module name table)
  | var {σs : List Solution} {n : Nat} {v : TypeVar}
      (found : ∀ σ τs, σs = σ :: τs → Ty.Nests classes τs (n + 1) (Substitution.ofVar σ false v)) :
      Ty.Nests classes σs (n + 1) (.var v)
  | cls {σs : List Solution} {n : Nat} {c : ClassTy}
      (args : ∀ o ∈ c.argList, ∀ t, o = some t → Ty.Nests classes σs n t)
      (opened : ∀ σ τs, σs = σ :: τs → c.Opens classes σ →
        ∀ v ∈ (classes.decl c.id).params, Ty.Nests classes σs n (.var v))
      (kept : ∀ σ τs, σs = σ :: τs → c.args = none → ¬ c.Opens classes σ →
        Ty.Nests classes τs (n + 1) (.cls c)) :
      Ty.Nests classes σs (n + 1) (.cls c)
  | function {σs : List Solution} {n : Nat} {f : FunctionTy}
      (params : ∀ p ∈ f.params, Ty.Nests classes σs n p.typeOrUnknown)
      (ret : Ty.Nests classes σs n f.returned) : Ty.Nests classes σs (n + 1) (.function f)
  | overloaded {σs : List Solution} {n : Nat} {fs : List FunctionTy}
      (each : ∀ f ∈ fs, Ty.Nests classes σs n (.function f)) :
      Ty.Nests classes σs (n + 1) (.overloaded fs)
  | union {σs : List Solution} {n : Nat} {ts : List Ty}
      (each : ∀ t ∈ ts, Ty.Nests classes σs n t) : Ty.Nests classes σs (n + 1) (.union ts)

section

variable {classes : ClassTable} {σ τ : Solution} {σs : List Solution} {V W : Vocabulary}
  {n k m : Nat} {t u : Ty} {ts : List Ty}

namespace Ty.Nests

theorem mono (h : t.Nests classes σs n) (hk : n ≤ k) : t.Nests classes σs k := by
  induction h generalizing k with
  | unknown σs => exact .unknown σs k
  | any σs => exact .any σs k
  | noneObject σs => exact .noneObject σs k
  | module σs n name table =>
    obtain ⟨k, rfl⟩ : ∃ k', k = k' + 1 := ⟨k - 1, by omega⟩
    exact .module σs k name table
  | var _ ih =>
    obtain ⟨k, rfl⟩ : ∃ k', k = k' + 1 := ⟨k - 1, by omega⟩
    exact .var fun σ τs h => ih σ τs h hk
  | cls _ _ _ args opened kept =>
    obtain ⟨k, rfl⟩ : ∃ k', k = k' + 1 := ⟨k - 1, by omega⟩
    have hk' := Nat.le_of_succ_le_succ hk
    exact .cls (fun o ho t ht => args o ho t ht hk') (fun σ τs h o v hv => opened σ τs h o v hv hk')
      fun σ τs h bare shut => kept σ τs h bare shut hk
  | function _ _ params ret =>
    obtain ⟨k, rfl⟩ : ∃ k', k = k' + 1 := ⟨k - 1, by omega⟩
    have hk' := Nat.le_of_succ_le_succ hk
    exact .function (fun p hp => params p hp hk') (ret hk')
  | overloaded _ each =>
    obtain ⟨k, rfl⟩ : ∃ k', k = k' + 1 := ⟨k - 1, by omega⟩
    exact .overloaded fun f hf => each f hf (Nat.le_of_succ_le_succ hk)
  | union _ each =>
    obtain ⟨k, rfl⟩ : ∃ k', k = k' + 1 := ⟨k - 1, by omega⟩
    exact .union fun t ht => each t ht (Nat.le_of_succ_le_succ hk)

theorem alternative (h : t.Nests classes σs n) (hu : u ∈ t.alternatives) :
    u.Nests classes σs n := by
  by_cases union : ∃ ts, t = .union ts
  · obtain ⟨ts, rfl⟩ := union
    cases h with
    | union each => exact (each u hu).mono (Nat.le_succ _)
  · rw [Fragment.alternatives_eq_self fun ts same => union ⟨ts, same⟩, List.mem_singleton] at hu
    exact hu ▸ h

/-- No union is nested deeper than the types that it is built from. -/
theorem join (h : ∀ t ∈ ts, t.Nests classes σs n) (made : ∀ t ∈ ts, t.Over V) (given : ts ≠ []) :
    (Ty.join ts).Nests classes σs (n + 1) := by
  have choice : ∀ u ∈ Ty.choices ts, u.Nests classes σs n := by
    intro u hu
    obtain ⟨t, ht, hut⟩ := Ty.mem_choices.1 hu
    exact (h t ht).alternative hut
  rcases Ty.join_cases made given with ⟨here, -⟩ | ⟨-, -, here | ⟨us, same, -, among⟩⟩
  · exact (h _ here).mono (Nat.le_succ n)
  · exact (choice _ here).mono (Nat.le_succ n)
  · rw [same]
    exact .union fun u hu => choice u (among u hu)

/-- Beyond the levels that are needed, a substitution does the same at any number of levels. -/
theorem fillAt_eq (h : t.Nests classes (σ :: σs) n) (hk : n ≤ k) :
    t.fillAt classes σ k = t.fillAt classes σ n := by
  generalize same : σ :: σs = τs at h
  induction h generalizing k with
  | unknown => rw [Ty.fillAt_unknown, Ty.fillAt_unknown]
  | any => rw [Ty.fillAt_of_vague _ rfl, Ty.fillAt_of_vague _ rfl]
  | noneObject τs n => cases k <;> cases n <;> rfl
  | module => cases k <;> rfl
  | var =>
    obtain ⟨k, rfl⟩ : ∃ k', k = k' + 1 := ⟨k - 1, by omega⟩
    rfl
  | cls _ _ _ args opened _ =>
    obtain ⟨k, rfl⟩ : ∃ k', k = k' + 1 := ⟨k - 1, by omega⟩
    have hk := Nat.le_of_succ_le_succ hk
    refine congrArg Ty.cls (ClassTy.fill_congr (fun o ho t ht => args o ho t ht hk same) Iff.rfl ?_)
    exact fun opens => List.map_congr_left fun v hv => opened σ σs same.symm opens v hv hk same
  | function _ _ params ret =>
    obtain ⟨k, rfl⟩ : ∃ k', k = k' + 1 := ⟨k - 1, by omega⟩
    have hk := Nat.le_of_succ_le_succ hk
    exact congrArg Ty.function (FunctionTy.fill_congr (fun p hp => params p hp hk same) (ret hk same))
  | @overloaded τs n fs nests each =>
    obtain ⟨k, rfl⟩ : ∃ k', k = k' + 1 := ⟨k - 1, by omega⟩
    refine congrArg Ty.overloaded (List.map_congr_left fun f hf => Ty.function.inj ?_)
    have deeper : n ≤ k + 1 := Nat.le_of_succ_le hk
    exact (each f hf deeper same).trans (each f hf (Nat.le_succ n) same).symm
  | union _ each =>
    obtain ⟨k, rfl⟩ : ∃ k', k = k' + 1 := ⟨k - 1, by omega⟩
    exact congrArg Ty.join
      (List.map_congr_left fun t ht => each t ht (Nat.le_of_succ_le_succ hk) same)

/-- The type itself is nested no deeper. -/
theorem within (h : t.Nests classes σs n) (made : t.Over V) : t.Within .start n := by
  induction h with
  | unknown σs n => exact .unknown n
  | any σs n => exact .any n
  | noneObject σs n => exact .noneObject n
  | module σs n name table => exact .module n name table
  | var => exact .var _ _
  | cls _ _ _ args => exact .cls fun o ho t ht => args o ho t ht (made.argument o ho t ht)
  | @function σs n f _ _ params ret =>
    refine .function (fun p hp u hu => ?_) ?_
    · have here := params p hp (made.param p hp)
      rwa [Param.typeOrUnknown, hu] at here
    · rw [FunctionTy.returnType_eq made.settled]
      exact ret made.returned
  | overloaded _ each => exact .overloaded fun f hf => each f hf (made.overload f hf)
  | @union σs n ts _ each =>
    refine .union (fun t ht => each t ht (made.member t ht)) ?_
    exact made.built.distinct ▸ Fragment.pairwise_distinct ts

private theorem of_args {c : ClassTy} {args : List (Option Ty)} (given : c.args = some args)
    (h : ∀ o ∈ args, ∀ t, o = some t → t.Nests classes σs n) : (Ty.cls c).Nests classes σs (n + 1) := by
  refine .cls ?_ (fun σ τs _ opens => ?_) fun σ τs _ bare => ?_
  · rwa [ClassTy.argList, given]
  · rw [ClassTy.Opens, given] at opens
    cases opens.1
  · rw [given] at bare
    cases bare

theorem fill_function {f : FunctionTy} {sub : Ty → Ty} (unknown : sub .unknown = .unknown)
    (params : ∀ p ∈ f.params, (sub p.typeOrUnknown).Nests classes σs n)
    (ret : (sub f.returned).Nests classes σs n) :
    (Ty.function (f.fill sub)).Nests classes σs (n + 1) := by
  refine .function (fun p hp => ?_) ?_
  · obtain ⟨q, hq, rfl⟩ := List.mem_map.1 hp
    rw [Param.typeOrUnknown_fill unknown]
    exact params q hq
  · rwa [FunctionTy.returned_fill unknown]

/-- What one solution has found being put in, the type is nested no deeper with the others put
in. -/
theorem fillAt (h : t.Nests classes (σ :: σs) n) (made : t.Over .all) (found : σ.Finds .all) :
    (t.fillAt classes σ n).Nests classes σs n := by
  generalize same : σ :: σs = τs at h
  induction h with
  | unknown τs n => exact (fillAt_unknown n : Ty.unknown.fillAt classes σ n = _).symm ▸ .unknown σs n
  | any τs n => exact (fillAt_of_vague n rfl : Ty.any.fillAt classes σ n = _).symm ▸ .any σs n
  | noneObject τs n =>
    cases n <;> exact .noneObject σs _
  | module τs n name table => exact .module σs n name table
  | var found => exact found σ σs same.symm
  | @cls τs n c _ _ kept args opened _ =>
    cases hargs : c.args with
    | some given =>
      refine of_args (congrArg ClassTy.args (ClassTy.fill_of_args hargs)) fun o ho t ht => ?_
      subst ht
      obtain ⟨a, ha, hat⟩ := List.mem_map.1 ho
      obtain ⟨u, rfl, rfl⟩ := Option.map_eq_some_iff.1 hat
      have here : some u ∈ c.argList := by rwa [ClassTy.argList, hargs]
      exact args _ here u rfl (made.argument _ here u rfl) same
    | none =>
      by_cases opens : c.Opens classes σ
      · refine of_args (congrArg ClassTy.args (ClassTy.fill_of_opens opens)) fun o ho t ht => ?_
        subst ht
        obtain ⟨v, hv, hvt⟩ := List.mem_map.1 ho
        rw [← Option.some.inj hvt]
        exact opened σ σs same.symm opens v hv (.var trivial) same
      · rw [Ty.fillAt, ClassTy.fill_of_bare hargs opens]
        exact kept σ σs same.symm hargs opens
  | @function τs n f _ _ params ret =>
    exact fill_function (fillAt_unknown n) (fun p hp => params p hp (made.param p hp) same)
      (ret made.returned same)
  | @overloaded τs n fs nests each =>
    refine .overloaded fun g hg => ?_
    obtain ⟨f, hf, rfl⟩ := List.mem_map.1 hg
    have deeper : (Ty.function f).fillAt classes σ (n + 1) = (Ty.function f).fillAt classes σ n :=
      (same ▸ nests f hf : (Ty.function f).Nests classes (σ :: σs) n).fillAt_eq (Nat.le_succ n)
    have here := each f hf (made.overload f hf) same
    rwa [← deeper] at here
  | @union τs n ts _ each =>
    refine join (V := .all) ?_ ?_ fun none_left => made.ne_nil (List.map_eq_nil_iff.1 none_left)
    · intro u hu
      obtain ⟨t, ht, rfl⟩ := List.mem_map.1 hu
      exact each t ht (made.member t ht) same
    · intro u hu
      obtain ⟨t, ht, rfl⟩ := List.mem_map.1 hu
      exact (made.member t ht).fillAt found n

end Ty.Nests

end

/-! ## Computing how deep types are nested -/

/-- Looks through a type for what is nested too deep; what the first solution puts in, and what it
passes by, is looked at in another way. -/
def Ty.nestsBy (classes : ClassTable) (next : Option (Solution × (Nat → Ty → Bool))) :
    Nat → Ty → Bool
  | 0, t => t.isAnyOrUnknown || t.category == .noneObject
  | n + 1, t =>
    match t with
    | .var v => next.all fun (σ, rest) => rest (n + 1) (Substitution.ofVar σ false v)
    | .cls c =>
      c.argList.all (fun o => o.all (Ty.nestsBy classes next n)) &&
        next.all fun (σ, rest) =>
          if c.Opens classes σ then
            (classes.decl c.id).params.all fun v => Ty.nestsBy classes next n (.var v)
          else c.args.isSome || rest (n + 1) (.cls c)
    | .function f =>
      f.params.all (fun p => Ty.nestsBy classes next n p.typeOrUnknown) &&
        Ty.nestsBy classes next n f.returned
    | .overloaded fs => fs.all fun f => Ty.nestsBy classes next n (.function f)
    | .union ts => ts.all (Ty.nestsBy classes next n)
    | _ => true

/-- Whether a type is nested within so many levels with the solutions put in. -/
def Ty.nestsWithin (classes : ClassTable) : List Solution → Nat → Ty → Bool
  | [] => Ty.nestsBy classes none
  | σ :: σs => Ty.nestsBy classes (some (σ, Ty.nestsWithin classes σs))

private theorem nests_of_nestsBy {classes : ClassTable} {σs : List Solution}
    {next : Option (Solution × (Nat → Ty → Bool))}
    (ahead : ∀ σ τs, σs = σ :: τs → ∃ rest, next = some (σ, rest) ∧
      ∀ n t, rest n t = true → t.Nests classes τs n) (n : Nat) {t : Ty}
    (h : t.nestsBy classes next n = true) : t.Nests classes σs n := by
  induction n generalizing t with
  | zero =>
    cases t with
    | unknown => exact .unknown σs 0
    | any => exact .any σs 0
    | noneObject => exact .noneObject σs 0
    | _ => cases h
  | succ n ih =>
    cases t with
    | unknown => exact .unknown σs _
    | any => exact .any σs _
    | noneObject => exact .noneObject σs _
    | module name table => exact .module σs n name table
    | var v =>
      refine .var fun σ τs same => ?_
      obtain ⟨rest, rfl, sound⟩ := ahead σ τs same
      exact sound _ _ h
    | cls c =>
      rw [Ty.nestsBy, Bool.and_eq_true, List.all_eq_true] at h
      refine .cls (fun o ho t ht => ih ?_) (fun σ τs same opens v hv => ih ?_)
        fun σ τs same bare shut => ?_
      · have here := h.1 o ho
        rwa [ht] at here
      · obtain ⟨rest, rfl, -⟩ := ahead σ τs same
        have here := h.2
        simp only [Option.all_some, if_pos opens, List.all_eq_true] at here
        exact here v hv
      · obtain ⟨rest, rfl, sound⟩ := ahead σ τs same
        have here := h.2
        simp only [Option.all_some, if_neg shut, bare, Option.isSome_none, Bool.false_or] at here
        exact sound _ _ here
    | function f =>
      rw [Ty.nestsBy, Bool.and_eq_true, List.all_eq_true] at h
      exact .function (fun p hp => ih (h.1 p hp)) (ih h.2)
    | overloaded fs => exact .overloaded fun f hf => ih (List.all_eq_true.1 h f hf)
    | union ts => exact .union fun t ht => ih (List.all_eq_true.1 h t ht)

theorem nests_of_nestsWithin {classes : ClassTable} {σs : List Solution} {n : Nat} {t : Ty}
    (h : t.nestsWithin classes σs n = true) : t.Nests classes σs n := by
  induction σs generalizing n t with
  | nil =>
    refine nests_of_nestsBy (fun σ τs same => ?_) n h
    cases same
  | cons σ σs ih =>
    refine nests_of_nestsBy (fun τ τs same => ?_) n h
    obtain ⟨rfl, rfl⟩ := List.cons.inj same
    exact ⟨_, rfl, fun n t => ih⟩

/-! ## Substituting in types that coincide -/

private theorem Vocabulary.tells_noClass (V : Vocabulary) : V.Tells NoClass :=
  fun _ _ _ _ here => here.elim

section

variable {classes : ClassTable} {σ : Solution} {σs τs : List Solution} {V : Vocabulary}
  {told : ClassId → Prop} {n k m : Nat} {t u : Ty} {ts : List Ty}

private theorem equatedAt_join_of_nests (unknown : V.vague .unknown) (tells : V.Tells told)
    (hk : k ≤ Ty.levels) (made : ∀ t ∈ ts, t.Over V) (nests : ∀ t ∈ ts, t.Nests classes σs k)
    (given : ts ≠ []) (n : Nat) :
    EquatedAt told n (Ty.join ts).alternatives (Ty.choices ts) := by
  have choice : ∀ u ∈ Ty.choices ts, u.Over V ∧ u.Within .start k := by
    intro u hu
    obtain ⟨t, ht, hut⟩ := Ty.mem_choices.1 hu
    have hu := ((made t ht).alternative hut).1
    exact ⟨hu, ((nests t ht).alternative hut).within hu⟩
  refine equatedAt_join made given fun t ht u hu same => ?_
  obtain ⟨made, within⟩ := choice t ht
  obtain ⟨over', within'⟩ := choice u hu
  rw [within.same_eq hk] at same
  exact sameCoincide unknown tells hk t u made over' within within' same (n + 1)

private theorem equatedAt_fillAt (hk : k ≤ Ty.levels) (made : t.Over .all)
    (nests : t.Nests classes (σ :: σs) k) (found : σ.Finds .all) (n : Nat) :
    EquatedAt NoClass n (t.fillAt classes σ k).alternatives
      (Ty.choices (t.alternatives.map (Ty.fillAt classes σ k))) := by
  by_cases union : ∃ ts, t = .union ts
  · obtain ⟨ts, rfl⟩ := union
    cases nests with
    | @union _ k _ each =>
      have deeper : ts.map (Ty.fillAt classes σ (k + 1)) = ts.map (Ty.fillAt classes σ k) :=
        List.map_congr_left fun t ht => (each t ht).fillAt_eq (Nat.le_succ k)
      change EquatedAt NoClass n (Ty.join (ts.map (Ty.fillAt classes σ k))).alternatives
        (Ty.choices (ts.map (Ty.fillAt classes σ (k + 1))))
      rw [deeper]
      refine @equatedAt_join_of_nests classes σs .all _ _ _ trivial
        (Vocabulary.tells_noClass _) (Nat.le_of_succ_le hk) ?_ ?_ ?_ n
      · intro u hu
        obtain ⟨t, ht, rfl⟩ := List.mem_map.1 hu
        exact (made.member t ht).fillAt found k
      · intro u hu
        obtain ⟨t, ht, rfl⟩ := List.mem_map.1 hu
        exact (each t ht).fillAt (made.member t ht) found
      · exact fun none_left => made.ne_nil (List.map_eq_nil_iff.1 none_left)
  · rw [Fragment.alternatives_eq_self fun ts same => union ⟨ts, same⟩, List.map_singleton,
      Ty.choices, List.flatMap_singleton]
    exact coincideAt_self (n + 1) (made.fillAt found k)

end

section

variable {classes : ClassTable} {σ : Solution} {sub : Ty → Ty} {c : ClassTy}

private theorem ClassTy.argAt_fill_of_shut (unknown : sub .unknown = .unknown)
    (shut : ¬ c.Opens classes σ)
    (i : Nat) : (c.fill classes σ sub).argAt i = (c.argAt i).map sub := by
  cases hargs : c.args with
  | none =>
    rw [fill_of_bare hargs shut, argAt_of_bare hargs, Option.map_some, unknown]
  | some given =>
    rw [fill_of_args hargs, argAt, argAt, argList, argList, hargs, Option.getD_some, Option.getD_some,
      List.getElem?_map]
    cases given[i]? with
    | none => exact congrArg some unknown.symm
    | some o => rfl

private theorem ClassTy.argAt_fill_of_opens (opens : c.Opens classes σ) (i : Nat) :
    (c.fill classes σ sub).argAt i =
      ((classes.decl c.id).params[i]?).elim (some .unknown) fun v => some (sub (.var v)) := by
  rw [fill_of_opens opens, argAt, argList, withArgs, Option.getD_some, List.getElem?_map]
  cases (classes.decl c.id).params[i]? <;> rfl

private theorem ClassTy.isSome_args_fill_of_shut (shut : ¬ c.Opens classes σ) :
    (c.fill classes σ sub).args.isSome = c.args.isSome := by
  rw [fill, if_neg shut, Option.isSome_map]

private theorem ClassTy.Opens.of_id {d : ClassTy} (opens : c.Opens classes σ) (id : c.id = d.id)
    (bare : d.args = none) : d.Opens classes σ := ⟨bare, id ▸ opens.2⟩

end

section

variable {classes : ClassTable} {σ : Solution} {σs τs : List Solution} {told : ClassId → Prop}
  {n k m : Nat} {t u : Ty}

private theorem coincideAt_ofVar (found : σ.Finds .all) {v w : TypeVar} (name : v.name = w.name)
    (scope : v.scope = w.scope) (access : v.access = w.access) (n : Nat) :
    coincideAt NoClass n (Substitution.ofVar σ false v) (Substitution.ofVar σ false w) := by
  have answer : σ.get? v = σ.get? w := by
    rw [Solution.get?, Solution.get?, TypeVar.key, TypeVar.key, name, scope]
  have kept : coincideAt NoClass n (.var v) (.var w) := by
    cases n with
    | zero => trivial
    | succ n => exact coincideAt_of_matches rfl rfl (.var name scope access)
  unfold Substitution.ofVar
  rw [← access, ← scope, ← answer]
  split
  · exact kept
  · cases h : σ.get? v with
    | none => exact kept
    | some t => exact coincideAt_self n (found v t h)

private theorem option_rel_map {R S : Ty → Ty → Prop} {f g : Ty → Ty} {o o' : Option Ty}
    (h : Option.Rel R o o') (hS : ∀ t, o = some t → ∀ u, o' = some u → R t u → S (f t) (g u)) :
    Option.Rel S (o.map f) (o'.map g) := by
  cases h with
  | none => exact .none
  | some h => exact .some (hS _ rfl _ rfl h)

private theorem nests_argAt {c : ClassTy}
    (args : ∀ o ∈ c.argList, ∀ t, o = some t → t.Nests classes σs n) {i : Nat}
    (ht : c.argAt i = some t) : t.Nests classes σs n := by
  unfold ClassTy.argAt at ht
  cases hi : c.argList[i]? with
  | none =>
    rw [hi] at ht
    cases ht
    exact .unknown σs n
  | some o =>
    rw [hi] at ht
    exact args o (List.mem_of_getElem? hi) t ht

theorem forall₂_imp_mem {α : Type} {R S : α → α → Prop} {as bs : List α} (h : List.Forall₂ R as bs)
    (hS : ∀ a ∈ as, ∀ b ∈ bs, R a b → S a b) : List.Forall₂ S as bs := by
  induction h with
  | nil => exact .nil
  | cons first _ ih =>
    simp only [List.forall_mem_cons] at hS
    exact .cons (hS.1.1 first) (ih fun a ha b hb => (hS.2 a ha).2 b hb)

/-- What is put into types that coincide to a number of levels leaves types that do. -/
def FillsAlike (classes : ClassTable) (σ : Solution) (told : ClassId → Prop) (n : Nat) : Prop :=
  ∀ {σs τs : List Solution} {k m : Nat} {t u : Ty}, k ≤ Ty.levels → m ≤ Ty.levels → t.Over .all →
    u.Over .all → t.Nests classes (σ :: σs) k → u.Nests classes (σ :: τs) m →
      coincideAt told n t u → coincideAt NoClass n (t.fillAt classes σ k) (u.fillAt classes σ m)

/-- Views of one class are filled in alike: either the class takes its parameters for arguments in
both, or in none of them. -/
theorem FillsAlike.cls (ih : FillsAlike classes σ told n) (found : σ.Finds .all)
    (opens : ∀ c : ClassTy, c.Opens classes σ → told c.id) (hk : k < Ty.levels) (hm : m < Ty.levels)
    {c d : ClassTy} (made : (Ty.cls c).Over .all) (over' : (Ty.cls d).Over .all)
    (nests : (Ty.cls c).Nests classes (σ :: σs) (k + 1))
    (nests' : (Ty.cls d).Nests classes (σ :: τs) (m + 1))
    (h : c.Matches told (coincideAt told n) d) :
    (c.fill classes σ (Ty.fillAt classes σ k)).Matches NoClass (coincideAt NoClass n)
      (d.fill classes σ (Ty.fillAt classes σ m)) := by
  have both : c.Opens classes σ ↔ d.Opens classes σ := by
    constructor
    · intro o
      refine o.of_id h.id ?_
      have isSome := h.told (opens c o)
      rwa [o.1, Option.isSome_none, eq_comm, Option.isSome_eq_false_iff, Option.isNone_iff_eq_none]
        at isSome
    · intro o
      refine o.of_id h.id.symm ?_
      have isSome := h.told (h.id ▸ opens d o)
      rwa [o.1, Option.isSome_none, Option.isSome_eq_false_iff, Option.isNone_iff_eq_none]
        at isSome
  refine ⟨by simpa using h.id, by simpa using h.isInstance,
    by simpa only [ClassTy.literal_fill] using h.literal,
    fun none => none.elim, fun i => ?_⟩
  cases nests with
  | cls args opened _ =>
    cases nests' with
    | cls args' opened' _ =>
      by_cases o : c.Opens classes σ
      · rw [ClassTy.argAt_fill_of_opens o, ClassTy.argAt_fill_of_opens (both.1 o), ← h.id]
        cases hv : (classes.decl c.id).params[i]? with
        | none => exact .some (coincideAt_of_vague rfl rfl)
        | some v =>
          have hv := List.mem_of_getElem? hv
          have left := opened σ σs rfl o v hv
          have right := opened' σ τs rfl (both.1 o) v (h.id ▸ hv)
          cases left with
          | var => cases right with
            | var => exact .some (coincideAt_ofVar found rfl rfl rfl n)
      · rw [ClassTy.argAt_fill_of_shut (Ty.fillAt_unknown k) o,
          ClassTy.argAt_fill_of_shut (Ty.fillAt_unknown m) (mt both.2 o)]
        refine option_rel_map (h.args i) fun t ht u hu each => ?_
        exact ih (Nat.le_of_lt hk) (Nat.le_of_lt hm) (made.argAt trivial ht)
          (over'.argAt trivial hu) (nests_argAt args ht) (nests_argAt args' hu) each

theorem FillsAlike.function (ih : FillsAlike classes σ told n) (hk : k < Ty.levels)
    (hm : m < Ty.levels) {f g : FunctionTy} (made : (Ty.function f).Over .all)
    (over' : (Ty.function g).Over .all) (nests : (Ty.function f).Nests classes (σ :: σs) (k + 1))
    (nests' : (Ty.function g).Nests classes (σ :: τs) (m + 1))
    (h : f.Matches (coincideAt told n) g) :
    (f.fill (Ty.fillAt classes σ k)).Matches (coincideAt NoClass n)
      (g.fill (Ty.fillAt classes σ m)) := by
  cases nests with
  | function params ret =>
    cases nests' with
    | function params' ret' =>
      refine ⟨h.kind, ?_, ?_⟩
      · refine List.forall₂_map_left_iff.2 (List.forall₂_map_right_iff.2 ?_)
        refine forall₂_imp_mem h.params fun p hp q hq hpq => ⟨hpq.kind, hpq.name, ?_⟩
        rw [Param.typeOrUnknown_fill (Ty.fillAt_unknown k),
          Param.typeOrUnknown_fill (Ty.fillAt_unknown m)]
        exact ih (Nat.le_of_lt hk) (Nat.le_of_lt hm) (made.param p hp) (over'.param q hq)
          (params p hp) (params' q hq) hpq.type
      · rw [FunctionTy.returned_fill (Ty.fillAt_unknown k),
          FunctionTy.returned_fill (Ty.fillAt_unknown m)]
        exact ih (Nat.le_of_lt hk) (Nat.le_of_lt hm) made.returned over'.returned ret ret' h.ret

/-- Types that match are filled in alike. -/
theorem FillsAlike.matches (ih : FillsAlike classes σ told n) (found : σ.Finds .all)
    (opens : ∀ c : ClassTy, c.Opens classes σ → told c.id) (hk : k ≤ Ty.levels)
    (hm : m ≤ Ty.levels) (made : t.Over .all) (over' : u.Over .all)
    (nests : t.Nests classes (σ :: σs) k) (nests' : u.Nests classes (σ :: τs) m)
    (h : t.Matches told (coincideAt told n) u) :
    coincideAt NoClass (n + 1) (t.fillAt classes σ k) (u.fillAt classes σ m) := by
  cases h with
  | unknown | any =>
    rw [Ty.fillAt_of_vague k rfl, Ty.fillAt_of_vague m rfl]
    exact coincideAt_of_vague rfl rfl
  | noneObject =>
    have same : ∀ k, Ty.noneObject.fillAt classes σ k = .noneObject := fun k => by cases k <;> rfl
    rw [same, same]
    exact coincideAt_self (n + 1) .noneObject
  | module name name' table =>
    have same : ∀ (k : Nat) (name : String),
        (Ty.module name table).fillAt classes σ k = .module name table := fun k _ => by
      cases k <;> rfl
    rw [same, same]
    exact coincideAt_of_matches rfl rfl (.module name name' table)
  | var name scope access =>
    cases nests with
    | var =>
      cases nests' with
      | var => exact coincideAt_ofVar found name scope access (n + 1)
  | @cls c d h =>
    cases nests with
    | cls args opened kept =>
      cases nests' with
      | cls args' opened' kept' =>
        exact coincideAt_of_matches rfl rfl (.cls (ih.cls found opens hk hm made over'
          (.cls args opened kept) (.cls args' opened' kept') h))
  | @function f g h =>
    cases nests with
    | function params ret =>
      cases nests' with
      | function params' ret' =>
        exact coincideAt_of_matches rfl rfl (.function (ih.function hk hm made over'
          (.function params ret) (.function params' ret') h))
  | @overloaded fs gs h =>
    cases nests with
    | @overloaded _ k _ each =>
      cases nests' with
      | @overloaded _ m _ each' =>
        refine coincideAt_of_matches rfl rfl (.overloaded ?_)
        refine List.forall₂_map_left_iff.2 (List.forall₂_map_right_iff.2 ?_)
        -- The functions are filled in on the level of the overloads, so one level below themselves.
        exact forall₂_imp_mem h fun f hf g hg hfg => ih hk hm (made.overload f hf)
          (over'.overload g hg) ((each f hf).mono (Nat.le_succ k))
          ((each' g hg).mono (Nat.le_succ m)) hfg

private theorem fillsAlike (found : σ.Finds .all)
    (opens : ∀ c : ClassTy, c.Opens classes σ → told c.id)
    (n : Nat) : FillsAlike classes σ told n := by
  induction n with
  | zero => exact fun _ _ _ _ _ _ _ => trivial
  | succ n ih =>
    have half : ∀ {σs τs : List Solution} {k m : Nat} {t u : Ty}, k ≤ Ty.levels → m ≤ Ty.levels →
        t.Over .all → u.Over .all → t.Nests classes (σ :: σs) k → u.Nests classes (σ :: τs) m →
        Covered told (coincideAt told n) t.alternatives u.alternatives →
        Covered NoClass (coincideAt NoClass n)
          (Ty.choices (t.alternatives.map (Ty.fillAt classes σ k)))
          (Ty.choices (u.alternatives.map (Ty.fillAt classes σ m))) := by
      intro σs τs k m t u hk hm made over' nests nests' h
      refine covered_choices fun x hx => ?_
      obtain ⟨a, ha, rfl⟩ := List.mem_map.1 hx
      rcases h a ha with ⟨b, hb, vague⟩ | ⟨-, b, hb, match_⟩
      · refine covered_of_vague (List.mem_map_of_mem hb) ?_
        rw [Ty.fillAt_of_vague m vague]
        exact vague
      · refine Covered.mono ?_ (Ty.subset_choices (List.mem_map_of_mem hb))
        exact (ih.matches found opens hk hm (made.alternative ha).1 (over'.alternative hb).1
          (nests.alternative ha) (nests'.alternative hb) match_).1
    intro σs τs k m t u hk hm made over' nests nests' h
    have middle : EquatedAt NoClass n (Ty.choices (t.alternatives.map (Ty.fillAt classes σ k)))
        (Ty.choices (u.alternatives.map (Ty.fillAt classes σ m))) :=
      ⟨half hk hm made over' nests nests' h.1, half hm hk over' made nests' nests h.2⟩
    exact ((equatedAt_fillAt hk made nests found n).trans middle).trans
      (equatedAt_fillAt hm over' nests' found n).symm

private theorem equatedAt_fillAt_join {V : Vocabulary} {ts : List Ty} (unknown : V.vague .unknown)
    (tells : V.Tells told) (found : σ.Finds .all)
    (opens : ∀ c : ClassTy, c.Opens classes σ → told c.id) (hk : k < Ty.levels)
    (made : ∀ t ∈ ts, t.Over V) (nests : ∀ t ∈ ts, t.Nests classes (σ :: σs) k) (given : ts ≠ [])
    (n : Nat) :
    EquatedAt NoClass n ((Ty.join ts).fillAt classes σ (k + 1)).alternatives
      (Ty.choices (ts.map (Ty.fillAt classes σ k))) := by
  rcases Ty.join_cases made given with ⟨here, vague⟩ | ⟨-, left, -⟩
  · rw [Ty.fillAt_of_vague (k + 1) vague, Ty.alternatives_of_vague vague]
    refine ⟨covered_of_vague (List.mem_map_of_mem here) ?_,
      fun _ _ => .inl ⟨_, List.mem_singleton_self _, vague⟩⟩
    rwa [Ty.fillAt_of_vague k vague]
  · have choice : ∀ a ∈ Ty.choices ts, a.Over V ∧ a.Nests classes (σ :: σs) k := by
      intro a ha
      obtain ⟨t, ht, hat⟩ := Ty.mem_choices.1 ha
      exact ⟨((made t ht).alternative hat).1, (nests t ht).alternative hat⟩
    have deeper : ∀ a ∈ Ty.choices ts, a.fillAt classes σ (k + 1) = a.fillAt classes σ k :=
      fun a ha => (choice a ha).2.fillAt_eq (Nat.le_succ k)
    have kept : ∀ a ∈ Ty.distinct .start (Ty.choices ts), a ∈ Ty.choices ts :=
      fun a ha => Fragment.mem_of_mem_distinct ha
    have first := equatedAt_fillAt hk (Ty.over_join made given).all
      (Ty.Nests.join nests made given) found n
    rw [left] at first
    have each : ∀ t ∈ ts, EquatedAt NoClass n (t.fillAt classes σ k).alternatives
        (Ty.choices (t.alternatives.map (Ty.fillAt classes σ k))) := fun t ht =>
      equatedAt_fillAt (Nat.le_of_lt hk) (made t ht).all (nests t ht) found n
    refine first.trans ⟨covered_choices fun x hx => ?_, covered_choices fun x hx => ?_⟩
    · obtain ⟨a, ha, rfl⟩ := List.mem_map.1 hx
      rw [deeper a (kept a ha)]
      obtain ⟨t, ht, hat⟩ := Ty.mem_choices.1 (kept a ha)
      have whole := (each t ht).2.mono (Ty.subset_choices (List.mem_map_of_mem ht))
      exact fun y hy => whole y (Ty.subset_choices (List.mem_map_of_mem hat) hy)
    · obtain ⟨t, ht, rfl⟩ := List.mem_map.1 hx
      refine (each t ht).1.trans (covered_choices fun y hy => ?_) fun _ _ _ => coincideAt_trans n
      obtain ⟨b, hb, rfl⟩ := List.mem_map.1 hy
      have hb := Ty.mem_choices.2 ⟨t, ht, hb⟩
      -- The alternative that stands for the dropped one coincides with it, and so do their copies.
      obtain ⟨a, ha, same⟩ := exists_same_distinct .start hb
      obtain ⟨overA, nestsA⟩ := choice a (kept a ha)
      obtain ⟨overB, nestsB⟩ := choice b hb
      rw [(nestsA.within overA).same_eq (Nat.le_of_lt hk)] at same
      have coincide := sameCoincide unknown tells (Nat.le_of_lt hk) a b overA overB
        (nestsA.within overA) (nestsB.within overB) same (n + 1)
      have filled := fillsAlike found opens (n + 1) (Nat.le_of_lt hk) (Nat.le_of_lt hk) overA.all
        overB.all nestsA nestsB coincide
      refine filled.2.mono (Ty.subset_choices ?_)
      rw [← deeper a (kept a ha)]
      exact List.mem_map_of_mem ha

end

/-! ## Two substitutions in one -/

/-- One solution finds, for what occurs in the types over a vocabulary, what a first one has found with
what a last one has found put in. Into these types themselves the last one puts nothing, and what the
first one puts there is over another vocabulary, in which the classes that the last one opens can be
told. -/
structure Composes (classes : ClassTable) (first last atOnce : Solution) (V W : Vocabulary) : Prop where
  opens (c : ClassTy) : c.Opens classes atOnce ↔ c.Opens classes first
  vars {v : TypeVar} (hv : V.vars v) : Substitution.ofVar atOnce false v =
    (Substitution.ofVar first false v).fillAt classes last Ty.levels
  nests {v : TypeVar} (hv : V.vars v) :
    (Substitution.ofVar first false v).Nests classes [last] Ty.levels
  params {c : ClassTy} (hc : V.classes c) : ∀ v ∈ (classes.decl c.id).params, V.vars v
  shut {c : ClassTy} (hc : V.classes c) : ¬ c.Opens classes last
  made {v : TypeVar} (hv : V.vars v) : W.vars v ∧ (Substitution.ofVar first false v).Over W
  views {c d : ClassTy} (hc : V.classes c) (id : d.id = c.id) : W.classes d
  vague (t : Ty) : W.vague t
  told : W.Tells fun id => ∃ c : ClassTy, c.id = id ∧ c.Opens classes last
  foundFirst : first.Finds .all
  found : last.Finds .all
  foundAtOnce : atOnce.Finds .all

namespace Composes

variable {classes : ClassTable} {first last atOnce : Solution} {V W : Vocabulary} {n : Nat} {t : Ty}

section

variable (h : Composes classes first last atOnce V W)
include h

private theorem fillAt_ofVar {v : TypeVar} (hv : V.vars v) (hn : n ≤ Ty.levels)
    (nests : (Substitution.ofVar first false v).Nests classes [last] n) :
    (Substitution.ofVar first false v).fillAt classes last n = Substitution.ofVar atOnce false v := by
  rw [h.vars hv, nests.fillAt_eq hn]

theorem nests_atOnce (hn : n ≤ Ty.levels) (made : t.Over V)
    (nests : t.Nests classes [first, last] n) : t.Nests classes [atOnce] n := by
  generalize same : [first, last] = σs at nests
  induction nests with
  | unknown _ n => exact .unknown _ n
  | any _ n => exact .any _ n
  | noneObject _ n => exact .noneObject _ n
  | module _ n name table => exact .module _ n name table
  | @var σs n v found =>
    have here := found first [last] same.symm
    have hv : V.vars v := by
      cases made
      assumption
    refine .var fun σ τs eq => ?_
    obtain ⟨rfl, rfl⟩ := List.cons.inj eq
    rw [← h.fillAt_ofVar hv hn here]
    exact here.fillAt (h.made hv).2.all h.found
  | @cls σs n c _ _ _ args opened _ =>
    have hn := Nat.le_of_succ_le hn
    refine .cls (fun o ho t ht => args o ho t ht hn (made.argument o ho t ht) same) ?_ ?_
    · intro σ τs eq opens v hv
      obtain ⟨rfl, rfl⟩ := List.cons.inj eq
      have hc : V.classes c := by
        cases made
        assumption
      exact opened first [last] same.symm ((h.opens c).1 opens) v hv hn (.var (h.params hc v hv)) same
    · intro σ τs eq bare _
      obtain ⟨rfl, rfl⟩ := List.cons.inj eq
      refine .cls (fun o ho => ?_) nofun nofun
      rw [ClassTy.argList, bare] at ho
      cases ho
  | function _ _ params ret =>
    have hn := Nat.le_of_succ_le hn
    exact .function (fun p hp => params p hp hn (made.param p hp) same) (ret hn made.returned same)
  | overloaded _ each =>
    exact .overloaded fun f hf => each f hf (Nat.le_of_succ_le hn) (made.overload f hf) same
  | union _ each =>
    exact .union fun t ht => each t ht (Nat.le_of_succ_le hn) (made.member t ht) same

private theorem shut_fill {c : ClassTy} (hc : V.classes c) (sub : Ty → Ty) :
    ¬ (c.fill classes first sub).Opens classes last := by
  intro opens
  by_cases o : c.Opens classes first
  · rw [ClassTy.fill_of_opens o] at opens
    exact nomatch opens.1
  · have bare : c.args = none := by
      have given := @ClassTy.isSome_args_fill_of_shut classes first sub c o
      rwa [opens.1, Option.isSome_none, eq_comm, Option.isSome_eq_false_iff,
        Option.isNone_iff_eq_none] at given
    rw [ClassTy.fill_of_bare bare o] at opens
    exact h.shut hc opens

end

section

variable (h : Composes classes first last atOnce V W)
include h

theorem over_fillAt (n : Nat) (made : t.Over V) : (t.fillAt classes first n).Over W :=
  Ty.over_fillAt (fun _ _ hc id => h.views hc id) (fun _ hc => h.params hc) (fun _ hv => h.made hv)
    (fun t _ => h.vague t) n made

private theorem matches_cls {c : ClassTy} (hc : V.classes c) {j : Nat}
    (args : ∀ o ∈ c.argList, ∀ t, o = some t → coincideAt NoClass j
      ((t.fillAt classes first n).fillAt classes last n) (t.fillAt classes atOnce n))
    (params : c.Opens classes first → ∀ v ∈ (classes.decl c.id).params, coincideAt NoClass j
      (((Ty.var v).fillAt classes first n).fillAt classes last n)
      ((Ty.var v).fillAt classes atOnce n)) :
    ((c.fill classes first (Ty.fillAt classes first n)).fill classes last
      (Ty.fillAt classes last n)).Matches NoClass (coincideAt NoClass j)
        (c.fill classes atOnce (Ty.fillAt classes atOnce n)) := by
  refine ⟨by simp, by simp, by simp only [ClassTy.literal_fill], fun none => none.elim, fun i => ?_⟩
  rw [ClassTy.argAt_fill_of_shut (Ty.fillAt_unknown n) (h.shut_fill hc _)]
  by_cases opens : c.Opens classes first
  · rw [ClassTy.argAt_fill_of_opens opens, ClassTy.argAt_fill_of_opens ((h.opens c).2 opens)]
    cases hv : (classes.decl c.id).params[i]? with
    | none =>
      refine .some (coincideAt_of_vague ?_ rfl)
      rw [Ty.fillAt_unknown]
      rfl
    | some v => exact .some (params opens v (List.mem_of_getElem? hv))
  · rw [ClassTy.argAt_fill_of_shut (Ty.fillAt_unknown n) opens,
      ClassTy.argAt_fill_of_shut (Ty.fillAt_unknown n) (mt (h.opens c).1 opens), Option.map_map]
    have unknown : coincideAt NoClass j
        ((Ty.unknown.fillAt classes first n).fillAt classes last n)
        (Ty.unknown.fillAt classes atOnce n) := by
      simp only [Ty.fillAt_unknown]
      exact coincideAt_of_vague rfl rfl
    refine option_rel_map (R := Eq) (rel_option_self fun _ _ => rfl) fun t ht u _ same => ?_
    subst same
    unfold ClassTy.argAt at ht
    cases hi : c.argList[i]? with
    | none =>
      rw [hi] at ht
      cases ht
      exact unknown
    | some o =>
      rw [hi] at ht
      exact args o (List.mem_of_getElem? hi) t ht

end

/-- To put in what the first solution has found, and then what the last one has found, comes to
putting in both at once. -/
theorem coincides (h : Composes classes first last atOnce V W) (hn : n ≤ Ty.levels)
    (made : t.Over V) (nests : t.Nests classes [first, last] n) (j : Nat) :
    coincideAt NoClass j ((t.fillAt classes first n).fillAt classes last n)
      (t.fillAt classes atOnce n) := by
  induction n generalizing t j with
  | zero => exact coincideAt_self j made.all
  | succ n ih =>
    cases j with
    | zero => trivial
    | succ j =>
    have hn' := Nat.le_of_succ_le hn
    have function : ∀ f : FunctionTy, (Ty.function f).Over V →
        (∀ p ∈ f.params, p.typeOrUnknown.Nests classes [first, last] n) →
        f.returned.Nests classes [first, last] n → ∀ j,
          ((f.fill (Ty.fillAt classes first n)).fill (Ty.fillAt classes last n)).Matches
            (coincideAt NoClass j) (f.fill (Ty.fillAt classes atOnce n)) := by
      intro f made params ret j
      refine ⟨rfl, ?_, ?_⟩
      · refine List.forall₂_map_left_iff.2 (List.forall₂_map_left_iff.2
          (List.forall₂_map_right_iff.2 (List.forall₂_same.2 fun p hp => ⟨rfl, rfl, ?_⟩)))
        simp only [Param.typeOrUnknown_fill (Ty.fillAt_unknown n)]
        exact ih hn' (made.param p hp) (params p hp) j
      · simp only [FunctionTy.returned_fill (Ty.fillAt_unknown n)]
        exact ih hn' made.returned ret j
    cases made with
    | unknown | any | noneObject | module => exact coincideAt_self (j + 1) (by constructor <;> trivial)
    | @var v hv =>
      cases nests with
      | var found =>
        have here := found first [last] rfl
        change coincideAt NoClass (j + 1) ((Substitution.ofVar first false v).fillAt classes last (n + 1))
          (Substitution.ofVar atOnce false v)
        rw [h.fillAt_ofVar hv hn here]
        exact coincideAt_self (j + 1) (h.foundAtOnce.ofVar trivial)
    | @cls c here args =>
      cases nests with
      | cls args' opened _ =>
        refine coincideAt_of_matches rfl rfl (.cls (h.matches_cls here ?_ ?_))
        · exact fun o ho t ht => ih hn' (args o ho t ht) (args' o ho t ht) j
        · exact fun opens v hv =>
            ih hn' (.var (h.params here v hv)) (opened first [last] rfl opens v hv) j
    | @function f params ret settled =>
      cases nests with
      | function params' ret' =>
        exact coincideAt_of_matches rfl rfl
          (.function (function f (.function params ret settled) params' ret' j))
    | @overloaded fs each =>
      cases nests with
      | overloaded each' =>
        refine coincideAt_of_matches rfl rfl (.overloaded ?_)
        refine List.forall₂_map_left_iff.2 (List.forall₂_map_left_iff.2
          (List.forall₂_map_right_iff.2 (List.forall₂_same.2 fun f hf => ?_)))
        cases j with
        | zero => trivial
        | succ j =>
          cases each' f hf with
          | function params ret =>
            exact coincideAt_of_matches rfl rfl (.function (function f (each f hf)
              (fun p hp => (params p hp).mono (Nat.le_succ _)) (ret.mono (Nat.le_succ _)) j))
    | @union ts each built =>
      cases nests with
      | union each' =>
        have given : ∀ f : Ty → Ty, ts.map f ≠ [] := fun f none_left =>
          Ty.Over.ne_nil (.union each built) (List.map_eq_nil_iff.1 none_left)
        have filled : ∀ t ∈ ts.map (Ty.fillAt classes first n),
            t.Over W ∧ t.Nests classes [last] n := by
          intro u hu
          obtain ⟨t, ht, rfl⟩ := List.mem_map.1 hu
          exact ⟨h.over_fillAt n (each t ht), (each' t ht).fillAt (each t ht).all h.foundFirst⟩
        have left := equatedAt_fillAt_join (h.vague _) h.told h.found (fun c opens => ⟨c, rfl, opens⟩)
          hn (fun t ht => (filled t ht).1) (fun t ht => (filled t ht).2) (given _) j
        have right : EquatedAt NoClass j (Ty.join (ts.map (Ty.fillAt classes atOnce n))).alternatives
            (Ty.choices (ts.map (Ty.fillAt classes atOnce n))) := by
          refine @equatedAt_join_of_nests classes [] .all _ _ _ trivial
            (Vocabulary.tells_noClass _) hn' ?_ ?_ (given _) j
          · intro u hu
            obtain ⟨t, ht, rfl⟩ := List.mem_map.1 hu
            exact (each t ht).all.fillAt h.foundAtOnce n
          · intro u hu
            obtain ⟨t, ht, rfl⟩ := List.mem_map.1 hu
            exact (h.nests_atOnce hn' (each t ht) (each' t ht)).fillAt (each t ht).all h.foundAtOnce
        have both : ∀ t ∈ ts, coincideAt NoClass (j + 1)
            ((t.fillAt classes first n).fillAt classes last n) (t.fillAt classes atOnce n) :=
          fun t ht => ih hn' (each t ht) (each' t ht) (j + 1)
        have middle : EquatedAt NoClass j
            (Ty.choices ((ts.map (Ty.fillAt classes first n)).map (Ty.fillAt classes last n)))
            (Ty.choices (ts.map (Ty.fillAt classes atOnce n))) := by
          rw [List.map_map]
          refine ⟨covered_choices fun x hx => ?_, covered_choices fun x hx => ?_⟩
          · obtain ⟨t, ht, rfl⟩ := List.mem_map.1 hx
            exact (both t ht).1.mono (Ty.subset_choices (List.mem_map_of_mem ht))
          · obtain ⟨t, ht, rfl⟩ := List.mem_map.1 hx
            exact (both t ht).2.mono (Ty.subset_choices (List.mem_map_of_mem (f := _ ∘ _) ht))
        exact (left.trans middle).trans right.symm

end Composes

end Conformance
