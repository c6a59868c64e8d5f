import Conformance.Proofs.Receptive

/-!
# Substitution as a function

A type in which no return type is still to be found out is compared, and combined with others, in the
same way at any time. What is substituted in it is then a function of the type, and can be reasoned
about as one.
-/

namespace Conformance

def FunctionTy.returned (f : FunctionTy) : Ty := f.declaredReturn.getD .unknown

/-- What types may be made of: views of classes, type variables, and types of anything. -/
structure Vocabulary where
  classes : ClassTy → Prop
  vars : TypeVar → Prop
  vague : Ty → Prop

/-- Every view of a class, every variable and every type of anything. -/
def Vocabulary.all : Vocabulary := ⟨fun _ => True, fun _ => True, fun _ => True⟩

/-- The type is made of nothing else, missing annotations counted as unknown types; its unions are
as they are built, and no return type in it is still to be found out. The bounds of variables do not
count. -/
inductive Ty.Over (V : Vocabulary) : Ty → Prop
  | unknown (here : V.vague .unknown) : Ty.Over V .unknown
  | any (here : V.vague .any) : Ty.Over V .any
  | noneObject : Ty.Over V .noneObject
  | module (name : String) (table : TableId) : Ty.Over V (.module name table)
  | cls {c : ClassTy} (here : V.classes c) (args : ∀ o ∈ c.argList, ∀ t, o = some t → Ty.Over V t) :
      Ty.Over V (.cls c)
  | function {f : FunctionTy} (params : ∀ p ∈ f.params, Ty.Over V p.typeOrUnknown)
      (ret : Ty.Over V f.returned) (settled : ∀ cell outcome, f.ret ≠ .deferred cell outcome) :
      Ty.Over V (.function f)
  | overloaded {fs : List FunctionTy} (each : ∀ f ∈ fs, Ty.Over V (.function f)) :
      Ty.Over V (.overloaded fs)
  | var {v : TypeVar} (here : V.vars v) : Ty.Over V (.var v)
  | union {ts : List Ty} (each : ∀ t ∈ ts, Ty.Over V t) (built : Fragment.Built .start ts) :
      Ty.Over V (.union ts)

variable {V W : Vocabulary} {t u : Ty}

theorem FunctionTy.returnType_eq {f : FunctionTy}
    (settled : ∀ cell outcome, f.ret ≠ .deferred cell outcome) (inf : Inference) :
    inf.returnType f = f.returned := by
  unfold Inference.returnType returned declaredReturn
  cases hr : f.ret with
  | deferred cell outcome => exact absurd hr (settled cell outcome)
  | _ => rfl

theorem Ty.alternatives_of_vague (h : t.isAnyOrUnknown = true) : t.alternatives = [t] := by
  cases t <;> first | rfl | cases h

namespace Ty.Over

theorem mono (h : t.Over V) (classes : ∀ c, V.classes c → W.classes c)
    (vars : ∀ v, V.vars v → W.vars v) (vague : ∀ t, V.vague t → W.vague t) : t.Over W := by
  induction h with
  | unknown here => exact .unknown (vague _ here)
  | any here => exact .any (vague _ here)
  | noneObject => exact .noneObject
  | module name table => exact .module name table
  | cls here _ ih => exact .cls (classes _ here) ih
  | function _ _ settled params ret => exact .function params ret settled
  | overloaded _ ih => exact .overloaded ih
  | var here => exact .var (vars _ here)
  | union _ built ih => exact .union ih built

theorem all (h : t.Over V) : t.Over .all :=
  h.mono (fun _ _ => trivial) (fun _ _ => trivial) fun _ _ => trivial

theorem argument {c : ClassTy} (h : (Ty.cls c).Over V) : ∀ o ∈ c.argList, ∀ t, o = some t → t.Over V := by
  cases h
  assumption

theorem settled {f : FunctionTy} (h : (Ty.function f).Over V) :
    ∀ cell outcome, f.ret ≠ .deferred cell outcome := by
  cases h
  assumption

theorem param {f : FunctionTy} (h : (Ty.function f).Over V) :
    ∀ p ∈ f.params, p.typeOrUnknown.Over V := by
  cases h
  assumption

theorem returned {f : FunctionTy} (h : (Ty.function f).Over V) : f.returned.Over V := by
  cases h
  assumption

theorem overload {fs : List FunctionTy} (h : (Ty.overloaded fs).Over V) :
    ∀ f ∈ fs, (Ty.function f).Over V := by
  cases h
  assumption

theorem member {ts : List Ty} (h : (Ty.union ts).Over V) : ∀ t ∈ ts, t.Over V := by
  cases h
  assumption

theorem built {ts : List Ty} (h : (Ty.union ts).Over V) : Fragment.Built .start ts := by
  cases h
  assumption

/-- An alternative is no union, and a type of anything only if it is the whole. -/
theorem alternative (h : t.Over V) (hu : u ∈ t.alternatives) :
    u.Over V ∧ u.alternatives = [u] ∧ (t.isAnyOrUnknown = false → u.isAnyOrUnknown = false) := by
  by_cases union : ∃ ts, t = .union ts
  · obtain ⟨ts, rfl⟩ := union
    have single := h.built.single u hu
    exact ⟨h.member u hu, single.1, fun _ => single.2⟩
  · have plain := Fragment.alternatives_eq_self fun ts same => union ⟨ts, same⟩
    rw [plain, List.mem_singleton] at hu
    subst hu
    exact ⟨h, plain, id⟩

theorem alternatives_ne_nil (h : t.Over V) : t.alternatives ≠ [] := by
  by_cases union : ∃ ts, t = .union ts
  · obtain ⟨ts, rfl⟩ := union
    exact List.ne_nil_of_length_pos (Nat.lt_of_succ_lt h.built.several)
  · rw [Fragment.alternatives_eq_self fun ts same => union ⟨ts, same⟩]
    exact List.cons_ne_nil t []

/-! ## Comparing and combining at any time -/

/-- Two settled types are compared alike whatever is known about return types. -/
theorem sameAt_eq (ht : t.Over .all) (hu : u.Over .all) (n : Nat) (inf inf' : Inference) :
    sameAt inf n t u = sameAt inf' n t u := by
  induction n generalizing t u with
  | zero => rfl
  | succ n ih =>
    cases ht with
    | unknown | any | noneObject | module | var => cases u <;> rfl
    | @cls c _ args =>
      cases hu with
      | @cls d _ args' =>
        simp only [sameAt, sameClassTy]
        congr 1
        have unknown : ∀ t, some Ty.unknown = some t → t.Over .all := by
          rintro _ ⟨⟩
          exact .unknown trivial
        have given := forall_mem_padPairs (P := fun o => ∀ t, o = some t → t.Over .all)
          (Q := fun o => ∀ t, o = some t → t.Over .all) unknown unknown args args'
        exact all_congr fun p hp => sameOption_congr fun t ht u hu =>
          ih ((given p hp).1 t ht) ((given p hp).2 u hu)
      | _ => rfl
    | @function f params ret settled =>
      cases hu with
      | @function g params' ret' settled' =>
        simp only [sameAt, sameFunction, FunctionTy.returnType_eq settled,
          FunctionTy.returnType_eq settled', ih ret ret']
        congr 2
        refine allPairs_congr fun p hp q hq => ?_
        simp only [sameParam, ih (params p hp) (params' q hq)]
      | _ => rfl
    | @overloaded fs each =>
      cases hu with
      | @overloaded gs each' => exact allPairs_congr fun f hf g hg => ih (each f hf) (each' g hg)
      | _ => rfl
    | @union ts each _ =>
      cases hu with
      | @union us each' _ =>
        simp only [sameAt]
        congr 1
        refine all_congr fun t ht => ?_
        rw [Bool.eq_iff_iff, List.any_eq_true, List.any_eq_true]
        exact exists_congr fun u => and_congr_right fun hu => by rw [ih (each t ht) (each' u hu)]
      | _ => rfl

theorem same_eq (ht : t.Over V) (hu : u.Over W) (inf inf' : Inference) :
    t.same inf u = t.same inf' u :=
  ht.all.sameAt_eq hu.all Ty.levels inf inf'

end Ty.Over

private theorem any_congr_mem {α : Type} {p q : α → Bool} {as : List α} (h : ∀ a ∈ as, p a = q a) :
    as.any p = as.any q := by
  rw [List.any_eq_not_all_not, List.any_eq_not_all_not, all_congr fun a ha => congrArg _ (h a ha)]

theorem Ty.distinct_congr {inf inf' : Inference} {ts : List Ty}
    (h : ∀ t ∈ ts, ∀ u ∈ ts, t.same inf u = t.same inf' u) :
    Ty.distinct inf ts = Ty.distinct inf' ts := by
  have folded : ∀ us found : List Ty, (∀ t ∈ us, t ∈ ts) → (∀ t ∈ found, t ∈ ts) →
      us.foldl (Ty.insertDistinct inf) found = us.foldl (Ty.insertDistinct inf') found := by
    intro us
    induction us with
    | nil => exact fun _ _ _ => by rw [List.foldl_nil, List.foldl_nil]
    | cons u us ih =>
      intro found hus hfound
      rw [List.forall_mem_cons] at hus
      have alike : ∀ t ∈ found, Ty.same inf t u = Ty.same inf' t u :=
        fun t ht => h t (hfound t ht) u hus.1
      have seen : found.any (fun t => t.same inf u) = found.any fun t => t.same inf' u :=
        any_congr_mem alike
      have same : Ty.insertDistinct inf found u = Ty.insertDistinct inf' found u := by
        rw [Ty.insertDistinct, Ty.insertDistinct, seen]
      rw [List.foldl_cons, List.foldl_cons, same]
      refine ih _ hus.2 fun t ht => ?_
      unfold Ty.insertDistinct at ht
      split at ht
      · exact hfound t ht
      · rcases List.mem_append.1 ht with ht | ht
        · exact hfound t ht
        · exact List.mem_singleton.1 ht ▸ hus.1
  exact folded ts [] (fun _ => id) fun _ ht => absurd ht List.not_mem_nil

def Ty.join (ts : List Ty) : Ty := Ty.combine .start (ts.map some)

def Ty.choices (ts : List Ty) : List Ty := ts.flatMap Ty.alternatives

section

variable {ts : List Ty}

theorem Ty.combine_eq_join (h : ∀ t ∈ ts, t.Over V) (inf : Inference) :
    Ty.combine inf (ts.map some) = Ty.join ts := by
  have given : (ts.map some).filterMap id = ts := by
    simp only [List.filterMap_map, Function.comp_def, id_eq, List.filterMap_some]
  have apart : Ty.distinct inf (ts.flatMap Ty.alternatives) =
      Ty.distinct .start (ts.flatMap Ty.alternatives) := by
    refine Ty.distinct_congr fun t ht u hu => ?_
    obtain ⟨t', ht', ht⟩ := List.mem_flatMap.1 ht
    obtain ⟨u', hu', hu⟩ := List.mem_flatMap.1 hu
    exact ((h t' ht').alternative ht).1.same_eq ((h u' hu').alternative hu).1 _ _
  rw [Ty.join, Ty.combine, Ty.combine]
  simp only [given, apart]

theorem Ty.mem_choices : u ∈ Ty.choices ts ↔ ∃ t ∈ ts, u ∈ t.alternatives := List.mem_flatMap

theorem Ty.subset_choices (h : t ∈ ts) : t.alternatives ⊆ Ty.choices ts :=
  fun _ hu => Ty.mem_choices.2 ⟨t, h, hu⟩

private theorem Ty.choices_ne_nil (h : ∀ t ∈ ts, t.Over V) (given : ts ≠ []) :
    Ty.choices ts ≠ [] := by
  obtain ⟨t, rest, rfl⟩ := List.exists_cons_of_ne_nil given
  obtain ⟨a, as, here⟩ := List.exists_cons_of_ne_nil (h t List.mem_cons_self).alternatives_ne_nil
  rw [Ty.choices, List.flatMap_cons, here]
  exact List.cons_ne_nil a _

/-- A join is a type of anything among those given, or else its alternatives are theirs, one of each
group that are the same. -/
theorem Ty.join_cases (h : ∀ t ∈ ts, t.Over V) (given : ts ≠ []) :
    (Ty.join ts ∈ ts ∧ (Ty.join ts).isAnyOrUnknown = true) ∨
      (∀ u ∈ Ty.choices ts, u.isAnyOrUnknown = false) ∧
        (Ty.join ts).alternatives = Ty.distinct .start (Ty.choices ts) ∧
        (Ty.join ts ∈ Ty.choices ts ∨
          ∃ us, Ty.join ts = .union us ∧ Fragment.Built .start us ∧ ∀ u ∈ us, u ∈ Ty.choices ts) := by
  have some_given : (ts.map some).filterMap id = ts := by
    simp only [List.filterMap_map, Function.comp_def, id_eq, List.filterMap_some]
  unfold Ty.join Ty.combine
  simp only [some_given]
  split
  · rename_i t ht
    exact .inl ⟨List.mem_of_find?_eq_some ht, List.find?_some ht⟩
  · rename_i proper
    have single : ∀ u ∈ Ty.choices ts, u.alternatives = [u] ∧ u.isAnyOrUnknown = false := by
      intro u hu
      obtain ⟨t, ht, hut⟩ := Ty.mem_choices.1 hu
      obtain ⟨-, single, kept⟩ := (h t ht).alternative hut
      exact ⟨single, kept (Bool.eq_false_iff.2 (List.find?_eq_none.1 proper t ht))⟩
    have among : ∀ u ∈ Ty.distinct .start (Ty.choices ts), u ∈ Ty.choices ts :=
      fun u hu => Fragment.mem_of_mem_distinct hu
    have again := Fragment.distinct_of_pairwise
      (@Fragment.pairwise_distinct .start (Ty.choices ts))
    obtain ⟨a, as, first⟩ := List.exists_cons_of_ne_nil (Ty.choices_ne_nil h given)
    obtain ⟨b, hb, -⟩ := exists_same_distinct .start (first ▸ List.mem_cons_self : a ∈ Ty.choices ts)
    rw [Ty.choices] at single among again hb ⊢
    refine .inr ⟨fun u hu => (single u hu).2, ?_⟩
    generalize Ty.distinct .start (ts.flatMap Ty.alternatives) = us at among again hb ⊢
    rcases us with _ | ⟨u, _ | ⟨v, vs⟩⟩
    · cases hb
    · have here := among u List.mem_cons_self
      exact ⟨(single u here).1, .inl here⟩
    · refine ⟨rfl, .inr ⟨_, rfl, ⟨fun t ht => single t (among t ht), again, ?_⟩, among⟩⟩
      exact Nat.succ_lt_succ (Nat.succ_pos _)

theorem Ty.over_join (h : ∀ t ∈ ts, t.Over V) (given : ts ≠ []) : (Ty.join ts).Over V := by
  have choice : ∀ u ∈ Ty.choices ts, u.Over V := by
    intro u hu
    obtain ⟨t, ht, hut⟩ := Ty.mem_choices.1 hu
    exact ((h t ht).alternative hut).1
  rcases Ty.join_cases h given with ⟨here, -⟩ | ⟨-, -, here | ⟨us, same, built, among⟩⟩
  · exact h _ here
  · exact choice _ here
  · rw [same]
    exact .union (fun u hu => choice u (among u hu)) built

theorem Ty.join_self (built : Fragment.Built .start ts) : Ty.join ts = .union ts := built.combine_eq

end

/-! ## Filling in what a solution has found -/

section

variable (classes : ClassTable) (σ : Solution) (sub : Ty → Ty)

/-- A generic class without arguments that is to take its own parameters for arguments. -/
def ClassTy.Opens (c : ClassTy) : Prop :=
  c.args = none ∧
    ((classes.decl c.id).params.isEmpty || !σ.solves (classes.decl c.id).scope) = false

instance (c : ClassTy) : Decidable (c.Opens classes σ) := by
  unfold ClassTy.Opens
  cases c.args
  · exact decidable_of_iff _ (and_iff_right rfl).symm
  · exact isFalse nofun

def Param.fill (p : Param) : Param := { p with type := p.type.map sub }

def FunctionTy.fill (f : FunctionTy) : FunctionTy :=
  { f with
    params := f.params.map (Param.fill sub)
    ret :=
      match f.ret with
      | .declared t => .declared (sub t)
      | r => r }

def ClassTy.fill (c : ClassTy) : ClassTy :=
  if c.Opens classes σ then
    c.withArgs ((classes.decl c.id).params.map fun v => some (sub (.var v))) true
  else { c with args := c.args.map fun args => args.map (Option.map sub) }

/-- Substitution in a settled type, to a number of levels. -/
def Ty.fillAt : Nat → Ty → Ty
  | 0, t => t
  | n + 1, t =>
    match t with
    | .var v => Substitution.ofVar σ false v
    | .cls c => .cls (c.fill classes σ (Ty.fillAt n))
    | .function f => .function (f.fill (Ty.fillAt n))
    | .overloaded fs => .overloaded (fs.map (FunctionTy.fill (Ty.fillAt n)))
    | .union ts => Ty.join (ts.map (Ty.fillAt n))
    | t => t

end

section

variable {classes : ClassTable} {σ : Solution} {sub : Ty → Ty} {c : ClassTy}

theorem ClassTy.fill_of_opens (h : c.Opens classes σ) :
    c.fill classes σ sub =
      c.withArgs ((classes.decl c.id).params.map fun v => some (sub (.var v))) true := if_pos h

theorem ClassTy.fill_of_args {args : List (Option Ty)} (h : c.args = some args) :
    c.fill classes σ sub = { c with args := some (args.map (Option.map sub)) } := by
  have shut : ¬ c.Opens classes σ := by
    rw [Opens, h]
    exact fun opens => nomatch opens.1
  rw [fill, if_neg shut, h]
  rfl

theorem ClassTy.fill_of_bare (h : c.args = none) (shut : ¬ c.Opens classes σ) :
    c.fill classes σ sub = c := by
  obtain ⟨id, isInstance, args, explicit, literal⟩ := c
  subst h
  exact if_neg shut

@[simp] theorem ClassTy.id_fill : (c.fill classes σ sub).id = c.id := by
  unfold fill
  split <;> rfl

@[simp] theorem ClassTy.isInstance_fill : (c.fill classes σ sub).isInstance = c.isInstance := by
  unfold fill
  split <;> rfl

theorem ClassTy.literal_fill : (c.fill classes σ sub).literal = c.literal := by
  unfold fill
  split <;> rfl

theorem Param.typeOrUnknown_fill (unknown : sub .unknown = .unknown) (p : Param) :
    (p.fill sub).typeOrUnknown = sub p.typeOrUnknown := by
  obtain ⟨kind, name, type, hasDefault⟩ := p
  cases type with
  | none => exact unknown.symm
  | some t => rfl

theorem FunctionTy.returned_fill (unknown : sub .unknown = .unknown) (f : FunctionTy) :
    (f.fill sub).returned = sub f.returned := by
  obtain ⟨name, params, ret, kind, scope⟩ := f
  cases ret with
  | declared t => rfl
  | _ => exact unknown.symm

private theorem FunctionTy.settled_fill {f : FunctionTy}
    (settled : ∀ cell outcome, f.ret ≠ .deferred cell outcome) :
    ∀ cell outcome, (f.fill sub).ret ≠ .deferred cell outcome := by
  obtain ⟨name, params, ret, kind, scope⟩ := f
  cases ret with
  | deferred cell outcome => exact absurd rfl (settled cell outcome)
  | _ => exact nofun

theorem FunctionTy.fill_congr {f : FunctionTy} {sub' : Ty → Ty}
    (params : ∀ p ∈ f.params, sub p.typeOrUnknown = sub' p.typeOrUnknown)
    (ret : sub f.returned = sub' f.returned) : f.fill sub = f.fill sub' := by
  obtain ⟨name, ps, r, kind, scope⟩ := f
  have same : ps.map (Param.fill sub) = ps.map (Param.fill sub') := by
    refine List.map_congr_left fun p hp => ?_
    have here := params p hp
    obtain ⟨kind, name, type, hasDefault⟩ := p
    cases type with
    | none => rfl
    | some t => exact congrArg (fun t => Param.mk kind name (some t) hasDefault) here
  cases r with
  | declared t => exact congrArg₂ (fun ps t => FunctionTy.mk name ps (.declared t) kind scope) same ret
  | undeclared => exact congrArg (fun ps => FunctionTy.mk name ps .undeclared kind scope) same
  | deferred cell outcome =>
    exact congrArg (fun ps => FunctionTy.mk name ps (.deferred cell outcome) kind scope) same

theorem FunctionTy.fill_id (f : FunctionTy) : f.fill id = f := by
  obtain ⟨name, params, ret, kind, scope⟩ := f
  have same : params.map (Param.fill id) = params := by
    refine (List.map_congr_left fun p _ => ?_).trans (List.map_id params)
    obtain ⟨kind, name, type, hasDefault⟩ := p
    cases type <;> rfl
  cases ret <;> exact congrArg (fun ps => FunctionTy.mk name ps _ kind scope) same

theorem ClassTy.fill_congr {other : ClassTable} {τ : Solution} {sub' : Ty → Ty}
    (args : ∀ o ∈ c.argList, ∀ t, o = some t → sub t = sub' t)
    (opens : c.Opens classes σ ↔ c.Opens other τ)
    (params : c.Opens classes σ →
      (classes.decl c.id).params.map (fun v => sub (.var v)) =
        (other.decl c.id).params.map fun v => sub' (.var v)) :
    c.fill classes σ sub = c.fill other τ sub' := by
  by_cases h : c.Opens classes σ
  · have filled : ∀ (ps : List TypeVar) (sub : Ty → Ty),
        ps.map (fun v => some (sub (.var v))) = (ps.map fun v => sub (.var v)).map some := by
      intro ps sub
      rw [List.map_map]
      rfl
    rw [fill_of_opens h, fill_of_opens (opens.1 h), filled, filled, params h]
  · cases hargs : c.args with
    | none => rw [fill_of_bare hargs h, fill_of_bare hargs (mt opens.2 h)]
    | some given =>
      rw [argList, hargs] at args
      rw [fill_of_args hargs, fill_of_args hargs]
      have same : given.map (Option.map sub) = given.map (Option.map sub') := by
        refine List.map_congr_left fun o ho => ?_
        cases o with
        | none => rfl
        | some t => exact congrArg some (args (some t) ho t rfl)
      rw [same]

theorem ClassTy.fill_id (shut : ¬ c.Opens classes σ) : c.fill classes σ (fun t => t) = c := by
  cases hargs : c.args with
  | none => exact fill_of_bare hargs shut
  | some given =>
    have same : given.map (Option.map fun t => t) = given :=
      (List.map_congr_left fun _ _ => Option.map_id').trans (List.map_id given)
    rw [fill_of_args hargs, same, ← hargs]
    obtain ⟨i, isInstance, args, explicit, literal⟩ := c
    rfl

theorem Ty.fillAt_of_vague (n : Nat) (h : t.isAnyOrUnknown = true) :
    t.fillAt classes σ n = t := by
  cases t with
  | unknown | any => cases n <;> rfl
  | _ => cases h

theorem Ty.fillAt_unknown (n : Nat) : Ty.unknown.fillAt classes σ n = .unknown :=
  Ty.fillAt_of_vague n rfl

/-- What is filled in is made of what the type and the solution are made of. -/
theorem Ty.over_fillAt (classesOver : ∀ c d, V.classes c → d.id = c.id → W.classes d)
    (params : ∀ c, V.classes c → ∀ v ∈ (classes.decl c.id).params, V.vars v)
    (vars : ∀ v, V.vars v → W.vars v ∧ (Substitution.ofVar σ false v).Over W)
    (vague : ∀ t, V.vague t → W.vague t) (n : Nat) (h : t.Over V) :
    (t.fillAt classes σ n).Over W := by
  induction n generalizing t with
  | zero => exact h.mono (fun c hc => classesOver c c hc rfl) (fun v hv => (vars v hv).1) vague
  | succ n ih =>
    have function : ∀ f : FunctionTy, (Ty.function f).Over V →
        (Ty.function (f.fill (Ty.fillAt classes σ n))).Over W := by
      intro f hf
      refine .function ?_ ?_ (FunctionTy.settled_fill hf.settled)
      · intro p hp
        obtain ⟨q, hq, rfl⟩ := List.mem_map.1 hp
        rw [Param.typeOrUnknown_fill (fillAt_unknown n)]
        exact ih (hf.param q hq)
      · rw [FunctionTy.returned_fill (fillAt_unknown n)]
        exact ih hf.returned
    cases h with
    | unknown here => exact .unknown (vague _ here)
    | any here => exact .any (vague _ here)
    | noneObject => exact .noneObject
    | module name table => exact .module name table
    | var here => exact (vars _ here).2
    | @cls c here args =>
      refine .cls (classesOver c _ here ClassTy.id_fill) fun o ho t ht => ?_
      subst ht
      cases hargs : c.args with
      | some given =>
        rw [ClassTy.fill_of_args hargs] at ho
        obtain ⟨a, ha, hat⟩ := List.mem_map.1 ho
        obtain ⟨u, rfl, rfl⟩ := Option.map_eq_some_iff.1 hat
        refine ih (args _ ?_ u rfl)
        rwa [ClassTy.argList, hargs]
      | none =>
        by_cases opens : c.Opens classes σ
        · rw [ClassTy.fill_of_opens opens] at ho
          obtain ⟨v, hv, hvt⟩ := List.mem_map.1 ho
          rw [← Option.some.inj hvt]
          exact ih (.var (params c here v hv))
        · rw [ClassTy.fill_of_bare hargs opens, ClassTy.argList, hargs] at ho
          cases ho
    | @function f hp hr hs => exact function f (.function hp hr hs)
    | @overloaded fs each =>
      refine .overloaded fun f hf => ?_
      obtain ⟨g, hg, rfl⟩ := List.mem_map.1 hf
      exact function g (each g hg)
    | @union ts each built =>
      refine Ty.over_join ?_ ?_
      · intro u hu
        obtain ⟨t, ht, rfl⟩ := List.mem_map.1 hu
        exact ih (each t ht)
      · exact fun none_left => by
          rw [List.map_eq_nil_iff.1 none_left] at built
          exact absurd built.several (by decide)

end

/-! ## Substituting is filling in -/

def Solution.Finds (V : Vocabulary) (σ : Solution) : Prop :=
  ∀ v t, σ.get? v = some t → t.Over V

theorem Solution.Finds.ofVar {σ : Solution} (h : σ.Finds V) {v : TypeVar} (hv : V.vars v) :
    (Substitution.ofVar σ false v).Over V := by
  unfold Substitution.ofVar
  split
  · exact .var hv
  · split
    · rename_i t ht
      exact h v t ht
    · exact .var hv

theorem Ty.Over.fillAt {classes : ClassTable} {σ : Solution} {t : Ty} (h : t.Over .all)
    (found : σ.Finds .all) (n : Nat) : (t.fillAt classes σ n).Over .all :=
  Ty.over_fillAt (fun _ _ _ _ => trivial) (fun _ _ _ _ => trivial)
    (fun _ _ => ⟨trivial, found.ofVar trivial⟩) (fun _ _ => trivial) n h

theorem Ty.Over.ne_nil {V : Vocabulary} {ts : List Ty} (h : (Ty.union ts).Over V) : ts ≠ [] :=
  List.ne_nil_of_length_pos (Nat.lt_of_succ_lt h.built.several)

section

variable {classes : ClassTable} {σ : Solution} {inf : Inference}

theorem mapM_eq_map {α β : Type} {f : α → StateM Inference β} {g : α → β} {as : List α}
    (h : ∀ a ∈ as, f a inf = (g a, inf)) : as.mapM f inf = (as.map g, inf) := by
  induction as with
  | nil => rfl
  | cons a as ih =>
    rw [List.forall_mem_cons] at h
    rw [List.mapM_cons]
    change ((as.mapM f >>= fun bs => pure ((f a inf).1 :: bs) : StateM Inference (List β))
      (f a inf).2) = _
    rw [h.1]
    change ((pure (g a :: (as.mapM f inf).1) : StateM Inference (List β)) (as.mapM f inf).2) = _
    rw [ih h.2]
    rfl

section

variable {sub : Ty → StateM Inference Ty} {fill : Ty → Ty}

private theorem ofOption_eq {o : Option Ty} (h : ∀ t, o = some t → sub t inf = (fill t, inf)) :
    Substitution.ofOption sub o inf = (o.map fill, inf) := by
  cases o with
  | none => rfl
  | some t =>
    change ((some (sub t inf).1, (sub t inf).2) : Option Ty × Inference) = _
    rw [h t rfl]
    rfl

theorem ofClassTy_eq {c : ClassTy}
    (args : ∀ o ∈ c.argList, ∀ t, o = some t → sub t inf = (fill t, inf))
    (params : ∀ v ∈ (classes.decl c.id).params, sub (.var v) inf = (fill (.var v), inf)) :
    Substitution.ofClassTy classes σ sub c inf = (c.fill classes σ fill, inf) := by
  unfold Substitution.ofClassTy
  cases hargs : c.args with
  | some given =>
    rw [ClassTy.argList, hargs] at args
    rw [ClassTy.fill_of_args hargs]
    have each := mapM_eq_map fun o (ho : o ∈ given) => ofOption_eq (args o ho)
    change (({ c with args := some (given.mapM (Substitution.ofOption sub) inf).1 },
      (given.mapM (Substitution.ofOption sub) inf).2) : ClassTy × Inference) = _
    rw [each]
  | none =>
    dsimp only
    by_cases opens : c.Opens classes σ
    · rw [ClassTy.fill_of_opens opens, if_neg (by simp [opens.2])]
      have each := mapM_eq_map (f := fun v => Substitution.ofOption sub (some (.var v)))
        (g := fun v => some (fill (.var v))) fun v hv => by
          rw [ofOption_eq fun t ht => Option.some.inj ht ▸ params v hv]
          rfl
      change ((c.withArgs
          ((classes.decl c.id).params.mapM (fun v => Substitution.ofOption sub (some (.var v)))
            inf).1 true,
        ((classes.decl c.id).params.mapM (fun v => Substitution.ofOption sub (some (.var v)))
            inf).2) : ClassTy × Inference) = _
      rw [each]
    · have shut : ((classes.decl c.id).params.isEmpty || !σ.solves (classes.decl c.id).scope)
          = true := by
        rw [← Bool.not_eq_false]
        exact fun h => opens ⟨hargs, h⟩
      rw [ClassTy.fill_of_bare hargs opens, if_pos shut]
      rfl

private theorem ofFunction_eq {f : FunctionTy} (hf : (Ty.function f).Over V)
    (h : ∀ t : Ty, t.Over V → sub t inf = (fill t, inf)) :
    Substitution.ofFunction sub f inf = (f.fill fill, inf) := by
  have param : ∀ p ∈ f.params, Substitution.ofParam sub p inf = (p.fill fill, inf) := by
    intro p hp
    have typed : ∀ t, p.type = some t → sub t inf = (fill t, inf) := by
      intro t ht
      have made := hf.param p hp
      rw [Param.typeOrUnknown, ht] at made
      exact h t made
    change (({ p with type := (Substitution.ofOption sub p.type inf).1 },
      (Substitution.ofOption sub p.type inf).2) : Param × Inference) = _
    rw [ofOption_eq typed]
    rfl
  have ret : Substitution.ofReturn sub f inf = ((f.fill fill).ret, inf) := by
    have made := hf.returned
    obtain ⟨name, params, ret, kind, scope⟩ := f
    cases ret with
    | declared t =>
      change ((.declared (sub t inf).1, (sub t inf).2) : Return × Inference) = _
      rw [h t made]
      rfl
    | undeclared => rfl
    | deferred cell outcome => exact absurd rfl (hf.settled cell outcome)
  change (({ f with
      params := (f.params.mapM (Substitution.ofParam sub) inf).1
      ret := (Substitution.ofReturn sub f (f.params.mapM (Substitution.ofParam sub) inf).2).1 },
    (Substitution.ofReturn sub f (f.params.mapM (Substitution.ofParam sub) inf).2).2) :
      FunctionTy × Inference) = _
  rw [mapM_eq_map param, ret]
  rfl

end

private theorem ofTyAt_eq_of_over
    (made : ∀ n, ∀ t : Ty, t.Over V → (t.fillAt classes σ n).Over .all) (n : Nat)
    {t : Ty} (h : t.Over V) (inf : Inference) :
    Substitution.ofTyAt classes σ false n t inf = (t.fillAt classes σ n, inf) := by
  induction n generalizing t with
  | zero => rfl
  | succ n ih =>
    cases h with
    | unknown | any | noneObject | module | var => rfl
    | @cls c _ args =>
      have run := @ofClassTy_eq classes σ inf _ _ c
        (fun o ho t ht => ih (args o ho t ht)) fun v _ => by cases n <;> rfl
      change ((.cls (Substitution.ofClassTy classes σ _ c inf).1,
        (Substitution.ofClassTy classes σ _ c inf).2) : Ty × Inference) = _
      rw [run]
      rfl
    | @function f params ret settled =>
      have run := ofFunction_eq (.function params ret settled) fun t ht => ih ht
      change ((.function (Substitution.ofFunction _ f inf).1, (Substitution.ofFunction _ f inf).2) :
        Ty × Inference) = _
      rw [run]
      rfl
    | @overloaded fs each =>
      have run := mapM_eq_map fun f (hf : f ∈ fs) => ofFunction_eq (each f hf) fun t ht => ih ht
      change ((.overloaded (fs.mapM (Substitution.ofFunction _) inf).1,
        (fs.mapM (Substitution.ofFunction _) inf).2) : Ty × Inference) = _
      rw [run]
      rfl
    | @union ts each built =>
      have run := mapM_eq_map fun t (ht : t ∈ ts) => ih (each t ht)
      change ((Ty.combine (ts.mapM (Substitution.ofTyAt classes σ false n) inf).2
          ((ts.mapM (Substitution.ofTyAt classes σ false n) inf).1.map some),
        (ts.mapM (Substitution.ofTyAt classes σ false n) inf).2) : Ty × Inference) = _
      rw [run, Ty.combine_eq_join (V := .all)]
      · rfl
      · intro u hu
        obtain ⟨t, ht, rfl⟩ := List.mem_map.1 hu
        exact made n t (each t ht)

theorem ofTyAt_eq (found : σ.Finds .all) (n : Nat) {t : Ty} (h : t.Over .all) (inf : Inference) :
    Substitution.ofTyAt classes σ false n t inf = (t.fillAt classes σ n, inf) :=
  ofTyAt_eq_of_over (fun n _ h => h.fillAt found n) n h inf

/-- Where there is nothing to put in place of a part of a settled type, it stays as it is. -/
theorem Ty.fillAt_eq_self (shut : ∀ c, V.classes c → ¬ c.Opens classes σ)
    (kept : ∀ v, V.vars v → Substitution.ofVar σ false v = .var v) (n : Nat) (h : t.Over V) :
    t.fillAt classes σ n = t := by
  induction n generalizing t with
  | zero => rfl
  | succ n ih =>
    have function : ∀ f : FunctionTy, (Ty.function f).Over V →
        f.fill (Ty.fillAt classes σ n) = f := fun f hf =>
      (FunctionTy.fill_congr (fun p hp => ih (hf.param p hp)) (ih hf.returned)).trans f.fill_id
    cases h with
    | unknown | any | noneObject | module => rfl
    | var here => exact kept _ here
    | @cls c here args =>
      have same : c.fill classes σ (Ty.fillAt classes σ n) = c.fill classes σ fun t => t :=
        ClassTy.fill_congr (fun o ho t ht => ih (args o ho t ht)) Iff.rfl
          fun opens => absurd opens (shut c here)
      exact congrArg Ty.cls (same.trans (ClassTy.fill_id (shut c here)))
    | @function f params ret settled =>
      exact congrArg Ty.function (function f (.function params ret settled))
    | @overloaded fs each =>
      exact congrArg Ty.overloaded
        ((List.map_congr_left fun f hf => function f (each f hf)).trans (List.map_id fs))
    | @union ts each built =>
      have same : ts.map (Ty.fillAt classes σ n) = ts :=
        (List.map_congr_left fun t ht => ih (each t ht)).trans (List.map_id ts)
      exact (congrArg Ty.join same).trans (Ty.join_self built)

theorem Ty.substitute_eq_self (shut : ∀ c, V.classes c → ¬ c.Opens classes σ)
    (kept : ∀ v, V.vars v → Substitution.ofVar σ false v = .var v) (h : t.Over V) (inf : Inference) :
    t.substitute classes σ false inf = (t, inf) := by
  have filled (n : Nat) (t : Ty) (h : t.Over V) : t.fillAt classes σ n = t :=
    Ty.fillAt_eq_self shut kept n h
  unfold Ty.substitute
  split
  · rfl
  · rw [ofTyAt_eq_of_over (fun n t h => (filled n t h).symm ▸ h.all) _ h, filled _ t h]

/-- A substitution reads no more of the table than the parameters and the scopes of the classes that
the type mentions. -/
theorem Ty.fillAt_congr {other : ClassTable}
    (same : ∀ c, V.classes c → (other.decl c.id).params = (classes.decl c.id).params ∧
      (other.decl c.id).scope = (classes.decl c.id).scope) (n : Nat) (h : t.Over V) :
    t.fillAt other σ n = t.fillAt classes σ n := by
  induction n generalizing t with
  | zero => rfl
  | succ n ih =>
    have function : ∀ f : FunctionTy, (Ty.function f).Over V →
        f.fill (Ty.fillAt other σ n) = f.fill (Ty.fillAt classes σ n) := fun f hf =>
      FunctionTy.fill_congr (fun p hp => ih (hf.param p hp)) (ih hf.returned)
    cases h with
    | unknown | any | noneObject | module | var => rfl
    | @cls c here args =>
      obtain ⟨params, scope⟩ := same c here
      refine congrArg Ty.cls (ClassTy.fill_congr (fun o ho t ht => ih (args o ho t ht)) ?_ ?_)
      · rw [ClassTy.Opens, ClassTy.Opens, params, scope]
      · intro _
        rw [params]
        refine List.map_congr_left fun v _ => ?_
        cases n <;> rfl
    | @function f params ret settled =>
      exact congrArg Ty.function (function f (.function params ret settled))
    | @overloaded fs each =>
      exact congrArg Ty.overloaded (List.map_congr_left fun f hf => function f (each f hf))
    | @union ts each _ =>
      exact congrArg Ty.join (List.map_congr_left fun t ht => ih (each t ht))

end

end Conformance
