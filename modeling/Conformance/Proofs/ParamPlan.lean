import Conformance.Assign.Callable
import Mathlib.Data.List.Forall2

/-!
# Plans for parameters

The steps by which two parameter lists are compared speak of the parameters of the two lists alone.
-/

namespace Conformance

/-- All parameters have a property. -/
structure ParamGroups.All (P : Param → Prop) (g : ParamGroups) : Prop where
  positional : ∀ p ∈ g.positional, P p
  keywordOnly : ∀ p ∈ g.keywordOnly, P p
  args : ∀ p, g.args = some p → P p
  kwargs : ∀ p, g.kwargs = some p → P p

section

variable {P : Param → Prop}

theorem ParamGroups.All.add {g : ParamGroups} (h : g.All P) {p : Param} (hp : P p) :
    (g.add p).All P := by
  have appended : ∀ ps : List Param, (∀ q ∈ ps, P q) → ∀ q ∈ ps ++ [p], P q := by
    intro ps hps q hq
    rcases List.mem_append.1 hq with hq | hq
    · exact hps q hq
    · exact List.mem_singleton.1 hq ▸ hp
  unfold ParamGroups.add
  split
  · exact ⟨h.positional, h.keywordOnly, fun q hq => Option.some.inj hq ▸ hp, h.kwargs⟩
  · exact ⟨h.positional, h.keywordOnly, h.args, fun q hq => Option.some.inj hq ▸ hp⟩
  · split
    · exact ⟨h.positional, appended _ h.keywordOnly, h.args, h.kwargs⟩
    · exact ⟨appended _ h.positional, h.keywordOnly, h.args, h.kwargs⟩

theorem ParamGroups.all_ofList {params : List Param} (h : ∀ p ∈ params, P p) :
    (ParamGroups.ofList params).All P := by
  have folded : ∀ (ps : List Param) (g : ParamGroups), (∀ p ∈ ps, P p) → g.All P →
      (ps.foldl ParamGroups.add g).All P := by
    intro ps
    induction ps with
    | nil => exact fun _ _ hg => hg
    | cons p ps ih =>
      exact fun g hps hg => ih _ (fun q hq => hps q (List.mem_cons_of_mem p hq))
        (hg.add (hps p List.mem_cons_self))
  exact folded params _ h
    ⟨fun _ h => (nomatch h), fun _ h => (nomatch h), fun _ h => (nomatch h), fun _ h => (nomatch h)⟩

namespace ParamStep

/-- The parameter of the destination that a step compares has one property, that of the source
another. -/
def Mentions (P Q : Param → Prop) : ParamStep → Prop
  | compare _ dest source => P dest ∧ Q source
  | fault _ _ => True

variable {Q : Param → Prop}

private theorem mentions_nameFault (dest source : Param) :
    ∀ step ∈ nameFault dest source, step.Mentions P Q := by
  intro step h
  unfold nameFault at h
  split at h
  · rw [List.mem_singleton.1 h]
    trivial
  · cases h

private theorem findKeyword_of {params : List Param} (h : ∀ p ∈ params, P p) {name : String}
    {p : Param}
    (hp : findKeyword params name = some p) : P p :=
  h p (List.mem_of_find?_eq_some hp)

variable {dest source : ParamGroups} (hd : dest.All P) (hs : source.All Q)
include hd hs

omit hd in
private theorem mentions_positional (i : Nat) {ds ss : List Param} (hds : ∀ p ∈ ds, P p)
    (hss : ∀ p ∈ ss, Q p) : ∀ step ∈ positional dest source i ds ss, step.Mentions P Q := by
  fun_induction positional dest source i ds ss with
  | case1 => exact fun _ h => nomatch h
  | case2 i d ds s ss ih =>
    intro step h
    rcases List.mem_append.1 h with h | h
    · exact mentions_nameFault d s step h
    · rcases List.mem_cons.1 h with rfl | h
      · exact ⟨hds d List.mem_cons_self, hss s List.mem_cons_self⟩
      · exact ih (fun p hp => hds p (List.mem_cons_of_mem d hp))
          (fun p hp => hss p (List.mem_cons_of_mem s hp)) step h
  | case3 i d ds a ha ih =>
    intro step h
    rcases List.mem_cons.1 h with rfl | h
    · exact ⟨hds d List.mem_cons_self, hs.args a ha⟩
    · exact ih (fun p hp => hds p (List.mem_cons_of_mem d hp)) hss step h
  | case4 i d ds ha =>
    intro step h
    rw [List.mem_singleton.1 h]
    trivial

omit hs in
private theorem mentions_extra (i : Nat) {ss : List Param} (hss : ∀ p ∈ ss, Q p) :
    ∀ step ∈ extra dest i ss, step.Mentions P Q := by
  induction ss generalizing i with
  | nil => exact fun _ h => nomatch h
  | cons s ss ih =>
    intro step h
    rw [extra] at h
    rcases List.mem_append.1 h with h | h
    · split at h
      · cases h
      · split at h
        · rename_i a ha
          rw [List.mem_singleton.1 h]
          exact ⟨hd.args a ha, hss s List.mem_cons_self⟩
        · split at h
          · cases h
          · rw [List.mem_singleton.1 h]
            trivial
    · exact ih (i + 1) (fun p hp => hss p (List.mem_cons_of_mem s hp)) step h

omit hd in
private theorem mentions_keyword {d : Param} (h : P d) : (keyword dest source d).Mentions P Q := by
  unfold keyword
  split
  · rename_i s hk
    refine ⟨h, ?_⟩
    unfold takesKeyword at hk
    rcases Option.or_eq_some_iff.1 hk with hk | ⟨-, hk⟩
    · exact findKeyword_of hs.keywordOnly hk
    · rcases Option.or_eq_some_iff.1 hk with hk | ⟨-, hk⟩
      · exact findKeyword_of (fun p hp => hs.positional p (List.mem_of_mem_drop hp)) hk
      · exact hs.kwargs s hk
  · trivial

omit hs in
private theorem mentions_extraKeyword {s : Param} (h : Q s) :
    ∀ step ∈ extraKeyword dest s, step.Mentions P Q := by
  intro step hstep
  unfold extraKeyword at hstep
  split at hstep
  · cases hstep
  · split at hstep
    · rename_i k hk
      rw [List.mem_singleton.1 hstep]
      exact ⟨hd.kwargs k hk, h⟩
    · rw [List.mem_singleton.1 hstep]
      trivial

omit hd hs in
private theorem mentions_rest {i : Nat} {missing : Wording} {d s : Option Param}
    (hd : ∀ p, d = some p → P p) (hs : ∀ p, s = some p → Q p) :
    ∀ step ∈ rest i missing d s, step.Mentions P Q := by
  intro step h
  unfold rest at h
  split at h
  · cases h
  · rw [List.mem_singleton.1 h]
    trivial
  · rename_i d s
    rw [List.mem_singleton.1 h]
    exact ⟨hd d rfl, hs s rfl⟩

/-- A step compares parameters of the two functions. -/
theorem mentions_plan : ∀ step ∈ plan dest source, step.Mentions P Q := by
  intro step h
  simp only [plan, List.mem_append] at h
  rcases h with ((((h | h) | h) | h) | h) | h
  · exact mentions_positional hs 0 hd.positional hs.positional step h
  · exact mentions_extra hd _ (fun p hp => hs.positional p (List.mem_of_mem_drop hp)) step h
  · obtain ⟨d, hk, rfl⟩ := List.mem_map.1 h
    exact mentions_keyword hs (hd.keywordOnly d hk)
  · obtain ⟨s, hk, h⟩ := List.mem_flatMap.1 h
    exact mentions_extraKeyword hd (hs.keywordOnly s hk) step h
  · exact mentions_rest hd.args hs.args step h
  · exact mentions_rest hd.kwargs hs.kwargs step h

end ParamStep

end

/-! ## Parameters of other types -/

section

variable {φ : Param → Param}

/-- The groups with every parameter changed. -/
def ParamGroups.map (φ : Param → Param) (g : ParamGroups) : ParamGroups :=
  ⟨g.positional.map φ, g.keywordOnly.map φ, g.args.map φ, g.kwargs.map φ⟩

theorem ParamGroups.ofList_map (kind : ∀ p, (φ p).kind = p.kind) (params : List Param) :
    ofList (params.map φ) = (ofList params).map φ := by
  have added : ∀ (g : ParamGroups) (p : Param), (g.map φ).add (φ p) = (g.add p).map φ := by
    intro g p
    unfold add
    rw [kind p]
    cases p.kind with
    | args => rfl
    | kwargs => rfl
    | simple =>
      have given : (g.map φ).args.isSome = g.args.isSome := Option.isSome_map
      dsimp only
      rw [given]
      split
      · simp [map]
      · simp [map]
  have folded : ∀ (ps : List Param) (g : ParamGroups),
      (ps.map φ).foldl add (g.map φ) = (ps.foldl add g).map φ := by
    intro ps
    induction ps with
    | nil => exact fun _ => rfl
    | cons p ps ih =>
      intro g
      rw [List.map_cons, List.foldl_cons, added, ih, List.foldl_cons]
  exact folded params ⟨[], [], none, none⟩

namespace ParamStep

/-- The step with the parameter of the destination changed. -/
def mapDest (φ : Param → Param) : ParamStep → ParamStep
  | compare i dest source => compare i (φ dest) source
  | fault wording values => fault wording values

private theorem findKeyword_map (name : ∀ p, (φ p).name = p.name) (params : List Param)
    (key : String) :
    findKeyword (params.map φ) key = (findKeyword params key).map φ := by
  have same : ((fun p : Param => p.name == key && !p.isPositionalOnly) ∘ φ) =
      fun p => p.name == key && !p.isPositionalOnly := by
    funext p
    simp only [Function.comp_apply, Param.isPositionalOnly, name]
  rw [findKeyword, List.find?_map, same]
  rfl

variable (name : ∀ p, (φ p).name = p.name)
include name

private theorem nameFault_map (d s : Param) :
    nameFault (φ d) s = (nameFault d s).map (mapDest φ) := by
  unfold nameFault
  rw [apply_ite (List.map (mapDest φ))]
  simp only [Param.isPositionalOnly, name]
  rfl

/-- The steps depend on the names of the parameters of the destination, not on their types. -/
theorem plan_map (dest source : ParamGroups) :
    plan (dest.map φ) source = (plan dest source).map (mapDest φ) := by
  have length : (dest.map φ).positional.length = dest.positional.length := List.length_map ..
  have keywords := findKeyword_map name dest.keywordOnly
  have first : ∀ (i : Nat) (ds ss : List Param), positional (dest.map φ) source i (ds.map φ) ss =
      (positional dest source i ds ss).map (mapDest φ) := by
    intro i ds ss
    fun_induction positional dest source i ds ss with
    | case1 i ss => simp [positional]
    | case2 i d ds s ss ih => simp [positional, ih, nameFault_map name, mapDest]
    | case3 i d ds a ha ih => simp [positional, ih, ha, mapDest]
    | case4 i d ds ha => simp [positional, ha, tooFew, length, mapDest]
  have beyond : ∀ (i : Nat) (ss : List Param),
      extra (dest.map φ) i ss = (extra dest i ss).map (mapDest φ) := by
    intro i ss
    induction ss generalizing i with
    | nil => rfl
    | cons s ss ih =>
      rw [extra, extra, ih, List.map_append]
      congr 1
      cases s.hasDefault with
      | true => rfl
      | false =>
        cases ha : dest.args with
        | some a => simp [ParamGroups.map, ha, mapDest]
        | none =>
          simp only [ParamGroups.map, ha, keywords, Option.map_none, Option.isSome_map,
            Bool.false_eq_true, if_false]
          rw [apply_ite (List.map (mapDest φ))]
          rfl
  have named : ∀ d : Param, keyword (dest.map φ) source (φ d) =
      mapDest φ (keyword dest source d) := by
    intro d
    unfold keyword takesKeyword
    rw [length, name]
    split <;> simp_all [mapDest]
  have further : ∀ s : Param, extraKeyword (dest.map φ) s =
      (extraKeyword dest s).map (mapDest φ) := by
    intro s
    unfold extraKeyword
    rw [apply_ite (List.map (mapDest φ))]
    simp only [ParamGroups.map, keywords, Option.isSome_map, List.length_map]
    congr 1
    cases dest.kwargs <;> rfl
  have remaining : ∀ (i : Nat) (missing : Wording) (d s : Option Param),
      rest i missing (d.map φ) s = (rest i missing d s).map (mapDest φ) := by
    intro i missing d s
    cases d with
    | none => rfl
    | some d => cases s <;> simp [rest, mapDest, name]
  unfold plan
  dsimp only
  simp only [List.map_append, length]
  rw [show (dest.map φ).positional = dest.positional.map φ from rfl, first, beyond,
    show (dest.map φ).args = dest.args.map φ from rfl, remaining,
    show (dest.map φ).kwargs = dest.kwargs.map φ from rfl, remaining]
  congr 3
  · congr 1
    rw [show (dest.map φ).keywordOnly = dest.keywordOnly.map φ from rfl, List.map_map, List.map_map]
    exact List.map_congr_left fun d _ => named d
  · rw [List.map_flatMap, funext further]

end ParamStep

end

/-! ## How often parameters are compared -/

namespace ParamStep

section

variable {β : Type} (f : Param → List β)

/-- What is listed for the parameter of the destination that a step compares. -/
def listed : ParamStep → List β
  | compare _ dest _ => f dest
  | fault _ _ => []

private theorem listed_nameFault (dest source : Param) :
    (nameFault dest source).flatMap (listed f) = [] := by
  unfold nameFault
  split <;> rfl

private theorem sublist_positional {dest source : ParamGroups} (i : Nat) (ds ss : List Param) :
    ((positional dest source i ds ss).flatMap (listed f)).Sublist (ds.flatMap f) := by
  fun_induction positional dest source i ds ss with
  | case1 => exact .slnil
  | case2 i d ds s ss ih =>
    rw [List.flatMap_append, listed_nameFault, List.nil_append, List.flatMap_cons, List.flatMap_cons]
    exact (List.Sublist.refl _).append ih
  | case3 i d ds a ha ih =>
    rw [List.flatMap_cons, List.flatMap_cons]
    exact (List.Sublist.refl _).append ih
  | case4 i d ds ha => exact List.nil_sublist _

/-- A parameter of the destination is compared at most once, unless it takes the remaining
arguments, and the parameters are compared in order. -/
theorem sublist_plan {dest : ParamGroups} (args : ∀ p, dest.args = some p → f p = [])
    (kwargs : ∀ p, dest.kwargs = some p → f p = []) (source : ParamGroups) :
    ((plan dest source).flatMap (listed f)).Sublist
      ((dest.positional ++ dest.keywordOnly).flatMap f) := by
  have beyond : ∀ (i : Nat) (ss : List Param), (extra dest i ss).flatMap (listed f) = [] := by
    intro i ss
    induction ss generalizing i with
    | nil => rfl
    | cons s ss ih =>
      rw [extra, List.flatMap_append, ih, List.append_nil]
      split
      · rfl
      · split
        · rename_i a ha
          rw [List.flatMap_singleton]
          exact args a ha
        · split <;> rfl
  have named : ((dest.keywordOnly.map (keyword dest source)).flatMap (listed f)).Sublist
      (dest.keywordOnly.flatMap f) := by
    induction dest.keywordOnly with
    | nil => exact .slnil
    | cons d ds ih =>
      rw [List.map_cons, List.flatMap_cons, List.flatMap_cons]
      refine List.Sublist.append ?_ ih
      unfold keyword
      split
      · exact .refl _
      · exact List.nil_sublist _
  have further : (source.keywordOnly.flatMap (extraKeyword dest)).flatMap (listed f) = [] := by
    refine List.flatMap_eq_nil_iff.2 fun step hs => ?_
    obtain ⟨s, -, hs⟩ := List.mem_flatMap.1 hs
    unfold extraKeyword at hs
    split at hs
    · cases hs
    · split at hs
      · rename_i k hk
        rw [List.mem_singleton.1 hs]
        exact kwargs k hk
      · rw [List.mem_singleton.1 hs]
        rfl
  have remaining : ∀ (i : Nat) (missing : Wording) (d s : Option Param),
      (∀ p, d = some p → f p = []) → (rest i missing d s).flatMap (listed f) = [] := by
    intro i missing d s hd
    cases d with
    | none => rfl
    | some d =>
      cases s with
      | none => rfl
      | some s =>
        rw [rest, List.flatMap_singleton]
        exact hd d rfl
  unfold plan
  simp only [List.flatMap_append, beyond, further, remaining _ _ _ _ args,
    remaining _ _ _ _ kwargs, List.append_nil]
  exact (sublist_positional f _ _ _).append named

end

end ParamStep

/-! ## A function and itself -/

/-- Each keyword is taken by one parameter. -/
structure ParamGroups.Named (g : ParamGroups) : Prop where
  distinct : (g.keywordOnly.map (·.name)).Nodup
  keyword : ∀ p ∈ g.keywordOnly, p.isPositionalOnly = false

theorem ParamGroups.Named.map {φ : Param → Param} (name : ∀ p, (φ p).name = p.name)
    {g : ParamGroups} (h : g.Named) : (g.map φ).Named := by
  refine ⟨?_, fun p hp => ?_⟩
  · have same : ((fun p : Param => p.name) ∘ φ) = fun p => p.name := funext name
    rw [ParamGroups.map, List.map_map, same]
    exact h.distinct
  · obtain ⟨q, hq, rfl⟩ := List.mem_map.1 hp
    rw [Param.isPositionalOnly, name]
    exact h.keyword q hq

/-- The parameters of two functions correspond place by place. -/
structure ParamGroups.Matched (R : Param → Param → Prop) (g g' : ParamGroups) : Prop where
  positional : List.Forall₂ R g.positional g'.positional
  keywordOnly : List.Forall₂ R g.keywordOnly g'.keywordOnly
  args : Option.Rel R g.args g'.args
  kwargs : Option.Rel R g.kwargs g'.kwargs

namespace ParamGroups.Matched

variable {R : Param → Param → Prop} {g g' : ParamGroups}

theorem refl (g : ParamGroups) : g.Matched Eq g := by
  have option (p : Option Param) : Option.Rel Eq p p := by
    cases p with
    | none => exact .none
    | some p => exact .some rfl
  exact ⟨List.forall₂_refl _, List.forall₂_refl _, option _, option _⟩

theorem add (h : g.Matched R g') {p q : Param} (kind : p.kind = q.kind) (here : R p q) :
    (g.add p).Matched R (g'.add q) := by
  have given : g'.args.isSome = g.args.isSome := by
    have args := h.args
    generalize g.args = a, g'.args = b at args
    cases args <;> rfl
  unfold ParamGroups.add
  rw [← kind, given]
  split
  · exact ⟨h.positional, h.keywordOnly, .some here, h.kwargs⟩
  · exact ⟨h.positional, h.keywordOnly, h.args, .some here⟩
  · split
    · exact ⟨h.positional, List.rel_append h.keywordOnly (.cons here .nil), h.args, h.kwargs⟩
    · exact ⟨List.rel_append h.positional (.cons here .nil), h.keywordOnly, h.args, h.kwargs⟩

/-- Parameter lists that correspond place by place in kind and otherwise are grouped alike. -/
theorem ofList {ps qs : List Param} (h : List.Forall₂ (fun p q => p.kind = q.kind ∧ R p q) ps qs) :
    (ParamGroups.ofList ps).Matched R (ParamGroups.ofList qs) := by
  have empty : ParamGroups.Matched R ⟨[], [], none, none⟩ ⟨[], [], none, none⟩ :=
    ⟨.nil, .nil, .none, .none⟩
  exact List.rel_foldl (fun _ _ hg _ _ here => hg.add here.1 here.2) empty h

end ParamGroups.Matched

namespace ParamStep

private theorem exists_matched {R : Param → Param → Prop} {ds ss : List Param}
    (h : List.Forall₂ R ds ss)
    {s : Param} (hs : s ∈ ss) : ∃ d ∈ ds, R d s := by
  induction h with
  | nil => cases hs
  | @cons d _ ds _ here _ ih =>
    rcases List.mem_cons.1 hs with rfl | hs
    · exact ⟨d, List.mem_cons_self, here⟩
    · obtain ⟨e, he, related⟩ := ih hs
      exact ⟨e, List.mem_cons_of_mem d he, related⟩

private theorem findKeyword_matched {R : Param → Param → Prop} {ds ss : List Param}
    (h : List.Forall₂ R ds ss) (name : ∀ p q, R p q → p.name = q.name)
    (distinct : (ds.map (·.name)).Nodup) (keyword : ∀ p ∈ ds, p.isPositionalOnly = false)
    {d : Param} (hd : d ∈ ds) : ∃ s, findKeyword ss d.name = some s ∧ R d s := by
  unfold findKeyword
  induction h with
  | nil => cases hd
  | @cons p q ds ss here _ ih =>
    rw [List.map_cons, List.nodup_cons] at distinct
    rw [List.forall_mem_cons] at keyword
    have same := name p q here
    rw [List.find?_cons]
    rcases List.mem_cons.1 hd with rfl | hd
    · have open_q : q.isPositionalOnly = false := by
        rw [← keyword.1, Param.isPositionalOnly, Param.isPositionalOnly, same]
      exact ⟨q, by simp [open_q, same], here⟩
    · have other : q.name ≠ d.name := fun eq =>
        distinct.1 (same.trans eq ▸ List.mem_map_of_mem hd)
      simp only [beq_eq_false_iff_ne.2 other, Bool.false_and]
      exact ih distinct.2 keyword.2 hd

private theorem findKeyword_self {ps : List Param} (distinct : (ps.map (·.name)).Nodup)
    (keyword : ∀ p ∈ ps, p.isPositionalOnly = false) {d : Param} (hd : d ∈ ps) :
    findKeyword ps d.name = some d := by
  obtain ⟨_, found, rfl⟩ := findKeyword_matched (List.forall₂_refl ps : List.Forall₂ Eq ps ps)
    (fun _ _ => congrArg Param.name) distinct keyword hd
  exact found

/-- Where the parameters correspond, each is compared with the one that it corresponds to. -/
theorem plan_matched {R : Param → Param → Prop} {dest source : ParamGroups}
    (h : dest.Matched R source) (name : ∀ p q, R p q → p.name = q.name) (named : dest.Named) :
    ∀ step ∈ plan dest source, ∃ i p q, step = compare i p q ∧ R p q := by
  have first : ∀ (i : Nat) {ds ss : List Param}, List.Forall₂ R ds ss →
      ∀ step ∈ positional dest source i ds ss, ∃ i p q, step = compare i p q ∧ R p q := by
    intro i ds ss both
    induction both generalizing i with
    | nil => exact fun _ h => nomatch h
    | @cons d s ds ss here _ ih =>
      intro step hs
      have same : nameFault d s = [] := by simp [nameFault, name d s here]
      rw [positional, same, List.nil_append] at hs
      rcases List.mem_cons.1 hs with rfl | hs
      · exact ⟨i, d, s, rfl, here⟩
      · exact ih (i + 1) step hs
  have remaining : ∀ (i : Nat) (missing : Wording) {d s : Option Param}, Option.Rel R d s →
      ∀ step ∈ rest i missing d s, ∃ i p q, step = compare i p q ∧ R p q := by
    intro i missing d s both step hs
    cases both with
    | none => cases hs
    | some here => exact ⟨i, _, _, List.mem_singleton.1 hs, here⟩
  intro step hs
  simp only [plan, List.mem_append, h.positional.length_eq, List.drop_length] at hs
  rcases hs with ((((hs | hs) | hs) | hs) | hs) | hs
  · exact first 0 h.positional step hs
  · cases hs
  · obtain ⟨d, hd, rfl⟩ := List.mem_map.1 hs
    obtain ⟨s, found, here⟩ := findKeyword_matched h.keywordOnly name named.distinct named.keyword hd
    refine ⟨dest.positional.length, d, s, ?_, here⟩
    rw [keyword, takesKeyword, found]
    rfl
  · obtain ⟨s, hs', hs⟩ := List.mem_flatMap.1 hs
    obtain ⟨d, hd, here⟩ := exists_matched h.keywordOnly hs'
    have found := findKeyword_self named.distinct named.keyword hd
    rw [extraKeyword, ← name d s here, found, Option.isSome_some, Bool.or_true, if_pos rfl] at hs
    cases hs
  · exact remaining _ _ h.args step hs
  · exact remaining _ _ h.kwargs step hs

/-- Compared with itself, a function has each of its parameters compared with itself. -/
theorem plan_self {g : ParamGroups} (h : g.Named) :
    ∀ step ∈ plan g g, ∃ i p, step = compare i p p := by
  intro step hs
  obtain ⟨i, p, _, rfl, rfl⟩ := plan_matched (.refl g) (fun _ _ => congrArg Param.name) h step hs
  exact ⟨i, p, rfl⟩

end ParamStep

end Conformance
