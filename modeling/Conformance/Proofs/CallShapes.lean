import Conformance.Proofs.ParamPlan
import Conformance.Proofs.Sample

/-!
# Calls of an accepted function

A call passes so many arguments by position and others under keywords. If one function is accepted
where another one is declared, then the calls that the declared one takes are taken by the accepted
one as well, but for a few kinds of calls. Those are told exactly: defaults of the declared function
are not compared, what its `*args` and `**kwargs` stand for counts as passed, and a keyword is not
looked for among the parameters that are filled by position.
-/

namespace Conformance

open Check

/-! ## Plans without a fault -/

namespace ParamStep

/-- The step is a comparison. -/
def IsComparison : ParamStep → Prop
  | compare _ _ _ => True
  | fault _ _ => False

end ParamStep

/-- What two parameter lists have to do with each other if no step of their plan is a fault. -/
structure ParamGroups.Fit (dest source : ParamGroups) : Prop where
  named : ∀ {i : Nat} {d s : Param}, dest.positional[i]? = some d → source.positional[i]? = some s →
    d.isPositionalOnly = false → s.isPositionalOnly = false → d.name = s.name
  enough : dest.positional.length ≤ source.positional.length ∨ source.args.isSome
  extra : ∀ s ∈ source.positional.drop dest.positional.length, s.hasDefault = true ∨
    dest.args.isSome ∨ (findKeyword dest.keywordOnly s.name).isSome
  keyword : ∀ d ∈ dest.keywordOnly, (ParamStep.takesKeyword dest source d.name).isSome
  extraKeyword : ∀ s ∈ source.keywordOnly, s.hasDefault = true ∨
    (findKeyword dest.keywordOnly s.name).isSome ∨ dest.kwargs.isSome
  args : dest.args.isSome → source.args.isSome
  kwargs : dest.kwargs.isSome → source.kwargs.isSome

namespace ParamStep

variable {dest source : ParamGroups}

private theorem named_of_positional {i : Nat} {ds ss : List Param}
    (h : ∀ step ∈ positional dest source i ds ss, step.IsComparison) {k : Nat} {d s : Param}
    (hd : ds[k]? = some d) (hs : ss[k]? = some s) (openDest : d.isPositionalOnly = false)
    (openSource : s.isPositionalOnly = false) : d.name = s.name := by
  induction ds generalizing i ss k with
  | nil => simp at hd
  | cons d' ds ih =>
    cases ss with
    | nil => simp at hs
    | cons s' ss =>
      rw [positional, List.forall_mem_append, List.forall_mem_cons] at h
      cases k with
      | succ k => exact ih h.2.2 hd hs
      | zero =>
        cases hd
        cases hs
        by_contra different
        have fault : nameFault d s ≠ [] := by
          simp [nameFault, openDest, openSource, different]
        unfold nameFault at h fault
        split at h
        · exact h.1 _ List.mem_cons_self
        · rename_i none
          rw [if_neg none] at fault
          exact fault rfl

private theorem enough_of_positional {i : Nat} {ds ss : List Param}
    (h : ∀ step ∈ positional dest source i ds ss, step.IsComparison) :
    ds.length ≤ ss.length ∨ source.args.isSome := by
  fun_induction positional dest source i ds ss with
  | case1 => exact .inl (Nat.zero_le _)
  | case2 i d ds s ss ih =>
    rw [List.forall_mem_append, List.forall_mem_cons] at h
    rcases ih h.2.2 with short | given
    · exact .inl (Nat.succ_le_succ short)
    · exact .inr given
  | case3 i d ds a ha ih => exact .inr (by rw [ha]; rfl)
  | case4 i d ds ha => exact (h _ List.mem_cons_self).elim

private theorem optional_of_extra {i : Nat} {ss : List Param}
    (h : ∀ step ∈ extra dest i ss, step.IsComparison) :
    ∀ s ∈ ss, s.hasDefault = true ∨ dest.args.isSome ∨
      (findKeyword dest.keywordOnly s.name).isSome := by
  induction ss generalizing i with
  | nil => exact fun _ h => nomatch h
  | cons s ss ih =>
    rw [extra, List.forall_mem_append] at h
    refine List.forall_mem_cons.2 ⟨?_, ih h.2⟩
    have first := h.1
    split at first
    · exact .inl ‹_›
    · split at first
      · rename_i a ha
        exact .inr (.inl (by rw [ha]; rfl))
      · split at first
        · rename_i named
          rw [Bool.and_eq_true] at named
          exact .inr (.inr named.2)
        · exact (first _ List.mem_cons_self).elim

private theorem taken_of_keyword {d : Param} (h : (keyword dest source d).IsComparison) :
    (takesKeyword dest source d.name).isSome := by
  unfold keyword at h
  split at h
  · rename_i s hs
    rw [hs]
    rfl
  · exact h.elim

private theorem optional_of_extraKeyword {s : Param}
    (h : ∀ step ∈ extraKeyword dest s, step.IsComparison) :
    s.hasDefault = true ∨ (findKeyword dest.keywordOnly s.name).isSome ∨ dest.kwargs.isSome := by
  unfold extraKeyword at h
  split at h
  · rename_i optional
    rcases Bool.or_eq_true_iff.1 optional with default | named
    · exact .inl default
    · exact .inr (.inl named)
  · split at h
    · rename_i k hk
      exact .inr (.inr (by rw [hk]; rfl))
    · exact (h _ List.mem_cons_self).elim

private theorem given_of_rest {i : Nat} {missing : Wording} {d s : Option Param}
    (h : ∀ step ∈ rest i missing d s, step.IsComparison) : d.isSome → s.isSome := by
  intro given
  cases d with
  | none => cases given
  | some d =>
    cases s with
    | none => exact (h _ List.mem_cons_self).elim
    | some s => rfl

private theorem fit_of_plan (h : ∀ step ∈ plan dest source, step.IsComparison) :
    dest.Fit source := by
  simp only [plan, List.forall_mem_append] at h
  obtain ⟨⟨⟨⟨⟨first, beyond⟩, named⟩, further⟩, args⟩, kwargs⟩ := h
  exact
    { named := fun hd hs openDest openSource => named_of_positional first hd hs openDest openSource
      enough := enough_of_positional first
      extra := optional_of_extra beyond
      keyword := fun d hd => taken_of_keyword (named _ (List.mem_map_of_mem hd))
      extraKeyword := fun s hs =>
        optional_of_extraKeyword fun step hm => further step (List.mem_flatMap.2 ⟨s, hs, hm⟩)
      args := given_of_rest args
      kwargs := given_of_rest kwargs }

end ParamStep

private theorem Check.each_of_allOf {α : Type} {f : α → Check Bool} {as : List α} {s t : CheckState}
    (h : exec (allOf f as) s = (.ok true, t)) :
    ∀ a ∈ as, ∃ u v, exec (f a) u = (.ok true, v) := by
  induction as generalizing s t with
  | nil => exact fun _ ha => nomatch ha
  | cons a as ih =>
    rw [allOf, exec_bind_eq_ok] at h
    obtain ⟨b, u, first, h⟩ := h
    rw [exec_bind_eq_ok] at h
    obtain ⟨c, v, others, h⟩ := h
    have both : (b && c) = true := Except.ok.inj (congrArg Prod.fst h)
    obtain ⟨rfl, rfl⟩ := Bool.and_eq_true_iff.1 both
    exact List.forall_mem_cons.2 ⟨⟨s, u, first⟩, ih others⟩

private theorem ParamStep.isComparison_of_run {w : World} {j : Judge} {mode : Mode}
    {step : ParamStep}
    {s t : CheckState} (h : exec (step.run w j mode) s = (.ok true, t)) : step.IsComparison := by
  cases step with
  | compare => trivial
  | fault wording values =>
    obtain ⟨notes, told⟩ := exec_tell wording (fun _ => values) s
    rw [run, refuse, exec_bind_of_ok told] at h
    cases h

private theorem fit_of_assignFunction {w : World} {j : Judge} {mode : Mode}
    {dest source : FunctionTy}
    {s t : CheckState} (h : exec (assignFunction w j mode dest source) s = (.ok true, t)) :
    (ParamGroups.ofList dest.params).Fit (.ofList source.params) := by
  simp only [assignFunction, exec_bind_eq_ok] at h
  obtain ⟨_, _, -, _, _, -, params, u, compared, inf, _, -, ret, v, -, h⟩ := h
  have both : (params && ret) = true := Except.ok.inj (congrArg Prod.fst h)
  obtain ⟨rfl, -⟩ := Bool.and_eq_true_iff.1 both
  refine ParamStep.fit_of_plan fun step hs => ?_
  obtain ⟨_, _, ran⟩ := each_of_allOf compared step hs
  exact ParamStep.isComparison_of_run ran

/-! ## Signatures and calls -/

/-- The parameters of a function in order: positional ones, the one that takes the remaining
positional arguments with the keyword-only ones behind it, and the one that takes the remaining
keywords. All have distinct names. -/
structure Signature where
  positional : List Param
  rest : Option (Param × List Param)
  keywords : Option Param
  simple : ∀ p ∈ positional, p.kind = .simple
  args : ∀ r ∈ rest, r.1.kind = .args ∧ ∀ p ∈ r.2, p.kind = .simple
  kwargs : ∀ p ∈ keywords, p.kind = .kwargs
  distinct : ((positional ++ (rest.toList.flatMap fun r => r.1 :: r.2) ++ keywords.toList).map
    (·.name)).Nodup

/-- The arguments of a call: so many by position, and others under keywords. -/
structure CallShape where
  positional : Nat
  keywords : List String

namespace Signature

variable (sig dest source : Signature)

def params : List Param :=
  sig.positional ++ (sig.rest.toList.flatMap fun r => r.1 :: r.2) ++ sig.keywords.toList

def keywordOnly : List Param := sig.rest.toList.flatMap (·.2)

def groups : ParamGroups := ⟨sig.positional, sig.keywordOnly, sig.rest.map (·.1), sig.keywords⟩

def left (n : Nat) : List Param := sig.positional.drop n ++ sig.keywordOnly

end Signature

def Param.Answers (p : Param) (key : String) : Prop := p.isPositionalOnly = false ∧ p.name = key

instance (p : Param) (key : String) : Decidable (p.Answers key) :=
  inferInstanceAs (Decidable (_ ∧ _))

def Param.Given (keywords : List String) (p : Param) : Prop :=
  p.hasDefault = true ∨ p.isPositionalOnly = false ∧ p.name ∈ keywords

instance (keywords : List String) (p : Param) : Decidable (p.Given keywords) :=
  inferInstanceAs (Decidable (_ ∨ _))

namespace Signature

/-- A keyword is taken by a parameter that is left, or else among the remaining keywords, unless its
parameter was filled by position. -/
def Takes (sig : Signature) (n : Nat) (key : String) : Prop :=
  (∃ p ∈ sig.left n, p.Answers key) ∨ sig.keywords.isSome ∧ ∀ p ∈ sig.left 0, ¬ p.Answers key

instance (sig : Signature) (n : Nat) (key : String) : Decidable (sig.Takes n key) :=
  inferInstanceAs (Decidable (_ ∨ _ ∧ _))

/-- The parameters take every argument of the call, and none is left without one. -/
structure Accepts (sig : Signature) (call : CallShape) : Prop where
  positional : call.positional ≤ sig.positional.length ∨ sig.rest.isSome
  keywords : ∀ key ∈ call.keywords, sig.Takes call.positional key
  required : ∀ p ∈ sig.left call.positional, p.Given call.keywords

instance (sig : Signature) (call : CallShape) : Decidable (sig.Accepts call) :=
  decidable_of_iff
    ((call.positional ≤ sig.positional.length ∨ sig.rest.isSome) ∧
      (∀ key ∈ call.keywords, sig.Takes call.positional key) ∧
      ∀ p ∈ sig.left call.positional, p.Given call.keywords)
    ⟨fun ⟨h, k, r⟩ => ⟨h, k, r⟩, fun h => ⟨h.positional, h.keywords, h.required⟩⟩

/-- The calls that one signature accepts and another one, which was found to fit, does not. -/
inductive Lost (dest source : Signature) (call : CallShape) : Prop
  /-- A positional parameter with a default is left out, and the one at its place has to be
  given. -/
  | omitted {i : Nat} {d s : Param} (hd : dest.positional[i]? = some d)
      (hs : source.positional[i]? = some s) (behind : call.positional ≤ i)
      (optional : d.hasDefault = true) (missing : ¬ s.Given call.keywords)
  /-- A keyword-only parameter with a default is left out, and the one of its name has to be
  given. -/
  | omittedKeyword {d s : Param} (hd : d ∈ dest.keywordOnly) (hs : s ∈ source.keywordOnly)
      (same : d.name = s.name) (optional : d.hasDefault = true) (missing : ¬ s.Given call.keywords)
  /-- A positional parameter is passed under its keyword, and the source, which takes it by position
  only, misses it or does not know the keyword. -/
  | byKeyword {i : Nat} {d : Param} (hd : dest.positional[i]? = some d)
      (behind : call.positional ≤ i)
      (passed : d.isPositionalOnly = false ∧ d.name ∈ call.keywords)
      (place : ∀ s, source.positional[i]? = some s → s.isPositionalOnly = true)
      (refused : (∃ s, source.positional[i]? = some s ∧ ¬ s.Given call.keywords) ∨
        ¬ source.Takes call.positional d.name)
  /-- A positional parameter that the remaining arguments of the destination stand for is
  missing. -/
  | absorbed {s : Param} (rest : dest.rest.isSome)
      (hs : s ∈ source.positional.drop (max call.positional dest.positional.length))
      (missing : ¬ s.Given call.keywords)
  /-- A keyword-only parameter that the remaining keywords of the destination stand for is
  missing. -/
  | absorbedKeyword {s : Param} (keywords : dest.keywords.isSome) (hs : s ∈ source.keywordOnly)
      (missing : ¬ s.Given call.keywords)
  /-- A parameter that is filled by position is passed under its keyword too. -/
  | twice {p : Param} (hp : p ∈ source.positional.take call.positional)
      (passed : p.isPositionalOnly = false ∧ p.name ∈ call.keywords)

variable {sig dest source : Signature} {call : CallShape}

private theorem foldl_add_simple {ps : List Param} (simple : ∀ p ∈ ps, p.kind = .simple)
    (g : ParamGroups) : ps.foldl ParamGroups.add g =
      if g.args.isSome then { g with keywordOnly := g.keywordOnly ++ ps }
      else { g with positional := g.positional ++ ps } := by
  induction ps generalizing g with
  | nil => simp
  | cons p ps ih =>
    rw [List.forall_mem_cons] at simple
    rw [List.foldl_cons, ih simple.2, ParamGroups.add, simple.1]
    by_cases given : g.args.isSome <;> simp [given]

private theorem ofList_params (sig : Signature) : ParamGroups.ofList sig.params = sig.groups := by
  obtain ⟨positional, rest, keywords, simple, args, kwargs, distinct⟩ := sig
  have first : (positional.foldl ParamGroups.add ⟨[], [], none, none⟩) =
      ⟨positional, [], none, none⟩ := foldl_add_simple simple _
  unfold params groups keywordOnly ParamGroups.ofList
  dsimp only
  rw [List.foldl_append, List.foldl_append, first]
  have second : (rest.toList.flatMap fun r => r.1 :: r.2).foldl ParamGroups.add
        ⟨positional, [], none, none⟩ =
      ⟨positional, rest.toList.flatMap (·.2), rest.map (·.1), none⟩ := by
    cases rest with
    | none => rfl
    | some r =>
      obtain ⟨star, behind⟩ := args r rfl
      simp [ParamGroups.add, star, foldl_add_simple behind]
  rw [second]
  cases keywords with
  | none => rfl
  | some k => simp [ParamGroups.add, kwargs k rfl]

private theorem answers_of_findKeyword {ps : List Param} {key : String}
    (h : (findKeyword ps key).isSome) : ∃ p ∈ ps, p.Answers key := by
  obtain ⟨p, hp⟩ := Option.isSome_iff_exists.1 h
  have found := List.find?_some hp
  rw [Bool.and_eq_true, beq_iff_eq, Bool.not_eq_true'] at found
  exact ⟨p, List.mem_of_find?_eq_some hp, found.2, found.1⟩

private theorem rest_isSome_of_mem {p : Param} (h : p ∈ sig.keywordOnly) : sig.rest.isSome := by
  unfold keywordOnly at h
  cases hr : sig.rest with
  | none =>
    rw [hr] at h
    cases h
  | some r => rfl

private theorem mem_drop_of_getElem? {ps : List Param} {i n : Nat} {p : Param} (h : ps[i]? = some p)
    (behind : n ≤ i) : p ∈ ps.drop n := by
  refine List.mem_of_getElem? (i := i - n) ?_
  rw [List.getElem?_drop, Nat.add_sub_cancel' behind]
  exact h

private theorem getElem?_of_mem_drop {ps : List Param} {n : Nat} {p : Param} (h : p ∈ ps.drop n) :
    ∃ i, n ≤ i ∧ ps[i]? = some p := by
  obtain ⟨i, hi⟩ := List.getElem?_of_mem h
  rw [List.getElem?_drop] at hi
  exact ⟨n + i, Nat.le_add_right n i, hi⟩

private theorem mem_left_of_getElem? {i n : Nat} {p : Param} (h : sig.positional[i]? = some p)
    (behind : n ≤ i) : p ∈ sig.left n :=
  List.mem_append_left _ (mem_drop_of_getElem? h behind)

private theorem name_ne_of_left {n : Nat} {p q : Param} (hp : p ∈ sig.positional.take n)
    (hq : q ∈ sig.left n) : p.name ≠ q.name := by
  have keywordOnly : sig.keywordOnly.Sublist (sig.rest.toList.flatMap fun r => r.1 :: r.2) := by
    unfold Signature.keywordOnly
    cases sig.rest with
    | none => exact .slnil
    | some r => simp
  have sub : (sig.positional.take n ++ sig.left n).Sublist sig.params := by
    rw [left, ← List.append_assoc, List.take_append_drop]
    exact ((List.Sublist.refl _).append keywordOnly).trans (List.sublist_append_left _ _)
  have distinct := sig.distinct.sublist (sub.map (·.name))
  rw [List.map_append, List.nodup_append] at distinct
  exact distinct.2.2 _ (List.mem_map_of_mem hp) _ (List.mem_map_of_mem hq)

section

variable (fit : dest.groups.Fit source.groups) (accepts : dest.Accepts call)
include fit accepts

private theorem positional_of_fit :
    call.positional ≤ source.positional.length ∨ source.rest.isSome := by
  have args : dest.rest.isSome → source.rest.isSome := by simpa [groups] using fit.args
  have enough : dest.positional.length ≤ source.positional.length ∨ source.rest.isSome := by
    simpa [groups] using fit.enough
  rcases accepts.positional with few | rest
  · rcases enough with enough | rest
    · exact .inl (Nat.le_trans few enough)
    · exact .inr rest
  · exact .inr (args rest)

private theorem lost_of_positional {s : Param} (hs : s ∈ source.positional.drop call.positional)
    (missing : ¬ s.Given call.keywords) : dest.Lost source call := by
  obtain ⟨i, behind, place⟩ := getElem?_of_mem_drop hs
  cases hd : dest.positional[i]? with
  | some d =>
    rcases accepts.required d (mem_left_of_getElem? hd behind) with optional | passed
    · exact .omitted hd place behind optional missing
    · refine .byKeyword hd behind passed (fun s' hs' => ?_) (.inl ⟨s, place, missing⟩)
      cases hs'.symm.trans place
      by_contra closed
      rw [Bool.not_eq_true] at closed
      have same : d.name = s.name := fit.named hd place passed.1 closed
      exact missing (.inr ⟨closed, same ▸ passed.2⟩)
  | none =>
    have beyond : dest.positional.length ≤ i := List.getElem?_eq_none_iff.1 hd
    have far : s ∈ source.positional.drop (max call.positional dest.positional.length) :=
      mem_drop_of_getElem? place (Nat.max_le.2 ⟨behind, beyond⟩)
    have nearer : s ∈ source.positional.drop dest.positional.length :=
      mem_drop_of_getElem? place beyond
    rcases fit.extra s nearer with optional | rest | named
    · exact absurd (.inl optional) missing
    · exact .absorbed (by simpa [groups] using rest) far missing
    · obtain ⟨d, hd, -⟩ := answers_of_findKeyword named
      exact .absorbed (rest_isSome_of_mem hd) far missing

private theorem lost_of_keywordOnly {s : Param} (hs : s ∈ source.keywordOnly)
    (missing : ¬ s.Given call.keywords) : dest.Lost source call := by
  rcases fit.extraKeyword s hs with optional | named | keywords
  · exact absurd (.inl optional) missing
  · obtain ⟨d, hd, -, same⟩ := answers_of_findKeyword named
    rcases accepts.required d (List.mem_append_right _ hd) with optional | passed
    · exact .omittedKeyword hd hs same optional missing
    · have closed : s.isPositionalOnly = false := by
        rw [Param.isPositionalOnly, ← same]
        exact passed.1
      exact absurd (.inr ⟨closed, same ▸ passed.2⟩) missing
  · exact .absorbedKeyword keywords hs missing

private theorem lost_of_keyword {key : String} (hk : key ∈ call.keywords)
    (refused : ¬ source.Takes call.positional key) : dest.Lost source call := by
  by_cases filled : ∃ p ∈ source.positional.take call.positional, p.Answers key
  · obtain ⟨p, hp, answers⟩ := filled
    exact .twice hp ⟨answers.1, answers.2 ▸ hk⟩
  have left : ∀ p ∈ source.left call.positional, ¬ p.Answers key :=
    fun p hp answers => refused (.inl ⟨p, hp, answers⟩)
  have positional : ∀ p ∈ source.positional, ¬ p.Answers key := by
    intro p hp answers
    rw [← List.take_append_drop call.positional source.positional] at hp
    rcases List.mem_append.1 hp with hp | hp
    · exact filled ⟨p, hp, answers⟩
    · exact left p (List.mem_append_left _ hp) answers
  have keywordOnly : ∀ p ∈ source.keywordOnly, ¬ p.Answers key :=
    fun p hp => left p (List.mem_append_right _ hp)
  have none_left : source.keywords.isSome → False := by
    refine fun keywords => refused (.inr ⟨keywords, fun p hp => ?_⟩)
    rcases List.mem_append.1 hp with hp | hp
    · exact positional p hp
    · exact keywordOnly p hp
  rcases accepts.keywords key hk with ⟨d, hd, answers⟩ | ⟨keywords, -⟩
  · obtain ⟨closed, rfl⟩ := answers
    rcases List.mem_append.1 hd with hd | hd
    · obtain ⟨i, behind, place⟩ := getElem?_of_mem_drop hd
      refine .byKeyword place behind ⟨closed, hk⟩ (fun s hs => ?_) (.inr refused)
      by_contra other
      rw [Bool.not_eq_true] at other
      exact left s (mem_left_of_getElem? hs behind) ⟨other, (fit.named place hs closed other).symm⟩
    · have taken := fit.keyword d hd
      rw [ParamStep.takesKeyword, Option.isSome_or, Option.isSome_or, Bool.or_eq_true,
        Bool.or_eq_true] at taken
      rcases taken with named | named | keywords
      · obtain ⟨s, hs, answers⟩ := answers_of_findKeyword named
        exact absurd answers (keywordOnly s hs)
      · obtain ⟨s, hs, answers⟩ := answers_of_findKeyword named
        exact absurd answers (positional s (List.mem_of_mem_drop hs))
      · exact (none_left keywords).elim
  · exact (none_left (fit.kwargs keywords)).elim

private theorem accepts_of_not_lost (kept : ¬ dest.Lost source call) : source.Accepts call := by
  refine ⟨positional_of_fit fit accepts, fun key hk => ?_, fun p hp => ?_⟩
  · by_contra refused
    exact kept (lost_of_keyword fit accepts hk refused)
  · by_contra missing
    rcases List.mem_append.1 hp with hp | hp
    · exact kept (lost_of_positional fit accepts hp missing)
    · exact kept (lost_of_keywordOnly fit accepts hp missing)

end

private theorem not_accepts_of_lost (lost : dest.Lost source call) : ¬ source.Accepts call := by
  intro accepts
  cases lost with
  | omitted _ hs behind _ missing =>
    exact missing (accepts.required _ (mem_left_of_getElem? hs behind))
  | omittedKeyword _ hs _ _ missing =>
    exact missing (accepts.required _ (List.mem_append_right _ hs))
  | byKeyword _ behind passed _ refused =>
    rcases refused with ⟨s, hs, missing⟩ | refused
    · exact missing (accepts.required s (mem_left_of_getElem? hs behind))
    · exact refused (accepts.keywords _ passed.2)
  | absorbed _ hs missing =>
    obtain ⟨i, beyond, place⟩ := getElem?_of_mem_drop hs
    have behind : call.positional ≤ i := Nat.le_trans (Nat.le_max_left ..) beyond
    exact missing (accepts.required _ (mem_left_of_getElem? place behind))
  | absorbedKeyword _ hs missing =>
    exact missing (accepts.required _ (List.mem_append_right _ hs))
  | @twice p hp passed =>
    rcases accepts.keywords _ passed.2 with ⟨q, hq, answers⟩ | ⟨-, none⟩
    · exact name_ne_of_left hp hq answers.2.symm
    · exact none p (List.mem_append_left _ (List.mem_of_mem_take hp)) ⟨passed.1, rfl⟩

end Signature

/-- If a function is accepted where another one is declared, then of the calls that the declared one
takes it takes all but the lost ones: those that leave out what is optional for the declared function
alone, or what its remaining arguments stand for, and those with a keyword for a parameter that the
accepted function takes by position. -/
theorem accepted_function_takes_calls {w : World} {j : Judge} {mode : Mode}
    {dest source : FunctionTy} {s t : CheckState} {declared given : Signature}
    (hd : dest.params = declared.params) (hs : source.params = given.params)
    (accepted : exec (assignFunction w j mode dest source) s = (.ok true, t)) {call : CallShape}
    (taken : declared.Accepts call) : given.Accepts call ↔ ¬ declared.Lost given call := by
  have fit := fit_of_assignFunction accepted
  rw [hd, hs, Signature.ofList_params, Signature.ofList_params] at fit
  constructor
  · intro accepts lost
    exact Signature.not_accepts_of_lost lost accepts
  · exact Signature.accepts_of_not_lost fit taken

namespace Sample

def required (name : String) : Param := ⟨.simple, name, some .any, false⟩

def optional (name : String) : Param := { required name with hasDefault := true }

/-- The parameter that takes the remaining positional arguments, with keyword-only ones behind
it. -/
def starred (keywordOnly : List Param) : Option (Param × List Param) :=
  some ({ required "args" with kind := .args }, keywordOnly)

def doubleStarred : Option Param := some { required "kwargs" with kind := .kwargs }

def functionOf (sig : Signature) : FunctionTy :=
  ⟨"f", sig.params, .declared .any, .staticMethod, ""⟩

/-- The second function is accepted where the first one is declared. -/
def accepts (declared given : Signature) : Bool :=
  (exec (assignFunction (ofDecls []) (judgeAt (ofDecls []) 0) .default (functionOf declared)
    (functionOf given)) ⟨.start, #[], [], [], none, none, []⟩).1.toOption == some true

/-- A function that is declared, one that is accepted for it, and a call. -/
structure LostCall where
  declared : Signature
  given : Signature
  call : CallShape

/-- The function is accepted, and refuses a call that the declared one takes. -/
def LostCall.isLost (lost : LostCall) : Bool :=
  accepts lost.declared lost.given && lost.declared.Accepts lost.call &&
    !lost.given.Accepts lost.call

def ofOne (p : Param) (h : p.kind = .simple) : Signature :=
  ⟨[p], none, none, by simpa using h, by simp, by simp, by simp⟩

/-- One call for each way to be lost. -/
def lostCalls : List LostCall :=
  let x : Signature := ofOne (required "x") rfl
  let stars : Signature := ⟨[], starred [], none, by decide, by decide, by decide, by decide⟩
  let allStars : Signature :=
    ⟨[], starred [], doubleStarred, by decide, by decide, by decide, by decide⟩
  let key (p : Param) (h : p.kind = .simple ∧ p.name ≠ "args") : Signature :=
    ⟨[], starred [p], none, by decide, by simp [starred, required, h.1], by simp,
      by simpa [starred, required] using h.2.symm⟩
  let firstKey : Signature :=
    ⟨[required "k"], starred [], none, by decide, by decide, by decide, by decide⟩
  let starredKey : Signature :=
    ⟨[], starred [required "k"], doubleStarred, by decide, by decide, by decide, by decide⟩
  [⟨ofOne (optional "x") rfl, x, ⟨0, []⟩⟩,
    ⟨key (optional "k") ⟨rfl, by decide⟩, key (required "k") ⟨rfl, by decide⟩, ⟨0, []⟩⟩,
    ⟨x, ofOne (required "__x") rfl, ⟨0, ["x"]⟩⟩,
    ⟨x, stars, ⟨0, ["x"]⟩⟩,
    ⟨stars, firstKey, ⟨0, []⟩⟩,
    ⟨allStars, starredKey, ⟨0, []⟩⟩,
    ⟨key (required "k") ⟨rfl, by decide⟩, firstKey, ⟨1, ["k"]⟩⟩]

/-- A function with parameters of all kinds. -/
def allKinds : Signature :=
  ⟨[required "x", optional "y"], starred [required "k"], doubleStarred, by decide, by decide,
    by decide, by decide⟩

/-- A function that asks for less. -/
def fewerKinds : Signature :=
  ⟨[required "x"], starred [required "k"], none, by decide, by decide, by decide, by decide⟩

end Sample

/-- Accepted functions may refuse calls that the declared ones take. -/
theorem calls_lost : Sample.lostCalls.all Sample.LostCall.isLost = true := by
  decide +kernel

/-- A call by position and by keyword that is not lost. -/
theorem call_of_all_kinds :
    Sample.accepts Sample.fewerKinds Sample.allKinds = true ∧
      Sample.fewerKinds.Accepts ⟨2, ["k"]⟩ ∧
      ¬ Sample.fewerKinds.Lost Sample.allKinds ⟨2, ["k"]⟩ := by
  have accepted : Sample.accepts Sample.fewerKinds Sample.allKinds = true := by decide +kernel
  have taken : Sample.fewerKinds.Accepts ⟨2, ["k"]⟩ := by decide +kernel
  refine ⟨accepted, taken, ?_⟩
  obtain ⟨t, ran⟩ : ∃ t, exec (assignFunction (Sample.ofDecls []) (judgeAt (Sample.ofDecls []) 0)
      .default (Sample.functionOf Sample.fewerKinds) (Sample.functionOf Sample.allKinds))
      ⟨.start, #[], [], [], none, none, []⟩ = (.ok true, t) := by
    unfold Sample.accepts at accepted
    generalize exec _ _ = result at accepted
    obtain ⟨e | b, t⟩ := result
    · cases accepted
    · exact ⟨t, congrArg (·, t) (congrArg Except.ok (Option.some.inj (beq_iff_eq.1 accepted)))⟩
  have kept : Sample.allKinds.Accepts ⟨2, ["k"]⟩ ↔
      ¬ Sample.fewerKinds.Lost Sample.allKinds ⟨2, ["k"]⟩ :=
    accepted_function_takes_calls rfl rfl ran taken
  exact kept.1 (by decide +kernel)

end Conformance
