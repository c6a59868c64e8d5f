import Conformance.Proofs.LinearProtocol

/-!
# Solving and substituting

A class satisfies a specialization of a linear protocol exactly if each method that is asked for, with
the type arguments in it and bound to an instance, accepts the method of the class. On the one side
the parameters are solved by what the methods find, and the solution is compared with the arguments;
on the other the arguments are put into the methods first.
-/

namespace Conformance

open Check

/-- What the type arguments put into the members of a protocol. -/
def World.given (w : World) (p : ClassId) (A : List Ty) : Solution :=
  .ofClass w.classes ((ClassTy.ofId p).given A)

namespace Fragment

variable {F : Fragment} {w : World} {f g : FunctionTy} {ρ τ : Solution} {p c : ClassId}
  {A : List Ty} {r : Requirement} {k n : Nat} {l : List Pending} {L : Link F}

/-! ## Everything that is found -/

def allFound (F : Fragment) (w : World) (p c : ClassId) : List (TypeVar × Ty) :=
  (Requirement.all w.classes false (.ofId p)).flatMap (F.foundFor w c)

section

variable (hP : F.LinearProtocol w p) (hC : F.Supplies w p c)
include hP hC

private theorem sublist_foundFor (hr : r ∈ Requirement.all w.classes false (.ofId p)) :
    ((F.foundFor w c r).map (·.1)).Sublist r.whole := by
  rcases methods_cases hP hC hr with ⟨-, unmatched⟩ | ⟨member, owner, f, g, h, matched⟩
  · rw [foundFor, unmatched]
    exact List.nil_sublist _
  · have linear := h.linear.withoutReceiver
    rw [foundFor_eq matched, Requirement.whole, h.asked.type]
    exact (FunctionTy.sublist_findings _ linear.settled linear.plain F.inf).trans
      whole_withoutReceiver

private theorem distinct_allFound : Distinct (F.allFound w p c) := by
  have listed : ((F.allFound w p c).map (·.1)).Sublist
      ((Requirement.all w.classes false (.ofId p)).flatMap Requirement.whole) := by
    rw [allFound, List.map_flatMap]
    exact .flatMap_right _ fun r hr => sublist_foundFor hP hC hr
  exact (List.pairwise_map (R := fun u v : TypeVar => u.key ≠ v.key)).1 (hP.once.sublist listed)

theorem of_allFound : ∀ x ∈ F.allFound w p c, x.1 ∈ (w.classes.decl p).params ∧
    x.1.variance ≠ .invariant ∧ F.Has x.2 ∧ x.2.Closed w.classes := by
  intro x hx
  obtain ⟨r, hr, hx⟩ := List.mem_flatMap.1 hx
  rcases methods_cases hP hC hr with ⟨-, unmatched⟩ | ⟨member, owner, f, g, h, matched⟩
  · rw [foundFor, unmatched] at hx
    cases hx
  · rw [foundFor_eq matched] at hx
    exact h.linear.withoutReceiver.of_findings (Q := fun t => F.Has t ∧ t.Closed w.classes)
      h.closed.takes h.closed.returnType x hx

end

/-! ## The type arguments -/

private theorem substitute_generic (generic : (w.classes.decl p).params ≠ [])
    (solves : τ.solves (w.classes.decl p).scope = true) :
    (ClassTy.ofId p).substitute w.classes τ true =
      pure ((ClassTy.ofId p).given ((w.classes.decl p).params.map (Substitution.ofVar τ true))) := by
  have more : ((w.classes.decl (ClassTy.ofId p).id).params.isEmpty ||
      !τ.solves (w.classes.decl (ClassTy.ofId p).id).scope) = false := by
    rw [show (ClassTy.ofId p).id = p from rfl, solves, List.isEmpty_eq_false_iff.2 generic]
    rfl
  have each : (w.classes.decl p).params.mapM (fun v => Substitution.ofOption
      (Substitution.ofTyAt w.classes τ true (Ty.levels - 1)) (some (.var v))) =
        (pure ((w.classes.decl p).params.map fun v => some (Substitution.ofVar τ true v)) :
          StateM Inference _) := List.mapM_pure
  unfold ClassTy.substitute Substitution.ofClassTy
  rw [Bool.not_true, Bool.and_false, if_neg Bool.false_ne_true]
  dsimp only [ClassTy.ofId]
  dsimp only [ClassTy.ofId] at more
  rw [more, if_neg Bool.false_ne_true, each, ClassTy.given, List.map_map]
  rfl

/-- If the requirements are met, the solution is compared with the arguments. -/
theorem exec_meetAll_given {j : Judge} {rs : List Requirement} {meets : Requirement → Check Bool}
    {s t : CheckState} {b : Bool} (generic : (w.classes.decl p).params ≠ [])
    (he : exec (allOf meets rs)
      { s with solving := some (.forScope (w.classes.decl p).scope) } = (.ok b, t))
    (solving : t.solving = some τ) (solves : τ.solves (w.classes.decl p).scope = true) :
    exec (meetAll w j .default ((ClassTy.ofId p).given A) rs meets) s =
      if b = true then
        exec (assignArguments w j .default ((ClassTy.ofId p).given A)
          ((ClassTy.ofId p).given ((w.classes.decl p).params.map (Substitution.ofVar τ true))))
            { t with solving := s.solving }
      else (.ok false, { t with solving := s.solving }) := by
  have ran : exec (solvingFor (some (Solution.forScope (w.classes.decl p).scope)) (do
      let met ← allOf meets rs
      let σ ← solution
      pure (met, σ.getD .empty))) s = (.ok (b, τ), { t with solving := s.solving }) := by
    rw [exec_solvingFor, exec_bind_of_ok he, exec_bind_of_ok (exec_solution t), solving]
    rfl
  have compares : (!(w.classes.decl p).params.isEmpty &&
      ((ClassTy.ofId p).given A).args.isSome) = true := by
    rw [List.isEmpty_eq_false_iff.2 generic]
    rfl
  have found : exec (lift (((ClassTy.ofId p).given A).generic.substitute w.classes τ true))
      { t with solving := s.solving } = (.ok ((ClassTy.ofId p).given
        ((w.classes.decl p).params.map (Substitution.ofVar τ true))), _) :=
    exec_lift_of_eq (congrFun (substitute_generic generic solves) _)
  unfold meetAll
  dsimp only
  rw [show ((ClassTy.ofId p).given A).id = p from rfl, exec_bind_of_ok ran]
  dsimp only
  rw [Bool.and_assoc, compares, Bool.and_true]
  cases b with
  | false => rfl
  | true =>
    rw [if_pos rfl, exec_bind_of_ok found]
    rfl

section

variable (hP : F.GenericProtocol w p) (hA : F.Arguments w p A)
include hP hA

/-- In the members of a specialization each type parameter is replaced by its argument. -/
theorem ofVar_argument {v : TypeVar} {i : Nat} (param : (w.classes.decl p).params[i]? = some v) :
    some (Substitution.ofVar (w.given p A) false v) = A[i]? := by
  have mem := List.mem_of_getElem? param
  obtain ⟨scope, whole, -⟩ := hP.params v mem
  have place : w.place (.ofId p) v = some i :=
    World.place_param param hP.distinct whole scope (scope ▸ hP.scope)
  have inside : i < A.length := hA.full ▸ (List.getElem?_eq_some_iff.1 param).1
  rw [World.given, ofVar_given hA.full, place, Option.bind_some, List.getElem?_eq_getElem inside]
  rfl

private theorem pairArguments_solved (τ : Solution) :
    pairArguments (w.classes.decl p).params (A.map some)
        (((w.classes.decl p).params.map (Substitution.ofVar τ true)).map some) =
      (w.classes.decl p).params.map fun v => ⟨some (Substitution.ofVar (w.given p A) false v),
        some (Substitution.ofVar τ true v), some v⟩ := by
  rw [pairArguments_zip _ (by simp [hA.full])]
  refine List.ext_getElem? fun i => ?_
  cases param : (w.classes.decl p).params[i]? with
  | none => simp [hA.full, List.getElem?_eq_none_iff.1 param]
  | some v => simp [List.getElem?_mapIdx, List.getElem?_zip_eq_some, param,
      (ofVar_argument hP hA param).symm]

end

private theorem exec_compare_unknown {m : Mode} {a : Ty} {s : CheckState}
    (closed : a.Closed w.classes)
    (solving : s.solving = none) :
    exec ((judge w (k + 1)).compare m (some a) (some .unknown)) s = (.ok true, s) := by
  have taken {dest source : Ty} (not_var : ∀ v, dest ≠ .var v)
      (unknown : (dest.isAnyOrUnknown || source.isAnyOrUnknown) = true) :
      exec ((judge w (k + 1)).assign m (some dest) (some source)) s = (.ok true, s) := by
    rcases assign_cases w k m dest source with ⟨-, identical⟩ | compared
    · exact identical ▸ rfl
    rw [compared]
    unfold assignTy
    rw [exec_bind_of_ok (exec_solution s), solving, reverseVar?_none]
    dsimp only
    split
    · exact absurd rfl (not_var _)
    · rw [if_pos unknown]
      rfl
  unfold Judge.compare
  split
  · exact taken (fun _ h => nomatch h) rfl
  · exact taken closed.not_var (Bool.or_true _)

private theorem ofVar_unknown {v : TypeVar} (whole : v.access = .whole)
    (solves : τ.solves v.scope = true) :
    Substitution.ofVar τ true v = (τ.get? v).getD .unknown := by
  unfold Substitution.ofVar
  rw [if_neg (by simp [whole, solves])]
  cases τ.get? v <;> rfl

private theorem demand_forArgument (v : Variance) : (Mode.default.forArgument v).demand = v := by
  cases v <;> rfl

private theorem weighs_argument {v : TypeVar} {a : Ty} (hf : F.wide) (base : L.base l [])
    (hj : L.Judges (judge w (k + 1)) (judge w n)) (whole : v.access = .whole)
    (solves : τ.solves v.scope = true) (found : ∀ t, τ.get? v = some t → F.Has t) (has : F.Has a)
    (closed : a.Closed w.classes) :
    Weighs L.clean (F.resting l) (F.resting l)
      (∀ t, τ.get? v = some t → F.FitsAs w n v.variance a t)
      (ArgumentPair.assign w (judge w (k + 1)) .default
        ⟨some a, some (Substitution.ofVar τ true v), some v⟩) := by
  have compared : Weighs L.clean (F.resting l) (F.resting l)
      (∀ t, τ.get? v = some t → F.FitsAs w n v.variance a t)
      ((judge w (k + 1)).compare (Mode.default.forArgument v.variance) (some a)
        (some (Substitution.ofVar τ true v))) := by
    rw [ofVar_unknown whole solves]
    cases solved : τ.get? v with
    | none =>
      exact (Weighs.yes fun _ h => nomatch h).congr fun s hs =>
        exec_compare_unknown closed hs.solving
    | some t =>
      have ahead : (Mode.default.forArgument v.variance).invariant = true →
          (Mode.default.forArgument v.variance).reverse = false := by
        cases v.variance <;> intro strict <;> first | rfl | cases strict
      have weighed := weighs_fitsAs (suits_resting base) hf hj ahead has (found t solved)
      rw [demand_forArgument] at weighed
      exact weighed.iff (by simp)
  rw [compare_forArgument _ rfl] at compared
  exact (compared.child.explained (.tell _ _)).child

/-- The solution is compared with the arguments. -/
theorem weighs_assignArguments (hf : F.wide) (hP : F.GenericProtocol w p) (hA : F.Arguments w p A)
    (base : L.base l []) (hj : L.Judges (judge w (k + 1)) (judge w n))
    (scopes : τ.scopes = (Solution.forScope (w.classes.decl p).scope).scopes)
    (found : ∀ v ∈ (w.classes.decl p).params, ∀ t, τ.get? v = some t → F.Has t) :
    Weighs L.clean (F.resting l) (F.resting l)
      (∀ v ∈ (w.classes.decl p).params, ∀ t, τ.get? v = some t →
        F.FitsAs w n v.variance (Substitution.ofVar (w.given p A) false v) t)
      (assignArguments w (judge w (k + 1)) .default ((ClassTy.ofId p).given A)
        ((ClassTy.ofId p).given ((w.classes.decl p).params.map (Substitution.ofVar τ true)))) := by
  have pairs := pairArguments_solved hP hA τ
  have each : Weighs L.clean (F.resting l) (F.resting l)
      (∀ v ∈ (w.classes.decl p).params, ∀ t, τ.get? v = some t →
        F.FitsAs w n v.variance (Substitution.ofVar (w.given p A) false v) t)
      (allOf (fun v => ArgumentPair.assign w (judge w (k + 1)) .default
        ⟨some (Substitution.ofVar (w.given p A) false v),
          some (Substitution.ofVar τ true v), some v⟩) (w.classes.decl p).params) := by
    refine Weighs.all _ fun v param => ?_
    obtain ⟨i, hi⟩ := List.mem_iff_getElem?.1 param
    have mem := List.mem_of_getElem? (ofVar_argument hP hA hi).symm
    obtain ⟨solved, whole, -⟩ := hP.solvable v param
    exact weighs_argument hf base hj whole ((solves_eq scopes _).trans solved) (found v param)
      (hA.has _ mem) (hA.closed _ mem)
  rw [← allOf_map, ← pairs] at each
  exact each

/-- What was found for the type parameters fits the arguments in their places. -/
def Suited (F : Fragment) (w : World) (n : Nat) (p : ClassId) (A : List Ty)
    (found : List (TypeVar × Ty)) : Prop :=
  ∀ x ∈ found, F.Fits w n x.1.variance (Substitution.ofVar (w.given p A) false x.1) x.2

section

variable (hf : F.wide) (hP : F.LinearProtocol w p) (hC : F.Supplies w p c)
  (hA : F.Arguments w p A) (base : L.base l [])
include hf hP hC hA base

private theorem weighs_suited (hj : L.Judges (judge w (k + 1)) (judge w n))
    (scopes : τ.scopes = (Solution.forScope (w.classes.decl p).scope).scopes)
    (known : ∀ v : TypeVar, (Solution.forScope (w.classes.decl p).scope).solves v.scope = true →
      ∀ t, τ.get? v = some t ↔ ∃ x ∈ F.allFound w p c, x.1.key = v.key ∧ x.2 = t) :
    Weighs L.clean (F.resting l) (F.resting l) (F.Suited w n p A (F.allFound w p c))
      (assignArguments w (judge w (k + 1)) .default ((ClassTy.ofId p).given A)
        ((ClassTy.ofId p).given ((w.classes.decl p).params.map (Substitution.ofVar τ true)))) := by
  have solved {v : TypeVar} (param : v ∈ (w.classes.decl p).params) (t : Ty) :
      τ.get? v = some t ↔ (v, t) ∈ F.allFound w p c := by
    rw [known v (hP.toGeneric.solvable v param).1]
    refine ⟨?_, fun hx => ⟨_, hx, rfl, rfl⟩⟩
    rintro ⟨x, hx, key, rfl⟩
    exact List.inj_on_of_nodup_map hP.distinct (of_allFound hP hC x hx).1 param key ▸ hx
  refine (weighs_assignArguments hf hP.toGeneric hA base hj scopes fun v param t h =>
    (of_allFound hP hC _ ((solved param t).1 h)).2.2.1).iff ⟨fun fits x hx => ?_, ?_⟩
  · obtain ⟨param, varies, -⟩ := of_allFound hP hC x hx
    exact (fitsAs_iff_fits varies).1 (fits x.1 param x.2 ((solved param x.2).2 hx))
  · intro suited v param t h
    have hx := (solved param t).1 h
    exact (fitsAs_iff_fits (of_allFound hP hC _ hx).2.1).2 (suited _ hx)

private theorem weighs_meetAll (hj : L.Judges (judge w (k + 1)) (judge w n))
    (hj' : L.Judges (judge w (k + 2)) (judge w n)) :
    Weighs L.clean (F.resting l) (F.resting l)
      ((∀ r ∈ Requirement.all w.classes false (.ofId p),
        F.Met w (F.FitsApart w n) c r) ∧
          F.Suited w n p A (F.allFound w p c))
      (meetAll w (judge w (k + 2)) .default ((ClassTy.ofId p).given A)
        (Requirement.all w.classes false (.ofId p))
        ((plainMatch w p c A).matchMember w (judge w (k + 2)))) := by
  have methods := (Weighs.rules _).allOf (Requirement.all w.classes false (.ofId p)) []
    (distinct_allFound hP hC) fun r hr found new =>
      weighs_matchMember (A := A) hf hP base hj hC hr new
  intro s hs
  have entered : (F.seeking (.forScope (w.classes.decl p).scope) l []).Is
      { s with solving := some (.forScope (w.classes.decl p).scope) } := by
    refine ⟨_, ⟨hs.inference, hs.pending, rfl, rfl, hasSolution_forScope _⟩, fun v _ t => ?_⟩
    simp [Solution.get?, Solution.forScope, entries_addScope, Solution.empty]
  obtain ⟨b, t, new, he, ⟨τ, seeks, known⟩, hn, weighed⟩ := methods _ entered
  have left : F.Rests l { t with solving := s.solving } :=
    ⟨seeks.inference, seeks.pending, hs.solving⟩
  rw [exec_meetAll_given hP.generic he seeks.solving 
    ((solves_eq seeks.scopes _).trans hP.toGeneric.solves)]
  cases b with
  | false =>
    refine ⟨false, _, new, rfl, left, hn, fun clean => ?_⟩
    exact ⟨fun h => absurd h Bool.false_ne_true, fun h => (weighed clean).2 h.1⟩
  | true =>
    obtain ⟨b, u, more, hu, rests, hn', weighed'⟩ :=
      weighs_suited hf hP hC hA base hj' seeks.scopes known _ left
    refine ⟨b, u, new ++ more, hu, rests, ?_, fun clean => ?_⟩
    · rw [hn', hn, List.append_assoc]
    · have met := (weighed fun e he => clean e (List.mem_append_left _ he)).1 rfl
      rw [weighed' fun e he => clean e (List.mem_append_right _ he)]
      exact (and_iff_right met).symm

end

private theorem base_deeper (outside : ¬ F.ids p) (h : ∀ e ∈ l, e.protocol.id = p) :
    F.deeper.base l [] := by
  intro c hc
  refine List.any_eq_false.2 fun e he same => ?_
  have ids : e.protocol.id = c.pair.protocol.id := by
    have same : (Ty.cls e.protocol).same F.inf (.cls c.pair.protocol) = true :=
      (Bool.and_eq_true_iff.1 same).2
    change sameClassTy (sameAt F.inf 14) _ _ = true at same
    simp only [sameClassTy, ClassTy.sameClass, Bool.and_eq_true, beq_iff_eq] at same
    exact same.1.1.1
  exact outside (h e he ▸ ids ▸ hc.protocol.ids)

/-- A comparison with a protocol apart from the fragment, with nothing in progress, comes to meeting
the requirements; what that adds to the history is told as one comparison. -/
theorem exec_conformsFrom_meetAll (outside : ¬ F.ids p)
    (ordinary : w.classes.isTypedDict (.ofId c) = false) (choice : StackChoice) {s : CheckState}
    (hs : F.Rests [] s) (lent : s.lent = []) :
    ∃ l s₀, F.deeper.base l [] ∧ F.Rests l s₀ ∧ s₀.history = [] ∧ ∀ {r t₀},
      exec (meetAll w (judge w 14) .default ((ClassTy.ofId p).given A)
        (Requirement.all w.classes false (.ofId p))
        ((plainMatch w p c A).matchMember w (judge w 14))) s₀ = (r, t₀) →
      ∃ t comparison n, exec (conformsFrom w choice 0 .default false ((ClassTy.ofId p).given A)
        (.ofId c)) s = (r, t) ∧
          t.history = s.history ++ [.made comparison n r.toOption t₀.history] := by
  let comparison := Comparison.of false ((ClassTy.ofId p).given A) (.ofId c)
  have idle : pendingOn choice s = [] := by
    cases choice with
    | own => exact hs.pending
    | lent => exact lent
  have entered : ∃ l, (∀ e ∈ l, e.protocol.id = p) ∧
      F.Rests l (setPendingOn choice { s with history := [] } [comparison.pair]) := by
    cases choice with
    | own =>
      refine ⟨[comparison.pair], fun e he => ?_, hs.inference, rfl, hs.solving⟩
      rw [List.mem_singleton.1 he]
      rfl
    | lent => exact ⟨[], fun _ h => (nomatch h), hs.inference, hs.pending, hs.solving⟩
  have started : (setPendingOn choice { s with history := [] } [comparison.pair]).history = [] := by
    cases choice <;> rfl
  obtain ⟨l, own, rests⟩ := entered
  refine ⟨l, _, base_deeper outside own, rests, started, fun {r t₀} he => ?_⟩
  rw [← match_of ordinary] at he
  have ran : exec (comparison.parts w (judge w 14) .default)
      (setPendingOn choice { s with history := [] } [comparison.pair]) = (r, t₀) := he
  have unfolded : exec (conformsFrom w choice 0 .default false ((ClassTy.ofId p).given A) (.ofId c))
      s = exec (matchClass w (judge w 14) choice .default false ((ClassTy.ofId p).given A)
        (.ofId c)) s := rfl
  have missing : isPending s.inference (pendingOn choice s) comparison.pair = false := by
    rw [idle]
    rfl
  rw [unfolded, Link.exec_matchClass]
  dsimp only
  rw [if_neg (Bool.eq_false_iff.1 missing), exec_whilePending, idle]
  dsimp only
  rw [ran]
  exact ⟨_, _, _, rfl, rfl⟩

/-- A class satisfies a specialization exactly if the methods meet and what they find fits the
arguments. -/
theorem exec_conformsFrom_linear (hw : F.Covers w) (hf : F.wide) (hP : F.LinearProtocol w p)
    (hC : F.Supplies w p c) (hA : F.Arguments w p A) (choice : StackChoice) {s : CheckState}
    (hs : F.Rests [] s) (lent : s.lent = []) :
    ∃ b t, exec (conformsFrom w choice 0 .default false ((ClassTy.ofId p).given A) (.ofId c)) s =
        (.ok b, t) ∧
      ∀ new, t.history = s.history ++ new → Event.allUncut new = true →
        (b = true ↔ (∀ r ∈ Requirement.all w.classes false (.ofId p),
          F.Met w (F.FitsApart w 14) c r) ∧
            F.Suited w 14 p A (F.allFound w p c)) := by
  obtain ⟨l, s₀, base, rests, started, answers⟩ :=
    exec_conformsFrom_meetAll (A := A) hP.outside hC.ordinary choice hs lent
  have parts := weighs_meetAll hf hP hC hA base
    (follows_deeper hw (show 13 ≤ 14 by decide)).assign (follows_deeper hw (Nat.le_refl 14)).assign
  obtain ⟨b, t₀, new, he, -, hn, weighed⟩ := parts s₀ rests
  obtain ⟨t, comparison, n, ran, history⟩ := answers he
  refine ⟨b, t, ran, fun more hmore uncut => weighed fun e hmem => ?_⟩
  rw [List.append_cancel_left (hmore.symm.trans history)] at uncut
  rw [started, List.nil_append] at hn
  exact allUncut_iff.1 (allUncut_iff.1 uncut _ List.mem_cons_self) e (hn ▸ hmem)

/-! ## Arguments in the methods -/

section

variable {params : List TypeVar}

theorem Place.steady {u : Variance} {d : Ty} (h : F.Place w params u d) (ρ : Solution) (k : Nat) :
    F.Steady (fun _ => True) (Substitution.ofTyAt w.classes ρ false k d) := by
  cases h with
  | closed has closed => exact steady_imp (fixes_closed closed has ρ k) fun _ _ => trivial
  | var =>
    cases k with
    | zero => exact steady_pure trivial
    | succ k => exact steady_pure trivial

theorem Linear.steady_fill (h : F.Linear w params f) (ρ : Solution) (k : Nat) :
    F.Steady (· = .function (F.fillFunction w ρ k f))
      (Substitution.ofTyAt w.classes ρ false (k + 1) (.function f)) := by
  refine steady_function (fun q hq t ht => ?_) (fun t ht => ?_) h.settled
  · exact typeOrUnknown_eq ht ▸ (h.takes q hq).steady ρ k
  · obtain ⟨u, hu, place⟩ := h.yields
    cases hu.symm.trans ht
    exact place.steady ρ k

theorem withoutReceiver_fillFunction :
    (F.fillFunction w ρ k f).withoutReceiver = F.fillFunction w ρ k f.withoutReceiver := by
  obtain ⟨name, params, ret, kind, scope⟩ := f
  unfold FunctionTy.withoutReceiver FunctionTy.withoutFirst fillFunction
  cases params with
  | nil => cases kind <;> rfl
  | cons first rest =>
    obtain ⟨kind', name', type, hasDefault⟩ := first
    cases kind <;> cases kind' <;> rfl

variable (given : ∀ v ∈ params, F.Has (Substitution.ofVar ρ false v) ∧
  (Substitution.ofVar ρ false v).Closed w.classes)
include given

theorem Place.closed_fill {u : Variance} {d : Ty} (h : F.Place w params u d) (k : Nat) :
    F.Has (F.fill w ρ (k + 1) d) ∧ (F.fill w ρ (k + 1) d).Closed w.classes := by
  cases h with
  | closed has closed =>
    rw [show F.fill w ρ (k + 1) d = d from (fixes_closed closed has ρ (k + 1)).eq.2]
    exact ⟨has, closed⟩
  | var param => exact given _ param

/-- With closed arguments in it a linear method is a closed one. -/
theorem Linear.closed_fill (h : F.Linear w params f) (unannotated : f.Unannotated) (k : Nat) :
    F.ClosedMethod w (F.fillFunction w ρ (k + 1) f) := by
  have taken : ∀ q ∈ (F.fillFunction w ρ (k + 1) f).params, ∀ t, q.type = some t →
      F.Has t ∧ t.Closed w.classes := by
    intro q hq t ht
    obtain ⟨p, hp, rfl⟩ := List.mem_map.1 hq
    obtain ⟨u, hu, rfl⟩ := Option.map_eq_some_iff.1 ht
    exact (typeOrUnknown_eq hu ▸ h.takes p hp).closed_fill given k
  have returned : ∀ t, (F.fillFunction w ρ (k + 1) f).ret = .declared t →
      F.Has t ∧ t.Closed w.classes := by
    intro t ht
    obtain ⟨u, hu, place⟩ := h.yields
    rw [fillFunction, hu] at ht
    cases ht
    exact place.closed_fill given k
  refine ⟨.function (fun q hq t ht => (taken q hq t ht).1) (fun t ht => (returned t ht).1)
    (settled_fillFunction (k + 1) h.settled),
    .function (fun q hq t ht => (taken q hq t ht).2) fun t ht => (returned t ht).2, ?_⟩
  refine unannotated.imp id fun first q hq => ?_
  rw [fillFunction, List.head?_map] at hq
  obtain ⟨p, hp, rfl⟩ := Option.map_eq_some_iff.1 hq
  exact Option.map_eq_none_iff.2 (first p hp)

end

/-! ## Bound methods -/

theorem closed_argument (hP : F.GenericProtocol w p) (hA : F.Arguments w p A) {v : TypeVar}
    (param : v ∈ (w.classes.decl p).params) :
    F.Has (Substitution.ofVar (w.given p A) false v) ∧
      (Substitution.ofVar (w.given p A) false v).Closed w.classes := by
  obtain ⟨i, hi⟩ := List.mem_iff_getElem?.1 param
  have mem := List.mem_of_getElem? (ofVar_argument hP hA hi).symm
  exact ⟨hA.has _ mem, hA.closed _ mem⟩

theorem closed_required (hP : F.GenericProtocol w p) (hA : F.Arguments w p A)
    (unannotated : f.Unannotated) (linear : F.Linear w (w.classes.decl p).params f) :
    F.ClosedMethod w (F.fillFunction w (w.given p A) 14 f) :=
  linear.closed_fill (fun _ param => closed_argument hP hA param) unannotated 13

section

variable {j : Judge} {s : CheckState} {found : FoundMember} {owner : ClassTy}
  (hs : s.inference = F.inf)
include hs

private theorem exec_boundMember (h : F.Answered w p c r found owner f g) :
    exec (boundMember w j (.ofId c) r.name) s = (.ok (some (.function g.withoutReceiver)), s) := by
  have looked : exec (lift (w.classes.lookup (.ofId c) r.name)) s = (.ok (some found), s) := by
    rw [lookup_ofId, h.present]
    rfl
  have typed : F.Steady (· = .function g) (w.classes.typeOf found) := by
    unfold ClassTable.typeOf
    rw [h.declared]
    refine steady_bind (steady_get rfl) fun inf _ => ?_
    rw [h.method.effectiveType]
    exact steady_specialize_eq fun σ _ => (h.closed.fixesSignature σ).fixes
  unfold boundMember
  rw [exec_bind_of_ok looked]
  dsimp only
  rw [exec_bind_of_ok (exec_lift_of_steady typed hs)]
  exact exec_bind_function (fun _ _ σ _ => h.closed.fixesSignature σ) h.closed.has.settled
    h.closed.unannotated _ hs

private theorem exec_requiredMember (hP : F.GenericProtocol w p) (hA : F.Arguments w p A)
    (asked : r.member.IsMethod f) (unannotated : f.Unannotated)
    (linear : F.Linear w (w.classes.decl p).params f) :
    exec (r.boundMember w j ((ClassTy.ofId p).given A)) s =
      (.ok (some (.function (F.fillFunction w (w.given p A) 14 f.withoutReceiver))), s) := by
  have specialized : F.Steady (· = .function (F.fillFunction w (w.given p A) 14 f))
      ((Ty.function f).specialize w.classes ((ClassTy.ofId p).given A) none) := by
    rw [specialize_given hP.generic]
    exact linear.steady_fill _ 14
  have closed := closed_required hP hA unannotated linear
  unfold Requirement.boundMember
  rw [asked.type]
  dsimp only
  rw [exec_bind_of_ok (exec_seenFrom hs hP linear),
    exec_bind_of_ok (exec_lift_of_steady specialized hs), ← withoutReceiver_fillFunction]
  exact exec_bind_function (fun _ _ σ _ => closed.fixesSignature σ) closed.has.settled
    closed.unannotated _ hs

end

section

variable (hw : F.Covers w) (hf : F.wide) (hP : F.LinearProtocol w p) (hC : F.Supplies w p c)
  (hA : F.Arguments w p A) (anew : w.BindsAnew p c)
include hw hf hP hC hA anew

private theorem weighs_memberFits (hr : r ∈ Requirement.all w.classes false (.ofId p)) :
    Weighs F.beside.clean (F.resting []) (F.resting [])
      (F.Met w (F.FitsApart w 14) c r ∧
        F.Suited w 14 p A (F.foundFor w c r))
      (memberFits w (judgeAt w 0) ((ClassTy.ofId p).given A) (.ofId c) r) := by
  have required {f : FunctionTy} (asked : r.member.IsMethod f) (unannotated : f.Unannotated)
      (linear : F.Linear w (w.classes.decl p).params f) {s : CheckState} (hs : F.Rests [] s) :=
    exec_requiredMember (j := judgeAt w 0) hs.inference hP.toGeneric hA asked unannotated linear
  unfold memberFits
  rcases methods_cases hP hC hr with ⟨missing, unmatched⟩ | ⟨member, owner, f, g, h, matched⟩
  · obtain ⟨f, asked, unannotated, linear⟩ := hP.methods r hr
    have absent (s : CheckState) :
        exec (boundMember w (judgeAt w 0) (.ofId c) r.name) s = (.ok none, s) := by
      unfold boundMember
      rw [lookup_ofId, missing]
      rfl
    refine Weighs.after (fun s _ => absent s) (Weighs.after (fun s hs =>
      required asked unannotated linear hs) (Weighs.no ?_))
    rintro ⟨⟨f, g, matched, -⟩, -⟩
    cases unmatched.symm.trans matched
  · refine Weighs.after (fun s hs => exec_boundMember hs.inference h) (Weighs.after (fun s hs =>
      required h.asked h.unannotated h.linear hs) ?_)
    have linear := h.linear.withoutReceiver
    have bound := (closed_required hP.toGeneric hA h.unannotated h.linear).has.withoutReceiver
    rw [withoutReceiver_fillFunction] at bound
    have positions := weighs_functions (m := .default) (suits_resting (F := F) fun _ _ => rfl) hf
      (follows_itself hw 14).assign rfl bound h.closed.has.withoutReceiver
    have apart (d : FunctionTy) : w.shares d g.withoutReceiver = false := anew r hr matched _
    refine (positions.congr fun s _ => ?_).iff ?_
    · refine (exec_assign_function 14 rfl _ _ s).trans ?_
      rw [apart, if_neg Bool.false_ne_true]
    · rw [linear.meets_fill 13, Suited, foundFor_eq matched]
      simp [Met, Joined, matched, apart]

end

private theorem suited_allFound : F.Suited w n p A (F.allFound w p c) ↔
    ∀ r ∈ Requirement.all w.classes false (.ofId p), F.Suited w n p A (F.foundFor w c r) := by
  simp only [Suited, allFound, List.mem_flatMap, forall_exists_index, and_imp]
  exact ⟨fun h r hr x hx => h x r hr hx, fun h x r hr hx => h r hr x hx⟩

end Fragment

namespace Sample

def made : TypeVar := .make "T" "Maker" .covariant none

/-- What a maker takes. -/
def taken : TypeVar := .make "S" "Maker" .contravariant none

/-- A protocol of two type parameters, and a class that takes anything and makes one kind of
things. -/
def makers : World :=
  ofDecls [object, classOf "A" [],
    { protocolOf "Maker" [method "make" none [] (.var made),
      method "take" none [some (.var taken), some (instanceOf 1)] .noneObject] with
        params := [made, taken] },
    classOf "C" [method "make" none [] (instanceOf 1),
      method "take" none [some (instanceOf 0), none] .noneObject]]

/-- Every class may be mentioned but the protocol, and no type variable. -/
def otherTypes : Fragment where
  inf := .start
  wide := True
  ids id := id ≠ 2
  vars _ := False

private theorem requirements_makers : Requirement.all makers.classes false (.ofId 2) =
    [⟨.ofId 2, "make", (method "make" none [] (.var made)).2⟩,
      ⟨.ofId 2, "take",
        (method "take" none [some (.var taken), some (instanceOf 1)] .noneObject).2⟩] := rfl

theorem hasClass_other {id : ClassId} (h : id ≠ 2) : otherTypes.HasClass (.ofId id) :=
  .cls h (.inl trivial) fun _ h => nomatch h

theorem has_other {id : ClassId} (h : id ≠ 2) : otherTypes.Has (instanceOf id) :=
  (hasClass_other h).toInstance

/-- Worlds of simple classes, of which one is not mentioned. -/
theorem covers_other {w : World}
    (classes : ∀ id, id ≠ 2 → Simple (w.classes.decl id) ∧
      (∀ c, Ancestor.resolved c ∈ (w.classes.decl id).mro → c.id ≠ 2) ∧
      ∀ e ∈ (w.classes.decl id).members.entries, otherTypes.Has (e.2.effectiveType .start))
    (typedDict : w.typedDict = .ofId 10)
    (modules : ∀ table, ∀ e ∈ (w.moduleMembers table).entries,
      otherTypes.Has (e.2.effectiveType .start)) : otherTypes.Covers w where
  params {id} hi v hv := by
    rw [(classes id hi).1.params] at hv
    cases hv
  apart := .inl trivial
  object := Nat.zero_ne_add_one 1
  typedDict := typedDict ▸ hasClass_other (by decide)
  mro {id} hi c hc := by
    have other := (classes id hi).2.1 c hc
    obtain ⟨id', rfl⟩ := (classes id hi).1.mro c hc
    exact hasClass_other other
  metaclass {c} hc m hm := by
    rw [ClassTable.metaclass?, (classes c.id hc).1.metaclass] at hm
    cases hm
  accessors {id} hi a f hf := by
    rw [(classes id hi).1.accessors] at hf
    cases hf
  members {id} hi e he := .inl (Fragment.hasMember_of_wide trivial ((classes id hi).2.2 e he))
  modules := modules

theorem closed_instanceOf {w : World} {id : ClassId} (h : (w.classes.decl id).params = []) :
    (instanceOf id).Closed w.classes := .bare rfl h rfl

theorem forall_function {P : Param → Prop} {params : List (Option Ty)} {ret : Return}
    (receiver : P ⟨.simple, "self", none, false⟩)
    (others : ∀ o ∈ params, P ⟨.simple, "__a", o, false⟩) :
    ∀ p ∈ (function none params ret).params, P p := by
  intro p hp
  rcases List.mem_cons.1 hp with rfl | hp
  · exact receiver
  · obtain ⟨o, ho, rfl⟩ := List.mem_map.1 hp
    exact others o ho

section

variable {F : Fragment} {w : World} {params : List (Option Ty)} {ret : Ty}

theorem unannotated_function {ret : Return} : (function none params ret).Unannotated :=
  .inr fun p hp => by
    cases hp
    rfl

theorem isMethod_method (name : String) :
    (method name none params ret).2.IsMethod (function none params (.declared ret)) :=
  ⟨rfl, fun d hd => by rw [List.mem_singleton.1 hd]; rfl, rfl⟩

theorem closedMethod_function (hp : ∀ t, some t ∈ params → F.Has t ∧ t.Closed w.classes)
    (hr : F.Has ret ∧ ret.Closed w.classes) :
    F.ClosedMethod w (function none params (.declared ret)) := by
  refine ⟨.function ?_ ?_ fun _ _ h => (nomatch h), .function ?_ ?_, unannotated_function⟩
  · exact forall_function (fun _ h => nomatch h) fun o ho t ht => (hp t (ht ▸ ho)).1
  · exact fun t ht => Return.declared.inj ht ▸ hr.1
  · exact forall_function (fun _ h => nomatch h) fun o ho t ht => (hp t (ht ▸ ho)).2
  · exact fun t ht => Return.declared.inj ht ▸ hr.2

theorem linear_function {vs : List TypeVar}
    (hp : ∀ t, some t ∈ params → F.Place w vs .contravariant t)
    (hr : F.Place w vs .covariant ret) :
    F.Linear w vs (function none params (.declared ret)) := by
  refine ⟨forall_function (.closed .unknown .unknown) fun o ho => ?_,
    forall_function (fun _ => rfl) fun _ _ _ => rfl, ret, rfl, hr⟩
  cases o with
  | none => exact .closed .unknown .unknown
  | some t => exact hp t ho

end

private theorem closed_makers :
    otherTypes.ClosedMethod makers (function none [] (.declared (instanceOf 1))) ∧
      otherTypes.ClosedMethod makers
        (function none [some (instanceOf 0), none] (.declared .noneObject)) := by
  refine ⟨closedMethod_function (fun _ h => nomatch h) ⟨has_other (by decide), closed_instanceOf rfl⟩,
    closedMethod_function (fun t ht => ?_) ⟨.noneObject, .noneObject⟩⟩
  rcases List.mem_cons.1 ht with ht | ht
  · exact Option.some.inj ht ▸ ⟨has_other (by decide), closed_instanceOf rfl⟩
  · cases List.mem_singleton.1 ht

private theorem decl_makers {id : ClassId} (h : id ≠ 2) : Simple (makers.classes.decl id) ∧
    (makers.classes.decl id).mro = [] ∧ ∀ e ∈ (makers.classes.decl id).members.entries,
      ∃ g, e.2.effectiveType .start = .function g ∧ otherTypes.ClosedMethod makers g := by
  rw [makers, decl_ofDecls]
  match id with
  | 0 => exact ⟨simple_object, rfl, fun _ h => nomatch h⟩
  | 1 => exact ⟨simple_classOf _ _, rfl, fun _ h => nomatch h⟩
  | 3 =>
    refine ⟨simple_classOf _ _, rfl, fun e he => ?_⟩
    rcases List.mem_cons.1 he with rfl | he
    · exact ⟨_, rfl, closed_makers.1⟩
    · rw [List.mem_singleton.1 he]
      exact ⟨_, rfl, closed_makers.2⟩
  | n + 4 =>
    exact ⟨⟨rfl, rfl, fun a => by cases a <;> rfl, fun _ h => nomatch h⟩, rfl,
      fun _ h => nomatch h⟩

theorem covers_makers : otherTypes.Covers makers := by
  refine covers_other (fun id h => ?_) rfl fun _ _ he => nomatch he
  obtain ⟨simple, mro, members⟩ := decl_makers h
  refine ⟨simple, fun c hc => ?_, fun e he => ?_⟩
  · rw [mro] at hc
    cases hc
  · obtain ⟨g, hg, closed⟩ := members e he
    exact hg ▸ closed.has

theorem linearProtocol_makers : otherTypes.LinearProtocol makers 2 where
  outside h := h rfl
  apart := ⟨fun _ h => h.elim, fun _ _ _ h => h.elim, fun hi => .inl (decl_makers hi).1.params⟩
  scope := by decide
  own id h := by
    rw [makers, decl_ofDecls, decl_ofDecls] at h
    match id with
    | 2 => rfl
    | 0 | 1 | 3 => exact absurd h (by decide)
    | n + 4 =>
      have h : "" = "Maker" := h
      exact absurd h (by decide)
  generic := List.cons_ne_nil _ _
  params v hv := by
    rcases List.mem_cons.1 hv with rfl | hv
    · exact ⟨rfl, rfl, rfl, by decide⟩
    · rw [List.mem_singleton.1 hv]
      exact ⟨rfl, rfl, rfl, by decide⟩
  distinct := by decide +kernel
  methods r hr := by
    rw [requirements_makers] at hr
    rcases List.mem_cons.1 hr with rfl | hr
    · exact ⟨_, isMethod_method "make", unannotated_function,
        linear_function (fun _ h => nomatch h) (.var List.mem_cons_self rfl)⟩
    · rw [List.mem_singleton.1 hr]
      refine ⟨_, isMethod_method "take", unannotated_function,
        linear_function (fun t ht => ?_) (.closed .noneObject .noneObject)⟩
      rcases List.mem_cons.1 ht with ht | ht
      · cases ht
        exact .var (List.mem_cons_of_mem _ List.mem_cons_self) rfl
      · cases List.mem_singleton.1 ht
        exact .closed (has_other (by decide)) (closed_instanceOf rfl)
  once := by
    rw [requirements_makers]
    decide +kernel

theorem supplies_makers : otherTypes.Supplies makers 2 3 where
  ordinary := rfl
  methods r hr found present := by
    have three : (3 : ClassId) ≠ 2 := by decide
    rw [requirements_makers] at hr
    rcases List.mem_cons.1 hr with rfl | hr
    · cases present
      exact ⟨_, _, rfl, three, isMethod_method "make", closed_makers.1⟩
    · rw [List.mem_singleton.1 hr] at present
      cases present
      exact ⟨_, _, rfl, three, isMethod_method "take", closed_makers.2⟩

theorem arguments_makers : otherTypes.Arguments makers 2 [instanceOf 0, instanceOf 1] := by
  have each : ∀ t ∈ [instanceOf 0, instanceOf 1], otherTypes.Has t ∧ t.Closed makers.classes := by
    intro t ht
    rcases List.mem_cons.1 ht with rfl | ht
    · exact ⟨has_other (by decide), closed_instanceOf rfl⟩
    · rw [List.mem_singleton.1 ht]
      exact ⟨has_other (by decide), closed_instanceOf rfl⟩
  exact ⟨rfl, fun t ht => (each t ht).1, fun t ht => (each t ht).2⟩

/-- Things of any kind are made, and those of one kind are taken. -/
def maker : ClassTy := (ClassTy.ofId 2).given [instanceOf 0, instanceOf 1]

/-- Nothing is in progress and nothing solved for. -/
def idle (inf : Inference) : CheckState := ⟨inf, #[], [], [], none, none, []⟩

end Sample

namespace Sample

/-- Whether a class satisfies a specialization without passing the last level, and whether it has all
methods that are asked for and they fit. -/
def bothWays (w : World) (inf : Inference) (protocol : ClassTy) (candidate : ClassId) :
    Option Bool × Bool :=
  let (r, t) := exec (conformsFrom w .own 0 .default false protocol (.ofId candidate)) (idle inf)
  (if Event.allUncut t.history then r.toOption else none,
    (Requirement.all w.classes false protocol).all fun r =>
      (exec (memberFits w (judgeAt w 0) protocol (.ofId candidate) r) (idle inf)).1.toOption ==
        some true)

def static (t : Ty) : Ty :=
  .function ⟨"F", [⟨.simple, "__a", some t, false⟩], .declared .noneObject, .staticMethod, ""⟩

/-- Instances that are called with an instance of a specialization are compared with a function that
is called with the class object. -/
def objectViews : World :=
  ofDecls [object, classOf "A" [], classOf "K" [method "__call__" none
      [some (.cls (viewOf 3 (instanceOf 1)).toInstance)] .noneObject],
    generic .covariant (protocolOf "P"
      [method "m" none [some (instanceOf 2)] (.var (parameter .covariant "P"))]),
    classOf "C" [method "m" none [some (static (.cls (.ofId 4)))] (instanceOf 1)]]

end Sample

/-- Solving differs from substituting where a comparison leads back to the protocol under another view of
the class: the methods do not fit, and the class satisfies the specialization. -/
example :
    Sample.bothWays Sample.objectViews .start (Sample.viewOf 3 (Sample.instanceOf 1)) 4 =
      (some true, false) := by
  decide +kernel

end Conformance
