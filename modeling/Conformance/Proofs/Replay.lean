import Conformance.Proofs.Link
import Conformance.Proofs.ParamPlan

/-!
# Replaying comparisons

Each part of a comparison, asked of two judges whose comparisons of types follow each other, is
followed by itself. The second judge may also be asked about another source than the first: what a
comparison does with a callable, a union or a variable does not depend on how the two sources are
related, as long as the judges follow each other about the related ones.
-/

namespace Conformance

open Check

/-- The two functions take the same arguments, and what they return is related. -/
structure FunctionTy.Exchanged (F : Fragment) (S : Ty → Ty → Prop) (f g : FunctionTy) : Prop where
  params : g.params = f.params
  typed : ∀ p ∈ f.params, F.HasOption p.type
  settled : ∀ cell outcome, f.ret ≠ .deferred cell outcome
  settled' : ∀ cell outcome, g.ret ≠ .deferred cell outcome
  ret : S (F.inf.returnType f) (F.inf.returnType g)

/-- The two types are called alike: each function of the one is exchanged for one of the other, or
neither can be called. -/
inductive Ty.Exchanged (F : Fragment) (S : Ty → Ty → Prop) : Ty → Ty → Prop
  | function {f g : FunctionTy} (h : f.Exchanged F S g) : Ty.Exchanged F S (.function f) (.function g)
  | overloaded {fs : List FunctionTy} (each : ∀ f ∈ fs, f.Exchanged F S f) :
      Ty.Exchanged F S (.overloaded fs) (.overloaded fs)
  | uncalled {t u : Ty} (left : t.isCallable = false) (right : u.isCallable = false) :
      Ty.Exchanged F S t u

/-- A type of the fragment and itself. -/
def Fragment.Itself (F : Fragment) (t u : Ty) : Prop := F.Has t ∧ u = t

section

variable {F : Fragment} {S S' : Ty → Ty → Prop} {f g : FunctionTy} {t u : Ty}

theorem FunctionTy.Exchanged.imp (h : f.Exchanged F S g) (hS : ∀ t u, S t u → S' t u) :
    f.Exchanged F S' g :=
  ⟨h.params, h.typed, h.settled, h.settled', hS _ _ h.ret⟩

theorem Ty.Exchanged.imp (h : Ty.Exchanged F S t u) (hS : ∀ t u, S t u → S' t u) :
    Ty.Exchanged F S' t u := by
  cases h with
  | function h => exact .function (h.imp hS)
  | overloaded each => exact .overloaded fun f hf => (each f hf).imp hS
  | uncalled left right => exact .uncalled left right

theorem Ty.Exchanged.isCallable (h : Ty.Exchanged F S t u) : u.isCallable = t.isCallable := by
  cases h with
  | function | overloaded => rfl
  | uncalled left right => exact right.trans left.symm

theorem Fragment.HasFunction.exchanged (h : F.HasFunction f) : f.Exchanged F F.Itself f :=
  ⟨rfl, h.params, h.settled, h.settled, h.returnType F.inf, rfl⟩

theorem Fragment.Has.exchanged (h : F.Has t) : Ty.Exchanged F F.Itself t t := by
  cases h with
  | function params ret settled =>
    exact .function (Fragment.HasFunction.exchanged (.function params ret settled))
  | overloaded each => exact .overloaded fun f hf => Fragment.HasFunction.exchanged (each f hf)
  | _ => exact .uncalled rfl rfl

end

namespace Link

/-- The comparisons of types by the second judge follow those by the first. -/
def Judges {F : Fragment} (L : Link F) (j j' : Judge) : Prop :=
  ∀ {ρ : Regime} {m m' : Mode} {dest source : Option Ty}, ρ.Modes m m' → F.HasOption dest →
    F.HasOption source → L.Agrees ρ (j.assign m dest source) (j'.assign m' dest source)

/-- The comparisons of types by the second judge follow those by the first, where it is asked about a
related source. -/
def Exchanges {F : Fragment} (L : Link F) (S : Ty → Ty → Prop) (j j' : Judge) : Prop :=
  ∀ {ρ : Regime} {m m' : Mode} {dest t u : Ty}, ρ.Modes m m' → F.Has dest → S t u →
    L.Agrees ρ (j.assign m (some dest) (some t)) (j'.assign m' (some dest) (some u))

theorem Judges.itself {F : Fragment} {L : Link F} {j j' : Judge} (hj : L.Judges j j') :
    L.Exchanges F.Itself j j' := by
  rintro ρ m m' dest t u hm hd ⟨has, rfl⟩
  exact hj hm (Fragment.hasOption_some hd) (Fragment.hasOption_some has)

variable {F : Fragment} {L : Link F} {ρ : Regime} {w : World} {j j' : Judge}

/-- The destination is the same as both of two sources, or as neither. -/
theorem agrees_sameOr {dest t u : Ty} (same : dest.same F.inf u = dest.same F.inf t)
    {no no' : Check Bool} (rest : L.Agrees ρ no no') :
    L.Agrees ρ (do
      let inf ← inference
      if dest.same inf t then pure true else no) (do
      let inf ← inference
      if dest.same inf u then pure true else no') := by
  refine Sim.inference.bind fun inf hinf => ?_
  subst hinf
  rw [same]
  split
  · exact Agrees.pure true
  · exact rest

/-! ## Binding -/

section

variable (hw : F.Covers w) (hj : L.Judges j j')

include hj

private theorem sim_solveReceiver {f : FunctionTy} {first : Param} {receiver : Option Ty}
    (hp : F.HasOption first.type) (hr : F.HasOption receiver) (hf : F.wide ∨ first.type = none) :
    L.Sim ρ (fun r => ∀ σ, r = some σ → F.HasSolution σ) (· = ·)
      (solveReceiver j f first receiver) (solveReceiver j' f first receiver) := by
  have entries : (receiverScopes f first).entries = [] := by
    unfold receiverScopes
    dsimp only
    split
    · exact (Fragment.entries_addScope _ _).trans (Fragment.entries_addScope _ _)
    · exact Fragment.entries_addScope _ _
  have found := Fragment.hasSolution_of_entries (F := F) entries
  have has : ∀ σ, some (receiverScopes f first) = some σ → F.HasSolution σ := by
    rintro _ ⟨⟩
    exact found
  have nothing : L.Sim .same (fun r => ∀ σ, r = some σ → F.HasSolution σ) (· = ·)
      (pure none : Check (Option Solution)) (pure none) :=
    Sim.pure (fun _ h => nomatch h) (fun _ h => nomatch h) rfl
  by_cases wide : F.wide
  · refine (Sim.solvingFor ⟨has, .inl wide⟩ ?_).silently
    have solved := (Sim.solution (L := L)).imp (fun σ hσ => hσ.has) fun _ _ _ _ h => h
    refine Agrees.ite ?_ solved nothing fun hn => absurd wide hn
    unfold receiverFits
    cases ht : first.type with
    | none => exact Agrees.pure true
    | some t =>
      cases receiver with
      | none => exact Agrees.pure true
      | some r => exact hj rfl (ht ▸ hp) hr
  · have unannotated := hf.resolve_left wide
    have solved : ∀ j, ∀ s, exec (solveReceiver j f first receiver) s =
        (.ok (some (receiverScopes f first)), s) := by
      intro j s
      unfold solveReceiver receiverFits
      rw [unannotated]
      rfl
    have answers : ∀ j, L.Calm (fun r => ∀ σ, r = some σ → F.HasSolution σ)
        (solveReceiver j f first receiver) :=
      fun j s hs => ⟨_, s, solved j s, has, .refl hs⟩
    refine ⟨answers j, answers j', fun {s s' t t' a a'} hs h h' _ => ?_⟩
    rw [solved] at h h'
    cases h
    cases h'
    exact ⟨rfl, hs.solving⟩

include hw

private theorem sim_bindReceiver {f : FunctionTy} {receiver : Option Ty} {strip : Bool}
    (hf : F.HasFunction f) (hr : F.HasOption receiver)
    (hb : F.wide ∨ ∀ p ∈ f.params.head?, p.type = none) :
    L.Sim ρ (fun r => ∀ g, r = some g → F.HasFunction g) (· = ·)
      (bindReceiver w j f receiver strip) (bindReceiver w j' f receiver strip) := by
  have same : L.Sim ρ (fun r => ∀ g, r = some g → F.HasFunction g) (· = ·)
      (pure (some f) : Check (Option FunctionTy)) (pure (some f)) :=
    Sim.pure (fun _ h => Option.some.inj h ▸ hf) (fun _ h => Option.some.inj h ▸ hf) rfl
  unfold bindReceiver
  cases hp : f.params with
  | nil => exact same
  | cons first rest =>
    rw [hp] at hb
    have typed := hf.params first (hp ▸ List.mem_cons_self)
    dsimp only
    split
    · exact same
    · refine (sim_solveReceiver hj typed hr (hb.imp id fun h => h first rfl)).bind fun r hσ => ?_
      cases r with
      | none => exact Sim.pure (fun _ h => nomatch h) (fun _ h => nomatch h) rfl
      | some σ =>
        refine (Sim.demand hf.settled hf.settled).bind fun _ _ => ?_
        have substituted := Fragment.steady_substituteFunction hw.toScopes (hσ σ rfl) hf
        refine (Sim.lift substituted).bind fun g hg => ?_
        split
        · refine (Sim.lift (Fragment.steady_withParams hg.1 fun p hp =>
            hg.1.params p (List.mem_of_mem_tail hp))).bind fun g' hg' => ?_
          exact Sim.pure (fun _ h => Option.some.inj h ▸ hg')
            (fun _ h => Option.some.inj h ▸ hg') rfl
        · exact Sim.pure (fun _ h => Option.some.inj h ▸ hg.1)
            (fun _ h => Option.some.inj h ▸ hg.1) rfl

private theorem sim_bindFunction {r : Receiver} (hr : F.HasReceiver r) {f : FunctionTy}
    (hf : F.HasFunction f) (hb : F.Bindable f) {owner : Option ClassTy}
    (ho : ∀ c, owner = some c → F.HasClass c) :
    L.Sim ρ (fun r => ∀ g, r = some g → F.HasFunction g) (· = ·)
      (bindFunction w j r f owner) (bindFunction w j' r f owner) := by
  have seen : L.Sim ρ (fun g => F.HasFunction g ∧ F.Bindable g) (· = ·)
      (seenThrough w f owner) (seenThrough w f owner) := by
    unfold seenThrough
    cases owner with
    | some c =>
      have sees := (ho c rfl).sees hw.toScopes
      exact (Sim.lift (Fragment.steady_specializeFunction hw.toScopes hf sees)).imp
        (fun g hg => ⟨hg.1, hg.2 hb⟩) fun _ _ _ _ h => h
    | none => exact Sim.pure ⟨hf, hb⟩ ⟨hf, hb⟩ rfl
  obtain ⟨base, hbase, has⟩ := hr.base
  refine seen.bind fun g hg => ?_
  obtain ⟨hg, hgb⟩ := hg
  rw [hbase]
  dsimp only
  split
  · exact Sim.pure (fun _ h => Option.some.inj h ▸ hg) (fun _ h => Option.some.inj h ▸ hg) rfl
  · rename_i hk
    exact sim_bindReceiver hw hj hg (hr.firstOr (Fragment.has_classObjectFor has))
      (by simpa [Fragment.Bindable, hk] using hgb)
  · rename_i hk
    have hgb : F.wide ∨ ∀ p ∈ g.params.head?, p.type = none := by
      simpa [Fragment.Bindable, hk] using hgb
    split
    · exact sim_bindReceiver hw hj hg (hr.firstOr (Fragment.has_classObjectFor has)) hgb
    · exact sim_bindReceiver hw hj hg (hr.firstOr (Fragment.has_instanceFor has)) hgb

private theorem sim_bindOverloads {r : Receiver} (hr : F.HasReceiver r) {owner : Option ClassTy}
    (ho : ∀ c, owner = some c → F.HasClass c) {fs : List FunctionTy}
    (hf : ∀ f ∈ fs, F.HasFunction f ∧ F.Bindable f) :
    L.Sim ρ (fun gs => ∀ g ∈ gs, F.HasFunction g) (· = ·)
      (bindOverloads w j r owner fs) (bindOverloads w j' r owner fs) := by
  induction fs with
  | nil => exact Sim.pure (fun _ h => nomatch h) (fun _ h => nomatch h) rfl
  | cons f fs ih =>
    rw [bindOverloads, bindOverloads]
    obtain ⟨has, bindable⟩ := hf f List.mem_cons_self
    refine (sim_bindFunction hw hj hr has bindable ho).bind fun bound hbound => ?_
    refine (ih fun g hg => hf g (List.mem_cons_of_mem f hg)).bind fun others hothers => ?_
    have all : ∀ g ∈ bound.toList ++ others, F.HasFunction g := by
      intro g hg
      rcases List.mem_append.1 hg with hg | hg
      · exact hbound g (Option.mem_toList.1 hg)
      · exact hothers g hg
    exact Sim.pure all all rfl

private theorem sim_bind {r : Receiver} (hr : F.HasReceiver r) {owner : Option ClassTy}
    (ho : ∀ c, owner = some c → F.HasClass c) {t : Ty} (ht : F.HasMember t) :
    L.Sim ρ F.HasOption (· = ·) (bind w j r t owner) (bind w j' r t owner) := by
  unfold Conformance.bind
  split
  · rename_i f
    refine (sim_bindFunction hw hj hr ht.has (ht.function f rfl) ho).bind fun bound hbound => ?_
    have has : F.HasOption (bound.map .function) := by
      rintro u hu
      obtain ⟨g, hg, rfl⟩ := Option.map_eq_some_iff.1 hu
      exact hbound g hg
    exact Sim.pure has has rfl
  · rename_i fs
    have each : ∀ f ∈ fs, F.HasFunction f ∧ F.Bindable f := fun f hf =>
      ⟨by cases ht.has with | overloaded each => exact each f hf, ht.overloaded fs rfl f hf⟩
    refine (sim_bindOverloads hw hj hr ho each).bind fun gs hgs => ?_
    rcases gs with _ | ⟨g, _ | ⟨g', gs⟩⟩
    · exact Sim.pure Fragment.hasOption_none Fragment.hasOption_none rfl
    · have has := Fragment.hasOption_some (hgs g List.mem_cons_self)
      exact Sim.pure has has rfl
    · have has : F.HasOption (some (.overloaded (g :: g' :: gs))) :=
        Fragment.hasOption_some (.overloaded hgs)
      exact Sim.pure has has rfl
  · have has := Fragment.hasOption_some ht.has
    exact Sim.pure has has rfl

private theorem sim_boundCall {object : Ty} (ho : F.Has object) :
    L.Sim ρ F.HasOption (· = ·) (boundCall w j object) (boundCall w j' object) := by
  have nothing : L.Sim ρ F.HasOption (· = ·) (pure none : Check (Option Ty)) (pure none) :=
    Sim.pure Fragment.hasOption_none Fragment.hasOption_none rfl
  unfold boundCall
  cases hc : object.asClass? with
  | none => exact nothing
  | some c =>
    have has : F.HasClass c := by
      cases object with
      | cls d => cases hc; exact ho
      | _ => cases hc
    refine (Sim.lift (Fragment.steady_lookup hw has _)).bind fun r hr => ?_
    cases r with
    | none => exact nothing
    | some found =>
      dsimp only
      cases howner : found.owner with
      | none => exact nothing
      | some owner =>
        have inside := hr found rfl
        refine (Sim.lift (Fragment.steady_typeOf_call hw inside)).bind fun t ht => ?_
        split
        · refine sim_bind hw hj (Fragment.hasReceiver_of ho) (fun d hd => ?_) ht
          exact Option.some.inj hd ▸ (inside owner howner).1
        · exact nothing

end

/-! ## Variables -/

section

variable (hj : L.Judges j j')
include hj

theorem agrees_accepts {dest source : Ty} (hd : F.Has dest) (hs : F.Has source) :
    L.Agrees ρ (j.accepts dest source) (j'.accepts dest source) :=
  (hj (Regime.modes_refl .same _) (Fragment.hasOption_some hd)
    (Fragment.hasOption_some hs)).detached

omit hj in
private theorem undisturbed_insert (hf : F.wide) {v : TypeVar} (hv : F.vars v) (t : Option Ty)
    (σ : Option Solution) : F.Undisturbed σ (σ.map (·.insert v t)) := by
  refine ⟨fun h => absurd hf h, ?_, fun u hu => ?_⟩
  · cases σ <;> rfl
  · cases σ with
    | none => rfl
    | some τ =>
      simp only [Option.map_some, Option.bind_some, Solution.get?_insert, if_neg (hu v hv).symm]

omit hj in
theorem Sim.solve (hf : F.wide) {v : TypeVar} (hv : F.vars v) {t : Ty} (ht : F.Has t) :
    L.Sim .same (fun _ => True) (· = ·) (solve v t) (solve v t) := by
  have calm : L.Calm (fun _ => True) (Check.solve v t) := by
    intro s hs
    refine ⟨(), _, rfl, trivial, ⟨hs.inference, fun σ hσ => ?_, .inl hf⟩, rfl, rfl,
      undisturbed_insert hf hv _ _, [], (List.append_nil _).symm, fun _ he => nomatch he⟩
    obtain ⟨τ, hτ, rfl⟩ := Option.map_eq_some_iff.1 hσ
    exact (hs.solving.has τ hτ).insert (.inl hf) v (Fragment.hasOption_some ht)
  refine ⟨calm, calm, fun {s s' _ _ _ _} hs h h' _ => ?_⟩
  cases h
  cases h'
  have same : s.solving = s'.solving := hs.solving
  refine ⟨rfl, ?_⟩
  change s.solving.map _ = s'.solving.map _
  rw [same]

omit hj in
private theorem agrees_solve (hf : F.wide) {v : TypeVar} (hv : F.vars v) {t : Ty} (ht : F.Has t) :
    L.Agrees .same (do
      solve v t
      pure true) (do
      solve v t
      pure true) :=
  (Sim.solve hf hv ht).bind fun _ _ => Agrees.pure true

theorem agrees_fitsBound {m : Mode} {v : TypeVar} (hv : F.Has (.var v)) {candidate : Ty}
    (hc : F.Has candidate) :
    L.Agrees ρ (fitsBound w j m v candidate) (fitsBound w j' m v candidate) := by
  have bound : F.HasOption v.bound := by
    cases hv
    assumption
  unfold fitsBound
  cases hb : v.bound with
  | none => exact Agrees.pure true
  | some t =>
    dsimp only
    split
    · exact Agrees.pure true
    · refine Agrees.explained (Sim.child (Sim.solvingFor Fragment.solving_none ?_)) (Quiet.tell _ _)
        (Quiet.tell _ _)
      exact hj rfl (hb ▸ bound) (Fragment.hasOption_some hc)

theorem agrees_widen (hf : F.wide) {v : TypeVar} (hv : F.vars v) {existing candidate : Ty}
    (he : F.Has existing) (hc : F.Has candidate) :
    L.Agrees .same (widen j v existing candidate) (widen j' v existing candidate) := by
  refine Agrees.ite (agrees_accepts hj he hc) (Agrees.pure true) ?_ fun h => absurd hf h
  refine Agrees.ite (agrees_accepts hj hc he) (agrees_solve hf hv hc) ?_ fun h => absurd hf h
  refine Sim.inference.bind fun inf hinf => ?_
  subst hinf
  refine agrees_solve hf hv (Fragment.has_combine fun t ht => ?_)
  rcases List.mem_cons.1 ht with rfl | ht
  · exact Fragment.hasOption_some he
  · rw [List.mem_singleton.1 ht]
    exact Fragment.hasOption_some hc

theorem agrees_narrow (hf : F.wide) {v : TypeVar} (hv : F.vars v) {existing candidate : Ty}
    (he : F.Has existing) (hc : F.Has candidate) :
    L.Agrees .same (narrow w j v existing candidate) (narrow w j' v existing candidate) := by
  refine Agrees.ite (agrees_accepts hj hc he) (Agrees.pure true) ?_ fun h => absurd hf h
  refine Agrees.ite (agrees_accepts hj he hc) (agrees_solve hf hv hc) ?_ fun h => absurd hf h
  exact Agrees.refuse _ _ _ _

omit hj in
theorem has_solutionCandidate {m : Mode} {t : Ty} (h : F.Has t) :
    F.Has (solutionCandidate m t) := by
  unfold solutionCandidate
  split
  · split
    · exact Fragment.HasClass.withLiteral h none
    · exact h
  · exact h

theorem agrees_solveVar (hf : F.wide) {m : Mode} {v : TypeVar} (hv : F.Has (.var v)) {t : Ty}
    (ht : F.Has t) : L.Agrees .same (solveVar w j m v t) (solveVar w j' m v t) := by
  have hc : F.Has (solutionCandidate m t) := has_solutionCandidate ht
  have here : F.vars v := by
    cases hv
    assumption
  refine (agrees_fitsBound hj hv hc).bind (fun fits => ?_) fun h => absurd hf h
  split
  · exact Agrees.pure false
  · refine Sim.solution.bind fun σ hσ => ?_
    cases hget : σ.bind (·.get? v) with
    | none => exact agrees_solve hf here hc
    | some existing =>
      have he : F.Has existing := by
        obtain ⟨τ, hτ, hget⟩ := Option.bind_eq_some_iff.1 hget
        exact (hσ.has τ hτ).get? hget
      dsimp only
      split
      · refine Sim.inference.bind fun inf _ => ?_
        split
        · exact Agrees.pure true
        · exact Agrees.refuse _ _ _ _
      · split
        · exact agrees_narrow hj hf here he hc
        · exact agrees_widen hj hf here he hc

end

/-! ## Type arguments -/

section

variable (hj : L.Judges j j') {m m' : Mode} (hm : ρ.Modes m m')

omit ρ in
private theorem modes_forArgument {ρ : Regime} {m m' : Mode} (hm : ρ.Modes m m')
    (variance : Variance) :
    ρ.Modes (m.forArgument variance) (m'.forArgument variance) := by
  cases ρ with
  | same => exact congrArg (·.forArgument variance) hm
  | idle =>
    cases variance with
    | invariant => rfl
    | covariant => exact hm
    | contravariant => exact hm

include hj hm

theorem agrees_assignArgument {p : ArgumentPair} (hd : F.HasOption p.dest)
    (hs : F.HasOption p.source) : L.Agrees ρ (p.assign w j m) (p.assign w j' m') := by
  refine (Agrees.explained (Sim.child ?_) (Quiet.tell _ _) (Quiet.tell _ _)).child
  have hm := modes_forArgument hm p.variance
  split
  · exact hj hm hs hd
  · exact hj hm hd hs

omit hj hm in
private theorem has_pairArguments {params : List TypeVar} {dests sources : List (Option Ty)}
    (hd : ∀ t ∈ dests, F.HasOption t) (hs : ∀ t ∈ sources, F.HasOption t) :
    ∀ p ∈ pairArguments params dests sources, F.HasOption p.dest ∧ F.HasOption p.source := by
  intro p hp
  unfold pairArguments at hp
  obtain ⟨i, hi, rfl⟩ := List.mem_mapIdx.1 hp
  have source := hs _ (List.getElem_mem hi)
  dsimp only
  split
  · exact ⟨Fragment.hasOption_some .unknown, source⟩
  · refine ⟨fun u hu => ?_, source⟩
    obtain ⟨t, ht, hu⟩ := Option.join_eq_some_iff.1 hu |> fun h => (⟨some u, h, rfl⟩ :
      ∃ t, dests[min i (dests.length - 1)]? = some t ∧ t = some u)
    exact hd t (List.mem_of_getElem? ht) u hu

theorem agrees_assignArguments {dest source : ClassTy} (hd : F.HasClass dest)
    (hs : F.HasClass source) :
    L.Agrees ρ (assignArguments w j m dest source) (assignArguments w j' m' dest source) := by
  have args := hs.args
  unfold assignArguments
  cases hargs : source.args with
  | none => exact Agrees.pure true
  | some sources =>
    rw [ClassTy.argList, hargs] at args
    refine Agrees.allOf fun p hp => ?_
    obtain ⟨hpd, hps⟩ := has_pairArguments hd.args args p hp
    exact agrees_assignArgument hj hm hpd hps

omit hj hm in
private theorem has_padPairs {as bs : List (Option Ty)} (ha : ∀ t ∈ as, F.HasOption t)
    (hb : ∀ t ∈ bs, F.HasOption t) :
    ∀ p ∈ padPairs as bs, F.HasOption p.1 ∧ F.HasOption p.2 := by
  fun_induction padPairs as bs with
  | case1 bs =>
    intro p hp
    obtain ⟨b, hb', rfl⟩ := List.mem_map.1 hp
    exact ⟨Fragment.hasOption_some .unknown, hb b hb'⟩
  | case2 a as =>
    intro p hp
    obtain ⟨a', ha', rfl⟩ := List.mem_map.1 hp
    exact ⟨ha a' ha', Fragment.hasOption_some .unknown⟩
  | case3 a as b bs ih =>
    intro p hp
    rcases List.mem_cons.1 hp with rfl | hp
    · exact ⟨ha a List.mem_cons_self, hb b List.mem_cons_self⟩
    · exact ih (fun t ht => ha t (List.mem_cons_of_mem a ht))
        (fun t ht => hb t (List.mem_cons_of_mem b ht)) p hp

theorem agrees_assignInvariant {dest source : Ty} (hd : F.Has dest) (hs : F.Has source) :
    L.Agrees ρ (assignInvariant w j m dest source) (assignInvariant w j' m' dest source) := by
  refine agrees_sameOr rfl ?_
  split
  · split
    · refine Agrees.orRefuse (Agrees.allOf fun p hp => ?_) (fun ρ => Agrees.mismatch _ _ _)
        (Calm.mismatch _ _ _)
      obtain ⟨hpd, hps⟩ :=
        has_padPairs (Fragment.HasClass.args hd) (Fragment.HasClass.args hs) p hp
      exact (hj hm hpd hps).child
    · exact Agrees.mismatch _ _ _
  · exact Agrees.mismatch _ _ _

end

/-! ## Callables -/

/-- Goes on where it is known what is called. -/
def assignCalled (w : World) (j : Judge) (mode : Mode) (dest source called : Ty) : Check Bool :=
  if !called.isCallable then mismatch w source dest
  else
    match dest with
    | .function f => assignToFunction w j mode f called
    | .overloaded overloads => assignToOverloads w j mode called overloads
    | _ => mismatch w source dest

private theorem modes_forParams {m m' : Mode} (hm : ρ.Modes m m') :
    ρ.Modes m.forParams m'.forParams := by
  cases ρ with
  | same => exact congrArg Mode.forParams hm
  | idle => rfl

private theorem modes_forReturn {m m' : Mode} (hm : ρ.Modes m m') :
    ρ.Modes m.forReturn m'.forReturn := by
  cases ρ with
  | same => exact congrArg Mode.forReturn hm
  | idle => rfl

section

variable (hj : L.Judges j j') {m m' : Mode} (hm : ρ.Modes m m')
include hj hm

theorem agrees_paramStep {step : ParamStep}
    (h : step.Mentions (F.HasOption ·.type) (F.HasOption ·.type)) :
    L.Agrees ρ (step.run w j m) (step.run w j' m') := by
  cases step with
  | compare index dest source =>
    refine (Agrees.explained (Sim.child ?_) (Quiet.tell _ _) (Quiet.tell _ _)).child
    exact hj (modes_forParams hm) (Fragment.hasOption_some (Fragment.Has.typeOrUnknown h.2))
      (Fragment.hasOption_some (Fragment.Has.typeOrUnknown h.1))
  | fault wording values => exact Agrees.refuse _ _ _ _

section

variable {S : Ty → Ty → Prop} (he : L.Exchanges S j j')
include he

omit hj in
private theorem agrees_assignReturn {dest t u : Ty} (hd : F.Has dest) (h : S t u) :
    L.Agrees ρ (assignReturn w j m dest t) (assignReturn w j' m' dest u) :=
  (Agrees.explained (Sim.child (he (modes_forReturn hm) hd h)) (Quiet.tell _ _)
    (Quiet.tell _ _)).child

theorem agrees_assignFunction {dest f g : FunctionTy} (hd : F.HasFunction dest)
    (h : f.Exchanged F S g) :
    L.Agrees ρ (assignFunction w j m dest f) (assignFunction w j' m' dest g) := by
  refine (Sim.demand hd.settled hd.settled).bind fun _ _ => ?_
  refine (Sim.demand h.settled h.settled').bind fun _ _ => ?_
  have steps := ParamStep.mentions_plan (ParamGroups.all_ofList hd.params)
    (ParamGroups.all_ofList h.typed)
  rw [h.params]
  refine (Agrees.allOf fun step mem => agrees_paramStep hj hm (steps step mem)).bindWith
    (fun b _ => F.agree_refl b) fun params params' _ _ hp => ?_
  refine Sim.inference.bind fun inf hinf => ?_
  subst hinf
  refine (agrees_assignReturn hm he (hd.returnType F.inf) h.ret).bindWith
    (fun b _ => F.agree_refl b) fun ret ret' _ _ hr => ?_
  exact Sim.pure trivial trivial (agree_and hp hr)

theorem agrees_assignToFunction {dest : FunctionTy} {t u : Ty} (hd : F.HasFunction dest)
    (h : Ty.Exchanged F S t u) :
    L.Agrees ρ (assignToFunction w j m dest t) (assignToFunction w j' m' dest u) := by
  cases h with
  | function h => exact agrees_assignFunction hj hm he hd h
  | overloaded each =>
    refine Agrees.orRefuse (Sim.silently (Agrees.anyOf fun f hf => ?_))
      (fun ρ => Agrees.refuse _ _ _ _) (Calm.refuse _ _)
    exact Agrees.attempt (agrees_assignFunction hj hm he hd (each f hf))
  | uncalled left right =>
    have refused {k : Judge} {n : Mode} {t : Ty} (h : t.isCallable = false) :
        assignToFunction w k n dest t = mismatch w t (.function dest) := by
      cases t with
      | function | overloaded => cases h
      | _ => rfl
    rw [refused left, refused right]
    exact Agrees.refuse _ _ _ _

private theorem agrees_assignToOverloads {t u : Ty} (h : Ty.Exchanged F S t u)
    {fs : List FunctionTy} (hf : ∀ f ∈ fs, F.HasFunction f) :
    L.Agrees ρ (assignToOverloads w j m t fs) (assignToOverloads w j' m' u fs) := by
  induction fs with
  | nil => exact Agrees.pure true
  | cons f fs ih =>
    rw [assignToOverloads, assignToOverloads]
    have rest := ih fun g hg => hf g (List.mem_cons_of_mem f hg)
    refine Agrees.ite (agrees_assignToFunction hj hm he (hf f List.mem_cons_self) h).child rest
      (Agrees.refuse _ _ _ _) fun hn => ?_
    exact Agrees.of_no hn (Calm.refuse _ _) rest.right

theorem agrees_assignCalled {dest t u t' u' : Ty} (hd : F.Has dest) (h : Ty.Exchanged F S t' u') :
    L.Agrees ρ (assignCalled w j m dest t t') (assignCalled w j' m' dest u u') := by
  unfold assignCalled
  rw [h.isCallable]
  split
  · exact Agrees.refuse _ _ _ _
  · cases hd with
    | function params ret settled =>
      exact agrees_assignToFunction hj hm he (.function params ret settled) h
    | overloaded each => exact agrees_assignToOverloads hj hm he h each
    | _ => exact Agrees.refuse _ _ _ _

end

theorem agrees_assignToCallable (hw : F.Covers w) {dest source : Ty} (hd : F.Has dest)
    (hs : F.Has source) :
    L.Agrees ρ (assignToCallable w j m dest source) (assignToCallable w j' m' dest source) := by
  have called : L.Sim ρ F.Has (· = ·) (calledType w j source) (calledType w j' source) := by
    unfold calledType
    split
    · refine (sim_boundCall hw hj hs).bind fun bound hb => ?_
      have has : F.Has (bound.getD source) := by
        cases bound with
        | some t => exact hb t rfl
        | none => exact hs
      exact Sim.pure has has rfl
    · exact Sim.pure hs hs rfl
  exact called.bind fun t ht => agrees_assignCalled hj hm hj.itself hd ht.exchanged

end

/-! ## Properties -/

section

variable (hw : F.Covers w) (hj : L.Judges j j')
include hw hj

/-- The classes of a pair belong to the fragment. -/
structure HasPair (F : Fragment) (w : World) (p : PropertyPair) : Prop where
  dest : F.HasClass p.dest
  source : F.HasClass p.source
  destOwner : F.Sees w p.destOwner
  sourceOwner : F.HasClass p.sourceOwner
  self : ∀ σ, p.self = some σ → F.HasSolution σ

theorem agrees_compareAccessors {p : PropertyPair} (hp : HasPair F w p) {dest source : FunctionTy}
    (hd : F.HasFunction dest ∧ F.Bindable dest) (hs : F.HasFunction source ∧ F.Bindable source) :
    L.Agrees ρ (p.compare w j dest source) (p.compare w j' dest source) := by
  have receiver : F.HasReceiver (.of (.cls p.sourceOwner.toInstance)) :=
    Fragment.hasReceiver_of hp.sourceOwner.toInstance
  refine (Sim.demand hs.1.settled hs.1.settled).bind fun _ _ => ?_
  refine (Sim.lift (Fragment.steady_specializeFunction hw.toScopes hs.1
    (hp.sourceOwner.sees hw.toScopes))).bind fun s hs' => ?_
  have required : L.Sim ρ (fun g => F.HasFunction g ∧ F.Bindable g) (· = ·)
      (p.required w dest) (p.required w dest) := by
    have specialized := Fragment.steady_specializeFunction hw.toScopes hd.1 hp.destOwner
    refine (Sim.lift specialized).bind fun d hd' => ?_
    have here : F.HasFunction d ∧ F.Bindable d := ⟨hd'.1, hd'.2 hd.2⟩
    cases hσ : p.self with
    | none => exact Sim.pure here here rfl
    | some σ =>
      have substituted := Fragment.steady_substituteFunction hw.toScopes (hp.self σ hσ) here.1
      refine (Sim.lift substituted).imp ?_ ?_
      · exact fun g hg => ⟨hg.1, hg.2 here.2⟩
      · exact fun _ _ _ _ h => h
  refine required.bind fun d hd' => ?_
  refine (sim_bindFunction hw hj receiver hd'.1 hd'.2 Fragment.hasClass_of_none).bind
    fun bd hbd => ?_
  refine (sim_bindFunction hw hj receiver hs'.1 (hs'.2 hs.2) Fragment.hasClass_of_none).bind
    fun bs hbs => ?_
  cases bd with
  | none => exact Agrees.pure false
  | some bd =>
    cases bs with
    | none => exact Agrees.pure false
    | some bs =>
      refine Sim.child (hj (Regime.modes_refl ρ _) ?_ ?_)
      · exact Fragment.hasOption_some (hbd bd rfl)
      · exact Fragment.hasOption_some (hbs bs rfl)

theorem agrees_assignAccessor {p : PropertyPair} (hp : HasPair F w p) (accessor : Accessor) :
    L.Agrees ρ (p.assignAccessor w j accessor) (p.assignAccessor w j' accessor) := by
  unfold PropertyPair.assignAccessor
  cases hd : accessor.of (w.classes.decl p.dest.id) with
  | none => exact Agrees.pure true
  | some dest =>
    cases hs : accessor.of (w.classes.decl p.source.id) with
    | none => exact Agrees.refuse _ _ _ _
    | some source =>
      refine Agrees.explained ?_ (Quiet.tell _ _) (Quiet.tell _ _)
      exact agrees_compareAccessors hw hj hp (hw.accessors hp.dest.ids accessor dest hd)
        (hw.accessors hp.source.ids accessor source hs)

theorem agrees_assignProperty {p : PropertyPair} (hp : HasPair F w p) :
    L.Agrees ρ (assignProperty w j p) (assignProperty w j' p) :=
  Agrees.allOf fun accessor _ => agrees_assignAccessor hw hj hp accessor

omit hj in
private theorem sim_getterType {property : ClassTy} (h : F.HasClass property) :
    L.Sim ρ F.HasOption (· = ·) (getterType w property true) (getterType w property true) := by
  unfold getterType
  cases hg : (w.classes.decl property.id).getter with
  | none => exact Sim.pure Fragment.hasOption_none Fragment.hasOption_none rfl
  | some getter =>
    have has := (hw.accessors h.ids .getter getter hg).1
    refine (Sim.demand has.settled has.settled).bind fun _ _ => Sim.inference.bind fun inf _ => ?_
    have found := Fragment.hasOption_some (has.returnType inf)
    exact Sim.pure found found rfl

end

/-! ## Protocols -/

/-- A requirement of a protocol of the fragment. -/
structure HasRequirement (F : Fragment) (w : World) (r : Requirement) : Prop where
  owner : F.HasClass r.owner
  protocol : (w.classes.decl r.owner.id).flags.protocol = true
  declared : (r.name, r.member) ∈ (w.classes.decl r.owner.id).members.entries

theorem hasRequirement_of_mem (hw : F.Covers w) {protocol : ClassTy} (hp : F.HasClass protocol)
    {asObject : Bool} {r : Requirement} (h : r ∈ Requirement.all w.classes asObject protocol) :
    HasRequirement F w r := by
  obtain ⟨ho, declared⟩ := Requirement.declared_of_mem_all h
  obtain ⟨ho, isProtocol⟩ := List.mem_filter.1 ho
  obtain ⟨a, ha, hc⟩ := List.mem_filterMap.1 ho
  refine ⟨?_, isProtocol, declared⟩
  cases a with
  | unresolved t mark => cases hc
  | resolved c =>
    have owner : c = r.owner := Option.some.inj hc
    subst owner
    rcases List.mem_cons.1 ha with hc | hc
    · rw [Ancestor.resolved.inj hc]
      exact hp.generic
    · exact hw.mro hp.ids _ hc

/-- The class whose members are looked at, and what stands for the receiver's class, belong to the
fragment. -/
structure HasMatch (F : Fragment) (m : Match) : Prop where
  candidate : F.HasClass m.candidate
  self : F.HasSolution m.self

theorem hasMatch_of (hw : F.Covers w) {protocol candidate : ClassTy} (hp : F.HasClass protocol)
    (hc : F.HasClass candidate) (asObject : Bool) :
    HasMatch F (Match.of w protocol candidate asObject) := by
  refine ⟨?_, Fragment.hasSolution_withSelf hw.toScopes hp.ids hc (Fragment.hasSolution_forScope _)
    (.inr rfl)⟩
  unfold Match.of
  dsimp only
  split
  · exact hw.typedDict
  · exact hc

section

variable (hw : F.Covers w)
include hw

theorem sim_seenFrom {r : Requirement} (hr : HasRequirement F w r) (protocol : ClassTy) {t : Ty}
    (ht : F.HasMember t) :
    L.Sim ρ F.HasMember (· = ·) (r.seenFrom w protocol t) (r.seenFrom w protocol t) := by
  unfold Requirement.seenFrom
  split
  · exact Sim.pure ht ht rfl
  · exact Sim.lift (Fragment.steady_specialize hw.toScopes ht hr.owner Fragment.hasClass_of_none)

theorem sim_find {m : Match} (hm : HasMatch F m) (name : String) :
    L.Sim ρ (fun r => ∀ found, r = some found → F.FoundIn w name found.1) (· = ·)
      (m.find w name) (m.find w name) := by
  have onMetaclass : L.Sim ρ (fun r => ∀ found, r = some found → F.FoundIn w name found) (· = ·)
      (m.findOnMetaclass w name) (m.findOnMetaclass w name) := by
    unfold Match.findOnMetaclass
    cases hc : w.classes.metaclass? m.candidate with
    | none => exact Sim.pure (fun _ h => nomatch h) (fun _ h => nomatch h) rfl
    | some metaclass =>
      dsimp only
      split
      · exact Sim.lift (Fragment.steady_lookup hw (hw.metaclass hm.candidate.ids metaclass hc) name)
      · exact Sim.pure (fun _ h => nomatch h) (fun _ h => nomatch h) rfl
  refine onMetaclass.bind fun r hr => ?_
  cases r with
  | some found =>
    have inside : ∀ f, some (found, true) = some f → F.FoundIn w name f.1 := by
      rintro _ ⟨⟩
      exact hr found rfl
    exact Sim.pure inside inside rfl
  | none =>
    refine (Sim.lift (Fragment.steady_lookup hw hm.candidate name)).bind fun r hr => ?_
    have inside : ∀ f, r.map (fun f => (f, false)) = some f → F.FoundIn w name f.1 := by
      intro f hf
      obtain ⟨found, hfound, rfl⟩ := Option.map_eq_some_iff.1 hf
      exact hr found hfound
    exact Sim.pure inside inside rfl

theorem sim_foundType {m : Match} (hm : HasMatch F m) {name : String} {found : FoundMember}
    (hf : F.FoundIn w name found) :
    L.Sim ρ F.HasMember (· = ·) (m.foundType w found) (m.foundType w found) := by
  unfold Match.foundType
  cases ho : found.owner with
  | none =>
    have has : F.HasMember .unknown := ⟨.unknown, fun _ h => (nomatch h), fun _ h => (nomatch h)⟩
    exact Sim.pure has has rfl
  | some owner =>
    obtain ⟨hc, mem⟩ := hf owner ho
    refine Sim.inference.bind fun inf hinf => ?_
    rw [hinf]
    have demanded : L.Sim ρ (fun _ => True) (· = ·)
        (Match.demandPlain (found.member.effectiveType F.inf))
        (Match.demandPlain (found.member.effectiveType F.inf)) := by
      unfold Match.demandPlain
      split
      · rename_i f hf
        have settled := hw.settled hc.ids mem hf
        exact Sim.demand settled settled
      · exact Sim.pure trivial trivial rfl
    exact demanded.bind fun _ _ => Sim.lift (Fragment.steady_found hw hc hm.candidate mem)

variable (hj : L.Judges j j')
include hj

private theorem sim_boundOr {r : Receiver} (hr : F.HasReceiver r) {t : Ty} (ht : F.HasMember t)
    {owner : Option ClassTy} (ho : ∀ c, owner = some c → F.HasClass c) :
    L.Sim ρ F.Has (· = ·) (Match.boundOr w j r t owner) (Match.boundOr w j' r t owner) := by
  refine (sim_bind hw hj hr ho ht).bind fun bound hb => ?_
  cases bound with
  | some b => exact Sim.lift (Fragment.steady_dropSpecRest (hb b rfl))
  | none => exact Sim.pure ht.has ht.has rfl

theorem sim_comparedTypes {m : Match} (hm : HasMatch F m) {found : FoundMember}
    (hf : ∀ c, found.owner = some c → F.HasClass c) {fromMetaclass : Bool} {dest source : Ty}
    (hd : F.HasMember dest) (hs : F.HasMember source) :
    L.Sim ρ (fun p => F.Has p.1 ∧ F.Has p.2) (· = ·)
      (m.comparedTypes w j found fromMetaclass dest source)
      (m.comparedTypes w j' found fromMetaclass dest source) := by
  have receiver : F.HasReceiver m.receiver := by
    refine Fragment.hasReceiver_of ?_
    split
    · exact hm.candidate
    · exact hm.candidate.toInstance
  have substituted : L.Sim ρ F.HasMember (· = ·) (lift (dest.substitute w.classes m.self false))
      (lift (dest.substitute w.classes m.self false)) :=
    Sim.lift (Fragment.steady_substitute hw.toScopes hm.self hd)
  unfold Match.comparedTypes
  split
  · exact substituted.bind fun d hd => Sim.pure ⟨hd.has, hs.has⟩ ⟨hd.has, hs.has⟩ rfl
  · split
    · have object : F.HasReceiver ⟨some (.cls m.candidate), false, some (.cls m.candidate)⟩ :=
        ⟨⟨_, rfl, hm.candidate⟩, Fragment.hasOption_some hm.candidate⟩
      refine (sim_boundOr hw hj object hs Fragment.hasClass_of_none).bind fun s hs => ?_
      refine (sim_boundOr hw hj object hd Fragment.hasClass_of_none).bind fun d hd => ?_
      exact Sim.pure ⟨hd, hs⟩ ⟨hd, hs⟩ rfl
    · refine substituted.bind fun d hd => ?_
      refine (sim_boundOr hw hj receiver hs hf).bind fun s hs => ?_
      have instanceOf : F.HasReceiver (.of (.cls m.candidate.toInstance)) :=
        Fragment.hasReceiver_of hm.candidate.toInstance
      refine (sim_boundOr hw hj instanceOf hd hf).bind fun d hd => ?_
      exact Sim.pure ⟨hd, hs⟩ ⟨hd, hs⟩ rfl

omit hw hj in
theorem has_of_property? {t : Ty} (ht : F.Has t) {c : ClassTy}
    (h : Match.property? w t = some c) : F.HasClass c := by
  unfold Match.property? at h
  obtain ⟨d, hd, hc⟩ := Option.bind_eq_some_iff.1 h
  rw [Fragment.eq_of_asInstance? hd] at ht
  split at hc
  · cases hc
    exact Fragment.HasClass.toClassObject ht
  · cases hc

omit hw hj in
private theorem assignToProperty_of_read {m : Match} {r : Requirement} {property : ClassTy} {t : Ty}
    (plain : Match.property? w t = none ∨ m.asObject = true) (j : Judge) :
    m.assignToProperty w j r property t = (getterType w property true >>= fun
      | none => pure false
      | some dest => child (j.assign m.mode (some dest) (some t))) := by
  unfold Match.assignToProperty
  cases found : Match.property? w t with
  | none => rfl
  | some c =>
    cases asked : m.asObject with
    | true => rfl
    | false => simp [found, asked] at plain

omit hj in
/-- What is no property itself is compared with what the property returns when it is read. -/
theorem agrees_assignToRead {m m' : Match} {r : Requirement} {property : ClassTy}
    (hp : F.HasClass property) {t u : Ty} (plain : Match.property? w t = none ∨ m.asObject = true)
    (plain' : Match.property? w u = none ∨ m'.asObject = true)
    (compared : ∀ {dest : Ty}, F.Has dest →
      L.Agrees ρ (j.assign m.mode (some dest) (some t)) (j'.assign m'.mode (some dest) (some u))) :
    L.Agrees ρ (m.assignToProperty w j r property t) (m'.assignToProperty w j' r property u) := by
  rw [assignToProperty_of_read plain, assignToProperty_of_read plain']
  refine (sim_getterType hw hp).bind fun dest hd => ?_
  cases dest with
  | none => exact Agrees.pure false
  | some dest => exact (compared (hd dest rfl)).child

theorem agrees_assignToProperty {m : Match} (hm : HasMatch F m) {r : Requirement}
    (hr : F.Sees w r.owner) {property : ClassTy} (hp : F.HasClass property) {source : Ty}
    (hs : F.Has source) :
    L.Agrees ρ (m.assignToProperty w j r property source)
      (m.assignToProperty w j' r property source) := by
  have read (plain : Match.property? w source = none ∨ m.asObject = true) :
      L.Agrees ρ (m.assignToProperty w j r property source)
        (m.assignToProperty w j' r property source) :=
    agrees_assignToRead hw hp plain plain fun hd =>
      hj (Regime.modes_refl ρ _) (Fragment.hasOption_some hd) (Fragment.hasOption_some hs)
  cases found : Match.property? w source with
  | none => exact read (.inl found)
  | some c =>
    cases asked : m.asObject with
    | true => exact read (.inr asked)
    | false =>
      have self : ∀ σ, some m.self = some σ → F.HasSolution σ := by
        rintro _ ⟨⟩
        exact hm.self
      have pair : HasPair F w ⟨property, c, r.owner, m.candidate, some m.self⟩ :=
        ⟨hp, has_of_property? hs found, hr, hm.candidate, self⟩
      unfold Match.assignToProperty
      rw [found, asked]
      exact (agrees_assignProperty hw hj pair).child

omit hw hj in
theorem quiet_tellMember (r : Requirement) : Quiet (do
    if r.member.isMutableVariable then Match.tellMember .memberInvariant r
    Match.tellMember .memberMismatch r) := by
  split
  · exact (Quiet.tell _ _).bind (Quiet.tell _ _)
  · exact Quiet.tell _ _

omit hw hj in
/-- A member is compared as a property if a property is asked for, and as it is otherwise. -/
theorem agrees_assignMember_of {m m' : Match} {r : Requirement} {dest t u : Ty} (hd : F.Has dest)
    (read : ∀ {property : ClassTy}, F.HasClass property →
      L.Agrees ρ (m.assignToProperty w j r property t) (m'.assignToProperty w j' r property u))
    (compared : L.Agrees ρ
      (j.assign { m.mode with invariant := r.member.isMutableVariable } (some dest) (some t))
      (j'.assign { m'.mode with invariant := r.member.isMutableVariable } (some dest) (some u))) :
    L.Agrees ρ (m.assignMember w j r dest t) (m'.assignMember w j' r dest u) := by
  unfold Match.assignMember
  cases asked : Match.property? w dest with
  | some property =>
    exact Agrees.explained (read (has_of_property? hd asked)) (Quiet.tell _ _) (Quiet.tell _ _)
  | none => exact Agrees.explained (Sim.child compared) (quiet_tellMember r) (quiet_tellMember r)

theorem agrees_assignMember {m : Match} (hm : HasMatch F m) {r : Requirement}
    (hr : F.Sees w r.owner) {dest source : Ty} (hd : F.Has dest) (hs : F.Has source) :
    L.Agrees ρ (m.assignMember w j r dest source) (m.assignMember w j' r dest source) :=
  agrees_assignMember_of hd (fun hp => agrees_assignToProperty hw hj hm hr hp hs)
    (hj (Regime.modes_refl ρ _) (Fragment.hasOption_some hd) (Fragment.hasOption_some hs))

omit hw hj in
theorem agrees_agreeOnFinal (r : Requirement) {found found' : FoundMember}
    (same : found'.member.isFinal = found.member.isFinal) :
    L.Agrees ρ (Match.agreeOnFinal r found) (Match.agreeOnFinal r found') := by
  unfold Match.agreeOnFinal
  rw [same]
  split
  · exact Agrees.pure true
  · exact Agrees.refuse _ _ _ _

omit hw hj in
theorem agrees_agreeOnClassVar (r : Requirement) {found found' : FoundMember}
    (same : found'.member.flags = found.member.flags) :
    L.Agrees ρ (Match.agreeOnClassVar r found) (Match.agreeOnClassVar r found') := by
  unfold Match.agreeOnClassVar
  rw [same]
  split
  · exact Agrees.refuse _ _ _ _
  · exact Agrees.pure true

theorem agrees_matchType {m : Match} (hm : HasMatch F m) {r : Requirement}
    (hr : HasRequirement F w r) {found : FoundMember} (hf : F.FoundIn w r.name found)
    (fromMetaclass : Bool) :
    L.Agrees ρ (m.matchType w j r found fromMetaclass)
      (m.matchType w j' r found fromMetaclass) := by
  unfold Match.matchType
  cases ht : r.member.declaredType with
  | none => exact Agrees.pure true
  | some t =>
    have member := hw.required hr.owner.ids hr.protocol hr.declared ht
    refine (sim_seenFrom hw hr m.protocol member).bind fun dest hd => ?_
    refine (sim_foundType hw hm hf).bind fun source hs => ?_
    refine (sim_comparedTypes hw hj hm (fun c hc => (hf c hc).1) hd hs).bind fun types has => ?_
    have sees := hr.owner.sees hw.toScopes
    exact Sim.child ((agrees_assignMember hw hj hm sees has.1 has.2).both
      (agrees_agreeOnFinal r rfl))

theorem agrees_matchMember {m : Match} (hm : HasMatch F m) {r : Requirement}
    (hr : HasRequirement F w r) :
    L.Agrees ρ (m.matchMember w j r) (m.matchMember w j' r) := by
  refine (sim_find hw hm r.name).bind fun found hf => ?_
  cases found with
  | none => exact Agrees.refuse _ _ _ _
  | some found =>
    exact (agrees_matchType hw hj hm hr (hf found rfl) _).both (agrees_agreeOnClassVar r rfl)

theorem agrees_matchModuleMember {protocol : ClassTy} (hp : F.HasClass protocol) (table : TableId)
    {r : Requirement} (hr : HasRequirement F w r) :
    L.Agrees ρ (matchModuleMember w j protocol (w.moduleMembers table) r)
      (matchModuleMember w j' protocol (w.moduleMembers table) r) := by
  unfold matchModuleMember
  cases hfind : (w.moduleMembers table).find? r.name with
  | none => exact Agrees.refuse _ _ _ _
  | some member =>
    cases ht : r.member.declaredType with
    | none => exact Agrees.pure true
    | some t =>
      have required := hw.required hr.owner.ids hr.protocol hr.declared ht
      refine Sim.inference.bind fun inf hinf => ?_
      rw [hinf]
      have source := hw.modules table _ (Fragment.MemberTable.mem_of_find? hfind)
      have dest : L.Sim ρ F.Has (· = ·)
          (moduleRequiredType w j protocol r t (member.effectiveType F.inf))
          (moduleRequiredType w j' protocol r t (member.effectiveType F.inf)) := by
        refine (sim_seenFrom hw hr protocol required).bind fun d hd => ?_
        split
        · refine (sim_bind hw hj (Fragment.hasReceiver_of hp.toInstance)
            (fun c hc => Option.some.inj hc ▸ hp) hd).bind fun bound hb => ?_
          have has : F.Has (bound.getD d) := by
            cases bound with
            | some b => exact hb b rfl
            | none => exact hd.has
          exact Sim.pure has has rfl
        · exact Sim.pure hd.has hd.has rfl
      refine dest.bind fun d hd => ?_
      refine (Agrees.explained (Sim.child (hj (Regime.modes_refl ρ _) ?_ ?_)) (Quiet.tell _ _)
        (Quiet.tell _ _)).child
      · exact Fragment.hasOption_some hd
      · exact Fragment.hasOption_some source

variable {mode mode' : Mode} (hm : ρ.Modes mode mode')
include hm

theorem agrees_meetAll {protocol : ClassTy} (hp : F.HasClass protocol) {rs : List Requirement}
    {meets meets' : Requirement → Check Bool}
    (h : ∀ r ∈ rs, L.Agrees .same (meets r) (meets' r)) :
    L.Agrees ρ (meetAll w j mode protocol rs meets) (meetAll w j' mode' protocol rs meets') := by
  have solved : L.Sim ρ (fun p => F.HasSolution p.2) (fun p p' => F.Agree p.1 p'.1 ∧ p.2 = p'.2)
      (solvingFor (some (Solution.forScope (w.classes.decl protocol.id).scope)) do
        let met ← allOf meets rs
        let σ ← solution
        pure (met, σ.getD .empty))
      (solvingFor (some (Solution.forScope (w.classes.decl protocol.id).scope)) do
        let met ← allOf meets' rs
        let σ ← solution
        pure (met, σ.getD .empty)) := by
    have apart : F.wide ∨ ∀ v, F.vars v → v.scope ≠ (w.classes.decl protocol.id).scope :=
      hw.apart.imp id fun apart => apart hp.ids
    refine Sim.solvingFor (Fragment.solving_forScope apart) ?_
    refine (Agrees.allOf h).bindWith (fun b _ => F.agree_refl b) fun met met' _ _ hmet => ?_
    refine Sim.solution.bind fun σ hσ => ?_
    have has : F.HasSolution (σ.getD .empty) := by
      cases σ with
      | some τ => exact hσ.has τ rfl
      | none => exact Fragment.hasSolution_empty
    exact Sim.pure has has ⟨hmet, rfl⟩
  unfold meetAll
  dsimp only
  refine solved.bindWith (fun p _ => ⟨F.agree_refl p.1, rfl⟩) fun (met, σ) (met', σ') hσ _ he => ?_
  obtain ⟨hmet, rfl⟩ : F.Agree met met' ∧ σ = σ' := he
  dsimp only
  by_cases hf : F.wide
  · cases hmet.2 hf
    split
    · refine (Sim.lift (Fragment.steady_substituteClass hw.toScopes hσ (.inl hf) hp.generic)).bind
        fun found hfound => ?_
      exact agrees_assignArguments hj hm hp hfound.1
    · exact Agrees.pure met
  · have none_left : (w.classes.decl protocol.id).params.isEmpty = true := by
      rw [hw.params_eq_nil hf hp.ids]
      rfl
    simp only [none_left, Bool.not_true, Bool.and_false, Bool.false_and, Bool.false_eq_true,
      if_false]
    exact Sim.pure trivial trivial hmet

theorem agrees_matchMembers (asObject : Bool) {protocol candidate : ClassTy}
    (hp : F.HasClass protocol) (hc : F.HasClass candidate) :
    L.Agrees ρ (matchMembers w j mode asObject protocol candidate)
      (matchMembers w j' mode' asObject protocol candidate) := by
  unfold matchMembers
  rw [← hm.invariant]
  split
  · exact Sim.inference.bind fun inf _ => Agrees.pure _
  · exact agrees_meetAll hw hj hm hp fun r hr =>
      agrees_matchMember hw hj (hasMatch_of hw hp hc asObject) (hasRequirement_of_mem hw hp hr)

theorem agrees_matchModule {protocol : ClassTy} (hp : F.HasClass protocol) (table : TableId) :
    L.Agrees ρ (matchModule w j mode protocol table) (matchModule w j' mode' protocol table) :=
  agrees_meetAll hw hj hm hp.toClassObject fun _ hr =>
    agrees_matchModuleMember hw hj hp.toClassObject table
      (hasRequirement_of_mem hw hp.toClassObject hr)

end

/-! ## Classes -/

/-- The answers of the second judge follow those of the first. Protocols are asked for only where
the types need not be the same. -/
structure Follows (L : Link F) (j j' : Judge) : Prop where
  assign : L.Judges j j'
  conforms {ρ : Regime} {m m' : Mode} (hm : ρ.Modes m m') (hv : m.invariant = false)
    (asObject : Bool) {protocol candidate : ClassTy} (hp : F.HasClass protocol)
    (hc : F.HasClass candidate) :
    L.Agrees ρ (j.conforms m asObject protocol candidate)
      (j'.conforms m' asObject protocol candidate)
  modules {ρ : Regime} {m m' : Mode} (hm : ρ.Modes m m') {protocol : ClassTy}
    (hp : F.HasClass protocol) (name : String) (table : TableId) :
    L.Agrees ρ (j.moduleConforms m protocol name table) (j'.moduleConforms m' protocol name table)

section

variable (hw : F.Covers w)
include hw

private theorem sim_ancestorOf {source ancestor : ClassTy} (hs : F.HasClass source)
    (ha : F.HasClass ancestor) :
    L.Sim ρ F.HasClass (· = ·) (ancestorOf w source ancestor) (ancestorOf w source ancestor) := by
  unfold ancestorOf
  split
  · exact Sim.pure hs.toClassObject hs.toClassObject rfl
  · exact (Sim.lift (Fragment.steady_specializeClass hw.toScopes ha hs)).imp (fun _ h => h.1)
      fun _ _ _ _ h => h

variable (hj : L.Follows j j') {m m' : Mode} (hm : ρ.Modes m m')
include hj hm

theorem agrees_assignCallableToClass {S : Ty → Ty → Prop} (he : L.Exchanges S j j')
    {dest : ClassTy} (hd : F.HasClass dest) {t u : Ty} (h : S t u) :
    L.Agrees ρ (assignCallableToClass w j m dest t) (assignCallableToClass w j' m' dest u) := by
  unfold assignCallableToClass
  split
  · refine (sim_boundCall hw hj.assign hd).bind fun call hc => ?_
    cases call with
    | none => exact Agrees.refuse _ _ _ _
    | some call => exact he hm (hc call rfl) h
  · exact Agrees.refuse _ _ _ _

variable (hv : m.invariant = false)
include hv

theorem agrees_assignClassToClass {dest source : ClassTy} (hd : F.HasClass dest)
    (hs : F.HasClass source) :
    L.Agrees ρ (assignClassToClass w j m dest source) (assignClassToClass w j' m' dest source) := by
  unfold assignClassToClass
  dsimp only
  split
  · split
    · exact Agrees.pure true
    · exact Agrees.mismatch _ _ _
  · split
    · exact Agrees.pure true
    · split
      · exact Agrees.pure true
      · rename_i ancestor hfound
        have has : F.HasClass ancestor := by
          rcases List.mem_cons.1 (mem_of_findAncestor hfound) with h | h
          · rw [Ancestor.resolved.inj h]
            exact hs.toClassObject
          · exact hw.mro hs.ids _ h
        split
        · exact Agrees.pure true
        · exact (sim_ancestorOf hw hs has).bind fun a ha =>
            agrees_assignArguments hj.assign hm hd ha
      · split
        · exact hj.conforms hm hv false hd hs
        · exact Agrees.mismatch _ _ _

theorem agrees_assignClassObject {dest source : ClassTy} (hd : F.HasClass dest)
    (hs : F.HasClass source) :
    L.Agrees ρ (assignClassObject w j m dest source) (assignClassObject w j' m' dest source) := by
  unfold assignClassObject
  split
  · exact hj.conforms hm hv true hd hs
  · split
    · exact Agrees.pure true
    · split
      · rename_i metaclass hmeta
        have has := (hw.metaclass hs.ids metaclass hmeta).toInstance
        split
        · exact Agrees.mismatch _ _ _
        · exact hj.assign hm (Fragment.hasOption_some hd) (Fragment.hasOption_some has)
      · exact Agrees.mismatch _ _ _

theorem agrees_assignToClass {dest : ClassTy} (hd : F.HasClass dest) {source : Ty}
    (hs : F.Has source) :
    L.Agrees ρ (assignToClass w j m dest source) (assignToClass w j' m' dest source) := by
  unfold assignToClass
  split
  · exact Agrees.pure true
  · split
    · split
      · exact agrees_assignClassToClass hw hj hm hv hd hs
      · split
        · exact agrees_assignClassObject hw hj hm hv hd hs
        · exact Agrees.mismatch _ _ _
    · split
      · exact hj.modules hm hd _ _
      · exact Agrees.mismatch _ _ _
    · exact agrees_assignCallableToClass hw hj hm (Judges.itself hj.assign) hd ⟨hs, rfl⟩
    · exact agrees_assignCallableToClass hw hj hm (Judges.itself hj.assign) hd ⟨hs, rfl⟩
    · exact Agrees.mismatch _ _ _

/-! ## Assignability -/

omit hw hv in
theorem agrees_assignFromUnion {dest : Ty} (hd : F.Has dest) {members : List Ty}
    (hs : ∀ t ∈ members, F.Has t) :
    L.Agrees ρ (assignFromUnion w j m dest members) (assignFromUnion w j' m' dest members) := by
  refine Agrees.orRefuse (Agrees.allOf fun t ht => ?_) (fun ρ => Agrees.mismatch _ _ _)
    (Calm.mismatch _ _ _)
  exact Sim.child
    (hj.assign hm (Fragment.hasOption_some hd) (Fragment.hasOption_some (hs t ht)))

omit hw hj hv in
theorem agrees_assignToUnion {S : Ty → Ty → Prop} (he : L.Exchanges S j j') {members : List Ty}
    (hd : ∀ t ∈ members, F.Has t) {t u : Ty} (h : S t u) :
    L.Agrees ρ (assignToUnion w j m members t) (assignToUnion w j' m' members u) := by
  have fits : L.Agrees ρ
      (silently (anyOf (fun d => attempt (j.assign m (some d) (some t))) members))
      (silently (anyOf (fun d => attempt (j'.assign m' (some d) (some u))) members)) :=
    Sim.silently (Agrees.anyOf fun d mem => (he hm (hd d mem) h).attempt)
  exact Agrees.ite fits (Agrees.pure true) (Agrees.refuse _ _ _ _)
    fun hw => Agrees.of_no hw (Calm.refuse _ _) (.pure trivial)

omit hw hj hm hv in
/-- Two sources are compared alike by the shape of a destination if they are where it is a class or
is called, and are both the same as the destination or neither. -/
theorem agrees_assignByShape {dest t u : Ty} (hd : F.Has dest)
    (same : dest.same F.inf u = dest.same F.inf t)
    (classes : ∀ {c : ClassTy}, F.HasClass c →
      L.Agrees ρ (assignToClass w j m c t) (assignToClass w j' m' c u))
    (called : L.Agrees ρ (assignToCallable w j m dest t) (assignToCallable w j' m' dest u)) :
    L.Agrees ρ (assignByShape w j m dest t) (assignByShape w j' m' dest u) := by
  unfold assignByShape
  cases dest with
  | cls c => exact classes hd
  | function | overloaded => exact called
  | noneObject | module => exact agrees_sameOr same (Agrees.refuse _ _ _ _)
  | _ => exact Agrees.refuse _ _ _ _

omit hv in
theorem agrees_assignProper {dest source : Ty} (hd : F.Has dest) (hs : F.Has source) :
    L.Agrees ρ (assignProper w j m dest source) (assignProper w j' m' dest source) := by
  unfold assignProper
  rw [← hm.invariant]
  split
  · exact agrees_assignInvariant hj.assign hm hd hs
  · rename_i hv
    have hv : m.invariant = false := Bool.eq_false_iff.2 hv
    split
    · rename_i v
      refine hj.assign hm (Fragment.hasOption_some hd) (Fragment.hasOption_some ?_)
      cases hs with
      | var _ bound =>
        unfold boundOf
        cases hb : v.bound with
        | some t => exact bound t hb
        | none => exact .cls hw.object (.inr ⟨rfl, rfl⟩) fun _ ht => nomatch ht
    · rename_i members
      cases hs with
      | union each _ => exact agrees_assignFromUnion hj hm hd each
    · rename_i members _ _
      cases hd with
      | union each _ => exact agrees_assignToUnion hm (Judges.itself hj.assign) each ⟨hs, rfl⟩
    · exact agrees_assignByShape hd rfl (fun hc => agrees_assignToClass hw hj hm hv hc hs)
        (agrees_assignToCallable hj.assign hm hw hd hs)

end

section

variable (hw : F.Covers w) (hj : L.Follows j j')
include hj

theorem agrees_assignToVar {m : Mode} {v : TypeVar} (hd : F.Has (.var v)) {source : Ty}
    (hs : F.Has source) :
    L.Agrees .same (assignToVar w j m v source) (assignToVar w j' m v source) := by
  refine Sim.inference.bind fun inf _ => Sim.solution.bind fun σ hσ => ?_
  split
  · exact Agrees.pure true
  · split
    · rename_i hsolve
      rw [Bool.and_eq_true] at hsolve
      exact agrees_solveVar hj.assign (hσ.wide hd hsolve.2) hd hs
    · split
      · exact Agrees.pure true
      · exact Agrees.mismatch _ _ _

include hw

private theorem agrees_assignTy_same {m : Mode} {dest source : Ty} (hd : F.Has dest)
    (hs : F.Has source) :
    L.Agrees .same (assignTy w j m dest source) (assignTy w j' m dest source) := by
  refine Sim.solution.bind fun σ hσ => ?_
  split
  · rename_i v hv
    obtain ⟨rfl, hsolve⟩ : source = .var v ∧ σ.any (·.solves v.scope) = true := by
      unfold reverseVar? at hv
      split at hv
      · split at hv
        · rename_i hsolve
          cases hv
          rw [Bool.and_eq_true] at hsolve
          exact ⟨rfl, hsolve.2⟩
        · cases hv
      · cases hv
    exact agrees_solveVar hj.assign (hσ.wide hs hsolve) hs hd
  · split
    · exact agrees_assignToVar hj hd hs
    · split
      · exact Agrees.pure true
      · exact agrees_assignProper hw hj (Regime.modes_refl .same m) hd hs

end

/-- Compares two types where no variable of the fragment is to be solved. -/
def assignUnsolved (w : World) (j : Judge) (mode : Mode) (dest source : Ty) : Check Bool := do
  match dest with
  | .var v =>
    let inf ← inference
    if (Ty.var v).same inf source then pure true
    else if source.isAnyOrUnknown then pure true
    else mismatch w source (.var v)
  | _ =>
    if dest.isAnyOrUnknown || source.isAnyOrUnknown then pure true
    else assignProper w j mode dest source

theorem agrees_assignUnsolved {m m' : Mode} {dest t u : Ty}
    (same : dest.same F.inf u = dest.same F.inf t) (known : u.isAnyOrUnknown = t.isAnyOrUnknown)
    (proper : L.Agrees ρ (assignProper w j m dest t) (assignProper w j' m' dest u)) :
    L.Agrees ρ (assignUnsolved w j m dest t) (assignUnsolved w j' m' dest u) := by
  unfold assignUnsolved
  rw [known]
  split
  · refine agrees_sameOr same ?_
    split
    · exact Agrees.pure true
    · exact Agrees.refuse _ _ _ _
  · split
    · exact Agrees.pure true
    · exact proper

/-- Where no variable is solved for, the two types are compared as they are. -/
theorem exec_assignTy_of_unsolved {m : Mode} {dest source : Ty} (hd : F.Has dest) {s : CheckState}
    (hi : F.Idle s.solving) (reversed : reverseVar? m s.solving source = none) :
    exec (assignTy w j m dest source) s = exec (assignUnsolved w j m dest source) s := by
  have solving : exec solution s = (.ok s.solving, s) := rfl
  have asking : exec inference s = (.ok s.inference, s) := rfl
  unfold assignTy assignUnsolved
  rw [exec_bind_of_ok solving, reversed]
  cases dest with
  | var v =>
    have unsolved : s.solving.any (·.solves v.scope) = false := by
      cases hd with
      | var here _ => exact hi v here
    dsimp only
    unfold assignToVar
    rw [exec_bind_of_ok asking, exec_bind_of_ok solving, exec_bind_of_ok asking, unsolved]
    simp only [Bool.and_false, Bool.false_eq_true, if_false]
  | _ => rfl

private theorem exec_assignTy_of_idle {m : Mode} {dest source : Ty} (hd : F.Has dest)
    (hs : F.Has source)
    {s : CheckState} (hi : F.Idle s.solving) :
    exec (assignTy w j m dest source) s = exec (assignUnsolved w j m dest source) s := by
  refine exec_assignTy_of_unsolved hd hi ?_
  unfold reverseVar?
  split
  · rename_i v
    cases hs with
    | var here _ =>
      rw [hi v here, Bool.and_false]
      rfl
  · rfl

theorem agrees_assignTy (hw : F.Covers w) (hj : L.Follows j j') {m m' : Mode}
    (hm : ρ.Modes m m') {dest source : Ty} (hd : F.Has dest) (hs : F.Has source) :
    L.Agrees ρ (assignTy w j m dest source) (assignTy w j' m' dest source) := by
  cases ρ with
  | same =>
    cases hm
    exact agrees_assignTy_same hw hj hd hs
  | idle =>
    have linked : L.Agrees .idle (assignUnsolved w j m dest source)
        (assignUnsolved w j' m' dest source) :=
      agrees_assignUnsolved rfl rfl (agrees_assignProper hw hj hm hd hs)
    refine ⟨(agrees_assignTy_same hw hj hd hs).left, (agrees_assignTy_same hw hj hd hs).right,
      fun {s s' t t' b b'} hrel h h' hc => ?_⟩
    obtain ⟨idle, idle'⟩ := hrel.solving
    rw [exec_assignTy_of_idle hd hs idle] at h
    rw [exec_assignTy_of_idle hd hs idle'] at h'
    exact linked.link hrel h h' hc

theorem agrees_assignStep (hw : F.Covers w) (hj : L.Follows j j') {m m' : Mode}
    (hm : ρ.Modes m m') {dest source : Option Ty} (hd : F.HasOption dest)
    (hs : F.HasOption source) :
    L.Agrees ρ (assignStep w j m dest source) (assignStep w j' m' dest source) := by
  unfold assignStep
  split
  · split
    · exact Agrees.pure true
    · exact agrees_assignTy hw hj hm (hd _ rfl) (hs _ rfl)
  · exact Agrees.pure true

end Link

end Conformance
