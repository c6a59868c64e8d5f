import Conformance.Proofs.Validated

/-!
# Polarities

The variance that a validation takes a parameter to have is found by comparing two specializations.
Where the members of the protocol are declared by schemes, it is the one that the polarities of
the parameter call for: a positive place varies along with the parameter, a negative one the other
way round, and in a variable that may be assigned again, or under a fixed parameter of a class,
nothing may vary. The validation warns of the parameters that are declared otherwise, in their
order.
-/

namespace Conformance

open Check

variable {w : World} {P : ClassTy} {k : Nat}

/-- The members of a protocol vary in this way with the parameter at a place, at one of the places
where it occurs. -/
inductive World.Varies (w : World) (P : ClassTy) (k : Nat) : Variance → Prop
  | mutable {e : String × Member} {t : Ty} {v : TypeVar}
      (declared : e ∈ (w.classes.decl P.id).members.entries) (compared : e.2.IsCompared)
      (typed : e.2.declaredType = some t) (assigned : e.2.isMutableVariable = true)
      (stands : w.place P v = some k) (mentioned : t.Mentions v) : World.Varies w P k .invariant
  | used {e : String × Member} {t : Ty} {v : TypeVar} {u : Variance}
      (declared : e ∈ (w.classes.decl P.id).members.entries) (compared : e.2.IsCompared)
      (typed : e.2.declaredType = some t) (fixed : e.2.isMutableVariable = false)
      (stands : w.place P v = some k) (used : t.Uses w v u) : World.Varies w P k u

/-- The variance that the places where a parameter occurs call for. -/
structure World.CallsFor (w : World) (P : ClassTy) (k : Nat) (u : Variance) : Prop where
  covariant : u = .covariant ↔ ¬ w.Varies P k .contravariant ∧ ¬ w.Varies P k .invariant
  contravariant : u = .contravariant ↔
    w.Varies P k .contravariant ∧ ¬ w.Varies P k .covariant ∧ ¬ w.Varies P k .invariant

private theorem World.exists_callsFor (w : World) (P : ClassTy) (k : Nat) :
    ∃ u, w.CallsFor P k u := by
  by_cases against : w.Varies P k .contravariant
  · by_cases along : w.Varies P k .covariant
    · exact ⟨.invariant, by simp [against], by simp [along]⟩
    · by_cases fixed : w.Varies P k .invariant
      · exact ⟨.invariant, by simp [against], by simp [fixed]⟩
      · exact ⟨.contravariant, by simp [against], by simp [against, along, fixed]⟩
  · by_cases fixed : w.Varies P k .invariant
    · exact ⟨.invariant, by simp [fixed], by simp [fixed]⟩
    · exact ⟨.covariant, by simp [against, fixed], by simp [against]⟩

theorem World.CallsFor.unique {u u' : Variance} (h : w.CallsFor P k u) (h' : w.CallsFor P k u') :
    u = u' := by
  have along : u = .covariant ↔ u' = .covariant := h.covariant.trans h'.covariant.symm
  have against : u = .contravariant ↔ u' = .contravariant :=
    h.contravariant.trans h'.contravariant.symm
  cases u <;> cases u' <;> simp_all

/-! ## What the comparisons come to -/

private theorem allows_iff {along against equal : Nat → Prop}
    (others : ∀ i, i ≠ k → along i ∧ against i ∧ equal i) :
    (∀ e ∈ (w.classes.decl P.id).members.entries,
      e.2.Allows w (fun v => ∀ i, w.place P v = some i → along i)
        (fun v => ∀ i, w.place P v = some i → against i)
        (fun v => ∀ i, w.place P v = some i → equal i)) ↔
      ∀ u, w.Varies P k u → u.choose (along k) (against k) (equal k) := by
  have at_place (v : TypeVar) (u : Variance) :
      u.choose (∀ i, w.place P v = some i → along i) (∀ i, w.place P v = some i → against i)
        (∀ i, w.place P v = some i → equal i) ↔
      (w.place P v = some k → u.choose (along k) (against k) (equal k)) := by
    have only {p : Nat → Prop} (rest : ∀ i, i ≠ k → p i) :
        (∀ i, w.place P v = some i → p i) ↔ (w.place P v = some k → p k) := by
      constructor
      · exact fun h => h k
      · intro h i hi
        by_cases here : i = k
        · exact here ▸ h (here ▸ hi)
        · exact rest i here
    cases u with
    | covariant => exact only fun i hi => (others i hi).1
    | contravariant => exact only fun i hi => (others i hi).2.1
    | invariant => exact only fun i hi => (others i hi).2.2
  constructor
  · intro allowed u varies
    cases varies with
    | @mutable e t v declared compared typed assigned stands mentioned =>
      have here := allowed e declared compared t typed
      rw [if_pos assigned] at here
      exact here v mentioned k stands
    | @used e t v u declared compared typed fixed stands used =>
      have here := allowed e declared compared t typed
      rw [if_neg (by simp [fixed])] at here
      exact (at_place v u).1 (here v u used) stands
  · intro choice e declared compared t typed
    by_cases assigned : e.2.isMutableVariable = true
    · rw [if_pos assigned]
      intro v mentioned
      apply (at_place v .invariant).2
      intro stands
      exact choice .invariant (.mutable declared compared typed assigned stands mentioned)
    · rw [if_neg assigned]
      intro v u used
      apply (at_place v u).2
      intro stands
      exact choice u
        (.used declared compared typed (Bool.eq_false_iff.2 assigned) stands used)

private theorem expectedVariance_callsFor {inf : Inference} {c : ClassTy} (hP : w.Schematic P)
    (ho : w.HasObject) (bare : c.args = none) (ordinary : w.classes.isProperty c = false)
    {s : CheckState} (hs : s.Quiet inf) {u : Variance} (called : w.CallsFor P k u) :
    (exec (expectedVariance w (fitsItself w (judgeAt w 0)) P k (Builtin.instanceOf c)) s).1 =
      .ok u := by
  have hP' : w.Schematic P.toClassObject.generic :=
    ⟨hP.protocol, hP.generic, hP.bases, hP.names, hP.specs, hP.members⟩
  have compares := @compares_around w P.toClassObject.generic inf c ho bare ordinary k
  have up := @allows_iff w P k (fun _ => True) (· ≠ k) (· ≠ k) fun i hi => ⟨trivial, hi, hi⟩
  have down := @allows_iff w P k (· ≠ k) (fun _ => True) (· ≠ k) fun i hi => ⟨hi, trivial, hi⟩
  rw [expectedVariance_eq]
  obtain ⟨u', t, ran, along, against⟩ := variance_of_comparisons
    ((decides_fitsItself (F := .ofPlain inf) hP' compares).iff up)
    ((decides_fitsItself (F := .ofPlain inf) hP' compares.symm).iff down) hs
  have covariant : (∀ u, w.Varies P k u → u.choose True (k ≠ k) (k ≠ k)) ↔
      ¬ w.Varies P k .contravariant ∧ ¬ w.Varies P k .invariant := by
    constructor
    · exact fun h => ⟨fun varies => h _ varies rfl, fun varies => h _ varies rfl⟩
    · rintro ⟨against, fixed⟩ u varies
      cases u with
      | covariant => trivial
      | contravariant => exact absurd varies against
      | invariant => exact absurd varies fixed
  have contravariant : (∀ u, w.Varies P k u → u.choose (k ≠ k) True (k ≠ k)) ↔
      ¬ w.Varies P k .covariant ∧ ¬ w.Varies P k .invariant := by
    constructor
    · exact fun h => ⟨fun varies => h _ varies rfl, fun varies => h _ varies rfl⟩
    · rintro ⟨along, fixed⟩ u varies
      cases u with
      | covariant => exact absurd varies along
      | contravariant => trivial
      | invariant => exact absurd varies fixed
  have taken : w.CallsFor P k u' := by
    refine ⟨along.trans covariant, against.trans ?_⟩
    rw [covariant, contravariant]
    tauto
  rw [called.unique taken]
  exact congrArg Prod.fst ran

/-! ## Warnings -/

/-- The parameters that are declared with another variance than they are taken to have. -/
def misdeclared (derived : Nat → Variance) (k : Nat) (vs : List TypeVar) : List (TypeVar × Nat) :=
  (vs.zipIdx k).filter fun e => !e.1.isParamSpec && e.1.variance != derived e.2

/-- The report with a warning for each of these parameters. -/
def Report.warnVariances (r : Report) (name : String) (l : Location) (derived : Nat → Variance)
    (faults : List (TypeVar × Nat)) : Report :=
  faults.foldl (fun r e => r.warning l ((Wording.shouldBe (derived e.2)).format
    [("variable", e.1.name), ("class", name)]) .variance) r

private theorem misdeclared_cons (derived : Nat → Variance) (k : Nat) (v : TypeVar)
    (vs : List TypeVar) :
    misdeclared derived k (v :: vs) = misdeclared derived k [v] ++ misdeclared derived (k + 1) vs := by
  simp only [misdeclared, List.zipIdx_cons, List.zipIdx_nil, List.filter_cons, List.filter_nil]
  split <;> rfl

section

variable {fits : World → (dest source : ClassTy) → Check Bool} {l : Location} {other : Ty}
  {derived : Nat → Variance}

private theorem run_checkParamVariance {s : Session}
    (found : (exec (expectedVariance s.world (fits s.world) P k other)
      (Frame.entering s { Request.plain with explain := false })).1 = .ok (derived k))
    (v : TypeVar) :
    ∃ t, (ExceptT.run (Session.checkParamVariance fits P l other k v)).run s =
        (.ok (misdeclared derived k [v]).isEmpty, t) ∧
      t.report = s.report.warnVariances (s.world.classes.nameOf P.id) l derived
        (misdeclared derived k [v]) := by
  unfold Session.checkParamVariance
  by_cases spec : v.isParamSpec = true
  · have none_misdeclared : misdeclared derived k [v] = [] := by simp [misdeclared, spec]
    rw [if_pos spec, none_misdeclared]
    exact ⟨s, rfl, rfl⟩
  · rw [if_neg spec, run_bind, Frame.run_answer, found]
    dsimp only
    by_cases same : derived k = v.variance
    · have none_misdeclared : misdeclared derived k [v] = [] := by simp [misdeclared, same]
      rw [if_pos same, none_misdeclared]
      exact ⟨_, rfl, rfl⟩
    · have this_misdeclared : misdeclared derived k [v] = [(v, k)] := by
        simp [misdeclared, spec, Ne.symm same]
      rw [if_neg same, this_misdeclared]
      exact ⟨_, rfl, rfl⟩

private theorem world_checkParamVariances (k : Nat) (vs : List TypeVar) (s : Session) :
    ((ExceptT.run (Session.checkParamVariances fits P l other k vs)).run s).2.world = s.world := by
  induction vs generalizing k s with
  | nil => rfl
  | cons v vs ih =>
    have first : ((ExceptT.run (Session.checkParamVariance fits P l other k v)).run s).2.world =
      s.world := world_checkParamVariance P l other k v s
    rw [Session.checkParamVariances, run_bind]
    generalize (ExceptT.run (Session.checkParamVariance fits P l other k v)).run s = result
      at first ⊢
    obtain ⟨_ | b, t⟩ := result
    · exact first
    · have others := ih (k + 1) t
      dsimp only at first ⊢
      rw [run_bind]
      generalize (ExceptT.run (Session.checkParamVariances fits P l other (k + 1) vs)).run t =
        result at others ⊢
      obtain ⟨_ | b', t'⟩ := result <;> exact others.trans first

private theorem run_checkParamVariances {s : Session}
    (found : ∀ s' : Session, s'.world = s.world → ∀ i,
      (exec (expectedVariance s.world (fits s.world) P i other)
        (Frame.entering s' { Request.plain with explain := false })).1 = .ok (derived i))
    (k : Nat) (vs : List TypeVar) :
    ∃ t, (ExceptT.run (Session.checkParamVariances fits P l other k vs)).run s =
        (.ok (misdeclared derived k vs).isEmpty, t) ∧
      t.report = s.report.warnVariances (s.world.classes.nameOf P.id) l derived
        (misdeclared derived k vs) := by
  induction vs generalizing k s with
  | nil => exact ⟨s, rfl, rfl⟩
  | cons v vs ih =>
    obtain ⟨t, ran, warned⟩ := run_checkParamVariance (l := l) (found s rfl k) v
    have world : ((ExceptT.run (Session.checkParamVariance fits P l other k v)).run s).2.world =
      s.world := world_checkParamVariance P l other k v s
    rw [ran] at world
    dsimp only at world
    obtain ⟨t', ran', warned'⟩ := @ih t (by rwa [world]) (k + 1)
    refine ⟨t', ?_, ?_⟩
    · rw [Session.checkParamVariances, run_bind, ran]
      dsimp only
      rw [run_bind, ran', misdeclared_cons derived k v vs]
      cases misdeclared derived k [v] <;> rfl
    · rw [warned', warned, world, misdeclared_cons derived k v vs]
      exact List.foldl_append.symm

end

private theorem report_placeholderClass (s : Session) :
    (Session.placeholderClass.run s).2.report = s.report := by
  unfold Session.placeholderClass Session.declareClass
  generalize (fun cat : Catalog => cat.declareClass "__varianceDummy" .none []) = declare
  obtain ⟨_, _, _, _, _, _, _, _, placeholder⟩ := s
  cases placeholder <;> rfl

/-- The validation takes each parameter to have the variance that the places where it occurs call
for, and warns of exactly those that are declared with another one, in their order. -/
theorem variances_are_polarities {s : Session} {P : ClassTy} {l : Location} (standing : s.Standing)
    (hP : (s.outcome (Session.checkVariance P l)).2.world.Schematic P) :
    let result := s.outcome (Session.checkVariance P l)
    let params := (result.2.world.classes.decl P.id).params
    ∃ derived : Nat → Variance, (∀ k, result.2.world.CallsFor P k (derived k)) ∧
      result.1 = .ok (misdeclared derived 0 params).isEmpty ∧
      result.2.report = s.report.warnVariances (result.2.world.classes.nameOf P.id) l derived
        (misdeclared derived 0 params) := by
  rw [outcome_checkVariance] at hP ⊢
  split at hP
  · rename_i skipped
    exfalso
    rcases Bool.or_eq_true_iff.1 skipped with other | none
    · have protocol : s.classes.isProtocol P = true := hP.protocol
      rw [protocol] at other
      cases other
    · exact hP.generic (List.isEmpty_iff.1 none)
  · rename_i checked
    rw [if_neg checked]
    have place := placeholder_placeholderClass s
    have declared := @decl_placeholderClass s
    have report := report_placeholderClass s
    have standing := standing.placeholderClass
    generalize Session.placeholderClass.run s = placed at hP place declared report standing ⊢
    obtain ⟨c, s'⟩ := placed
    dsimp only at hP place declared report standing ⊢
    have inside : P.id < s.classes.size := by
      refine Nat.lt_of_not_le fun beyond => checked ?_
      rw [ClassTable.decl_of_size_le beyond]
      exact Bool.or_true _
    have params : (s.classes.decl P.id).params = (s'.world.classes.decl P.id).params := by
      rw [← declared inside]
      rfl
    have world : (Session.outcome (Session.checkParamVariances
        (fun w => fitsItself w (judgeAt w 0)) P l (Builtin.instanceOf c) 0
        (s.classes.decl P.id).params) s').2.world = s'.world :=
      world_checkParamVariances 0 _ s'
    rw [world] at hP
    obtain ⟨bare, ordinary⟩ := standing.placeholder c place
    choose derived called using s'.world.exists_callsFor P
    have found : ∀ s'' : Session, s''.world = s'.world → ∀ i,
        (exec (expectedVariance s'.world (fitsItself s'.world (judgeAt s'.world 0)) P i
          (Builtin.instanceOf c)) (Frame.entering s'' { Request.plain with explain := false })).1 =
            .ok (derived i) := by
      intro s'' _ i
      have quiet : (Frame.entering s'' { Request.plain with explain := false }).Quiet
          s''.inference := ⟨rfl, unsolving_none⟩
      exact expectedVariance_callsFor hP standing.object bare ordinary quiet (called i)
    obtain ⟨t, ran, warned⟩ := @run_checkParamVariances P
      (fun w => fitsItself w (judgeAt w 0)) l (Builtin.instanceOf c) derived s' found 0
      (s.classes.decl P.id).params
    unfold Session.outcome at world ⊢
    rw [ran] at world ⊢
    dsimp only at world ⊢
    rw [world, ← params]
    exact ⟨derived, called, rfl, report ▸ warned⟩

namespace Sample

/-- A protocol whose members have a variable of the type of its first parameter, take what its
second one stands for, and make no use of its third one. -/
def store : Session :=
  let held : TypeVar := .make "T" "Store" .covariant none
  let taken : TypeVar := .make "S" "Store" .invariant none
  let unused : TypeVar := .make "U" "Store" .covariant none
  .ofDecls #[object, { protocolOf "Store" [field "held" (.var held),
    method "put" none [some (.var taken)] .noneObject] with params := [held, taken, unused] }]

end Sample

/-- A validation that warns of two parameters. -/
theorem polarities_of_store :
    let P := ClassTy.ofId 1
    let result := Sample.store.outcome (Session.checkVariance P .start)
    let params := (result.2.world.classes.decl P.id).params
    result.1 = .ok false ∧ result.2.report.entries.map Entry.message =
        ["Type variable \"T\" used in generic protocol \"Store\" should be invariant",
          "Type variable \"S\" used in generic protocol \"Store\" should be contravariant"] ∧
      ∃ derived : Nat → Variance, (∀ k, result.2.world.CallsFor P k (derived k)) ∧
        result.1 = .ok (misdeclared derived 0 params).isEmpty ∧
        result.2.report = Sample.store.report.warnVariances
          (result.2.world.classes.nameOf P.id) .start derived (misdeclared derived 0 params) := by
  intro P
  have facts : let result := Sample.store.outcome (Session.checkVariance P .start)
      result.2.world.Schematic P ∧ result.1 = .ok false ∧
        result.2.report.entries.map Entry.message =
          ["Type variable \"T\" used in generic protocol \"Store\" should be invariant",
            "Type variable \"S\" used in generic protocol \"Store\" should be contravariant"] := by
    decide +kernel
  have standing : Sample.store.Standing := ⟨rfl, fun _ h => nomatch h⟩
  have general := @variances_are_polarities Sample.store P .start standing
  generalize Sample.store.outcome (Session.checkVariance P .start) = result at facts general ⊢
  exact ⟨facts.2.1, facts.2.2, general facts.1⟩

/-- A parameter of which no member makes use is taken to be fixed where a member is a property. -/
theorem unused_parameter_beside_property :
    let P := ClassTy.ofId 4
    let result := Sample.holders.outcome (Session.checkVariance P .start)
    result.1 = .ok true ∧
      (result.2.world.classes.decl P.id).params.map TypeVar.variance = [.invariant] ∧
      ∀ u, ¬ result.2.world.Varies P 0 u := by
  intro P
  have facts : let result := Sample.holders.outcome (Session.checkVariance P .start)
      result.1 = .ok true ∧
        (result.2.world.classes.decl P.id).params.map TypeVar.variance = [.invariant] ∧
        ∀ e ∈ (result.2.world.classes.decl P.id).members.entries, ∀ t ∈ e.2.declaredType,
          t.asInstance?.any (·.args.isNone) = true := by
    decide +kernel
  generalize Sample.holders.outcome (Session.checkVariance P .start) = result at facts ⊢
  have bare {e : String × Member}
      (declared : e ∈ (result.2.world.classes.decl P.id).members.entries) {t : Ty}
      (typed : e.2.declaredType = some t) : ∃ c, t = .cls c ∧ c.args = none := by
    have bare := facts.2.2 e declared t typed
    cases ht : t.asInstance? with
    | none => simp [ht] at bare
    | some c => exact ⟨c, Fragment.eq_of_asInstance? ht, by simpa [ht] using bare⟩
  refine ⟨facts.1, facts.2.1, fun u varies => ?_⟩
  cases varies with
  | mutable declared _ typed _ _ mentioned =>
    obtain ⟨c, rfl, none_given⟩ := bare declared typed
    exact Ty.not_mentions_of_bare none_given mentioned
  | used declared _ typed _ _ used =>
    obtain ⟨c, rfl, none_given⟩ := bare declared typed
    exact Ty.not_uses_of_bare none_given used

end Conformance
