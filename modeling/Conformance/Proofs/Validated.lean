import Conformance.Proofs.Complete
import Conformance.Proofs.FrontEnds
import Conformance.Proofs.Sample
import Conformance.Proofs.Specialization
import Conformance.Proofs.Termination

/-!
# Validated variances

The variances of a protocol are validated by comparing two specializations for each parameter, in
which all other parameters stand for one class. Where the members of the protocol are declared by
schemes, this finds out how the members use each parameter, so a protocol whose variances were
validated accepts a specialization by its members wherever its type arguments fit by the variances.
-/

namespace Conformance

open Check

variable {w : World} {P : ClassTy}

/-! ## What the validation finds out -/

/-- The members of a protocol use the variables at a place in one way only: where a member may be
assigned again they do not use them at all. -/
def World.UsedAs (w : World) (P : ClassTy) (k : Nat) (u : Variance) : Prop :=
  ∀ e ∈ (w.classes.decl P.id).members.entries, e.2.IsCompared → ∀ t, e.2.declaredType = some t →
    ∀ v, w.place P v = some k →
      if e.2.isMutableVariable then ¬ t.Mentions v else ∀ u', t.Uses w v u' → u' = u

def around (params : List TypeVar) (k : Nat) (apart : TypeVar → Ty) (other : Ty) : List Ty :=
  params.mapIdx fun i v => if i = k then apart v else other

private theorem argumentsAround_eq (params : List TypeVar) (k : Nat) (apart : TypeVar → Ty)
    (other : Ty) :
    argumentsAround params k apart other = (around params k apart other).map some := by
  unfold argumentsAround around
  exact List.ext_getElem (by simp) (by simp)

/-- A parameter is compared by a specialization with the class of all objects in its place and one
with the parameter itself. -/
theorem expectedVariance_eq (fits : (dest source : ClassTy) → Check Bool) (k : Nat) (other : Ty) :
    expectedVariance w fits P k other = (do
      let object := P.toClassObject.generic.given (around (w.classes.decl P.id).params k
        (fun _ => Builtin.instanceOf Builtin.object) other)
      let itself := P.toClassObject.generic.given (around (w.classes.decl P.id).params k
        (fun v => .var v) other)
      if ← fits object itself then pure .covariant
      else if ← fits itself object then pure .contravariant
      else pure .invariant) := by
  unfold expectedVariance ClassTy.given
  simp only [argumentsAround_eq]

private theorem length_around (params : List TypeVar) (k : Nat) (apart : TypeVar → Ty)
    (other : Ty) :
    (around params k apart other).length = params.length := by
  simp [around]

section

variable {inf : Inference} {k : Nat} {c : ClassTy}

/-- A specialization with the class of all objects and one with a parameter itself meet at the other
parameters, and there in one direction only. -/
theorem compares_around (ho : w.HasObject) (bare : c.args = none)
    (ordinary : w.classes.isProperty c = false) (k : Nat) :
    w.Compares inf P
      (around (w.classes.decl P.id).params k (fun _ => Builtin.instanceOf Builtin.object)
        (Builtin.instanceOf c))
      (around (w.classes.decl P.id).params k (fun v => .var v) (Builtin.instanceOf c))
      (fun v => ∀ i, w.place P v = some i → True) (fun v => ∀ i, w.place P v = some i → i ≠ k)
      (fun v => ∀ i, w.place P v = some i → i ≠ k) := by
  refine compares_given (length_around _ _ _ _) (length_around _ _ _ _) fun i t u ht hu => ?_
  unfold around at ht hu
  rw [List.getElem?_mapIdx, Option.map_eq_some_iff] at ht hu
  obtain ⟨v, hv, rfl⟩ := ht
  obtain ⟨v', hv', rfl⟩ := hu
  by_cases hi : i = k
  · rw [if_pos hi, if_pos hi]
    exact ⟨(ho.meets_var v').iff Iff.rfl (by simp [hi]),
      (meets_var_cls v' _).iff (by simp [hi]) (by simp [hi]), .inr rfl⟩
  · rw [if_neg hi, if_neg hi]
    have itself : Meets w inf 1 (Builtin.instanceOf c) (Builtin.instanceOf c) True True :=
      meets_self bare
    refine ⟨itself.iff Iff.rfl (by simp [hi]), itself.iff (by simp [hi]) (by simp [hi]), .inl ?_⟩
    exact property?_cls.2 (.inr ordinary)

private theorem usedAs_of {along against equal : TypeVar → Prop} {u : Variance}
    (varies : u ≠ .invariant)
    (fit : ∀ e ∈ (w.classes.decl P.id).members.entries, e.2.Allows w along against equal)
    (only : ∀ v, w.place P v = some k →
      ∀ u' : Variance, u'.choose (along v) (against v) (equal v) → u' = u) : w.UsedAs P k u := by
  intro e he compared t ht v hv
  have allowed := fit e he compared t ht
  split at allowed
  · rename_i mutable
    rw [if_pos mutable]
    exact fun mentioned => varies (only v hv .invariant (allowed v mentioned)).symm
  · rename_i fixed
    rw [if_neg fixed]
    exact fun u' hu => only v hv u' (allowed v u' hu)

/-- What the two comparisons for a parameter come to. -/
theorem variance_of_comparisons {p q : Prop} {up down : Check Bool} (first : Decides inf p up)
    (second : Decides inf q down) {s : CheckState} (hs : s.Quiet inf) :
    ∃ u t, exec (do
      if ← up then pure .covariant
      else if ← down then pure .contravariant
      else pure .invariant) s = (.ok u, t) ∧
        (u = Variance.covariant ↔ p) ∧ (u = .contravariant ↔ ¬ p ∧ q) := by
  obtain ⟨b, s', ran, answer, quiet⟩ := first s hs
  rw [exec_bind_of_ok ran]
  cases b with
  | true => exact ⟨.covariant, s', rfl, by simp [answer.1 rfl], by simp [answer.1 rfl]⟩
  | false =>
    have hp : ¬ p := fun hp => by cases answer.2 hp
    obtain ⟨b', t, ran', answer', -⟩ := second s' quiet
    rw [if_neg Bool.false_ne_true, exec_bind_of_ok ran']
    cases b' with
    | true => exact ⟨.contravariant, t, rfl, by simp [hp], by simp [hp, answer'.1 rfl]⟩
    | false =>
      have hq : ¬ q := fun hq => by cases answer'.2 hq
      exact ⟨.invariant, t, rfl, by simp [hp], by simp [hq]⟩

private theorem usedAs_of_expectedVariance (hP : w.Schematic P) (ho : w.HasObject)
    (bare : c.args = none)
    (ordinary : w.classes.isProperty c = false) {s t : CheckState} (hs : s.Quiet inf) {u : Variance}
    (found : exec (expectedVariance w (fitsItself w (judgeAt w 0)) P k (Builtin.instanceOf c)) s =
      (.ok u, t)) : u = .invariant ∨ w.UsedAs P k u := by
  have hP' : w.Schematic P.toClassObject.generic :=
    ⟨hP.protocol, hP.generic, hP.bases, hP.names, hP.specs, hP.members⟩
  have compares := @compares_around w P.toClassObject.generic inf c ho bare ordinary k
  rw [expectedVariance_eq] at found
  obtain ⟨u', t', ran, along, against⟩ := variance_of_comparisons
    (decides_fitsItself (F := .ofPlain inf) hP' compares)
    (decides_fitsItself (F := .ofPlain inf) hP' compares.symm) hs
  cases ran.symm.trans found
  cases u with
  | covariant =>
    refine .inr (usedAs_of (by decide) (along.1 rfl) fun v hv u' hu => ?_)
    cases u' with
    | covariant => rfl
    | contravariant => exact absurd rfl (hu k hv)
    | invariant => exact absurd rfl (hu k hv)
  | contravariant =>
    refine .inr (usedAs_of (by decide) (against.1 rfl).2 fun v hv u' hu => ?_)
    cases u' with
    | covariant => exact absurd rfl (hu k hv)
    | contravariant => rfl
    | invariant => exact absurd rfl (hu k hv)
  | invariant => exact .inl rfl

end

/-! ## Validated sessions -/

private theorem Catalog.decl_setBases (cat : Catalog) {c : ClassTy} (bases : List (Option Ty))
    (inf : Inference) {id : ClassId} (other : c.id ≠ id) :
    (cat.setBases c bases inf).1.1.classes.decl id = cat.classes.decl id := by
  obtain ⟨order, h⟩ := ClassTable.linearize_eq
    (cat.modify c fun d => { d with bases := markBases cat.nextMark bases }).classes c.id inf
  have he : (cat.setBases c bases inf).1.1.classes = _ := h
  rw [he]
  simp [Catalog.modify, ClassTable.decl_modify, other]

private theorem Catalog.decl_declareClass (cat : Catalog) (name : String) (flags : ClassFlags)
    (inf : Inference) {id : ClassId} (h : id < cat.classes.size) :
    (cat.declareClass name flags [] inf).1.2.classes.decl id = cat.classes.decl id := by
  have last : (ClassTy.ofId cat.classes.size).id ≠ 0 := Nat.ne_of_gt (Nat.zero_lt_of_lt h)
  have other : (ClassTy.ofId cat.classes.size).id ≠ id := Nat.ne_of_gt h
  obtain ⟨t, ht⟩ := Catalog.finalize_nil (cat.addClass name flags "").2 last inf
  rw [Catalog.declareClass_eq]
  change ((cat.addClass name flags "").2.finalize (.ofId cat.classes.size) [] none inf).1 = _ at ht
  rw [show (cat.addClass name flags "").1 = .ofId cat.classes.size from rfl, ht,
    decl_setBases _ _ _ other]
  simp [Catalog.modify, Catalog.addClass, ClassTable.decl_modify, ClassTable.decl_push, other,
    Nat.ne_of_lt h]

private theorem Catalog.flags_setBases (cat : Catalog) (c : ClassTy) (bases : List (Option Ty))
    (inf : Inference) (id : ClassId) :
    ((cat.setBases c bases inf).1.1.classes.decl id).flags = (cat.classes.decl id).flags := by
  obtain ⟨order, h⟩ := ClassTable.linearize_eq
    (cat.modify c fun d => { d with bases := markBases cat.nextMark bases }).classes c.id inf
  have he : (cat.setBases c bases inf).1.1.classes = _ := h
  rw [he]
  simp only [ClassTable.decl_modify, Catalog.modify, ClassTable.size_modify]
  by_cases hid : c.id = id ∧ id < cat.classes.size <;> simp [hid]

private theorem Catalog.declared_declareClass {cat : Catalog} (h : 0 < cat.classes.size)
    (name : String)
    (flags : ClassFlags) (inf : Inference) :
    (cat.declareClass name flags [] inf).1.1 = .ofId cat.classes.size ∧
      ((cat.declareClass name flags [] inf).1.2.classes.decl cat.classes.size).flags = flags := by
  have last : (ClassTy.ofId cat.classes.size).id ≠ 0 := Nat.ne_of_gt h
  obtain ⟨t, ht⟩ := Catalog.finalize_nil (cat.addClass name flags "").2 last inf
  refine ⟨?_, ?_⟩
  · unfold Catalog.declareClass
    rw [show cat.addClass name flags "" = (.ofId cat.classes.size, (cat.addClass name flags "").2)
      from rfl]
    dsimp only
    generalize (cat.addClass name flags "").2.finalize (.ofId cat.classes.size) [] none = act
    rfl
  · rw [Catalog.declareClass_eq]
    change ((cat.addClass name flags "").2.finalize (.ofId cat.classes.size) [] none inf).1 = _
      at ht
    rw [show (cat.addClass name flags "").1 = .ofId cat.classes.size from rfl, ht, flags_setBases]
    simp [Catalog.modify, Catalog.addClass, ClassTable.decl_modify, ClassTable.decl_push,
      ClassTy.ofId, ClassDecl.fresh]

private theorem class_placeholderClass {s : Session} (h : s.placeholder = none) :
    (Session.placeholderClass.run s).1 =
      (s.catalog.declareClass "__varianceDummy" .none [] s.inference).1.1 := by
  unfold Session.placeholderClass Session.declareClass
  rw [show s.catalog.declareClass "__varianceDummy" .none [] =
    (fun cat : Catalog => cat.declareClass "__varianceDummy" .none []) s.catalog from rfl]
  generalize (fun cat : Catalog => cat.declareClass "__varianceDummy" .none []) = declare
  obtain ⟨_, _, _, _, _, _, _, _, placeholder⟩ := s
  cases h
  rfl

theorem decl_placeholderClass (s : Session) {id : ClassId} (h : id < s.classes.size) :
    (Session.placeholderClass.run s).2.classes.decl id = s.classes.decl id := by
  rcases hp : s.placeholder with _ | c
  · unfold Session.classes
    rw [catalog_placeholderClass hp]
    exact s.catalog.decl_declareClass _ _ _ h
  · unfold Session.placeholderClass
    simp only [StateT.run_bind, StateT.run_get, pure_bind, hp]
    rfl

/-- The class that takes the place of other parameters is kept for later checks. -/
theorem placeholder_placeholderClass (s : Session) :
    (Session.placeholderClass.run s).2.placeholder =
      some (Session.placeholderClass.run s).1 := by
  unfold Session.placeholderClass Session.declareClass
  generalize (fun cat : Catalog => cat.declareClass "__varianceDummy" .none []) = declare
  obtain ⟨_, _, _, _, _, _, _, _, placeholder⟩ := s
  cases placeholder <;> rfl

/-- The class of all objects is the builtin one, and the class that takes the place of other
parameters, if there is one yet, is ordinary. -/
structure Session.Standing (s : Session) : Prop where
  object : s.world.HasObject
  placeholder : ∀ c, s.placeholder = some c →
    c.args = none ∧ s.world.classes.isProperty c = false

theorem World.HasObject.declared {w : World} (h : w.HasObject) : 0 < w.classes.size := by
  refine Nat.pos_of_ne_zero fun none => ?_
  unfold World.HasObject ClassTable.isBuiltin at h
  rw [ClassTable.decl_of_size_le (none ▸ Nat.zero_le _)] at h
  cases h

/-- Declaring the class that takes the place of other parameters keeps the session so. -/
theorem Session.Standing.placeholderClass {s : Session} (h : s.Standing) :
    (Session.placeholderClass.run s).2.Standing := by
  have declared : 0 < s.catalog.classes.size := h.object.declared
  have object := decl_placeholderClass s declared
  refine ⟨?_, fun c hc => ?_⟩
  · have isObject := h.object
    unfold World.HasObject ClassTable.isBuiltin ClassTable.nameOf at isObject ⊢
    exact (congrArg (fun d : ClassDecl =>
      d.flags.builtin && ("object".isEmpty || d.name == "object")) object).trans isObject
  · rw [placeholder_placeholderClass] at hc
    cases Option.some.inj hc
    cases hp : s.placeholder with
    | some c =>
      have kept : Session.placeholderClass.run s = (c, s) := by
        unfold Session.placeholderClass
        simp only [StateT.run_bind, StateT.run_get, pure_bind, hp]
        rfl
      rw [kept]
      exact h.placeholder c hp
    | none =>
      obtain ⟨last, flags⟩ := Catalog.declared_declareClass declared "__varianceDummy" .none
        s.inference
      rw [class_placeholderClass hp, last]
      refine ⟨rfl, ?_⟩
      unfold Session.world Session.classes ClassTable.isProperty
      rw [catalog_placeholderClass hp]
      dsimp only [ClassTy.ofId]
      rw [flags]
      rfl

theorem Session.standing_start : Session.start.Standing := by
  have facts : Session.start.world.classes.isBuiltin Builtin.object "object" = true ∧
      Session.start.placeholder.isNone = true := by decide +kernel
  refine ⟨facts.1, fun c hc => ?_⟩
  rw [Option.isNone_iff_eq_none.1 facts.2] at hc
  cases hc

section

variable {fits : World → (dest source : ClassTy) → Check Bool} {l : Location} {other : Ty}
  {s t : Session}

private theorem of_checkParamVariance {k : Nat} {v : TypeVar}
    (h : (ExceptT.run (Session.checkParamVariance fits P l other k v)).run s = (.ok true, t)) :
    v.isParamSpec = true ∨
      (exec (expectedVariance s.world (fits s.world) P k other)
        (Frame.entering s { Request.plain with explain := false })).1 = .ok v.variance := by
  unfold Session.checkParamVariance at h
  split at h
  · rename_i spec
    exact .inl spec
  · rw [run_bind, Frame.run_answer] at h
    refine .inr ?_
    generalize exec (expectedVariance s.world (fits s.world) P k other)
      (Frame.entering s { Request.plain with explain := false }) = result at h ⊢
    obtain ⟨_ | expected, t'⟩ := result
    · cases h
    · dsimp only at h
      split at h
      · rename_i same
        rw [same]
      · cases h

private theorem placeholder_checkParamVariance (k : Nat) (v : TypeVar) (s : Session) :
    ((ExceptT.run (Session.checkParamVariance fits P l other k v)).run s).2.placeholder =
      s.placeholder := by
  unfold Session.checkParamVariance
  split
  · rfl
  · rw [run_bind, Frame.run_answer]
    rcases exec _ _ with ⟨_ | expected, t⟩
    · rfl
    · dsimp only
      split <;> rfl

private theorem of_checkParamVariances {k : Nat} {vs : List TypeVar}
    (h : (ExceptT.run (Session.checkParamVariances fits P l other k vs)).run s = (.ok true, t)) :
    t.world = s.world ∧ t.placeholder = s.placeholder ∧
      ∀ (i : Nat) v, vs[i]? = some v → v.isParamSpec = true ∨
        ∃ s' : Session, s'.world = s.world ∧
          (exec (expectedVariance s.world (fits s.world) P (k + i) other)
            (Frame.entering s' { Request.plain with explain := false })).1 = .ok v.variance := by
  induction vs generalizing k s with
  | nil =>
    cases h
    exact ⟨rfl, rfl, fun _ _ h => nomatch h⟩
  | cons v vs ih =>
    rw [Session.checkParamVariances, run_bind] at h
    have world : ((ExceptT.run (Session.checkParamVariance fits P l other k v)).run s).2.world =
      s.world := world_checkParamVariance P l other k v s
    have kept : ((ExceptT.run (Session.checkParamVariance fits P l other k v)).run s).2.placeholder =
      s.placeholder := placeholder_checkParamVariance k v s
    have here := @of_checkParamVariance P fits l other s
    rcases hr : (ExceptT.run (Session.checkParamVariance fits P l other k v)).run s with
      ⟨_ | first, s'⟩
    · rw [hr] at h
      cases h
    · rw [hr] at h world kept
      dsimp only at h world kept
      rw [run_bind] at h
      rcases hr' : (ExceptT.run (Session.checkParamVariances fits P l other (k + 1) vs)).run s' with
        ⟨_ | others, s''⟩
      · rw [hr'] at h
        cases h
      · rw [hr'] at h
        obtain ⟨answer, rfl⟩ := Prod.mk.inj h
        have both : (first && others) = true := Except.ok.inj answer
        obtain ⟨rfl, rfl⟩ := Bool.and_eq_true_iff.1 both
        obtain ⟨world', kept', each⟩ := ih hr'
        refine ⟨world'.trans world, kept'.trans kept, fun i v' hv => ?_⟩
        cases i with
        | zero =>
          cases hv
          exact (here hr).imp_right fun found => ⟨s, rfl, found⟩
        | succ i =>
          have later := each i v' hv
          rw [world, Nat.add_right_comm, Nat.add_assoc] at later
          exact later

end

/-- A generic protocol is validated parameter by parameter, with the placeholder declared. -/
theorem outcome_checkVariance (s : Session) (P : ClassTy) (l : Location) :
    s.outcome (Session.checkVariance P l) =
      if !s.classes.isProtocol P || (s.classes.decl P.id).params.isEmpty then (.ok true, s)
      else
        Session.outcome (Session.checkParamVariances (fun w => fitsItself w (judgeAt w 0)) P l
          (Builtin.instanceOf (Session.placeholderClass.run s).1) 0 (s.classes.decl P.id).params)
          (Session.placeholderClass.run s).2 := by
  change (ExceptT.run (Session.checkVarianceBy (fun w => fitsItself w (judgeAt w 0)) P l)).run s = _
  unfold Session.checkVarianceBy
  have started (k : Session → ExceptT InferenceError SessionM Bool) :
      (ExceptT.run (do let s ← get; k s)).run s = (ExceptT.run (k s)).run s := rfl
  rw [started]
  dsimp only
  split
  · rfl
  · rfl

private theorem usedAs_of_checkVariance {s t : Session} {l : Location}
    (validated : s.outcome (Session.checkVariance P l) = (.ok true, t)) (standing : s.Standing)
    (hP : t.world.Schematic P) {k : Nat} {v : TypeVar}
    (hv : (t.world.classes.decl P.id).params[k]? = some v) :
    v.variance = .invariant ∨ t.world.UsedAs P k v.variance := by
  rw [outcome_checkVariance] at validated
  split at validated
  · rename_i skipped
    cases validated
    rcases Bool.or_eq_true_iff.1 skipped with other | none
    · have protocol : s.classes.isProtocol P = true := hP.protocol
      rw [protocol] at other
      cases other
    · exact absurd (List.isEmpty_iff.1 none) hP.generic
  · rename_i checked
    have place := placeholder_placeholderClass s
    have declared := @decl_placeholderClass s
    have standing := standing.placeholderClass
    generalize Session.placeholderClass.run s = placed at validated place declared standing
    obtain ⟨c, s'⟩ := placed
    obtain ⟨world, kept, each⟩ := of_checkParamVariances validated
    dsimp only at place declared world kept each standing
    have inside : P.id < s.classes.size := by
      refine Nat.lt_of_not_le fun beyond => checked ?_
      rw [ClassTable.decl_of_size_le beyond]
      exact Bool.or_true _
    have params : (s.classes.decl P.id).params = (t.world.classes.decl P.id).params := by
      rw [world, ← declared inside]
      rfl
    rw [params, ← world] at each
    obtain ⟨bare, ordinary⟩ := standing.placeholder c place
    have object := standing.object
    rw [← world] at ordinary object
    rcases each k v hv with spec | ⟨s'', -, found⟩
    · exact .inl (hP.specs v (List.mem_of_getElem? hv) spec)
    · rw [Nat.zero_add] at found
      have quiet : (Frame.entering s'' { Request.plain with explain := false }).Quiet
          s''.inference := ⟨rfl, unsolving_none⟩
      exact usedAs_of_expectedVariance hP object bare ordinary quiet
        (Prod.ext found rfl)

private theorem allows_of_usedAs {fits back same : Nat → Prop}
    (used : ∀ (k : Nat) (v : TypeVar), (w.classes.decl P.id).params[k]? = some v →
      v.variance = .invariant ∨ w.UsedAs P k v.variance)
    (given : ∀ (k : Nat) (v : TypeVar), (w.classes.decl P.id).params[k]? = some v →
      v.variance.choose (fits k) (back k) (same k))
    (both : ∀ k, same k → fits k ∧ back k) :
    ∀ e ∈ (w.classes.decl P.id).members.entries,
      e.2.Allows w (fun v => ∀ k, w.place P v = some k → fits k)
        (fun v => ∀ k, w.place P v = some k → back k)
        (fun v => ∀ k, w.place P v = some k → same k) := by
  intro e he compared t ht
  have at_place {v : TypeVar} {k : Nat} (hv : w.place P v = some k) :
      same k ∨ if e.2.isMutableVariable then ¬ t.Mentions v
        else ∀ u, t.Uses w v u → u.choose (fits k) (back k) (same k) := by
    obtain ⟨p, hp⟩ : ∃ p, (w.classes.decl P.id).params[k]? = some p :=
      ⟨_, List.getElem?_eq_getElem (World.place_lt hv)⟩
    have fit := given k p hp
    rcases used k p hp with fixed | used
    · rw [fixed] at fit
      exact .inl fit
    · refine .inr ?_
      have here := used e he compared t ht v hv
      split at here
      · rename_i mutable
        rw [if_pos mutable]
        exact here
      · rename_i fixed
        rw [if_neg fixed]
        exact fun u hu => here u hu ▸ fit
  split
  · rename_i mutable
    intro v hv k hk
    have here := at_place hk
    rw [if_pos mutable] at here
    exact here.resolve_right fun none => none hv
  · rename_i fixed
    intro v u hu
    have here (k : Nat) (hk : w.place P v = some k) : u.choose (fits k) (back k) (same k) := by
      have here := at_place hk
      rw [if_neg fixed] at here
      rcases here with equal | used
      · cases u with
        | covariant => exact (both k equal).1
        | contravariant => exact (both k equal).2
        | invariant => exact equal
      · exact used u hu
    cases u <;> exact here

/-- As many instances of classes that are no protocols as a class has parameters. -/
structure World.Arguments (w : World) (P : ClassTy) (cs : List ClassTy) : Prop where
  full : cs.length = (w.classes.decl P.id).params.length
  nominal : ∀ c ∈ cs, w.classes.Nominal c

instance (w : World) (P : ClassTy) (cs : List ClassTy) : Decidable (w.Arguments P cs) :=
  decidable_of_iff
    (cs.length = (w.classes.decl P.id).params.length ∧ ∀ c ∈ cs, w.classes.Nominal c)
    ⟨fun ⟨full, nominal⟩ => ⟨full, nominal⟩, fun h => ⟨h.full, h.nominal⟩⟩

section

variable {cs ds : List ClassTy} (hc : w.Arguments P cs) (hd : w.Arguments P ds) {inf : Inference}
include hc hd

private theorem decides_assignArguments : Decides inf
    (∀ (i : Nat) (p : ClassTy × ClassTy), (ds.zip cs)[i]? = some p →
      (argumentVariance w P i).choose (w.takes p.1 p.2 = true) (w.takes p.2 p.1 = true)
        (sameView p.1 p.2 = true))
    (assignArguments w (judgeAt w 0) .default (P.given (ds.map .cls)) (P.given (cs.map .cls))) := by
  have pairs : pairArguments (w.classes.decl P.id).params ((ds.map Ty.cls).map some)
      ((cs.map Ty.cls).map some) = (ds.zip cs).mapIdx fun i p =>
        ⟨some (.cls p.1), some (.cls p.2), (w.classes.decl P.id).params[i]?⟩ := by
    rw [pairArguments_zip _ (by simp [hc.full, hd.full]), List.zip_map, List.zip_map]
    exact List.ext_getElem (by simp) (by simp)
  change Decides inf _ (allOf (ArgumentPair.assign w (judge w 15) .default)
    (pairArguments (w.classes.decl P.id).params ((ds.map Ty.cls).map some)
      ((cs.map Ty.cls).map some)))
  rw [pairs]
  refine .allOf_mapIdx fun i p hp => ?_
  have mem := List.mem_of_getElem? hp
  have dest := hd.nominal p.1 (List.of_mem_zip mem).1
  have source := hc.nominal p.2 (List.of_mem_zip mem).2
  have ahead : Meets w inf 1 (.cls p.1) (.cls p.2) _ _ := meets_nominal dest source
  have back : Meets w inf 1 (.cls p.2) (.cls p.1) _ _ := meets_nominal source dest
  exact decides_argument rfl (ahead.loose (by decide)) (back.loose (by decide))
    (ahead.strict (by decide))

private theorem compares_nominal
    (apart : ∀ p ∈ ds.zip cs,
      w.classes.isProperty p.1 = false ∨ w.classes.isProperty p.2 = false) :
    w.Compares inf P (ds.map .cls) (cs.map .cls)
      (fun v => ∀ k, w.place P v = some k →
        ∀ p, (ds.zip cs)[k]? = some p → w.takes p.1 p.2 = true)
      (fun v => ∀ k, w.place P v = some k →
        ∀ p, (ds.zip cs)[k]? = some p → w.takes p.2 p.1 = true)
      (fun v => ∀ k, w.place P v = some k →
        ∀ p, (ds.zip cs)[k]? = some p → sameView p.1 p.2 = true) := by
  refine compares_given (by simpa using hd.full) (by simpa using hc.full) fun i t u ht hu => ?_
  rw [List.getElem?_map, Option.map_eq_some_iff] at ht hu
  obtain ⟨d, hi, rfl⟩ := ht
  obtain ⟨c, hi', rfl⟩ := hu
  have paired : (ds.zip cs)[i]? = some (d, c) := by simp [List.getElem?_zip_eq_some, hi, hi']
  have dest := hd.nominal d (List.mem_of_getElem? hi)
  have source := hc.nominal c (List.mem_of_getElem? hi')
  refine ⟨(meets_nominal dest source).iff (by simp [paired]) (by simp [paired]),
    (meets_nominal source dest).iff (by simp [paired]) (by simp [paired, sameView_comm]), ?_⟩
  exact (apart _ (List.mem_of_getElem? paired)).imp (fun h => property?_cls.2 (.inr h))
    fun h => property?_cls.2 (.inr h)

end

/-- Validated variances are sound: where the variances of a generic protocol were found valid and
its members are declared by schemes, a specialization by instances of classes is accepted by its
members in place of another one wherever its type arguments fit by the variances. -/
theorem validated_variance_is_sound {s t : Session} {P : ClassTy} {l : Location}
    (validated : s.outcome (Session.checkVariance P l) = (.ok true, t)) (standing : s.Standing)
    (hP : t.world.Schematic P) {cs ds : List ClassTy} (hc : t.world.Arguments P cs)
    (hd : t.world.Arguments P ds)
    (apart : ∀ p ∈ ds.zip cs,
      t.world.classes.isProperty p.1 = false ∨ t.world.classes.isProperty p.2 = false)
    {u u' : Session} (hu : u.world = t.world) (hu' : u'.world = t.world)
    (verified : (u.outcome (Session.answer fun w => assignArguments w (judgeAt w 0) .default
      (P.given (ds.map .cls)) (P.given (cs.map .cls)))).1 = .ok true) :
    (u'.outcome (Session.answer fun w => fitsItself w (judgeAt w 0) (P.given (ds.map .cls))
      (P.given (cs.map .cls)))).1 = .ok true := by
  rw [Session.outcome, Frame.run_answer, hu] at verified
  rw [Session.outcome, Frame.run_answer, hu']
  have quiet (u : Session) : (Frame.entering u { Request.plain with explain := false }).Quiet
      u.inference := ⟨rfl, unsolving_none⟩
  have fit := (decides_assignArguments hc hd).of_answer (quiet u) (Prod.ext verified rfl)
  have given : ∀ (k : Nat) (v : TypeVar), (t.world.classes.decl P.id).params[k]? = some v →
      v.variance.choose (∀ p, (ds.zip cs)[k]? = some p → t.world.takes p.1 p.2 = true)
        (∀ p, (ds.zip cs)[k]? = some p → t.world.takes p.2 p.1 = true)
        (∀ p, (ds.zip cs)[k]? = some p → sameView p.1 p.2 = true) := by
    intro k v hv
    have varies : argumentVariance t.world P k = v.variance := by
      unfold argumentVariance
      rw [hv]
      rfl
    have here := fit k
    rw [varies] at here
    cases hvar : v.variance <;> rw [hvar] at here <;> exact here
  have both : ∀ k : Nat,
      (∀ p : ClassTy × ClassTy, (ds.zip cs)[k]? = some p → sameView p.1 p.2 = true) →
        (∀ p : ClassTy × ClassTy, (ds.zip cs)[k]? = some p → t.world.takes p.1 p.2 = true) ∧
        ∀ p : ClassTy × ClassTy, (ds.zip cs)[k]? = some p → t.world.takes p.2 p.1 = true := by
    intro k same
    refine ⟨fun p hp => World.takes_of_sameView (same p hp), fun p hp => ?_⟩
    exact World.takes_of_sameView (sameView_comm p.2 p.1 ▸ same p hp)
  have allowed := allows_of_usedAs
    (fun k v hv => usedAs_of_checkVariance validated standing hP hv) given both
  exact (decides_fitsItself (F := .ofPlain u'.inference) hP
    (compares_nominal hc hd apart)).answers (quiet u') allowed

namespace Sample

/-- A class with a subclass, and a protocol whose members yield what its first parameter stands for
and take what its second one does. -/
def exchange : Session :=
  let out : TypeVar := .make "T" "Exchange" .covariant none
  let into : TypeVar := .make "S" "Exchange" .contravariant none
  let callback : Ty := .function (function none [some (.var out)] (.declared (.var into)))
  .ofDecls #[object, classOf "A" [],
    { classOf "B" [] with mro := [.resolved (.ofId 1), .resolved (.ofId 0)] },
    generic .covariant (classOf "Box" []),
    { protocolOf "Exchange" [final "latest" (.var out),
        method "swap" none [some (.var into)] (.cls (viewOf 3 (.var out)).toInstance),
        method "call" none [some callback] .noneObject, field "count" (instanceOf 1)] with
      params := [out, into] }]

/-- Two protocols with an attribute, which is of the type of its parameter in one of them and a
property in the other one. Only instances of one class have the property. -/
def holders : Session :=
  .ofDecls #[object, classOf "A" [],
    { classOf "property" [] with
      flags := { ClassFlags.none with property := true }
      getter := some (function (some (instanceOf 1)) [] (.declared (instanceOf 1))) },
    generic .covariant (protocolOf "Holder" [final "held" (.var (parameter .covariant "Holder"))]),
    generic .invariant (protocolOf "Owner" [final "owned" (instanceOf 2)])]

/-- Instances of classes. -/
def instancesOf (ids : List ClassId) : List ClassTy :=
  ids.map fun id => (ClassTy.ofId id).toInstance

/-- Whether the variances of a holder are valid, and whether its specialization by an instance of a
class fits itself by its type argument and by its members. -/
def answersForItself (protocol argument : ClassId) :
    Except InferenceError Bool × Except InferenceError Bool × Except InferenceError Bool :=
  let P := ClassTy.ofId protocol
  let s := (holders.outcome (Session.checkVariance P .start)).2
  let held := P.given ((instancesOf [argument]).map .cls)
  ((holders.outcome (Session.checkVariance P .start)).1,
    (s.outcome (Session.answer fun w => assignArguments w (judgeAt w 0) .default held held)).1,
    (s.outcome (Session.answer fun w => fitsItself w (judgeAt w 0) held held)).1)

end Sample

/-- A protocol that yields and takes values accepts a specialization that yields less and takes
more. -/
theorem exchange_accepts_subclass :
    let P := ClassTy.ofId 4
    let s := (Sample.exchange.outcome (Session.checkVariance P .start)).2
    let dest := P.given ((Sample.instancesOf [1, 2]).map .cls)
    let source := P.given ((Sample.instancesOf [2, 1]).map .cls)
    (Sample.exchange.outcome (Session.checkVariance P .start)).1 = .ok true ∧
      (s.outcome (Session.answer fun w => assignArguments w (judgeAt w 0) .default dest source)).1 =
        .ok true ∧
      (s.outcome (Session.answer fun w => fitsItself w (judgeAt w 0) dest source)).1 =
        .ok true := by
  intro P
  have facts : (Sample.exchange.outcome (Session.checkVariance P .start)).1 = .ok true ∧
      let s := (Sample.exchange.outcome (Session.checkVariance P .start)).2
      s.world.Schematic P ∧ s.world.Arguments P (Sample.instancesOf [2, 1]) ∧
        s.world.Arguments P (Sample.instancesOf [1, 2]) ∧
        (∀ p ∈ (Sample.instancesOf [1, 2]).zip (Sample.instancesOf [2, 1]),
          s.world.classes.isProperty p.1 = false ∨ s.world.classes.isProperty p.2 = false) ∧
        (s.outcome (Session.answer fun w => assignArguments w (judgeAt w 0) .default
          (P.given ((Sample.instancesOf [1, 2]).map .cls))
          (P.given ((Sample.instancesOf [2, 1]).map .cls)))).1 = .ok true := by
    decide +kernel
  have standing : Sample.exchange.Standing := ⟨rfl, fun _ h => nomatch h⟩
  rcases ran : Sample.exchange.outcome (Session.checkVariance P .start) with ⟨answer, s⟩
  rw [ran] at facts
  obtain ⟨rfl, schematic, sources, dests, apart, verified⟩ := facts
  exact ⟨rfl, verified,
    validated_variance_is_sound ran standing schematic sources dests apart rfl rfl verified⟩

/-- Where two properties are compared, it matters whether the protocol itself has them: a
specialization does not even fit itself. -/
theorem property_unfit_for_itself :
    Sample.answersForItself 3 2 = (.ok true, .ok true, .ok false) ∧
      Sample.answersForItself 4 1 = (.ok true, .ok true, .ok false) := by
  decide +kernel

end Conformance
