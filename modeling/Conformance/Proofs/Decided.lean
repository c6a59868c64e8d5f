import Conformance.Proofs.Occurrences
import Conformance.Proofs.Run

/-!
# Decided comparisons

As long as no variable is solved for, a comparison is decided if it answers from every state, and
its answer does not depend on that state. One type meets another if their comparison is decided at
every level from some on, in one way where they have to be the same and in one way where they do
not. What meets what is told for variables and for instances of classes without type arguments,
and from there on along classes and functions: it follows from what their arguments, parameters
and return types meet.
-/

namespace Conformance

open Check

def Unsolving (σ : Option Solution) : Prop := ∀ τ, σ = some τ → τ.scopes = []

/-- The return types are known so far, and no variable is being solved for. -/
structure CheckState.Quiet (inf : Inference) (s : CheckState) : Prop where
  inference : s.inference = inf
  solving : Unsolving s.solving

def Decides (inf : Inference) (p : Prop) (act : Check Bool) : Prop :=
  ∀ s : CheckState, s.Quiet inf → ∃ b t, exec act s = (.ok b, t) ∧ (b = true ↔ p) ∧ t.Quiet inf

variable {inf : Inference}

theorem unsolving_none : Unsolving none := fun _ h => nomatch h

theorem unsolving_empty : Unsolving (some .empty) := by
  rintro _ ⟨⟩
  rfl

theorem Unsolving.solves {σ : Option Solution} (h : Unsolving σ) (scope : String) :
    σ.any (·.solves scope) = false := by
  cases σ with
  | none => rfl
  | some τ => simp [Solution.solves, h τ rfl]

theorem Unsolving.reverseVar? {σ : Option Solution} (h : Unsolving σ) (mode : Mode) (source : Ty) :
    reverseVar? mode σ source = none := by
  unfold Conformance.reverseVar?
  split
  · simp [h.solves]
  · rfl

namespace Decides

variable {α : Type} {p q : Prop} {act : Check Bool}

theorem iff (h : Decides inf p act) (hpq : p ↔ q) : Decides inf q act := by
  intro s hs
  obtain ⟨b, t, ht, answer, quiet⟩ := h s hs
  exact ⟨b, t, ht, answer.trans hpq, quiet⟩

/-- A check has one answer. -/
theorem of_answer (h : Decides inf p act) {s t : CheckState} (hs : s.Quiet inf)
    (ran : exec act s = (.ok true, t)) : p := by
  obtain ⟨b, t', ht, answer, -⟩ := h s hs
  cases ran.symm.trans ht
  exact answer.1 rfl

theorem answers (h : Decides inf p act) {s : CheckState} (hs : s.Quiet inf) (hp : p) :
    (exec act s).1 = .ok true := by
  obtain ⟨b, t, ht, answer, -⟩ := h s hs
  rw [ht, answer.2 hp]

theorem pure (b : Bool) : Decides inf (b = true) (pure b) :=
  fun s hs => ⟨b, s, rfl, Iff.rfl, hs⟩

theorem yes (hp : p) : Decides inf p (Pure.pure true) :=
  (pure true).iff (by simp [hp])

theorem no (hp : ¬ p) : Decides inf p (Pure.pure false) :=
  (pure false).iff (by simp [hp])

theorem cutOff (hp : p) : Decides inf p cutOff :=
  fun s hs => ⟨true, _, rfl, by simp [hp], hs.inference, hs.solving⟩

/-- What leaves the state as it is comes first. -/
theorem after {first : Check α} {k : α → Check Bool} {a : α}
    (h : ∀ s : CheckState, s.inference = inf → exec first s = (.ok a, s))
    (hk : Decides inf p (k a)) : Decides inf p (first >>= k) := by
  intro s hs
  rw [exec_bind_of_ok (h s hs.inference)]
  exact hk s hs

theorem inference {k : Inference → Check Bool} (hk : Decides inf p (k inf)) :
    Decides inf p (Check.inference >>= k) :=
  after (fun s hs => by rw [exec_inference, hs]) hk

theorem solution {k : Option Solution → Check Bool}
    (hk : ∀ σ, Unsolving σ → Decides inf p (k σ)) : Decides inf p (Check.solution >>= k) := by
  intro s hs
  rw [exec_bind_of_ok (exec_solution s)]
  exact hk _ hs.solving s hs

theorem demand {f : FunctionTy} (settled : ∀ cell outcome, f.ret ≠ .deferred cell outcome)
    {k : Unit → Check Bool} (hk : Decides inf p (k ())) : Decides inf p (Check.demand f >>= k) :=
  after (fun s _ => by rw [exec_demand, Fragment.demand_eq settled]) hk

theorem bind {k : Bool → Check Bool} (h : Decides inf p act)
    (hk : ∀ b, (b = true ↔ p) → Decides inf q (k b)) : Decides inf q (act >>= k) := by
  intro s hs
  obtain ⟨b, t, ht, answer, quiet⟩ := h s hs
  rw [exec_bind_of_ok ht]
  exact hk b answer t quiet

/-- The answer no is given in another way. -/
theorem orElse {other : Check Bool} (h : Decides inf p act)
    (ho : ¬ p → Decides inf False other) :
    Decides inf p (act >>= fun b => if b = true then Pure.pure true else other) := by
  refine h.bind fun b answer => ?_
  cases b with
  | true => exact yes (answer.1 rfl)
  | false =>
    have hp : ¬ p := fun hp => by cases answer.2 hp
    exact (ho hp).iff (by simp [hp])

theorem both {second : Check Bool} (h : Decides inf p act) (h' : Decides inf q second) :
    Decides inf (p ∧ q) (do
      let a ← act
      let b ← second
      Pure.pure (a && b)) :=
  h.bind fun a ha => h'.bind fun b hb => (pure (a && b)).iff (by simp [ha, hb])

theorem notes {n : CheckState → Option Explanation}
    {n' : CheckState → CheckState → Option Explanation} (h : Decides inf p act) :
    Decides inf p (Check.within (fun s => { s with notes := n s })
      (fun before s => { s with notes := n' before s }) act) := by
  intro s hs
  obtain ⟨b, t, ht, answer, quiet⟩ := h { s with notes := n s } ⟨hs.inference, hs.solving⟩
  refine ⟨b, { t with notes := n' s t }, ?_, answer, quiet.inference, quiet.solving⟩
  rw [exec_within, ht]

theorem child (h : Decides inf p act) : Decides inf p (child act) := h.notes

theorem silently (h : Decides inf p act) : Decides inf p (silently act) := h.notes

theorem solvingFor {σ : Option Solution} (hσ : Unsolving σ) (h : Decides inf p act) :
    Decides inf p (solvingFor σ act) := by
  intro s hs
  obtain ⟨b, t, ht, answer, quiet⟩ := h { s with solving := σ } ⟨hs.inference, hσ⟩
  refine ⟨b, { t with solving := s.solving }, ?_, answer, quiet.inference, hs.solving⟩
  rw [exec_solvingFor, ht]

theorem attempt (h : Decides inf p act) : Decides inf p (attempt act) := by
  intro s hs
  obtain ⟨b, t, ht, answer, quiet⟩ := h s hs
  rw [exec_attempt, ht]
  cases b with
  | true => exact ⟨true, t, rfl, answer, quiet⟩
  | false => exact ⟨false, { t with solving := s.solving }, rfl, answer, quiet.inference, hs.solving⟩

theorem anyOf {f : α → Check Bool} {p : α → Prop} {as : List α}
    (h : ∀ a ∈ as, Decides inf (p a) (f a)) : Decides inf (∃ a ∈ as, p a) (Check.anyOf f as) := by
  induction as with
  | nil => exact no fun ⟨_, ha, _⟩ => nomatch ha
  | cons a as ih =>
    rw [List.forall_mem_cons] at h
    simp only [List.exists_mem_cons_iff]
    refine h.1.bind fun b answer => ?_
    cases b with
    | true => exact yes (.inl (answer.1 rfl))
    | false =>
      have hp : ¬ p a := fun hp => by cases answer.2 hp
      exact (ih h.2).iff (or_iff_right hp).symm

theorem tell {wording : Wording} {values : Inference → List (String × String)}
    {k : Unit → Check Bool} (hk : Decides inf p (k ())) :
    Decides inf p (Check.tell wording values >>= k) := by
  intro s hs
  obtain ⟨notes, told⟩ := exec_tell wording values s
  rw [exec_bind_of_ok told]
  exact hk _ ⟨hs.inference, hs.solving⟩

theorem mismatch (w : World) (source dest : Ty) : Decides inf False (mismatch w source dest) :=
  tell (no id)

theorem explained {wording : Wording} {values : Inference → List (String × String)}
    (h : Decides inf p act) : Decides inf p (explained act (Check.tell wording values)) :=
  h.orElse fun _ => tell (no id)

theorem allOf_map {β : Type} {f : β → Check Bool} {g : α → β} {p : α → Prop} {as : List α}
    (h : ∀ a ∈ as, Decides inf (p a) (f (g a))) :
    Decides inf (∀ a ∈ as, p a) (Check.allOf f (as.map g)) := by
  induction as with
  | nil => exact yes (fun _ h => nomatch h)
  | cons a as ih =>
    rw [List.forall_mem_cons] at h
    exact (h.1.both (ih h.2)).iff List.forall_mem_cons.symm

theorem allOf {f : α → Check Bool} {p : α → Prop} {as : List α}
    (h : ∀ a ∈ as, Decides inf (p a) (f a)) : Decides inf (∀ a ∈ as, p a) (Check.allOf f as) := by
  have mapped := allOf_map (g := id) h
  rwa [List.map_id] at mapped

theorem allOf_mapIdx {β : Type} {f : β → Check Bool} {g : Nat → α → β} {p : Nat → α → Prop}
    {as : List α} (h : ∀ i a, as[i]? = some a → Decides inf (p i a) (f (g i a))) :
    Decides inf (∀ i a, as[i]? = some a → p i a) (Check.allOf f (as.mapIdx g)) := by
  induction as generalizing g p with
  | nil => exact yes (fun _ _ h => nomatch h)
  | cons a as ih =>
    rw [List.mapIdx_cons]
    refine ((h 0 a rfl).both (ih fun i b hb => h (i + 1) b hb)).iff ⟨fun both i b hb => ?_, ?_⟩
    · cases i with
      | zero => exact Option.some.inj hb ▸ both.1
      | succ i => exact both.2 i b hb
    · exact fun all => ⟨all 0 a rfl, fun i b hb => all (i + 1) b hb⟩

end Decides

/-! ## What meets what -/

/-- From some level on the comparison of a source with a destination is decided: by one proposition
where the two have to be the same, and so is their being the same, and by another where they do
not. Where the two are equal, either comparison may be answered without being made. -/
structure Meets (w : World) (inf : Inference) (n : Nat) (dest source : Ty) (fits equal : Prop) :
    Prop where
  itself : dest = source → fits
  loose : ∀ {m : Nat}, n ≤ m → ∀ {mode : Mode}, mode.invariant = false →
    Decides inf fits ((judge w m).assign mode (some dest) (some source))
  strict : ∀ {m : Nat}, n ≤ m → ∀ {mode : Mode}, mode.invariant = true →
    Decides inf equal ((judge w m).assign mode (some dest) (some source))
  same : ∀ {m : Nat}, n ≤ m → (sameAt inf m dest source = true ↔ equal)

variable {w : World} {n : Nat}

namespace Meets

variable {dest source : Ty} {fits fits' equal equal' : Prop}

theorem mono {n' : Nat} (h : Meets w inf n dest source fits equal) (hn : n ≤ n') :
    Meets w inf n' dest source fits equal where
  itself := h.itself
  loose hm := h.loose (Nat.le_trans hn hm)
  strict hm := h.strict (Nat.le_trans hn hm)
  same hm := h.same (Nat.le_trans hn hm)

theorem iff (h : Meets w inf n dest source fits equal) (hf : fits ↔ fits')
    (he : equal ↔ equal') : Meets w inf n dest source fits' equal' where
  itself one := hf.1 (h.itself one)
  loose hm _ hi := (h.loose hm hi).iff hf
  strict hm _ hi := (h.strict hm hi).iff he
  same hm := (h.same hm).trans he

end Meets

section

variable {j : Judge} {mode : Mode} {dest source : Ty} {p : Prop}

/-- Types that are one object are not compared. -/
theorem decides_assign {m : Nat} (itself : dest = source → p)
    (h : Decides inf p (assignTy w (judge w m) mode dest source)) :
    Decides inf p ((judge w (m + 1)).assign mode (some dest) (some source)) := by
  rcases assign_cases w m mode dest source with ⟨one, identical⟩ | compared
  · exact identical ▸ .yes (itself one)
  · exact compared ▸ h

theorem decides_assignTy (hd : ∀ v, dest ≠ .var v) (proper : dest.isAnyOrUnknown = false)
    (proper' : source.isAnyOrUnknown = false)
    (h : Decides inf p (assignProper w j mode dest source)) :
    Decides inf p (assignTy w j mode dest source) := by
  refine .solution fun σ hσ => ?_
  rw [hσ.reverseVar?]
  dsimp only
  split
  · exact absurd rfl (hd _)
  · rw [proper, proper', Bool.or_self, if_neg Bool.false_ne_true]
    exact h

/-- Where the same type is demanded, arguments matter for views of one class that are not the
same. -/
theorem decides_strict (hd : ∀ v, dest ≠ .var v) (proper : dest.isAnyOrUnknown = false)
    (proper' : source.isAnyOrUnknown = false) (strict : mode.invariant = true)
    (same : dest.same inf source = true ↔ p)
    (arguments : ¬ p → ∀ c d, dest = .cls c → source = .cls d → sameView c d = true →
      Decides inf False
        (allOf (fun p => child (j.assign mode p.1 p.2)) (padPairs c.argList d.argList))) :
    Decides inf p (assignTy w j mode dest source) := by
  refine decides_assignTy hd proper proper' ?_
  unfold assignProper
  rw [if_pos strict]
  refine .inference ?_
  by_cases hp : p
  · rw [if_pos (same.2 hp)]
    exact .yes hp
  · rw [if_neg (mt same.1 hp)]
    have refused : Decides inf p (mismatch w source dest) :=
      (Decides.mismatch w source dest).iff (by simp [hp])
    split
    · rename_i c d
      split
      · rename_i view
        exact ((arguments hp c d rfl rfl view).orElse fun _ => .mismatch w _ _).iff (by simp [hp])
      · exact refused
    · exact refused

end

/-! ### Variables -/

/-- A variable that is not solved for accepts what is the same. -/
theorem meets_var {v : TypeVar} {t : Ty} (proper : t.isAnyOrUnknown = false) {p : Prop}
    (same : ∀ m, sameAt inf (m + 1) (.var v) t = true ↔ p) : Meets w inf 1 (.var v) t p p := by
  have itself (one : .var v = t) : p := (same 0).1 (one ▸ sameAt_self inf 1 _)
  have decided {m : Nat} (hm : 1 ≤ m) (mode : Mode) :
      Decides inf p ((judge w m).assign mode (some (.var v)) (some t)) := by
    obtain ⟨m, rfl⟩ := Nat.exists_eq_add_of_le' hm
    refine decides_assign itself ?_
    refine .solution fun σ hσ => ?_
    rw [hσ.reverseVar?]
    refine .inference (.solution fun σ hσ => ?_)
    rw [hσ.solves, Bool.and_false, proper]
    have here : (Ty.var v).same inf t = true ↔ p := same 14
    by_cases hp : p
    · rw [if_pos (here.2 hp)]
      exact .yes hp
    · rw [if_neg (mt here.1 hp)]
      exact (Decides.mismatch w t (.var v)).iff (by simp [hp])
  refine ⟨itself, fun hm mode _ => decided hm mode, fun hm mode _ => decided hm mode,
    fun hm => ?_⟩
  obtain ⟨m, rfl⟩ := Nat.exists_eq_add_of_le' hm
  exact same m

theorem meets_var_self (v : TypeVar) : Meets w inf 1 (.var v) (.var v) True True :=
  meets_var rfl fun _ => by simp [sameAt]

theorem meets_var_cls (v : TypeVar) (c : ClassTy) : Meets w inf 1 (.var v) (.cls c) False False :=
  meets_var rfl fun _ => by simp [sameAt]

def World.HasObject (w : World) : Prop := w.classes.isBuiltin Builtin.object "object" = true

/-- Everything is an object. -/
theorem World.HasObject.accepts (ho : w.HasObject) (m : Nat) {mode : Mode}
    (loose : mode.invariant = false) (t : Ty) :
    Decides inf True
      ((judge w m).assign mode (some (Builtin.instanceOf Builtin.object)) (some t)) := by
  induction m generalizing t with
  | zero => exact .cutOff trivial
  | succ m ih =>
    refine decides_assign (fun _ => trivial) ?_
    have shape : Decides inf True
        (assignByShape w (judge w m) mode (Builtin.instanceOf Builtin.object) t) := by
      change Decides inf True (assignToClass w (judge w m) mode Builtin.object.toInstance t)
      unfold assignToClass
      have object : w.classes.isBuiltin Builtin.object.toInstance "object" = true := ho
      rw [show Builtin.object.toInstance.isInstance = true from rfl, Bool.true_and, if_pos object]
      exact .yes trivial
    by_cases proper : t.isAnyOrUnknown = true
    · refine .solution fun σ hσ => ?_
      rw [hσ.reverseVar?, proper, Bool.or_true]
      exact .yes trivial
    · refine decides_assignTy (fun v h => nomatch h) rfl (Bool.eq_false_iff.2 proper) ?_
      unfold assignProper
      rw [if_neg (by simp [loose])]
      cases t with
      | var v => exact ih _
      | union ts =>
        refine .orElse ((Decides.allOf fun t _ => (ih t).child).iff (by simp)) fun h => ?_
        exact absurd trivial h
      | _ => exact shape

theorem World.HasObject.meets_var (ho : w.HasObject) (v : TypeVar) :
    Meets w inf 1 (Builtin.instanceOf Builtin.object) (.var v) True False := by
  refine ⟨fun _ => trivial, fun {m} _ mode loose => ho.accepts m loose _, fun hm mode strict => ?_,
    fun hm => ?_⟩
  · obtain ⟨m, rfl⟩ := Nat.exists_eq_add_of_le' hm
    refine decides_assign (fun one => nomatch one) ?_
    exact decides_strict (fun v h => nomatch h) rfl rfl strict
      (by simp [Ty.same, Ty.levels, sameAt, Builtin.instanceOf]) fun _ _ _ _ hd => nomatch hd
  · obtain ⟨m, rfl⟩ := Nat.exists_eq_add_of_le' hm
    simp [sameAt, Builtin.instanceOf]

/-! ### Classes without type arguments -/

section

variable {mode : Mode} {m : Nat} {dest source : ClassTy} {p : Prop}

private theorem decides_classes (itself : dest = source → p) (loose : mode.invariant = false)
    (h : Decides inf p (assignToClass w (judge w m) mode dest (.cls source))) :
    Decides inf p ((judge w (m + 1)).assign mode (some (.cls dest)) (some (.cls source))) := by
  refine decides_assign (fun one => itself (Ty.cls.inj one)) ?_
  refine decides_assignTy (fun v h => nomatch h) rfl rfl ?_
  unfold assignProper
  rw [if_neg (by simp [loose])]
  exact h

private theorem decides_strictClasses (strict : mode.invariant = true)
    (same : (Ty.cls dest).same inf (.cls source) = true ↔ p)
    (arguments : ¬ p → sameView dest source = true → Decides inf False
      (allOf (fun p => child ((judge w m).assign mode p.1 p.2))
        (padPairs dest.argList source.argList))) :
    Decides inf p ((judge w (m + 1)).assign mode (some (.cls dest)) (some (.cls source))) := by
  refine decides_assign (fun one => same.1 (one ▸ sameAt_self inf _ _)) ?_
  refine decides_strict (fun v h => nomatch h) rfl rfl strict same ?_
  rintro hp _ _ ⟨⟩ ⟨⟩ view
  exact arguments hp view

end

/-- An instance of a class that is no protocol, without type arguments. -/
structure ClassTable.Nominal (classes : ClassTable) (c : ClassTy) : Prop where
  inst : c.isInstance = true
  bare : c.args = none
  ordinary : classes.isProtocol c = false

instance (classes : ClassTable) (c : ClassTy) : Decidable (classes.Nominal c) :=
  decidable_of_iff (c.isInstance = true ∧ c.args.isNone = true ∧ classes.isProtocol c = false)
    ⟨fun ⟨inst, bare, ordinary⟩ => ⟨inst, Option.isNone_iff_eq_none.1 bare, ordinary⟩,
    fun h => ⟨h.inst, Option.isNone_iff_eq_none.2 h.bare, h.ordinary⟩⟩

/-- The destination takes instances of the source by what the declarations of the classes say. -/
def World.takes (w : World) (dest source : ClassTy) : Bool :=
  w.classes.isBuiltin dest "object" ||
    if dest.literal.isSome then dest.sameClass source && source.literal == dest.literal
    else isPromotion w dest source ||
      match findAncestor dest
          (.resolved source.toClassObject :: (w.classes.decl source.id).mro) with
      | .unrelated => false
      | .unresolved | .derived _ => true

theorem sameView_self (c : ClassTy) : sameView c c = true := by
  simp [sameView, ClassTy.sameClass]

private theorem findAncestor_self {dest source : ClassTy} (h : dest.sameClass source = true)
    (rest : List Ancestor) :
    findAncestor dest (.resolved source.toClassObject :: rest) =
      .derived source.toClassObject := by
  have here : source.toClassObject.sameClass dest = true := beq_iff_eq.2 (beq_iff_eq.1 h).symm
  rw [findAncestor, if_pos here]

theorem World.takes_of_sameView {dest source : ClassTy} (h : sameView dest source = true) :
    w.takes dest source = true := by
  simp only [sameView, Bool.and_eq_true, beq_iff_eq] at h
  unfold takes
  rw [findAncestor_self h.1.1]
  simp [h.1.1, h.2]

theorem same_bare {dest source : ClassTy} (hd : dest.args = none) (hs : source.args = none)
    (m : Nat) :
    sameAt inf (m + 1) (.cls dest) (.cls source) = true ↔ sameView dest source = true := by
  simp [sameAt, sameClassTy, sameView, ClassTy.argList, hd, hs, padPairs]

/-- Instances of classes that are no protocols meet by name. -/
theorem meets_nominal {dest source : ClassTy} (hd : w.classes.Nominal dest)
    (hs : w.classes.Nominal source) :
    Meets w inf 1 (.cls dest) (.cls source) (w.takes dest source = true)
      (sameView dest source = true) := by
  have itself (one : dest = source) : w.takes dest source = true :=
    World.takes_of_sameView (one ▸ sameView_self dest)
  refine ⟨fun one => itself (Ty.cls.inj one), fun hm mode loose => ?_, fun hm mode strict => ?_,
    fun hm => ?_⟩
  · obtain ⟨m, rfl⟩ := Nat.exists_eq_add_of_le' hm
    refine decides_classes itself loose ?_
    unfold assignToClass World.takes
    simp only [hd.inst, hs.inst, Bool.true_and, beq_self_eq_true, if_true]
    by_cases object : w.classes.isBuiltin dest "object" = true
    · rw [if_pos object, object]
      exact .yes rfl
    · rw [if_neg object, Bool.eq_false_iff.2 object, Bool.false_or]
      unfold assignClassToClass
      by_cases literal : dest.literal.isSome = true
      · rw [if_pos literal, if_pos literal]
        cases dest.sameClass source && source.literal == dest.literal with
        | true => exact .yes rfl
        | false => exact (Decides.mismatch w _ _).iff (by simp)
      · rw [if_neg literal, if_neg literal, Bool.eq_false_iff.2 object, Bool.false_or]
        cases isPromotion w dest source with
        | true => exact .yes rfl
        | false =>
          rw [Bool.false_or, hd.bare, hd.ordinary]
          dsimp only
          cases findAncestor dest
            (.resolved source.toClassObject :: (w.classes.decl source.id).mro) with
          | unresolved => exact .yes rfl
          | derived => exact .yes rfl
          | unrelated => exact (Decides.mismatch w _ _).iff (by simp)
  · obtain ⟨m, rfl⟩ := Nat.exists_eq_add_of_le' hm
    refine decides_strictClasses strict (same_bare hd.bare hs.bare 14) fun other view => ?_
    exact absurd view other
  · obtain ⟨m, rfl⟩ := Nat.exists_eq_add_of_le' hm
    exact same_bare hd.bare hs.bare m

/-! ### Views of one class -/

def ClassTy.Uncompared (w : World) (c : ClassTy) : Prop :=
  c.literal.isSome = true ∨ w.classes.isBuiltin c "object" = true ∨ isPromotion w c c = true

private theorem decides_views {j : Judge} {mode : Mode} {dest source : ClassTy} {p : Prop}
    (view : sameView dest source = true) (accepted : dest.Uncompared w → p)
    (bare : dest.args = none → p)
    (arguments : ¬ dest.Uncompared w → Decides inf p
      (assignArguments w j mode dest source.toClassObject)) :
    Decides inf p (assignToClass w j mode dest (.cls source)) := by
  simp only [sameView, Bool.and_eq_true, beq_iff_eq] at view
  obtain ⟨⟨one, inst⟩, literal⟩ := view
  have promotion : isPromotion w dest source = isPromotion w dest dest := by
    simp only [isPromotion, ClassTable.derives, ClassTy.sameClass,
      show dest.id = source.id from beq_iff_eq.1 one]
  have itself : ancestorOf w source source.toClassObject = pure source.toClassObject := by
    unfold ancestorOf
    rw [if_pos (by simp [ClassTy.sameClass, ClassTy.toClassObject])]
  unfold assignToClass
  split
  · rename_i object
    exact .yes (accepted (.inr (.inl (Bool.and_eq_true_iff.1 object).2)))
  · simp only [inst, beq_self_eq_true, if_true]
    unfold assignClassToClass
    dsimp only
    rw [findAncestor_self one, promotion]
    dsimp only
    split
    · rename_i given
      rw [if_pos (by simp [one, literal])]
      exact .yes (accepted (.inl given))
    · rename_i plain
      split
      · rename_i taken
        exact .yes (accepted (.inr (Bool.or_eq_true_iff.1 taken)))
      · rename_i other
        split
        · rename_i none
          exact .yes (bare (Option.isNone_iff_eq_none.1 none))
        · rw [itself, pure_bind]
          exact arguments fun uncompared =>
            uncompared.elim plain fun taken => other (Bool.or_eq_true_iff.2 taken)

/-- A class without type arguments meets itself. -/
theorem meets_self {c : ClassTy} (bare : c.args = none) :
    Meets w inf 1 (.cls c) (.cls c) True True := by
  have same : ∀ m, sameAt inf m (.cls c) (.cls c) = true ↔ True :=
    fun m => iff_true_intro (sameAt_self inf m _)
  refine ⟨fun _ => trivial, fun hm mode loose => ?_, fun hm mode strict => ?_,
    fun {m} _ => same m⟩
  · obtain ⟨m, rfl⟩ := Nat.exists_eq_add_of_le' hm
    refine decides_classes (fun _ => trivial) loose (decides_views (sameView_self c) (fun _ => trivial)
      (fun _ => trivial) fun _ => ?_)
    unfold assignArguments ClassTy.toClassObject
    rw [bare]
    exact .yes trivial
  · obtain ⟨m, rfl⟩ := Nat.exists_eq_add_of_le' hm
    exact decides_strictClasses strict (same 15) fun h => absurd trivial h

/-- What has to hold of something that varies in this way: one thing where it goes along, another
where it goes the other way round, and a third where it may not vary. -/
def Variance.choose (v : Variance) (along against equal : Prop) : Prop :=
  match v with
  | .covariant => along
  | .contravariant => against
  | .invariant => equal

def argumentVariance (w : World) (c : ClassTy) (i : Nat) : Variance :=
  ArgumentPair.variance ⟨none, none, (w.classes.decl c.id).params[i]?⟩

theorem pairArguments_zip (params : List TypeVar) {dests sources : List (Option Ty)}
    (h : dests.length = sources.length) :
    pairArguments params dests sources =
      (dests.zip sources).mapIdx fun i p => ⟨p.1, p.2, params[i]?⟩ := by
  refine List.ext_getElem (by simp [pairArguments, h]) fun i hi _ => ?_
  have here : i < sources.length := by simpa [pairArguments] using hi
  have here' : i < dests.length := h ▸ here
  have some_given : dests.isEmpty = false := by
    cases dests with
    | nil => cases here'
    | cons => rfl
  have place : min i (dests.length - 1) = i := by omega
  simp [pairArguments, some_given, place, List.getElem?_eq_getElem here']

private theorem padPairs_map (ts : List (Option Ty)) (f g : Option Ty → Option Ty) :
    padPairs (ts.map f) (ts.map g) = ts.map fun o => (f o, g o) := by
  induction ts with
  | nil => rfl
  | cons o ts ih => simp [padPairs, ih]

section

variable {φ ψ : Ty → Ty} {along against equal : Ty → Prop} {m : Nat} {mode : Mode}

private theorem decides_option {o : Option Ty} {p : Ty → Prop}
    (h : ∀ t, o = some t →
      Decides inf (p t) ((judge w m).assign mode (some (φ t)) (some (ψ t)))) :
    Decides inf (∀ t, o = some t → p t)
      ((judge w m).assign mode (o.map φ) (o.map ψ)) := by
  cases o with
  | some t => exact (h t rfl).iff (by simp)
  | none =>
    have none_given : ∀ t, none = some t → p t := fun _ h => nomatch h
    cases m with
    | zero => exact .cutOff none_given
    | succ m => exact .yes none_given

/-- A pair of arguments is compared as the variance of the parameter demands. -/
theorem decides_argument {dest source : Option Ty} {param : Option TypeVar} {p q r : Prop}
    (loose : mode.invariant = false)
    (ahead : ∀ {mode : Mode}, mode.invariant = false →
      Decides inf p ((judge w m).assign mode dest source))
    (back : ∀ {mode : Mode}, mode.invariant = false →
      Decides inf q ((judge w m).assign mode source dest))
    (fixed : ∀ {mode : Mode}, mode.invariant = true →
      Decides inf r ((judge w m).assign mode dest source)) :
    Decides inf ((ArgumentPair.variance ⟨none, none, param⟩).choose p q r)
      (ArgumentPair.assign w (judge w m) mode ⟨dest, source, param⟩) := by
  have same : ArgumentPair.variance ⟨dest, source, param⟩ =
      ArgumentPair.variance ⟨none, none, param⟩ := rfl
  unfold ArgumentPair.assign
  refine (Decides.explained (Decides.child ?_)).child
  rw [same]
  cases ArgumentPair.variance ⟨none, none, param⟩ with
  | covariant => exact ahead loose
  | contravariant => exact back loose
  | invariant => exact fixed rfl

variable {c : ClassTy} {ts : List (Option Ty)}
  (ahead : ∀ t, some t ∈ ts → Meets w inf n (φ t) (ψ t) (along t) (equal t))
  (back : ∀ t, some t ∈ ts → Meets w inf n (ψ t) (φ t) (against t) (equal t))
include ahead

private theorem same_arguments (e : Bool) (hm : n ≤ m) :
    sameAt inf (m + 1) (.cls (c.withArgs (ts.map (Option.map φ)) e))
        (.cls (c.withArgs (ts.map (Option.map ψ)) e)) = true ↔
      ∀ t, some t ∈ ts → equal t := by
  simp only [sameAt, sameClassTy, ClassTy.withArgs, ClassTy.sameClass, ClassTy.argList,
    Option.getD_some, beq_self_eq_true, Bool.and_self, Bool.true_and, padPairs_map, List.all_map,
    List.all_eq_true, Function.comp_apply]
  refine ⟨fun h t ht => ((ahead t ht).same hm).1 (h _ ht), fun h o ho => ?_⟩
  cases o with
  | none => rfl
  | some t => exact ((ahead t ho).same hm).2 (h t ho)

private theorem decides_places (strict : mode.invariant = true) (hm : n ≤ m) :
    Decides inf (∀ t, some t ∈ ts → equal t)
      (allOf (fun p => child ((judge w m).assign mode p.1 p.2))
        (ts.map fun o => (o.map φ, o.map ψ))) := by
  have each : ∀ o ∈ ts, Decides inf (∀ t, o = some t → equal t)
      (child ((judge w m).assign mode (o.map φ) (o.map ψ))) := by
    intro o ho
    refine (decides_option fun t ht => ?_).child
    subst ht
    exact (ahead t ho).strict hm strict
  have all := Decides.allOf_map
    (f := fun p : Option Ty × Option Ty => child ((judge w m).assign mode p.1 p.2))
    (g := fun o : Option Ty => (o.map φ, o.map ψ)) each
  exact all.iff ⟨fun all t ht => all _ ht t rfl, fun all o ho t ht => all t (ht ▸ ho)⟩

include back

private theorem decides_arguments (loose : mode.invariant = false) (hm : n ≤ m) :
    Decides inf
      (∀ i o, ts[i]? = some o → ∀ t, o = some t →
        (argumentVariance w c i).choose (along t) (against t) (equal t))
      (allOf (ArgumentPair.assign w (judge w m) mode) (ts.mapIdx fun i o =>
        ⟨o.map φ, o.map ψ, (w.classes.decl c.id).params[i]?⟩)) := by
  refine .allOf_mapIdx fun i o ho => ?_
  have mem {t : Ty} (ht : o = some t) : some t ∈ ts := ht ▸ List.mem_of_getElem? ho
  refine (decides_argument loose
    (fun loose => decides_option fun t ht => (ahead t (mem ht)).loose hm loose)
    (fun loose => decides_option fun t ht => (back t (mem ht)).loose hm loose)
    (fun strict => decides_option fun t ht => (ahead t (mem ht)).strict hm strict)).iff ?_
  unfold argumentVariance
  cases ArgumentPair.variance ⟨none, none, (w.classes.decl c.id).params[i]?⟩ <;> rfl

/-- Views of one class meet as their arguments do, each as the class varies with it. -/
theorem meets_arguments (hn : n < Ty.levels) (e : Bool) :
    Meets w inf (n + 1) (.cls (c.withArgs (ts.map (Option.map φ)) e))
      (.cls (c.withArgs (ts.map (Option.map ψ)) e))
      (c.Uncompared w ∨ ∀ (i : Nat) (t : Ty), ts[i]? = some (some t) →
        (argumentVariance w c i).choose (along t) (against t) (equal t))
      (∀ t, some t ∈ ts → equal t) := by
  have view : sameView (c.withArgs (ts.map (Option.map φ)) e)
      (c.withArgs (ts.map (Option.map ψ)) e) = true := by
    simp [sameView, ClassTy.withArgs, ClassTy.sameClass]
  have itself (one : c.withArgs (ts.map (Option.map φ)) e = c.withArgs (ts.map (Option.map ψ)) e)
      (i : Nat) (t : Ty) (ht : ts[i]? = some (some t)) :
      (argumentVariance w c i).choose (along t) (against t) (equal t) := by
    have given : some t ∈ ts := List.mem_of_getElem? ht
    have args := congrArg ClassTy.argList one
    simp only [ClassTy.withArgs, ClassTy.argList, Option.getD_some, List.map_inj_left] at args
    have one : φ t = ψ t := Option.some.inj (args _ given)
    cases argumentVariance w c i with
    | covariant => exact (ahead t given).itself one
    | contravariant => exact (back t given).itself one.symm
    | invariant => exact ((ahead t given).same (Nat.le_refl n)).1 (one ▸ sameAt_self inf n _)
  refine ⟨fun one => .inr (itself (Ty.cls.inj one)), fun hm mode loose => ?_,
    fun hm mode strict => ?_, fun hm => ?_⟩
  · obtain ⟨m, rfl⟩ := Nat.exists_eq_add_of_le' (Nat.le_trans (Nat.le_add_left 1 n) hm)
    have hm : n ≤ m := by omega
    have given : (c.withArgs (ts.map (Option.map φ)) e).args ≠ none := Option.some_ne_none _
    refine decides_classes (fun one => .inr (itself one)) loose (decides_views view .inl (fun h => absurd h given)
      fun compared => ?_)
    unfold assignArguments
    simp only [ClassTy.toClassObject, ClassTy.withArgs, ClassTy.argList, Option.getD_some]
    have pairs : pairArguments (w.classes.decl c.id).params (ts.map (Option.map φ))
        (ts.map (Option.map ψ)) = ts.mapIdx fun i o =>
          ⟨o.map φ, o.map ψ, (w.classes.decl c.id).params[i]?⟩ := by
      rw [pairArguments_zip _ (by simp), List.zip_map']
      exact List.ext_getElem (by simp) (by simp)
    rw [pairs]
    refine (decides_arguments ahead back loose hm).iff
      ⟨fun all => .inr fun i t ht => all i _ ht t rfl, ?_⟩
    rintro (uncompared | all) i o ho t rfl
    · exact absurd uncompared compared
    · exact all i t ho
  · obtain ⟨m, rfl⟩ := Nat.exists_eq_add_of_le' (Nat.le_trans (Nat.le_add_left 1 n) hm)
    have hm : n ≤ m := by omega
    have same : (Ty.cls (c.withArgs (ts.map (Option.map φ)) e)).same inf
        (.cls (c.withArgs (ts.map (Option.map ψ)) e)) = true ↔ ∀ t, some t ∈ ts → equal t :=
      same_arguments (m := 14) ahead e (Nat.le_of_lt_succ hn)
    refine decides_strictClasses strict same fun other _ => ?_
    simp only [ClassTy.withArgs, ClassTy.argList, Option.getD_some, padPairs_map]
    exact (decides_places ahead strict hm).iff (iff_false_intro other)
  · obtain ⟨m, rfl⟩ := Nat.exists_eq_add_of_le' (Nat.le_trans (Nat.le_add_left 1 n) hm)
    exact same_arguments ahead e (by omega)

end

end Conformance
