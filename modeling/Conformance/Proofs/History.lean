import Conformance.Proofs.Balance
import Conformance.Proofs.Learning
import Mathlib.Logic.Relation

/-!
# Histories of a session

What a session does, one step after another: it declares classes and modules, it checks types, and it
asks about types, which may find out return types. Whatever it does, what was found out stays so. A
step that only asks leaves everything that checks look at as it was, apart from the return types.
-/

namespace Conformance

open Check

/-! ## Declarations -/

private theorem opens_linearize (classes : ClassTable) (id : ClassId) :
    Opens (classes.linearize id) := by
  have lineage (table : ClassTable) (a : Ancestor) : Opens (table.lineageOfBase a) := by
    unfold ClassTable.lineageOfBase
    split
    · refine opens_bind (opens_mapM (fun a => ?_) _) fun ancestors => opens_pure _
      split
      · exact opens_bind (opens_specializeClass _ _) fun b => opens_pure _
      · exact opens_pure _
    · exact opens_pure _
  exact opens_bind (opens_mapM (lineage _) _) fun lists => opens_pure _

namespace Catalog

private theorem opens_setBases (cat : Catalog) (c : ClassTy) (bases : List (Option Ty)) :
    Opens (cat.setBases c bases) :=
  opens_bind (opens_linearize _ _) fun _ => opens_pure _

private theorem opens_finalize (cat : Catalog) (c : ClassTy) (bases : List (Option Ty))
    (metaclass : Option Ty) : Opens (cat.finalize c bases metaclass) :=
  opens_bind (opens_setBases _ _ _) fun _ => opens_pure _

private theorem opens_declareClass (cat : Catalog) (name : String) (flags : ClassFlags)
    (bases : List (Option Ty)) : Opens (cat.declareClass name flags bases) :=
  opens_bind (opens_finalize _ _ _ _) fun _ => opens_pure _

private theorem opens_declareProtocol (cat : Catalog) (name : String) (bases : List (Option Ty)) :
    Opens (cat.declareProtocol name bases) :=
  opens_declareClass _ _ _ _

private theorem opens_declareProperty (cat : Catalog) (getter setter deleter : Option FunctionTy) :
    Opens (cat.declareProperty getter setter deleter) :=
  opens_bind (opens_declareClass _ _ _ _) fun _ => opens_pure _

end Catalog

/-! ## Checks -/

private theorem Sequential.holds_demandAll {P : (α : Type) → Check α → Prop} (hP : Sequential P)
    (t : Ty) :
    P _ (demandAll t) := by
  have each : ∀ fs : List FunctionTy, P _ (fs.forM demand) := by
    intro fs
    induction fs with
    | nil => exact hP.holds_pure ()
    | cons f fs ih => exact hP.holds_bind (hP.holds_demand f) fun _ => ih
  unfold demandAll
  split
  · exact hP.holds_demand _
  · exact each _
  · exact hP.holds_pure ()

namespace Learns

theorem check {α : Type} (w : World) (op : Operation α) : Learns (op.check w) := by
  have types (depth : Int) : Assigns (fun _ act => Learns act) (judgeAt w depth) := (judge w _).1
  refine compositional.holds_check op (types _) (fun _ _ _ _ _ => ?_) fun _ _ _ => ?_
  · rw [conformsFrom_eq]
    split
    · exact cutOff
    · exact matchClass (types _) _ _ _ _ _
  · rw [moduleConformsAt_eq]
    split
    · exact cutOff
    · exact compositional.holds_matchModule (types _) _ _ _

end Learns

namespace Session

variable {α β : Type}

def Leads (R : Session → Session → Prop) (act : ExceptT InferenceError SessionM α) : Prop :=
  ∀ s : Session, R s ((ExceptT.run act).run s).2

/-- A relation between sessions that checks and reports pass on. -/
structure PassedOn (R : Session → Session → Prop) : Prop where
  refl (s : Session) : R s s
  trans {s t u : Session} (h : R s t) (h' : R t u) : R s u
  check {α : Type} (request : Request) (op : Operation α) (s : Session) :
    R s ((Session.run request op.check).run s).2
  report (s : Session) (report : Report) : R s { s with report := report }

namespace PassedOn

variable {R : Session → Session → Prop} (hR : PassedOn R)
include hR

private theorem leads_pure (a : α) : Leads R (pure a : ExceptT InferenceError SessionM α) := hR.refl

private theorem leads_bind {act : ExceptT InferenceError SessionM α}
    {k : α → ExceptT InferenceError SessionM β} (h : Leads R act) (hk : ∀ a, Leads R (k a)) :
    Leads R (act >>= k) := by
  intro s
  have first := h s
  rw [run_bind]
  rcases hr : (ExceptT.run act).run s with ⟨e | a, t⟩
  · rw [hr] at first
    exact first
  · rw [hr] at first
    exact hR.trans first (hk a t)

private theorem leads_answer (op : Operation α) : Leads R (answer op.check) := by
  refine hR.leads_bind (hR.check _ op) fun checked => ?_
  split
  · exact hR.leads_pure _
  · exact hR.refl

theorem leads_checkVariance (hp : Leads R placeholderClass) (protocol : ClassTy) (l : Location) :
    Leads R (checkVariance protocol l) := by
  have variance : ∀ (placeholder : Ty) (vs : List TypeVar) (index : Nat),
      Leads R (checkParamVariances (fun w => fitsItself w (judgeAt w 0)) protocol l placeholder
        index vs) := by
    intro placeholder vs
    induction vs with
    | nil => exact fun _ => hR.leads_pure true
    | cons v vs ih =>
      intro index
      rw [checkParamVariances]
      refine hR.leads_bind ?_ fun first => hR.leads_bind (ih _) fun others => hR.leads_pure _
      unfold checkParamVariance
      split
      · exact hR.leads_pure true
      · refine hR.leads_bind (hR.leads_answer (.variance protocol index placeholder)) ?_
        intro expected
        split
        · exact hR.leads_pure true
        · exact hR.leads_bind (fun _ => hR.report _ _) fun _ => hR.leads_pure false
  refine hR.leads_bind (fun _ => hR.refl _) fun s => ?_
  dsimp only
  split
  · exact hR.leads_pure true
  · exact hR.leads_bind hp fun placeholder => variance _ _ _

end PassedOn

/-! ## Steps -/

/-- A session is asked something and declares nothing. -/
inductive Asked : Session → Session → Prop
  | check {α : Type} (request : Request) (op : Operation α) (s : Session) :
      Asked s ((Session.run request op.check).run s).2
  | infer (request : Request) (t : Ty) (s : Session) :
      Asked s ((Session.run request fun _ => demandAll t).run s).2
  | getter (request : Request) (property : ClassTy) (findOut : Bool) (s : Session) :
      Asked s ((Session.run request fun w => getterType w property findOut).run s).2
  | checkAssignment (declared assigned : Option Ty) (l : Location) (s : Session) :
      Asked s ((ExceptT.run (checkAssignment declared assigned l)).run s).2
  | checkProtocol (protocol : ClassTy) (candidate : Option Ty) (l : Location) (s : Session) :
      Asked s ((ExceptT.run (checkProtocol protocol candidate l)).run s).2
  /-- The class that takes the place of other parameters was declared before. -/
  | checkVariance (protocol : ClassTy) (l : Location) (s : Session)
      (declared : s.placeholder.isSome = true) :
      Asked s ((ExceptT.run (checkVariance protocol l)).run s).2
  /-- Members are looked up, types are substituted, and functions are copied. -/
  | look {α : Type} (act : ClassTable → StateM Inference α) (opens : ∀ classes, Opens (act classes))
      (s : Session) : Asked s ((asking act).run s).2

/-- One step of a session. -/
inductive Step : Session → Session → Prop
  | asked {s t : Session} (h : Asked s t) : Step s t
  | checkVariance (protocol : ClassTy) (l : Location) (s : Session) :
      Step s ((ExceptT.run (checkVariance protocol l)).run s).2
  /-- Classes, scopes, parameters and members are added. -/
  | declare {α : Type} (act : Catalog → α × Catalog) (s : Session) :
      Step s ((declaring fun cat => pure (act cat)).run s).2
  | finalizeClass (c : ClassTy) (bases : List (Option Ty)) (metaclass : Option Ty) (s : Session) :
      Step s ((finalizeClass c bases metaclass).run s).2
  | setBases (c : ClassTy) (bases : List (Option Ty)) (s : Session) :
      Step s ((setBases c bases).run s).2
  | declareClass (name : String) (bases : List (Option Ty)) (s : Session) :
      Step s ((declareClass name bases).run s).2
  | declareProtocol (name : String) (bases : List (Option Ty)) (s : Session) :
      Step s ((declareProtocol name bases).run s).2
  | declareProperty (getter setter deleter : Option FunctionTy) (s : Session) :
      Step s ((declareProperty getter setter deleter).run s).2
  | addModule (s : Session) : Step s (addModule.run s).2
  | addModuleMember (table : TableId) (name : String) (m : Member) (s : Session) :
      Step s ((addModuleMember table name m).run s).2
  | setOptions (options : Options) (s : Session) : Step s { s with options := options }

/-- Any number of steps. -/
abbrev Steps : Session → Session → Prop := Relation.ReflTransGen Step

/-- The session is asked any number of times. -/
abbrev AskedOften : Session → Session → Prop := Relation.ReflTransGen Asked

variable {s t : Session}

/-- Where a session was only asked something, checks look at the same things as before, apart from
what was found out. -/
structure Onward (s t : Session) : Prop where
  later : s.inference.Later t.inference
  world : t.world = s.world
  pending : t.pending = s.pending

theorem Onward.refl (s : Session) : s.Onward s := ⟨.refl _, rfl, rfl⟩

theorem Onward.trans {u : Session} (h : s.Onward t) (h' : t.Onward u) : s.Onward u :=
  ⟨h.later.trans h'.later, h'.world.trans h.world, h'.pending.trans h.pending⟩

/-- A check that is reported leaves what a check leaves, with another report. -/
theorem run_checkOrReport (l : Location) (code : Code) (wording : Wording)
    (values : Session → List (String × String)) (check : World → Check Bool) (s : Session) :
    ∃ report, ((ExceptT.run (checkOrReport l code wording values check)).run s).2 =
      { Frame.leaving s (exec (check s.world) (Frame.entering s .plain)).2 with
        report := report } := by
  rw [checkOrReport, run_bind, run_lift, Frame.run_check]
  rcases exec (check s.world) (Frame.entering s .plain) with ⟨_ | _ | _, t⟩
  · exact ⟨_, rfl⟩
  · exact ⟨_, rfl⟩
  · exact ⟨_, rfl⟩

private theorem onward_run {check : World → Check α} (learns : ∀ w, Learns (check w))
    (keeps : ∀ w, Frame.balanced.Keeps (check w)) (request : Request) (s : Session) :
    s.Onward ((Session.run request check).run s).2 :=
  ⟨(learns s.world).later (Frame.entering s request), rfl,
    (keeps s.world (Frame.entering s request)).1⟩

private theorem onward_checkOrReport {l : Location} {code : Code} {wording : Wording}
    {values : Session → List (String × String)} {check : World → Check Bool}
    (learns : ∀ w, Learns (check w)) (keeps : ∀ w, Frame.balanced.Keeps (check w)) (s : Session) :
    s.Onward ((ExceptT.run (checkOrReport l code wording values check)).run s).2 := by
  obtain ⟨report, left⟩ := run_checkOrReport l code wording values check s
  rw [left]
  exact ⟨(learns s.world).later (Frame.entering s .plain), rfl,
    (keeps s.world (Frame.entering s .plain)).1⟩

private theorem onward_checkAssignment (declared assigned : Option Ty) (l : Location)
    (s : Session) :
    s.Onward ((ExceptT.run (checkAssignment declared assigned l)).run s).2 :=
  onward_checkOrReport (fun w => (Learns.judge w _).1 _ _ _)
    (fun w => Frame.balanced_judgeAt w 0 _ _ _) s

private theorem onward_check {α : Type} (request : Request) (op : Operation α) (s : Session) :
    s.Onward ((Session.run request op.check).run s).2 :=
  onward_run (fun w => Learns.check w op) (fun w => Frame.balanced_check w op) request s

private theorem placeholderClass_cases (s : Session) :
    ((ExceptT.run (placeholderClass : ExceptT InferenceError SessionM ClassTy)).run s).2 = s ∨
      s.placeholder = none ∧
        ((ExceptT.run (placeholderClass : ExceptT InferenceError SessionM ClassTy)).run s).2.inference =
          ((declareClass "__varianceDummy" []).run s).2.inference := by
  unfold placeholderClass
  generalize declareClass "__varianceDummy" [] = declare
  obtain ⟨_, _, _, _, _, _, _, _, placeholder⟩ := s
  cases placeholder with
  | some c => exact .inl rfl
  | none => exact .inr ⟨rfl, rfl⟩

private theorem onward_checkVariance (protocol : ClassTy) (l : Location) {s : Session}
    (declared : s.placeholder.isSome = true) :
    s.Onward ((ExceptT.run (checkVariance protocol l)).run s).2 := by
  have passed : PassedOn fun s t =>
      s.placeholder.isSome = true → s.Onward t ∧ t.placeholder.isSome = true := by
    refine ⟨fun s h => ⟨.refl s, h⟩, fun h h' there => ?_, fun request op s h => ?_, fun s _ h => ?_⟩
    · obtain ⟨first, there⟩ := h there
      obtain ⟨second, there⟩ := h' there
      exact ⟨first.trans second, there⟩
    · exact ⟨onward_check request op s, h⟩
    · exact ⟨⟨.refl _, rfl, rfl⟩, h⟩
  refine (passed.leads_checkVariance (fun s h => ?_) protocol l s declared).1
  rcases placeholderClass_cases s with same | ⟨none, -⟩
  · rw [same]
    exact ⟨.refl s, h⟩
  · rw [none] at h
    cases h

theorem Asked.onward (h : Asked s t) : s.Onward t := by
  cases h with
  | check request op => exact onward_check request op s
  | infer request ty =>
    exact onward_run (fun _ => Learns.compositional.holds_demandAll ty)
      (fun _ => Frame.balanced.compositional.holds_demandAll ty) request s
  | getter request property findOut =>
    exact onward_run (fun _ => Learns.compositional.holds_getterType property findOut)
      (fun _ => Frame.balanced.compositional.holds_getterType property findOut) request s
  | checkAssignment declared assigned l => exact onward_checkAssignment declared assigned l s
  | checkProtocol protocol candidate l =>
    unfold Session.checkProtocol
    split
    · exact onward_checkOrReport (fun w => ((Learns.judge w _).2 _).conforms _ _ _)
        (fun w => ((Frame.balanced_judge w _).2 _).conforms _ _ _) s
    · exact onward_checkOrReport (fun w => ((Learns.judge w _).2 _).moduleConforms _ _ _)
        (fun w => ((Frame.balanced_judge w _).2 _).moduleConforms _ _ _) s
    · exact onward_checkAssignment _ _ l s
  | checkVariance protocol l _ declared => exact onward_checkVariance protocol l declared
  | look act opens => exact ⟨.of_opened (opens s.classes s.inference), rfl, rfl⟩

theorem AskedOften.onward (h : AskedOften s t) : s.Onward t := by
  induction h with
  | refl => exact .refl s
  | tail _ asked ih => exact ih.trans asked.onward

private theorem later_declaring {α : Type} {act : Catalog → StateM Inference (α × Catalog)}
    (h : ∀ cat, Opens (act cat)) (s : Session) :
    s.inference.Later ((declaring act).run s).2.inference :=
  .of_opened (h s.catalog s.inference)

private theorem later_checkVariance (protocol : ClassTy) (l : Location) (s : Session) :
    s.inference.Later ((ExceptT.run (checkVariance protocol l)).run s).2.inference := by
  have passed : PassedOn fun s t => s.inference.Later t.inference :=
    ⟨fun _ => .refl _, .trans, fun request op s => (onward_check request op s).later,
      fun _ _ => .refl _⟩
  refine passed.leads_checkVariance (fun s => ?_) protocol l s
  rcases placeholderClass_cases s with same | ⟨-, opened⟩
  · rw [same]
    exact .refl _
  · rw [opened, declareClass]
    exact later_declaring (fun cat => cat.opens_declareClass _ _ _) s

theorem Step.later (h : Step s t) : s.inference.Later t.inference := by
  cases h with
  | asked h => exact h.onward.later
  | checkVariance protocol l => exact later_checkVariance protocol l s
  | declare act => exact .refl _
  | finalizeClass c bases metaclass =>
    unfold Session.finalizeClass
    exact later_declaring (fun cat => opens_bind (cat.opens_finalize _ _ _) fun _ => opens_pure _) s
  | setBases c bases =>
    unfold Session.setBases
    exact later_declaring (fun cat => opens_bind (cat.opens_setBases _ _) fun _ => opens_pure _) s
  | declareClass name bases =>
    unfold Session.declareClass
    exact later_declaring (fun cat => cat.opens_declareClass _ _ _) s
  | declareProtocol name bases =>
    unfold Session.declareProtocol
    exact later_declaring (fun cat => cat.opens_declareProtocol _ _) s
  | declareProperty getter setter deleter =>
    unfold Session.declareProperty
    exact later_declaring (fun cat => cat.opens_declareProperty _ _ _) s
  | addModule => exact .refl _
  | addModuleMember table name m =>
    unfold Session.addModuleMember
    simp only [StateT.run_bind, StateT.run_get, pure_bind]
    split <;> exact .refl _
  | setOptions => exact .refl _

/-- What was found out stays so in every history. -/
theorem Steps.later (h : Steps s t) : s.inference.Later t.inference := by
  induction h with
  | refl => exact .refl _
  | tail _ step ih => exact ih.trans step.later

end Session

end Conformance
