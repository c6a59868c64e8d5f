import Conformance.Proofs.Frame
import Conformance.Session

/-!
# Operations

Each check that a session may be asked for, as an operation that starts at a depth. An operation is
written against the calls that lead back to the comparisons; `Calls.step` is one turn of that
recursion, with the depth counted upwards and the bases of a protocol followed without a limit.
-/

namespace Conformance

open Check

/-- What the comparisons call that may lead back to them. -/
structure Calls where
  judge : (depth : Int) → Judge
  fits : (depth : Int) → (dest source : ClassTy) → Check Bool

namespace Calls

variable (w : World)

def answered : Calls := ⟨judgeAt w, fun depth => fitsItself w (judgeAt w depth)⟩

/-- Calls that are answered by way of other calls, one turn of the recursion. -/
def step (c : Calls) : Calls where
  judge depth :=
    if (Ty.levels : Int) ≤ depth then accepting w
    else judgeStep w (levelsAt depth) (c.judge (depth + 1))
  fits depth := specializationStep w (c.judge depth) (c.fits depth)

/-- The recursion down to a number of turns, with other calls below the last one. -/
def unfold : (turns : Nat) → (below : Calls) → Calls
  | 0, below => below
  | turns + 1, below => step w (unfold turns below)

end Calls

/-- What a session may be asked to check that can come to a comparison with a protocol. -/
inductive Operation : Type → Type
  | assign (depth : Int) (mode : Mode) (dest source : Option Ty) : Operation Bool
  | conforms (choice : StackChoice) (depth : Int) (mode : Mode) (asObject : Bool)
      (protocol candidate : ClassTy) : Operation Bool
  | moduleConforms (depth : Int) (mode : Mode) (protocol : ClassTy) (table : TableId) :
      Operation Bool
  | assignProperty (depth : Int) (pair : PropertyPair) : Operation Bool
  | assignArguments (depth : Int) (mode : Mode) (dest source : ClassTy) : Operation Bool
  | bind (depth : Int) (receiver : Receiver) (member : Ty) (owner : Option ClassTy) :
      Operation (Option Ty)
  | fitsItself (depth : Int) (dest source : ClassTy) : Operation Bool
  | variance (protocol : ClassTy) (index : Nat) (other : Ty) : Operation Variance

namespace Operation

variable {α : Type}

/-- The depth at which an operation starts. -/
def depth : Operation α → Int
  | assign depth _ _ _ | conforms _ depth _ _ _ _ | moduleConforms depth _ _ _
  | assignProperty depth _ | assignArguments depth _ _ _ | bind depth _ _ _
  | fitsItself depth _ _ => depth
  | variance _ _ _ => 0

/-- An operation that is answered by way of calls. -/
def checkBy (w : World) (c : Calls) : Operation α → Check α
  | assign depth mode dest source => (c.judge depth).assign mode dest source
  | conforms choice depth mode asObject protocol candidate =>
    if (Ty.levels : Int) ≤ depth then cutOff
    else matchClass w (c.judge (depth + 1)) choice mode asObject protocol candidate
  | moduleConforms depth mode protocol table =>
    if (Ty.levels : Int) ≤ depth then cutOff
    else matchModule w (c.judge (depth + 1)) mode protocol table
  | assignProperty depth pair => Conformance.assignProperty w (c.judge depth) pair
  | assignArguments depth mode dest source =>
    Conformance.assignArguments w (c.judge depth) mode dest source
  | bind depth receiver member owner => Conformance.bind w (c.judge depth) receiver member owner
  | fitsItself depth dest source => c.fits depth dest source
  | variance protocol index other => expectedVariance w (c.fits 0) protocol index other

/-- An operation as the model answers it. -/
def check (w : World) : Operation α → Check α
  | assign depth mode dest source => (judgeAt w depth).assign mode dest source
  | conforms choice depth mode asObject protocol candidate =>
    conformsFrom w choice depth mode asObject protocol candidate
  | moduleConforms depth mode protocol table => moduleConformsAt w depth mode protocol table
  | assignProperty depth pair => Conformance.assignProperty w (judgeAt w depth) pair
  | assignArguments depth mode dest source =>
    Conformance.assignArguments w (judgeAt w depth) mode dest source
  | bind depth receiver member owner => Conformance.bind w (judgeAt w depth) receiver member owner
  | fitsItself depth dest source => Conformance.fitsItself w (judgeAt w depth) dest source
  | variance protocol index other =>
    expectedVariance w (Conformance.fitsItself w (judgeAt w 0)) protocol index other

end Operation

/-- A session with the given classes in which nothing was checked yet. -/
def Session.ofDecls (decls : Array ClassDecl) : Session where
  catalog := ⟨⟨decls⟩, decls.size, 1⟩
  modules := #[]
  inference := .start
  options := .default
  pending := []
  trace := #[]
  history := []
  report := .empty
  placeholder := none
  identity := .apart

/-! ## Levels and depths -/

private theorem levelsAt_eq_zero {depth : Int} (h : (Ty.levels : Int) ≤ depth) :
    levelsAt depth = 0 := by
  unfold levelsAt
  omega

theorem levelsAt_eq_succ {depth : Int} (h : ¬ (Ty.levels : Int) ≤ depth) :
    levelsAt depth = levelsAt (depth + 1) + 1 := by
  unfold levelsAt
  omega

theorem levelsAt_le {depth : Int} (h : 0 ≤ depth) : levelsAt depth ≤ Ty.levels := by
  unfold levelsAt
  omega

theorem judgeAt_eq (w : World) (depth : Int) :
    judgeAt w depth =
      if (Ty.levels : Int) ≤ depth then accepting w
      else judgeStep w (levelsAt depth) (judgeAt w (depth + 1)) := by
  unfold judgeAt
  split
  · rename_i h
    rw [levelsAt_eq_zero h, judge]
  · rename_i h
    rw [levelsAt_eq_succ h, judge_succ]

theorem conformsFrom_eq (w : World) (choice : StackChoice) (depth : Int) (mode : Mode)
    (asObject : Bool) (protocol candidate : ClassTy) :
    conformsFrom w choice depth mode asObject protocol candidate =
      if (Ty.levels : Int) ≤ depth then cutOff
      else matchClass w (judgeAt w (depth + 1)) choice mode asObject protocol candidate := by
  unfold conformsFrom judgeAt
  split
  · rename_i h
    rw [if_pos (by unfold levelsAt at h; omega)]
  · rename_i n h
    have hd : ¬ (Ty.levels : Int) ≤ depth := by
      unfold levelsAt at h
      omega
    rw [levelsAt_eq_succ hd] at h
    rw [if_neg hd, Nat.succ.inj h]

theorem moduleConformsAt_eq (w : World) (depth : Int) (mode : Mode) (protocol : ClassTy)
    (table : TableId) :
    moduleConformsAt w depth mode protocol table =
      if (Ty.levels : Int) ≤ depth then cutOff
      else matchModule w (judgeAt w (depth + 1)) mode protocol table := by
  unfold moduleConformsAt judgeAt
  split
  · rename_i h
    rw [if_pos (by unfold levelsAt at h; omega)]
  · rename_i n h
    have hd : ¬ (Ty.levels : Int) ≤ depth := by
      unfold levelsAt at h
      omega
    rw [levelsAt_eq_succ hd] at h
    rw [if_neg hd, Nat.succ.inj h]

namespace Operation

variable {α : Type}

theorem checkBy_answered (w : World) (op : Operation α) :
    op.checkBy w (.answered w) = op.check w := by
  cases op with
  | conforms => exact (conformsFrom_eq ..).symm
  | moduleConforms => exact (moduleConformsAt_eq ..).symm
  | _ => rfl

end Operation

/-- An operation has a property if the judge at its depth and the comparisons with protocols there
have it. -/
theorem Compositional.holds_check {P : (α : Type) → Check α → Prop} (hP : Compositional P)
    {w : World} {α : Type} (op : Operation α) (hj : Assigns P (judgeAt w op.depth))
    (hc : ∀ choice mode asObject protocol candidate,
      P _ (conformsFrom w choice op.depth mode asObject protocol candidate))
    (hm : ∀ mode protocol table, P _ (moduleConformsAt w op.depth mode protocol table)) :
    P _ (op.check w) := by
  cases op with
  | assign depth mode dest source => exact hj _ _ _
  | conforms choice depth mode asObject protocol candidate => exact hc _ _ _ _ _
  | moduleConforms depth mode protocol table => exact hm _ _ _
  | assignProperty depth pair => exact hP.holds_assignProperty hj _
  | assignArguments depth mode dest source => exact hP.holds_assignArguments hj _ _ _
  | bind depth receiver member owner => exact hP.holds_bindMember (hP.receives hj) _ _ _
  | fitsItself depth dest source => exact hP.holds_fitsItself hj _ _
  | variance protocol index other =>
    exact hP.holds_expectedVariance (hP.holds_fitsItself hj) _ _ _

namespace Frame

variable {F : Frame} {w : World}

/-- An operation keeps a frame if the judge at its depth and the comparisons with protocols there
do. -/
theorem keeps_check {α : Type} (op : Operation α) (hj : F.KeepsAssign (judgeAt w op.depth))
    (hc : ∀ choice mode asObject protocol candidate,
      F.Keeps (conformsFrom w choice op.depth mode asObject protocol candidate))
    (hm : ∀ mode protocol table, F.Keeps (moduleConformsAt w op.depth mode protocol table)) :
    F.Keeps (op.check w) :=
  F.compositional.holds_check op hj hc hm

/-! ## Sessions -/

end Frame

def Session.footprint (s : Session) : Footprint := ⟨s.pending, [], s.history⟩

namespace Frame

variable {F : Frame} {α β : Type}

def KeepsLent (F : Frame) : Prop := ∀ {f g : Footprint}, F.rel f g → g.lent = f.lent

def KeepsSession (F : Frame) (act : ExceptT InferenceError SessionM α) : Prop :=
  ∀ s : Session, F.rel s.footprint ((ExceptT.run act).run s).2.footprint

private theorem keepsSession_of_eq {act : ExceptT InferenceError SessionM α}
    (h : ∀ s, ((ExceptT.run act).run s).2.footprint = s.footprint) : F.KeepsSession act :=
  fun s => h s ▸ F.refl _

private theorem keepsSession_pure (a : α) :
    F.KeepsSession (pure a : ExceptT InferenceError SessionM α) :=
  keepsSession_of_eq fun _ => rfl

private theorem keepsSession_bind {act : ExceptT InferenceError SessionM α}
    {k : α → ExceptT InferenceError SessionM β} (h : F.KeepsSession act)
    (hk : ∀ a, F.KeepsSession (k a)) : F.KeepsSession (act >>= k) := by
  intro s
  have first := h s
  rw [run_bind]
  rcases hr : (ExceptT.run act).run s with ⟨r, t⟩
  rw [hr] at first
  cases r with
  | ok a => exact F.trans first (hk a t)
  | error e => exact first

/-- The state that a check starts in. -/
def entering (s : Session) (request : Request) : CheckState where
  inference := s.inference
  trace := s.trace
  pending := s.pending
  lent := request.lent
  solving := request.solution
  notes := if request.explain then some .empty else none
  history := s.history

def leaving (s : Session) (t : CheckState) : Session :=
  { s with inference := t.inference, trace := t.trace, pending := t.pending, history := t.history }

theorem run_check (request : Request) (check : World → Check α) (s : Session) :
    (Session.run request check).run s =
      (⟨(exec (check s.world) (entering s request)).1,
          (exec (check s.world) (entering s request)).2.solving,
          (exec (check s.world) (entering s request)).2.notes,
          (exec (check s.world) (entering s request)).2.lent⟩,
        leaving s (exec (check s.world) (entering s request)).2) := rfl

/-- A check for its answer yields the answer or fails as the check does. -/
theorem run_answer (check : World → Check α) (s : Session) :
    (ExceptT.run (Session.answer check)).run s =
      ((exec (check s.world) (entering s { Request.plain with explain := false })).1,
        leaving s
          (exec (check s.world) (entering s { Request.plain with explain := false })).2) := by
  rw [Session.answer, run_bind, run_lift, run_check]
  rcases exec (check s.world) (entering s { Request.plain with explain := false }) with
    ⟨_ | _, t⟩ <;> rfl

private theorem keepsSession_run {check : World → Check α} (hl : F.KeepsLent)
    (h : ∀ w, F.Keeps (check w)) {request : Request} (hr : request.lent = []) :
    F.KeepsSession (Session.run request check : ExceptT InferenceError SessionM (Checked α)) := by
  intro s
  have kept : F.rel ⟨s.pending, request.lent, s.history⟩ _ := h s.world (entering s request)
  have lent := hl kept
  change F.rel ⟨s.pending, [], s.history⟩
    ⟨(exec (check s.world) (entering s request)).2.pending, [],
      (exec (check s.world) (entering s request)).2.history⟩
  generalize exec (check s.world) (entering s request) = result at kept lent ⊢
  obtain ⟨_, t⟩ := result
  simp only [CheckState.footprint] at kept lent
  rwa [lent, hr] at kept

private theorem keepsSession_answer {check : World → Check α} (hl : F.KeepsLent)
    (h : ∀ w, F.Keeps (check w)) : F.KeepsSession (Session.answer check) := by
  refine keepsSession_bind (keepsSession_run hl h rfl) fun checked => ?_
  split
  · exact keepsSession_pure _
  · exact keepsSession_of_eq fun _ => rfl

private theorem keepsSession_checkOrReport (hl : F.KeepsLent) {l : Location} {code : Code}
    {wording : Wording} {values : Session → List (String × String)} {check : World → Check Bool}
    (h : ∀ w, F.Keeps (check w)) :
    F.KeepsSession (Session.checkOrReport l code wording values check) := by
  refine keepsSession_bind (keepsSession_run hl h rfl) fun checked => ?_
  split
  · exact keepsSession_of_eq fun _ => rfl
  · exact keepsSession_pure true
  · exact keepsSession_bind (keepsSession_of_eq fun _ => rfl) fun _ => keepsSession_pure false

theorem keepsSession_checkAssignment (hl : F.KeepsLent)
    (hj : ∀ w, F.KeepsAssign (judgeAt w 0)) (declared assigned : Option Ty) (l : Location) :
    F.KeepsSession (Session.checkAssignment declared assigned l) :=
  keepsSession_checkOrReport hl fun w => hj w _ _ _

theorem keepsSession_checkProtocol (hl : F.KeepsLent) (hj : ∀ w, F.KeepsAssign (judgeAt w 0))
    (hp : ∀ w, F.KeepsProtocols (judgeAt w 0) .default) (protocol : ClassTy)
    (candidate : Option Ty) (l : Location) :
    F.KeepsSession (Session.checkProtocol protocol candidate l) := by
  unfold Session.checkProtocol
  split
  · exact keepsSession_checkOrReport hl fun w => (hp w).conforms _ _ _
  · exact keepsSession_checkOrReport hl fun w => (hp w).moduleConforms _ _ _
  · exact keepsSession_checkAssignment hl hj _ _ _

private theorem footprint_placeholderClass (s : Session) :
    (Session.placeholderClass.run s).2.footprint = s.footprint := by
  unfold Session.placeholderClass Session.declareClass
  generalize (fun cat : Catalog => cat.declareClass "__varianceDummy" .none []) = declare
  obtain ⟨_, _, _, _, _, _, _, _, placeholder⟩ := s
  cases placeholder <;> rfl

section

variable {fits : World → ClassTy → ClassTy → Check Bool}

private theorem keepsSession_checkParamVariances (hl : F.KeepsLent)
    (hf : ∀ w dest source, F.Keeps (fits w dest source)) (protocol : ClassTy) (l : Location)
    (placeholder : Ty) (index : Nat) (vs : List TypeVar) :
    F.KeepsSession (Session.checkParamVariances fits protocol l placeholder index vs) := by
  induction vs generalizing index with
  | nil => exact keepsSession_pure true
  | cons v vs ih =>
    rw [Session.checkParamVariances]
    refine keepsSession_bind ?_ fun first => keepsSession_bind (ih _) fun others =>
      keepsSession_pure _
    unfold Session.checkParamVariance
    split
    · exact keepsSession_pure true
    · refine keepsSession_bind ?_ fun expected => ?_
      · exact keepsSession_answer hl fun w => F.compositional.holds_expectedVariance (hf w) _ _ _
      · split
        · exact keepsSession_pure true
        · exact keepsSession_bind (keepsSession_of_eq fun _ => rfl) fun _ =>
            keepsSession_pure false

theorem keepsSession_checkVarianceBy (hl : F.KeepsLent)
    (hf : ∀ w dest source, F.Keeps (fits w dest source)) (protocol : ClassTy) (l : Location) :
    F.KeepsSession (Session.checkVarianceBy fits protocol l) := by
  refine keepsSession_bind (keepsSession_of_eq fun _ => rfl) fun s => ?_
  dsimp only
  split
  · exact keepsSession_pure true
  · exact keepsSession_bind (keepsSession_of_eq footprint_placeholderClass) fun placeholder =>
      keepsSession_checkParamVariances hl hf _ _ _ _ _

end

end Frame

end Conformance
