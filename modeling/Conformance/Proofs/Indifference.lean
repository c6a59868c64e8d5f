import Conformance.Proofs.Operation
import Conformance.Ty.Inferrers

/-!
# Explaining makes no difference

A check runs the same way whether or not its answer is explained, and whatever was explained before:
two runs that start in states which differ only in the explanation end with the same answer, or the
same failure, in states which differ only there.
-/

namespace Conformance

open Check

variable {α β : Type}

def CheckState.explaining (s : CheckState) (notes : Option Explanation) : CheckState :=
  { s with notes := notes }

/-- What is explained changes only what is explained. -/
def Indifferent (act : Check α) : Prop :=
  ∀ s notes, ∃ told,
    exec act (s.explaining notes) = ((exec act s).1, (exec act s).2.explaining told)

namespace Indifferent

theorem pure (a : α) : Indifferent (pure a : Check α) := fun _ notes => ⟨notes, rfl⟩

theorem bind {act : Check α} {k : α → Check β} (h : Indifferent act)
    (hk : ∀ a, Indifferent (k a)) : Indifferent (act >>= k) := by
  intro s notes
  obtain ⟨told, first⟩ := h s notes
  rw [exec_bind, exec_bind, first]
  rcases exec act s with ⟨_ | a, t⟩
  · exact ⟨told, rfl⟩
  · exact hk a t told

theorem lift (m : StateM Inference α) : Indifferent (lift m) := fun _ notes => ⟨notes, rfl⟩

theorem demand (f : FunctionTy) : Indifferent (demand f) := by
  intro s notes
  rw [exec_demand, exec_demand]
  exact ⟨notes, rfl⟩

theorem record (e : Event) : Indifferent (record e) := fun _ notes => ⟨notes, rfl⟩

theorem cutOff : Indifferent cutOff := bind (record .cut) fun _ => pure true

theorem trace (w : World) {line : CheckState → TraceLine}
    (h : ∀ s notes, line (s.explaining notes) = line s) : Indifferent (trace w line) := by
  intro s notes
  rw [exec_trace, exec_trace, h]
  refine ⟨notes, ?_⟩
  by_cases hv : w.verbose <;> simp only [hv, if_true] <;> rfl

theorem tell (wording : Wording) (values : Inference → List (String × String)) :
    Indifferent (tell wording values) := by
  intro s notes
  obtain ⟨_, before⟩ := exec_tell wording values s
  obtain ⟨told, after⟩ := exec_tell wording values (s.explaining notes)
  rw [before, after]
  exact ⟨told, rfl⟩

theorem within {enter : CheckState → CheckState} {leave : CheckState → CheckState → CheckState}
    {act : Check α}
    (he : ∀ s notes, ∃ told, enter (s.explaining notes) = (enter s).explaining told)
    (hl : ∀ s notes t told, ∃ kept,
      leave (s.explaining notes) (t.explaining told) = (leave s t).explaining kept)
    (h : Indifferent act) : Indifferent (within enter leave act) := by
  intro s notes
  obtain ⟨entered, same⟩ := he s notes
  obtain ⟨told, inner⟩ := h (enter s) entered
  obtain ⟨kept, left⟩ := hl s notes (exec act (enter s)).2 told
  refine ⟨kept, ?_⟩
  rw [exec_within, exec_within, same, inner, left]

theorem solvingFor {act : Check α} (σ : Option Solution) (h : Indifferent act) :
    Indifferent (solvingFor σ act) :=
  within (fun _ notes => ⟨notes, rfl⟩) (fun _ _ _ told => ⟨told, rfl⟩) h

/-- What explains nothing runs the same way, whatever it is made of. -/
theorem silently (act : Check α) : Indifferent (silently act) := fun _ notes => ⟨notes, rfl⟩

theorem child {act : Check α} (h : Indifferent act) : Indifferent (child act) :=
  within (fun _ _ => ⟨_, rfl⟩) (fun _ _ _ _ => ⟨_, rfl⟩) h

theorem attempt {act : Check Bool} (h : Indifferent act) : Indifferent (attempt act) := by
  intro s notes
  obtain ⟨told, inner⟩ := h s notes
  refine ⟨told, ?_⟩
  rw [exec_attempt, exec_attempt, inner]
  rcases exec act s with ⟨_ | _ | _, t⟩ <;> rfl

theorem compositional : Compositional fun _ act => Indifferent act where
  holds_pure := pure
  holds_bind := bind
  holds_inference _ notes := ⟨notes, rfl⟩
  holds_lift _ := lift _
  holds_demand := demand
  holds_solution _ notes := ⟨notes, rfl⟩
  holds_solving h :=
    bind (fun _ notes => ⟨notes, rfl⟩) fun σ => h σ fun _ _ _ _ notes => ⟨notes, rfl⟩
  holds_tell := tell
  holds_solvingFor := solvingFor
  holds_silently _ := silently _
  holds_child := child
  holds_attempt := attempt

theorem whilePending {act : Check Bool} (choice : StackChoice) (c : Comparison)
    (h : Indifferent act) : Indifferent (whilePending choice c act) := by
  intro s notes
  obtain ⟨told, inner⟩ :=
    h (setPendingOn choice { s with history := [] } (c.pair :: pendingOn choice s)) notes
  refine ⟨told, ?_⟩
  rw [exec_whilePending, exec_whilePending]
  cases choice <;>
  · dsimp only [pendingOn, setPendingOn, CheckState.explaining] at inner ⊢
    rw [inner]

section

variable {w : World} {j : Judge} (hj : Assigns (fun _ act => Indifferent act) j)
include hj

theorem matchClass (choice : StackChoice) (mode : Mode) (asObject : Bool)
    (protocol candidate : ClassTy) :
    Indifferent (matchClass w j choice mode asObject protocol candidate) := by
  intro s notes
  unfold Conformance.matchClass
  rw [exec_bind_of_ok (exec_get _), exec_bind_of_ok (exec_get _)]
  have stack : pendingOn choice (s.explaining notes) = pendingOn choice s := by
    cases choice <;> rfl
  rw [stack]
  change ∃ told, exec (if isPending s.inference _ _ then _ else _) _ = _
  split
  · exact bind (record _) (fun _ => pure true) s notes
  · exact whilePending _ _ (compositional.holds_matchMembers hj _ _ _ _) s notes

end

/-- Comparisons at any number of levels run the same way, explained or not. -/
theorem judge (w : World) (n : Nat) :
    Assigns (fun _ act => Indifferent act) (judge w n) ∧
      ∀ mode, Compares (fun _ act => Indifferent act) (judge w n) mode := by
  have traceClass : ∀ levels protocol candidate,
      Indifferent (traceClass w levels protocol candidate) :=
    fun _ _ _ => trace w fun _ _ => rfl
  have traceModule : ∀ protocol name, Indifferent (traceModule w protocol name) :=
    fun _ _ => trace w fun _ _ => rfl
  induction n with
  | zero =>
    refine ⟨fun _ _ _ => cutOff, fun _ => ⟨fun _ _ _ => ?_, fun _ _ _ => ?_⟩⟩
    · exact bind (traceClass _ _ _) fun _ => cutOff
    · exact bind (traceModule _ _) fun _ => cutOff
  | succ n ih =>
    refine ⟨fun mode _ _ => compositional.holds_assignStep ih.1 (fun _ => ih.2 mode) _ _,
      fun _ => ⟨fun _ _ _ => ?_, fun _ _ _ => ?_⟩⟩
    · exact bind (traceClass _ _ _) fun _ => matchClass ih.1 _ _ _ _ _
    · exact bind (traceModule _ _) fun _ => compositional.holds_matchModule ih.1 _ _ _

theorem check (w : World) (op : Operation α) : Indifferent (op.check w) := by
  refine compositional.holds_check op (judge w _).1 (fun _ _ _ _ _ => ?_) fun _ _ _ => ?_
  · rw [conformsFrom_eq]
    split
    · exact cutOff
    · exact matchClass (judge w _).1 _ _ _ _ _
  · rw [moduleConformsAt_eq]
    split
    · exact cutOff
    · exact compositional.holds_matchModule (judge w _).1 _ _ _

end Indifferent

end Conformance
