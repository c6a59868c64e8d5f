import Conformance.Proofs.Operation

/-!
# Balance of the stacks

The comparisons in progress are the same before and after each check: what a comparison puts on a
stack it takes off again, also where a return type is not found out.
-/

namespace Conformance

open Check

namespace Frame

/-- Both stacks are as they were. -/
def balanced : Frame where
  rel f g := g.pending = f.pending ∧ g.lent = f.lent
  refl _ := ⟨rfl, rfl⟩
  trans hfg hgh := ⟨hgh.1.trans hfg.1, hgh.2.trans hfg.2⟩

private theorem balanced_keepsLent : balanced.KeepsLent := fun h => h.2

private theorem balanced_cutOff : balanced.Keeps cutOff := fun _ => ⟨rfl, rfl⟩

private theorem balanced_whilePending {act : Check Bool} (choice : StackChoice) (c : Comparison)
    (h : balanced.Keeps act) : balanced.Keeps (whilePending choice c act) := by
  intro s
  have inner := h (setPendingOn choice { s with history := [] } (c.pair :: pendingOn choice s))
  rw [exec_whilePending]
  dsimp only
  generalize exec act _ = result at inner ⊢
  obtain ⟨r, t⟩ := result
  cases choice with
  | own => exact ⟨congrArg List.tail inner.1, inner.2⟩
  | lent => exact ⟨inner.1, congrArg List.tail inner.2⟩

section

variable {w : World} {j : Judge} (hj : balanced.KeepsAssign j)
include hj

private theorem balanced_matchClass (choice : StackChoice) (mode : Mode) (asObject : Bool)
    (protocol candidate : ClassTy) :
    balanced.Keeps (matchClass w j choice mode asObject protocol candidate) := by
  refine keeps_bind (keeps_of_eq fun _ => rfl) fun s => ?_
  split
  · exact keeps_bind (fun _ => ⟨rfl, rfl⟩) fun _ => keeps_pure true
  · exact balanced_whilePending _ _ (keeps_matchMembers hj _ _ _ _)

end

/-- The judge of any number of levels restores both stacks. -/
theorem balanced_judge (w : World) (n : Nat) :
    balanced.KeepsAssign (judge w n) ∧ ∀ mode, balanced.KeepsProtocols (judge w n) mode := by
  induction n with
  | zero =>
    refine ⟨fun _ _ _ => balanced_cutOff, fun mode => ⟨fun _ _ _ => ?_, fun _ _ _ => ?_⟩⟩ <;>
      exact keeps_bind (keeps_trace _ _) fun _ => balanced_cutOff
  | succ n ih =>
    refine ⟨fun mode _ _ => keeps_assignStep ih.1 (fun _ => ih.2 mode) _ _, fun mode => ?_⟩
    constructor
    · exact fun _ _ _ => keeps_bind (keeps_trace _ _) fun _ => balanced_matchClass ih.1 _ _ _ _ _
    · exact fun _ _ _ => keeps_bind (keeps_trace _ _) fun _ => keeps_matchModule ih.1 _ _ _

theorem balanced_judgeAt (w : World) (depth : Int) : balanced.KeepsAssign (judgeAt w depth) :=
  (balanced_judge w _).1

theorem balanced_check {α : Type} (w : World) (op : Operation α) : balanced.Keeps (op.check w) := by
  refine keeps_check op (balanced_judgeAt w _) (fun _ _ _ _ _ => ?_) fun _ _ _ => ?_
  · rw [conformsFrom_eq]
    split
    · exact balanced_cutOff
    · exact balanced_matchClass (balanced_judgeAt w _) _ _ _ _ _
  · rw [moduleConformsAt_eq]
    split
    · exact balanced_cutOff
    · exact keeps_matchModule (balanced_judgeAt w _) _ _ _

end Frame

open Conformance.Frame

/-- Whatever a session is asked to check, and whether it is answered yes or no or a return type is
not found out, the comparisons in progress and those that the caller brought are afterwards what
they were before. -/
theorem stacks_restored (s : Session) :
    (∀ {α : Type} (request : Request) (op : Operation α),
      ((Session.run request op.check).run s).2.pending = s.pending ∧
        ((Session.run request op.check).run s).1.lent = request.lent) ∧
    (∀ (declared assigned : Option Ty) (l : Location),
      ((ExceptT.run (Session.checkAssignment declared assigned l)).run s).2.pending =
        s.pending) ∧
    (∀ (protocol : ClassTy) (candidate : Option Ty) (l : Location),
      ((ExceptT.run (Session.checkProtocol protocol candidate l)).run s).2.pending =
        s.pending) ∧
    ∀ (protocol : ClassTy) (l : Location),
      ((ExceptT.run (Session.checkVariance protocol l)).run s).2.pending = s.pending := by
  have assigns : ∀ w, balanced.KeepsAssign (judgeAt w 0) := fun w => balanced_judgeAt w 0
  refine ⟨fun request op => ?_, fun declared assigned l => ?_, fun protocol candidate l => ?_,
    fun protocol l => ?_⟩
  · exact balanced_check s.world op (entering s request)
  · exact (keepsSession_checkAssignment balanced_keepsLent assigns declared assigned l s).1
  · exact (keepsSession_checkProtocol balanced_keepsLent assigns
      (fun w => (balanced_judge w _).2 _) protocol candidate l s).1
  · exact (keepsSession_checkVarianceBy balanced_keepsLent
      (fun w => keeps_fitsItself (assigns w)) protocol l s).1

end Conformance
