import Conformance.Proofs.Deeper
import Conformance.Proofs.Parts

/-!
# Comparisons that are not cut

A comparison that ends without passing the last level does not depend on where the last level is:
with more levels it runs in the same way, in every world and whatever is solved for, up to the depths
that the trace mentions.
-/

namespace Conformance

open Check

variable {α β : Type}

def CheckState.tracing (s : CheckState) (trace : Array TraceLine) : CheckState :=
  { s with trace := trace }

/-- A run of the first check that is not cut is a run of the second, up to the trace. -/
def Confirms (α : Type) (act act' : Check α) : Prop :=
  ∀ s, ∃ new, (exec act s).2.history = s.history ++ new ∧
    (Event.allUncut new = true → ∀ trace, ∃ trace',
      exec act' (s.tracing trace) = ((exec act s).1, (exec act s).2.tracing trace'))

namespace Confirms

private theorem of_eq {act act' : Check α} (hh : ∀ s, (exec act s).2.history = s.history)
    (h : ∀ s trace, ∃ trace',
      exec act' (s.tracing trace) = ((exec act s).1, (exec act s).2.tracing trace')) :
    Confirms α act act' :=
  fun s => ⟨[], by rw [hh, List.append_nil], fun _ trace => h s trace⟩

theorem bind {act act' : Check α} {k k' : α → Check β} (h : Confirms α act act')
    (hk : ∀ a, Confirms β (k a) (k' a)) : Confirms β (act >>= k) (act' >>= k') := by
  intro s
  obtain ⟨new, history, same⟩ := h s
  rw [exec_bind]
  rcases hr : exec act s with ⟨_ | a, t⟩
  · rw [hr] at history same
    refine ⟨new, history, fun hu trace => ?_⟩
    obtain ⟨trace', he⟩ := same hu trace
    exact ⟨trace', by rw [exec_bind, he]⟩
  · rw [hr] at history same
    obtain ⟨rest, history', same'⟩ := hk a t
    refine ⟨new ++ rest, ?_, fun hu trace => ?_⟩
    · rw [← List.append_assoc, ← show t.history = s.history ++ new from history]
      exact history'
    · rw [Fragment.allUncut_iff] at hu
      obtain ⟨trace', he⟩ := same (Fragment.allUncut_iff.2 fun e he =>
        hu e (List.mem_append_left rest he)) trace
      obtain ⟨trace'', he'⟩ := same' (Fragment.allUncut_iff.2 fun e he =>
        hu e (List.mem_append_right new he)) trace'
      exact ⟨trace'', by rw [exec_bind_of_ok he, he']⟩

theorem within {enter : CheckState → CheckState} {leave : CheckState → CheckState → CheckState}
    {act act' : Check α} (hs : ∀ s, (enter s).history = s.history)
    (ht : ∀ s t, (leave s t).history = t.history)
    (he : ∀ s trace, enter (s.tracing trace) = (enter s).tracing trace)
    (hl : ∀ s t trace trace',
      leave (s.tracing trace) (t.tracing trace') = (leave s t).tracing trace')
    (h : Confirms α act act') : Confirms α (within enter leave act) (within enter leave act') := by
  intro s
  obtain ⟨new, history, same⟩ := h (enter s)
  refine ⟨new, ?_, fun hu trace => ?_⟩
  · rw [exec_within, ht, history, hs]
  · obtain ⟨trace', ran⟩ := same hu trace
    exact ⟨trace', by rw [exec_within, exec_within, he, ran, hl]⟩

theorem attempt {act act' : Check Bool} (h : Confirms Bool act act') :
    Confirms Bool (attempt act) (attempt act') := by
  intro s
  obtain ⟨new, history, same⟩ := h s
  refine ⟨new, ?_, fun hu trace => ?_⟩
  · rw [exec_attempt, ← history]
    rcases exec act s with ⟨_ | _ | _, t⟩ <;> rfl
  · obtain ⟨trace', ran⟩ := same hu trace
    refine ⟨trace', ?_⟩
    rw [exec_attempt, exec_attempt, ran]
    rcases exec act s with ⟨_ | _ | _, t⟩ <;> rfl

theorem tell (wording : Wording) (values : Inference → List (String × String)) :
    Confirms Unit (tell wording values) (tell wording values) := by
  refine of_eq (fun s => ?_) fun s trace => ⟨trace, ?_⟩
  · obtain ⟨notes, told⟩ := exec_tell wording values s
    rw [told]
  · obtain ⟨_, _, _, _, _, notes, _⟩ := s
    cases notes <;> rfl

theorem congruence : Congruence Confirms where
  rel_pure _ := of_eq (fun _ => rfl) fun _ trace => ⟨trace, rfl⟩
  rel_bind := bind
  rel_inference := of_eq (fun _ => rfl) fun _ trace => ⟨trace, rfl⟩
  rel_lift _ := of_eq (fun _ => rfl) fun _ trace => ⟨trace, rfl⟩
  rel_demand _ := of_eq (fun _ => by rw [exec_demand]) fun _ trace =>
    ⟨trace, by rw [exec_demand, exec_demand]; rfl⟩
  rel_solution := of_eq (fun _ => rfl) fun _ trace => ⟨trace, rfl⟩
  rel_solving h :=
    bind (of_eq (fun _ => rfl) fun _ trace => ⟨trace, rfl⟩) fun σ =>
      h σ fun _ _ _ => of_eq (fun _ => rfl) fun _ trace => ⟨trace, rfl⟩
  rel_tell := tell
  rel_solvingFor _ :=
    within (fun _ => rfl) (fun _ _ => rfl) (fun _ _ => rfl) fun _ _ _ _ => rfl
  rel_silently := within (fun _ => rfl) (fun _ _ => rfl) (fun _ _ => rfl) fun _ _ _ _ => rfl
  rel_child := within (fun _ => rfl) (fun _ _ => rfl) (fun _ _ => rfl) fun _ _ _ _ => rfl
  rel_attempt := attempt

theorem trace (w : World) (line line' : CheckState → TraceLine) :
    Confirms Unit (trace w line) (Check.trace w line') := by
  refine of_eq (fun s => ?_) fun s trace => ?_
  · rw [exec_trace]
    cases w.verbose with
    | true => rfl
    | false => rfl
  · rw [exec_trace, exec_trace]
    by_cases hv : w.verbose <;> simp only [hv, if_true] <;> exact ⟨_, rfl⟩

/-- What is cut is no run to compare with. -/
theorem cutOff (act : Check Bool) : Confirms Bool cutOff act :=
  fun _ => ⟨[.cut], rfl, nofun⟩

private theorem tracedCutOff (w : World) (line : CheckState → TraceLine) (act : Check Bool) :
    Confirms Bool (Check.trace w line >>= fun _ => Check.cutOff) act := by
  refine fun s => ⟨[.cut], ?_, nofun⟩
  rw [exec_bind_of_ok (exec_trace w line s)]
  by_cases hv : w.verbose <;> simp only [hv, if_true] <;> rfl

theorem record (e : Event) : Confirms Unit (record e) (record e) :=
  fun _ => ⟨[e], rfl, fun _ trace => ⟨trace, rfl⟩⟩

/-- A comparison that is counted as pending was cut if one inside it was. -/
theorem whilePending {act act' : Check Bool} (choice : StackChoice) (c : Comparison)
    (h : Confirms Bool act act') :
    Confirms Bool (whilePending choice c act) (whilePending choice c act') := by
  intro s
  let entered := setPendingOn choice { s with history := [] } (c.pair :: pendingOn choice s)
  obtain ⟨new, history, same⟩ := h entered
  have inner : (exec act entered).2.history = new := by
    rw [history]
    cases choice <;> rfl
  rw [exec_whilePending]
  refine ⟨[.made c entered.pending.length (exec act entered).1.toOption new], ?_, ?_⟩
  · dsimp only
    rw [← inner]
  · intro hu trace
    have uncut : Event.allUncut new = true := by
      simpa [Event.allUncut, Event.uncut] using hu
    obtain ⟨trace', ran⟩ := same uncut trace
    refine ⟨trace', ?_⟩
    have entering : setPendingOn choice { s.tracing trace with history := [] }
        (c.pair :: pendingOn choice (s.tracing trace)) = entered.tracing trace := by
      cases choice <;> rfl
    rw [exec_whilePending]
    dsimp only
    rw [entering, ran]
    cases choice <;> rfl

section

variable {w : World} {j j' : Judge} (hj : RelatesTypes Confirms j j')
include hj

theorem matchClass (choice : StackChoice) (mode : Mode) (asObject : Bool)
    (protocol candidate : ClassTy) :
    Confirms Bool (matchClass w j choice mode asObject protocol candidate)
      (Conformance.matchClass w j' choice mode asObject protocol candidate) := by
  intro s
  unfold Conformance.matchClass
  rw [exec_bind_of_ok (exec_get s)]
  have stack (trace : Array TraceLine) :
      pendingOn choice (s.tracing trace) = pendingOn choice s := by
    cases choice <;> rfl
  have got (trace : Array TraceLine) {act : CheckState → Check Bool} :
      exec (get >>= act) (s.tracing trace) = exec (act (s.tracing trace)) (s.tracing trace) :=
    exec_bind_of_ok (exec_get _)
  simp only [got, stack]
  change ∃ new, (exec (if isPending s.inference _ _ then _ else _) s).2.history = _ ∧
    (_ → ∀ trace, ∃ _, exec (if isPending s.inference _ _ then _ else _) (s.tracing trace) = _)
  split
  · exact congruence.rel_bind (record _) (fun _ => congruence.rel_pure true) s
  · exact whilePending _ _ (congruence.rel_matchMembers hj _ _ _ _) s

end

/-- A judge of more levels confirms what a judge of fewer levels answers without a cut. -/
theorem judge (w : World) {k l : Nat} (h : k ≤ l) :
    RelatesTypes Confirms (judge w k) (Conformance.judge w l) ∧
      ∀ mode, RelatesProtocols Confirms (Conformance.judge w k) (Conformance.judge w l) mode := by
  induction k generalizing l with
  | zero =>
    exact ⟨fun _ _ _ => cutOff _,
      fun _ => ⟨fun _ _ _ => tracedCutOff w _ _, fun _ _ _ => tracedCutOff w _ _⟩⟩
  | succ k ih =>
    obtain ⟨l, rfl⟩ : ∃ n, l = n + 1 := ⟨l - 1, by omega⟩
    obtain ⟨types, protocols⟩ := ih (Nat.le_of_succ_le_succ h)
    refine ⟨fun mode _ _ => congruence.rel_assignStep types (.refl w) rfl (fun _ => protocols mode) _ _,
      fun _ => ⟨fun _ _ _ => ?_, fun _ _ _ => ?_⟩⟩
    · exact bind (trace w _ _) fun _ => matchClass types _ _ _ _ _
    · exact bind (trace w _ _) fun _ => congruence.rel_matchModule types _ _ _

end Confirms

end Conformance
