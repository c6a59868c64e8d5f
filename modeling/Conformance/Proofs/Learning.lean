import Conformance.Proofs.Parts

/-!
# What checks find out

A check may call finders of return types. What was found out stays found out, a check fails only if
a finder that it called failed, and a check for which nothing is solved leaves nothing solved.
-/

namespace Conformance

open Check

/-- Cells that were handed out stay so, those that were settled stay settled, and finders were called
after those before. -/
structure Inference.Later (inf inf' : Inference) : Prop where
  size : inf.settled.size ≤ inf'.settled.size
  settled {cell : CellId} (h : inf.isSettled cell = true) : inf'.isSettled cell = true
  calls : inf.calls <+: inf'.calls

namespace Inference.Later

theorem refl (inf : Inference) : inf.Later inf := ⟨Nat.le_refl _, id, List.prefix_refl _⟩

theorem trans {a b c : Inference} (h : a.Later b) (h' : b.Later c) : a.Later c :=
  ⟨Nat.le_trans h.size h'.size, fun settled => h'.settled (h.settled settled),
    h.calls.trans h'.calls⟩

theorem of_opened {inf inf' : Inference} (h : inf.Opened inf') : inf.Later inf' :=
  ⟨h.size, fun {cell} settled => (h.settled cell).trans settled, h.calls ▸ List.prefix_refl _⟩

theorem settle (inf : Inference) (cell : CellId) (name : String) :
    inf.Later { inf.settle cell with calls := inf.calls ++ [name] } := by
  refine ⟨?_, fun {other} settled => ?_, List.prefix_append _ _⟩
  · simp [Inference.settle]
  · change (inf.settle cell).isSettled other = true
    by_cases given : cell < inf.settled.size
    · rw [isSettled_settle given, settled, Bool.or_true]
    · simpa [isSettled, Inference.settle, Array.setIfInBounds, given] using settled

/-- What was found out stays as it was found. -/
theorem isOpen_eq_false {inf inf' : Inference} (later : inf.Later inf') {f : FunctionTy}
    (found : inf.isOpen f = false) : inf'.isOpen f = false := by
  unfold Inference.isOpen at found ⊢
  split at found
  · rw [Bool.not_eq_false'] at found ⊢
    exact later.settled found
  · rfl

theorem returnType_eq {inf inf' : Inference} (later : inf.Later inf') {f : FunctionTy}
    (found : inf.isOpen f = false) : inf'.returnType f = inf.returnType f := by
  unfold Inference.isOpen at found
  unfold Inference.returnType
  cases hr : f.ret with
  | declared t => rfl
  | undeclared => rfl
  | deferred cell outcome =>
    rw [hr] at found
    have settled : inf.isSettled cell = true := by simpa using found
    simp only [settled, later.settled settled]

end Inference.Later

variable {α β : Type}

/-- What was found out stays so, where nothing is solved for nothing is solved for at the end, and a
failure comes from a finder that was called. -/
structure Learns (act : Check α) : Prop where
  later (s : CheckState) : s.inference.Later (exec act s).2.inference
  resting {s : CheckState} (h : s.solving = none) : (exec act s).2.solving = none
  failing {s : CheckState} {e : InferenceError} (h : (exec act s).1 = .error e) :
    s.inference.calls.length < (exec act s).2.inference.calls.length

namespace Learns

private theorem of_ok {act : Check α} (answers : ∀ s, ∃ a, (exec act s).1 = .ok a)
    (inference : ∀ s : CheckState, s.inference.Later (exec act s).2.inference)
    (resting : ∀ s : CheckState, s.solving = none → (exec act s).2.solving = none) : Learns act := by
  refine ⟨inference, fun {s} => resting s, fun {s e} failed => ?_⟩
  obtain ⟨a, answered⟩ := answers s
  rw [answered] at failed
  cases failed

theorem pure (a : α) : Learns (pure a : Check α) :=
  of_ok (fun _ => ⟨a, rfl⟩) (fun _ => .refl _) fun _ h => h

theorem inference : Learns inference := of_ok (fun _ => ⟨_, rfl⟩) (fun _ => .refl _) fun _ h => h

theorem solution : Learns solution := of_ok (fun _ => ⟨_, rfl⟩) (fun _ => .refl _) fun _ h => h

theorem solve (v : TypeVar) (t : Ty) : Learns (solve v t) :=
  of_ok (fun _ => ⟨(), rfl⟩) (fun _ => .refl _) fun s h => by simp [h]

theorem lift {m : StateM Inference α} (h : Opens m) : Learns (lift m) :=
  of_ok (fun _ => ⟨_, rfl⟩) (fun s => .of_opened (h s.inference)) fun _ h => h

theorem tell (wording : Wording) (values : Inference → List (String × String)) :
    Learns (tell wording values) := by
  have told := exec_tell wording values
  refine of_ok (fun s => ⟨(), ?_⟩) (fun s => ?_) fun s h => ?_ <;> obtain ⟨notes, hn⟩ := told s
  · rw [hn]
  · rw [hn]
    exact .refl _
  · rw [hn]
    exact h

theorem record (e : Event) : Learns (record e) :=
  of_ok (fun _ => ⟨(), rfl⟩) (fun _ => .refl _) fun _ h => h

theorem trace (w : World) (line : CheckState → TraceLine) : Learns (trace w line) := by
  refine of_ok (fun s => ⟨(), rfl⟩) (fun s => ?_) fun s h => ?_ <;> rw [exec_trace] <;>
    by_cases hv : w.verbose <;> simp only [hv, if_true]
  · exact .refl _
  · exact .refl _
  · exact h
  · exact h

theorem demand (f : FunctionTy) : Learns (demand f) := by
  have run (inf : Inference) : inf.Later ((Inference.demand f).run inf).2 ∧
      ∀ e, ((Inference.demand f).run inf).1 = .error e →
        inf.calls.length < ((Inference.demand f).run inf).2.calls.length := by
    cases hr : f.ret with
    | declared t => exact ⟨by rw [run_demand, hr]; exact .refl _, by rw [run_demand, hr]; nofun⟩
    | undeclared => exact ⟨by rw [run_demand, hr]; exact .refl _, by rw [run_demand, hr]; nofun⟩
    | deferred cell outcome =>
      rw [run_demand, hr]
      dsimp only
      split
      · exact ⟨.refl inf, nofun⟩
      · exact ⟨.settle inf cell f.name, fun _ _ => by simp⟩
  refine ⟨fun s => ?_, fun h => ?_, fun {s e} h => ?_⟩
  · rw [exec_demand]
    exact (run s.inference).1
  · rw [exec_demand]
    exact h
  · rw [exec_demand] at h ⊢
    exact (run s.inference).2 e h

theorem bind {act : Check α} {k : α → Check β} (h : Learns act) (hk : ∀ a, Learns (k a)) :
    Learns (act >>= k) := by
  refine ⟨fun s => ?_, fun {s} rest => ?_, fun {s e} failed => ?_⟩
  all_goals
    have later := h.later s
    have resting := h.resting (s := s)
    have failing := fun e => h.failing (s := s) (e := e)
    rcases first : exec act s with ⟨_ | a, t⟩
  all_goals rw [first] at later resting failing
  · rw [exec_bind_of_error first]
    exact later
  · rw [exec_bind_of_ok first]
    exact later.trans ((hk a).later t)
  · rw [exec_bind_of_error first]
    exact resting rest
  · rw [exec_bind_of_ok first]
    exact (hk a).resting (resting rest)
  · rw [exec_bind_of_error first]
    exact failing _ rfl
  · rw [exec_bind_of_ok first] at failed ⊢
    exact Nat.lt_of_le_of_lt later.calls.length_le ((hk a).failing failed)

theorem within {enter : CheckState → CheckState} {leave : CheckState → CheckState → CheckState}
    {act : Check α} (he : ∀ s, (enter s).inference = s.inference)
    (hl : ∀ s t, (leave s t).inference = t.inference)
    (hr : ∀ s, s.solving = none → (leave s (exec act (enter s)).2).solving = none)
    (h : Learns act) : Learns (within enter leave act) := by
  refine ⟨fun s => ?_, fun {s} rest => ?_, fun {s e} failed => ?_⟩
  · rw [exec_within, hl, ← he]
    exact h.later (enter s)
  · rw [exec_within]
    exact hr s rest
  · rw [exec_within] at failed
    rw [exec_within, hl, ← he]
    exact h.failing failed

theorem solvingFor {act : Check α} (σ : Option Solution) (h : Learns act) :
    Learns (solvingFor σ act) :=
  h.within (fun _ => rfl) (fun _ _ => rfl) fun _ rest => rest

theorem silently {act : Check α} (h : Learns act) : Learns (silently act) :=
  h.within (fun _ => rfl) (fun _ _ => rfl) fun _ rest => h.resting rest

theorem child {act : Check α} (h : Learns act) : Learns (child act) :=
  h.within (fun _ => rfl) (fun _ _ => rfl) fun _ rest => h.resting rest

theorem attempt {act : Check Bool} (h : Learns act) : Learns (attempt act) := by
  have same (s : CheckState) : (exec (Check.attempt act) s).1 = (exec act s).1 ∧
      (exec (Check.attempt act) s).2.inference = (exec act s).2.inference := by
    rw [exec_attempt]
    rcases exec act s with ⟨_ | _ | _, t⟩ <;> exact ⟨rfl, rfl⟩
  refine ⟨fun s => ?_, fun {s} rest => ?_, fun {s e} failed => ?_⟩
  · rw [(same s).2]
    exact h.later s
  · have resting := h.resting rest
    rw [exec_attempt]
    rcases run : exec act s with ⟨_ | _ | _, t⟩ <;> rw [run] at resting
    · exact rest
    · exact rest
    · exact resting
  · rw [(same s).1] at failed
    rw [(same s).2]
    exact h.failing failed

theorem compositional : Compositional fun _ act => Learns act where
  holds_pure := pure
  holds_bind := bind
  holds_inference := inference
  holds_lift := lift
  holds_demand := demand
  holds_solution := solution
  holds_solving h := solution.bind fun σ => h σ fun v _ t => solve v t
  holds_tell := tell
  holds_solvingFor := solvingFor
  holds_silently := silently
  holds_child := child
  holds_attempt := attempt

theorem whilePending {act : Check Bool} (choice : StackChoice) (c : Comparison) (h : Learns act) :
    Learns (whilePending choice c act) := by
  have inner (s : CheckState) :=
    h.later (setPendingOn choice { s with history := [] } (c.pair :: pendingOn choice s))
  refine ⟨fun s => ?_, fun {s} rest => ?_, fun {s e} failed => ?_⟩
  all_goals
    rw [exec_whilePending] at *
  all_goals
    cases choice
  · exact inner s
  · exact inner s
  · exact h.resting (s := setPendingOn .own { s with history := [] } (c.pair :: s.pending)) rest
  · exact h.resting (s := setPendingOn .lent { s with history := [] } (c.pair :: s.lent)) rest
  · exact h.failing (s := setPendingOn .own { s with history := [] } (c.pair :: s.pending)) failed
  · exact h.failing (s := setPendingOn .lent { s with history := [] } (c.pair :: s.lent)) failed

theorem cutOff : Learns cutOff := (record .cut).bind fun _ => pure true

variable {w : World}

theorem matchClass {j : Judge} (hj : Assigns (fun _ act => Learns act) j) (choice : StackChoice)
    (mode : Mode) (asObject : Bool) (protocol candidate : ClassTy) :
    Learns (matchClass w j choice mode asObject protocol candidate) := by
  have get : Learns (get : Check CheckState) :=
    of_ok (fun _ => ⟨_, rfl⟩) (fun _ => .refl _) fun _ h => h
  refine get.bind fun s => ?_
  split
  · exact (record _).bind fun _ => pure true
  · exact (compositional.holds_matchMembers hj _ _ _ _).whilePending _ _

/-- What every check of two types finds out. -/
theorem judge (w : World) (n : Nat) :
    Assigns (fun _ act => Learns act) (judge w n) ∧
      ∀ mode, Compares (fun _ act => Learns act) (judge w n) mode := by
  induction n with
  | zero =>
    refine ⟨fun _ _ _ => cutOff, fun _ => ⟨fun _ _ _ => ?_, fun _ _ _ => ?_⟩⟩
    · exact (trace w _).bind fun _ => cutOff
    · exact (trace w _).bind fun _ => cutOff
  | succ n ih =>
    refine ⟨fun mode _ _ => compositional.holds_assignStep ih.1 (fun _ => ih.2 mode) _ _,
      fun _ => ⟨fun _ _ _ => ?_, fun _ _ _ => ?_⟩⟩
    · exact (trace w _).bind fun _ => matchClass ih.1 _ _ _ _ _
    · exact (trace w _).bind fun _ => compositional.holds_matchModule ih.1 _ _ _

end Learns

end Conformance
