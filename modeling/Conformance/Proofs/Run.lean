import Conformance.Assign.Check

/-!
# Running checks

A check runs from a state to an answer, or a failure, and the state it leaves. Each way to put
checks together has one equation that says how it runs.
-/

namespace Conformance

variable {α β : Type}

/-- A failure ends a sequence; the state that it leaves stays. -/
theorem run_bind {σ : Type} (act : ExceptT InferenceError (StateM σ) α)
    (k : α → ExceptT InferenceError (StateM σ) β) (s : σ) :
    (ExceptT.run (act >>= k)).run s =
      match (ExceptT.run act).run s with
      | (.ok a, t) => (ExceptT.run (k a)).run t
      | (.error e, t) => (.error e, t) := by
  rw [ExceptT.run_bind, StateT.run_bind]
  rcases (ExceptT.run act).run s with ⟨_ | _, _⟩ <;> rfl

/-- What cannot fail goes on with its result. -/
theorem run_lift {σ : Type} (act : StateM σ α) (s : σ) :
    (ExceptT.run (liftM act : ExceptT InferenceError (StateM σ) α)).run s =
      (.ok (act.run s).1, (act.run s).2) := rfl

/-- What demanding a return type comes to. -/
theorem run_demand (f : FunctionTy) (inf : Inference) :
    (Inference.demand f).run inf =
      match f.ret with
      | .deferred cell outcome =>
        if inf.isSettled cell then (.ok (), inf)
        else
          (match outcome with
            | .returns _ => .ok ()
            | .raises message => .error ⟨message⟩,
            { inf.settle cell with calls := inf.calls ++ [f.name] })
      | _ => (.ok (), inf) := by
  obtain ⟨name, params, ret, kind, scope⟩ := f
  cases ret with
  | declared t => rfl
  | undeclared => rfl
  | deferred cell outcome =>
    unfold Inference.demand
    change (if inf.isSettled cell then _ else _ :
      ExceptT InferenceError (StateM Inference) Unit) inf = _
    dsimp only
    split
    · rfl
    · cases outcome <;> rfl

/-- Nothing happens if the return type is known. -/
theorem demand_of_found {f : FunctionTy} {inf : Inference} (found : inf.isOpen f = false) :
    (Inference.demand f).run inf = (.ok (), inf) := by
  rw [run_demand]
  cases hr : f.ret with
  | deferred cell outcome =>
    have settled : inf.isSettled cell = true := by simpa [Inference.isOpen, hr] using found
    simp only [settled, if_true]
  | _ => rfl

namespace Check

/-- The end of a check that starts in a state. -/
def exec (act : Check α) (s : CheckState) : Except InferenceError α × CheckState :=
  (ExceptT.run act).run s

@[simp] theorem exec_pure (a : α) (s : CheckState) : exec (pure a : Check α) s = (.ok a, s) := rfl

theorem exec_bind (act : Check α) (k : α → Check β) (s : CheckState) :
    exec (act >>= k) s =
      match exec act s with
      | (.ok a, t) => exec (k a) t
      | (.error e, t) => (.error e, t) := by
  simp only [exec, run_bind]
  rcases (ExceptT.run act).run s with ⟨_ | _, _⟩ <;> rfl

theorem exec_bind_of_ok {act : Check α} {k : α → Check β} {s t : CheckState} {a : α}
    (h : exec act s = (.ok a, t)) : exec (act >>= k) s = exec (k a) t := by
  rw [exec_bind, h]

theorem exec_bind_of_error {act : Check α} {k : α → Check β} {s t : CheckState}
    {e : InferenceError} (h : exec act s = (.error e, t)) :
    exec (act >>= k) s = (.error e, t) := by
  rw [exec_bind, h]

/-- A sequence that answers has answered in each of its parts. -/
theorem exec_bind_eq_ok {act : Check α} {k : α → Check β} {s t : CheckState} {b : β} :
    exec (act >>= k) s = (.ok b, t) ↔
      ∃ a u, exec act s = (.ok a, u) ∧ exec (k a) u = (.ok b, t) := by
  rw [exec_bind]
  rcases exec act s with ⟨_ | a, u⟩
  · simp
  · simp only [Prod.mk.injEq, Except.ok.injEq]
    exact ⟨fun h => ⟨a, u, ⟨rfl, rfl⟩, h⟩, fun ⟨_, _, ⟨rfl, rfl⟩, h⟩ => h⟩

@[simp] theorem exec_get (s : CheckState) : exec (get : Check CheckState) s = (.ok s, s) := rfl

@[simp] theorem exec_inference (s : CheckState) :
    exec inference s = (.ok s.inference, s) := rfl

@[simp] theorem exec_solution (s : CheckState) : exec solution s = (.ok s.solving, s) := rfl

@[simp] theorem exec_solve (v : TypeVar) (t : Ty) (s : CheckState) :
    exec (solve v t) s =
      (.ok (), { s with solving := s.solving.map fun σ => σ.insert v (some t) }) := rfl

theorem exec_lift (m : StateM Inference α) (s : CheckState) :
    exec (lift m) s = (.ok (m s.inference).1, { s with inference := (m s.inference).2 }) := rfl

/-- What changes nothing about return types leaves the state as it is. -/
theorem exec_lift_of_eq {m : StateM Inference α} {s : CheckState} {a : α}
    (h : m s.inference = (a, s.inference)) : exec (lift m) s = (.ok a, s) := by
  rw [exec_lift, h]

@[simp] theorem exec_cutOff (s : CheckState) :
    exec cutOff s = (.ok true, { s with history := s.history ++ [.cut] }) := rfl

theorem exec_trace (w : World) (line : CheckState → TraceLine) (s : CheckState) :
    exec (trace w line) s =
      (.ok (), if w.verbose then { s with trace := s.trace.push (line s) } else s) := rfl

theorem exec_tell (wording : Wording) (values : Inference → List (String × String))
    (s : CheckState) :
    ∃ notes, exec (tell wording values) s = (.ok (), { s with notes := notes }) := by
  refine ⟨s.notes.map fun e => e.addMessage (wording.format (values s.inference)), ?_⟩
  obtain ⟨_, _, _, _, _, notes, _⟩ := s
  cases notes <;> rfl

theorem exec_within (enter : CheckState → CheckState) (leave : CheckState → CheckState → CheckState)
    (act : Check α) (s : CheckState) :
    exec (within enter leave act) s =
      ((exec act (enter s)).1, leave s (exec act (enter s)).2) := rfl

theorem exec_solvingFor (σ : Option Solution) (act : Check α) (s : CheckState) :
    exec (solvingFor σ act) s =
      ((exec act { s with solving := σ }).1,
        { (exec act { s with solving := σ }).2 with solving := s.solving }) := rfl

theorem exec_attempt (act : Check Bool) (s : CheckState) :
    exec (attempt act) s =
      match exec act s with
      | (.ok true, t) => (.ok true, t)
      | (r, t) => (r, { t with solving := s.solving }) := rfl

theorem exec_whilePending (choice : StackChoice) (c : Comparison) (act : Check Bool)
    (s : CheckState) :
    exec (whilePending choice c act) s =
      let entered := setPendingOn choice { s with history := [] } (c.pair :: pendingOn choice s)
      let (r, t) := exec act entered
      let left := setPendingOn choice t (pendingOn choice t).tail
      (r, { left with
        history := s.history ++ [.made c entered.pending.length r.toOption t.history] }) := rfl

theorem exec_demand (f : FunctionTy) (s : CheckState) :
    exec (demand f) s =
      (((Inference.demand f).run s.inference).1,
        { s with inference := ((Inference.demand f).run s.inference).2 }) := by
  unfold demand
  rw [exec_bind_of_ok (exec_get s)]
  rcases h : (ExceptT.run (Inference.demand f)).run s.inference with ⟨r, inf⟩
  rw [show (Inference.demand f).run s.inference = (r, inf) from h]
  cases r <;> rfl

end Check

end Conformance
