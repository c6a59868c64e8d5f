import Conformance.Proofs.Copying
import Conformance.Proofs.Sample

/-!
# Specializing functions and asking for their return types

A function may be specialized before its return type is asked for or after it. The two ways end alike
where what is found out is nothing that specialization touches: a copy of a function whose return type
is open is found out on its own, and what is found then is not specialized any more.
-/

namespace Conformance

open Check

/-! ## Asking for several return types -/

/-- The functions whose return types are asked for with that of the type. -/
def Ty.callables : Ty → List FunctionTy
  | .function f => [f]
  | .overloaded fs => fs
  | _ => []

/-- The failure in which asking for the return type ends. -/
def FunctionTy.failure? (inf : Inference) (f : FunctionTy) : Option InferenceError :=
  if inf.isOpen f then
    match f.ret with
    | .deferred _ (.raises message) => some ⟨message⟩
    | _ => none
  else none

/-- What is found out about the return type. -/
def FunctionTy.found (f : FunctionTy) : Ty :=
  match f.ret with
  | .deferred _ (.returns (some t)) => t
  | _ => .unknown

def FindersAgree (fs : List FunctionTy) : Prop :=
  ∀ f ∈ fs, ∀ g ∈ fs, ∀ cell o o', f.ret = .deferred cell o → g.ret = .deferred cell o' → o = o'

section

variable {f : FunctionTy} {fs : List FunctionTy} {s t : CheckState} {inf inf' : Inference}

private theorem failure?_congr (h : inf'.isOpen f = inf.isOpen f) :
    f.failure? inf' = f.failure? inf := by
  rw [FunctionTy.failure?, FunctionTy.failure?, h]

private theorem isOpen_of_opened (opened : inf.Opened inf') : inf'.isOpen f = inf.isOpen f := by
  unfold Inference.isOpen
  split
  · rw [opened.settled]
  · rfl

private theorem exec_demandAll (t : Ty) (s : CheckState) :
    exec (demandAll t) s = exec (t.callables.forM demand) s := by
  cases t with
  | function f =>
    change exec (demand f) s = exec (demand f >>= fun _ => pure ()) s
    rw [bind_pure_unit]
  | _ => rfl

private theorem exec_demand_of_found (h : s.inference.isOpen f = false) :
    exec (demand f) s = (.ok (), s) := by
  rw [exec_demand, demand_of_found h]

private theorem exec_demand_of_open {cell : CellId} {outcome : Outcome}
    (ret : f.ret = .deferred cell outcome)
    (h : s.inference.isSettled cell = false) : exec (demand f) s =
      (match f.failure? s.inference with
        | some e => .error e
        | none => .ok (),
      { s with inference :=
        { s.inference.settle cell with calls := s.inference.calls ++ [f.name] } }) := by
  have still : s.inference.isOpen f = true := by simp [Inference.isOpen, ret, h]
  rw [exec_demand, run_demand, FunctionTy.failure?, if_pos still, ret]
  simp only [h, Bool.false_eq_true, if_false]
  cases outcome <;> rfl

private theorem findSome?_congr {α β : Type} {as : List α} {p q : α → Option β}
    (h : ∀ a ∈ as, p a = q a) : as.findSome? p = as.findSome? q := by
  induction as with
  | nil => rfl
  | cons a as ih =>
    rw [List.forall_mem_cons] at h
    rw [List.findSome?_cons, List.findSome?_cons, h.1, ih h.2]

private theorem failure?_of_returns {cell : CellId} {o : Option Ty}
    (ret : f.ret = .deferred cell (.returns o)) :
    f.failure? inf = none := by
  simp [FunctionTy.failure?, ret]

private theorem failure?_settle {cell : CellId} {o : Option Ty}
    (ret : f.ret = .deferred cell (.returns o))
    {g : FunctionTy} (once : ∀ o', g.ret = .deferred cell o' → .returns o = o') (calls : List String) :
    g.failure? { inf.settle cell with calls := calls } = g.failure? inf := by
  cases hg : g.ret with
  | deferred other outcome =>
    by_cases same : other = cell
    · subst same
      cases once outcome hg
      rw [failure?_of_returns hg, failure?_of_returns hg]
    · refine failure?_congr ?_
      rw [Inference.isOpen, Inference.isOpen, hg]
      change (!(inf.settle cell).isSettled other) = _
      rw [Pairing.isSettled_settle_iff]
      simp [Ne.symm same]
  | _ => exact failure?_congr (by rw [Inference.isOpen, Inference.isOpen, hg])

private theorem exec_demands (once : FindersAgree fs) : (exec (fs.forM demand) s).1 =
    match fs.findSome? (FunctionTy.failure? s.inference) with
    | some e => .error e
    | none => .ok () := by
  induction fs generalizing s with
  | nil => rfl
  | cons f fs ih =>
    have rest : FindersAgree fs := fun g hg g' hg' =>
      once g (List.mem_cons_of_mem f hg) g' (List.mem_cons_of_mem f hg')
    change (exec (demand f >>= fun _ => fs.forM demand) s).1 = _
    rw [List.findSome?_cons]
    cases hopen : s.inference.isOpen f with
    | false =>
      have fine : f.failure? s.inference = none := by simp [FunctionTy.failure?, hopen]
      rw [exec_bind_of_ok (exec_demand_of_found hopen), fine]
      exact ih rest
    | true =>
      obtain ⟨cell, outcome, ret, still⟩ := exists_cell_of_isOpen hopen
      have ran := exec_demand_of_open ret still
      cases outcome with
      | raises message =>
        have fails : f.failure? s.inference = some ⟨message⟩ := by
          simp [FunctionTy.failure?, hopen, ret]
        rw [fails] at ran ⊢
        rw [exec_bind_of_error ran]
      | returns o =>
        have others : fs.findSome? (FunctionTy.failure?
            { s.inference.settle cell with calls := s.inference.calls ++ [f.name] }) =
            fs.findSome? (FunctionTy.failure? s.inference) := by
          refine findSome?_congr fun g hg => failure?_settle ret (fun o' hg' => ?_) _
          exact once f List.mem_cons_self g (List.mem_cons_of_mem f hg) cell _ o' ret hg'
        rw [failure?_of_returns ret] at ran ⊢
        rw [exec_bind_of_ok ran, ih rest]
        exact congrArg (fun o : Option InferenceError => match o with
          | some e => Except.error e
          | none => .ok ()) others

/-- All return types of the functions are known, and nothing else was found out since. -/
structure Inference.Demanded (before : Inference) (fs : List FunctionTy) (after : Inference) :
    Prop where
  later : before.Later after
  found (handed : ∀ f ∈ fs, ∀ cell o, f.ret = .deferred cell o → cell < before.settled.size) :
    ∀ f ∈ fs, after.isOpen f = false
  settled {cell : CellId} (h : after.isSettled cell = true) :
    before.isSettled cell = true ∨ ∃ f ∈ fs, ∃ o, f.ret = .deferred cell o

private theorem demanded_of_exec (h : exec (fs.forM demand) s = (.ok (), t)) :
    s.inference.Demanded fs t.inference := by
  induction fs generalizing s with
  | nil =>
    cases h
    exact ⟨.refl _, fun _ _ => nofun, .inl⟩
  | cons f fs ih =>
    obtain ⟨⟨⟩, u, first, rest⟩ := exec_bind_eq_ok.1
      (show exec (demand f >>= fun _ => fs.forM demand) s = (.ok (), t) from h)
    have demanded := ih rest
    cases hopen : s.inference.isOpen f with
    | false =>
      cases (exec_demand_of_found hopen).symm.trans first
      refine ⟨demanded.later, fun handed g hg => ?_, fun {cell} settled => ?_⟩
      · rcases List.mem_cons.1 hg with rfl | hg
        · exact demanded.later.isOpen_eq_false hopen
        · exact demanded.found (fun g hg => handed g (List.mem_cons_of_mem f hg)) g hg
      · exact (demanded.settled settled).imp_right fun ⟨g, hg, here⟩ =>
          ⟨g, List.mem_cons_of_mem f hg, here⟩
    | true =>
      obtain ⟨cell, outcome, ret, still⟩ := exists_cell_of_isOpen hopen
      have after : u.inference =
          { s.inference.settle cell with calls := s.inference.calls ++ [f.name] } := by
        rw [exec_demand_of_open ret still] at first
        exact congrArg (fun r => CheckState.inference r.2) first.symm
      have size : u.inference.settled.size = s.inference.settled.size := by
        rw [after]
        simp [Inference.settle]
      have settles (other : CellId) : u.inference.isSettled other =
          (decide (cell = other ∧ cell < s.inference.settled.size) ||
            s.inference.isSettled other) := by
        rw [after]
        exact Pairing.isSettled_settle_iff _ _ _
      refine ⟨?_, fun handed g hg => ?_, fun {other} settled => ?_⟩
      · rw [after] at demanded
        exact (Inference.Later.settle s.inference cell f.name).trans demanded.later
      · rcases List.mem_cons.1 hg with rfl | hg
        · have settled : u.inference.isSettled cell = true := by
            simp [settles, handed g List.mem_cons_self cell outcome ret]
          simp [Inference.isOpen, ret, demanded.later.settled settled]
        · exact demanded.found
            (fun g hg => size ▸ handed g (List.mem_cons_of_mem f hg)) g hg
      · rcases demanded.settled settled with before | ⟨g, hg, here⟩
        · rw [settles, Bool.or_eq_true, decide_eq_true_eq] at before
          rcases before with ⟨rfl, -⟩ | before
          · exact .inr ⟨f, List.mem_cons_self, outcome, ret⟩
          · exact .inl before
        · exact .inr ⟨g, List.mem_cons_of_mem f hg, here⟩

end

/-! ## Copies of several functions -/

private theorem length_mapM {α β : Type} (k : α → StateM Inference β) (as : List α)
    (inf : Inference) :
    (as.mapM k inf).1.length = as.length := by
  induction as generalizing inf with
  | nil => rfl
  | cons a as ih =>
    rw [List.mapM_cons]
    exact congrArg Nat.succ (ih (k a inf).2)

private theorem run_mapM_cons {α β : Type} (k : α → StateM Inference β) (a : α) (as : List α)
    (inf : Inference) : (a :: as).mapM k inf =
      ((k a inf).1 :: (as.mapM k (k a inf).2).1, (as.mapM k (k a inf).2).2) := by
  rw [List.mapM_cons]
  rfl

/-- What the return type of a copy is: that of an open one is kept in a new cell, and a known one was
substituted in at some time in between. -/
inductive FunctionTy.Copied (sub : Ty → StateM Inference Ty) (before after : Inference)
    (f g : FunctionTy) : Prop
  | pending {cell cell' : CellId} {outcome : Outcome} (ret : f.ret = .deferred cell outcome)
      (still : before.isSettled cell = false) (copy : g.ret = .deferred cell' outcome)
      (fresh : before.settled.size ≤ cell') (given : cell' < after.settled.size)
  | known {between : Inference} (found : before.isOpen f = false) (opened : before.Opened between)
      (run : (sub (before.returnType f) between).2 = after)
      (value : ∀ other : Inference, other.isOpen g = false ∧
        other.returnType g = (sub (before.returnType f) between).1)

section

variable {sub : Ty → StateM Inference Ty} {f g : FunctionTy} {fs : List FunctionTy}
  {before after inf : Inference}

private theorem copied_ofFunction (hs : ∀ t, Opens (sub t)) (unknown : sub .unknown = pure .unknown)
    (f : FunctionTy) (before : Inference) :
    FunctionTy.Copied sub before (Substitution.ofFunction sub f before).2 f
      (Substitution.ofFunction sub f before).1 := by
  have opened := opens_mapM (f := Substitution.ofParam sub)
    (fun p => opens_bind (opens_ofOption hs p.type) fun t => opens_pure _) f.params before
  change FunctionTy.Copied sub before
    (Substitution.ofReturn sub f (f.params.mapM (Substitution.ofParam sub) before).2).2 f
    { f with
      params := (f.params.mapM (Substitution.ofParam sub) before).1
      ret := (Substitution.ofReturn sub f (f.params.mapM (Substitution.ofParam sub) before).2).1 }
  generalize f.params.mapM (Substitution.ofParam sub) before = copied at opened
  obtain ⟨params, between⟩ := copied
  cases hopen : before.isOpen f with
  | true =>
    obtain ⟨cell, outcome, ret, still⟩ := exists_cell_of_isOpen hopen
    have still' : between.isSettled cell = false := (opened.settled cell).trans still
    rw [ofReturn_of_open ret still']
    refine .pending ret still rfl opened.size ?_
    exact Nat.lt_of_lt_of_eq (Nat.lt_succ_self _) (size_newCell between).symm
  | false =>
    obtain ⟨run, value⟩ := Pairing.ofReturn_of_found unknown (.of_opened opened) hopen
    exact .known hopen opened run.symm (value _ rfl)

namespace FunctionTy.Copied

variable (h : FunctionTy.Copied sub before after f g)
include h

theorem cell {cell : CellId} {outcome : Outcome} (ret : g.ret = .deferred cell outcome) :
    before.settled.size ≤ cell ∧ cell < after.settled.size := by
  cases h with
  | pending _ _ copy fresh given =>
    cases copy.symm.trans ret
    exact ⟨fresh, given⟩
  | known _ _ _ value =>
    have found := (value .start).1
    rw [Inference.isOpen, ret] at found
    cases found

private theorem failure?_eq (opened : before.Opened inf) : g.failure? inf = f.failure? before := by
  cases h with
  | @pending cell cell' outcome ret still copy fresh given =>
    have still' : inf.isSettled cell' = false :=
      (opened.settled cell').trans (Inference.isSettled_of_size_le fresh)
    have hopen : before.isOpen f = true := by simp [Inference.isOpen, ret, still]
    have hopen' : inf.isOpen g = true := by simp [Inference.isOpen, copy, still']
    rw [FunctionTy.failure?, FunctionTy.failure?, if_pos hopen, if_pos hopen', ret, copy]
    cases outcome <;> rfl
  | known found _ _ value => simp [FunctionTy.failure?, found, (value inf).1]

end FunctionTy.Copied

variable (hs : ∀ t, Opens (sub t)) (unknown : sub .unknown = pure .unknown)
include hs unknown

private theorem cells_copied {cell : CellId} {outcome : Outcome}
    (hg : g ∈ (fs.mapM (Substitution.ofFunction sub) before).1)
    (ret : g.ret = .deferred cell outcome) : before.settled.size ≤ cell ∧
      cell < (fs.mapM (Substitution.ofFunction sub) before).2.settled.size := by
  induction fs generalizing before with
  | nil => cases hg
  | cons f fs ih =>
    rw [run_mapM_cons] at hg ⊢
    have opened := opens_ofFunction hs f before
    have rest := opens_mapM (opens_ofFunction hs) fs (Substitution.ofFunction sub f before).2
    rcases List.mem_cons.1 hg with rfl | hg
    · have own := (copied_ofFunction hs unknown f before).cell ret
      exact ⟨own.1, Nat.lt_of_lt_of_le own.2 rest.size⟩
    · obtain ⟨above, below⟩ := ih hg
      exact ⟨Nat.le_trans opened.size above, below⟩

private theorem findersAgree_copied (fs : List FunctionTy) (before : Inference) :
    FindersAgree (fs.mapM (Substitution.ofFunction sub) before).1 := by
  induction fs generalizing before with
  | nil => exact fun _ h => nomatch h
  | cons f fs ih =>
    rw [run_mapM_cons]
    have own := @(copied_ofFunction hs unknown f before).cell
    have apart {g : FunctionTy} {cell : CellId} {o o' : Outcome}
        (ret : (Substitution.ofFunction sub f before).1.ret = .deferred cell o)
        (hg : g ∈ (fs.mapM (Substitution.ofFunction sub) (Substitution.ofFunction sub f before).2).1)
        (ret' : g.ret = .deferred cell o') : o = o' :=
      absurd (own ret).2 (Nat.not_lt.2 (cells_copied hs unknown hg ret').1)
    intro g hg g' hg' cell o o' ret ret'
    rcases List.mem_cons.1 hg with rfl | hg <;> rcases List.mem_cons.1 hg' with rfl | hg'
    · cases ret.symm.trans ret'
      rfl
    · exact apart ret hg' ret'
    · exact (apart ret' hg ret).symm
    · exact ih _ g hg g' hg' cell o o' ret ret'

private theorem findSome?_failure?_copied (fs : List FunctionTy) (before : Inference)
    {inf : Inference}
    (opened : (fs.mapM (Substitution.ofFunction sub) before).2.Opened inf) :
    (fs.mapM (Substitution.ofFunction sub) before).1.findSome? (FunctionTy.failure? inf) =
      fs.findSome? (FunctionTy.failure? before) := by
  induction fs generalizing before with
  | nil => rfl
  | cons f fs ih =>
    rw [run_mapM_cons] at opened ⊢
    have next := opens_ofFunction hs f before
    have rest := opens_mapM (opens_ofFunction hs) fs (Substitution.ofFunction sub f before).2
    have first := (copied_ofFunction hs unknown f before).failure?_eq
      ((next.trans rest).trans opened)
    have others : fs.findSome? (FunctionTy.failure? (Substitution.ofFunction sub f before).2) =
        fs.findSome? (FunctionTy.failure? before) :=
      findSome?_congr fun g _ => failure?_congr (isOpen_of_opened next)
    have tail := ih (Substitution.ofFunction sub f before).2 opened
    rw [List.findSome?_cons, List.findSome?_cons, first, tail, others]

end

/-! ## Return types of copies -/

section

variable {classes : ClassTable} {σ : Solution} {unsolvedUnknown : Bool} {n : Nat}
  {sub : Ty → StateM Inference Ty} {base now inf inf' : Inference} {f g h : FunctionTy}

private theorem returnType_eq_found (known : inf.isOpen f = false) {cell : CellId}
    {outcome : Outcome}
    (ret : f.ret = .deferred cell outcome) : inf.returnType f = f.found := by
  have settled : inf.isSettled cell = true := by simpa [Inference.isOpen, ret] using known
  rw [Inference.returnType, FunctionTy.found, ret]
  simp only [settled, if_true]
  cases outcome with
  | raises message => rfl
  | returns o => cases o <;> rfl

private theorem same_of_pending {after' : Inference} {cell cell' : CellId} {outcome : Outcome}
    (hsub : sub = Substitution.ofTyAt classes σ unsolvedUnknown n) (later : base.Later inf')
    (second : FunctionTy.Copied sub inf' after' f h)
    (last : after'.Opened now) (found : inf'.isOpen f = false)
    (ret : f.ret = .deferred cell outcome) (copy : g.ret = .deferred cell' outcome)
    (copied : now.isOpen g = false)
    (untouched : Ty.Untouched classes σ unsolvedUnknown base f.found) :
    (now.returnType g).same now (now.returnType h) = true := by
  subst hsub
  cases second with
  | pending ret' still =>
    cases ret.symm.trans ret'
    simp [Inference.isOpen, ret, still] at found
  | @known between _ opened run value =>
    have own : g.found = f.found := by
      rw [FunctionTy.found, FunctionTy.found, ret, copy]
      cases outcome with
      | raises message => rfl
      | returns o => cases o <;> rfl
    rw [(value now).2, returnType_eq_found found ret, returnType_eq_found copied copy, own]
    rw [returnType_eq_found found ret] at run
    have beside : base.Beside (fun _ => True) between between :=
      ⟨later.trans (.of_opened opened), later.trans (.of_opened opened), fun _ => rfl⟩
    obtain ⟨-, opened', alike⟩ := alongside_untouched n untouched (fun _ _ => trivial) _ _ beside
    rw [run] at opened'
    refine Ty.ReadsAt.sameAt (alike (fun a b => a = now ∧ b = now) ?_ now now ⟨rfl, rfl⟩ Ty.levels)
    rintro _ _ ⟨rfl, rfl⟩
    have read := opened'.trans last
    rw [run]
    exact ⟨⟨fun _ => read.settled _, fun above below => absurd below (Nat.not_lt.2 above)⟩,
      (Inference.Reads.opened read).first last⟩

private theorem same_of_known {after after' : Inference}
    (hsub : sub = Substitution.ofTyAt classes σ unsolvedUnknown n)
    (earlier : base.Opened inf) (later : base.Later inf')
    (first : FunctionTy.Copied sub inf after f g) (second : FunctionTy.Copied sub inf' after' f h)
    (last : after'.Opened now) (found : base.isOpen f = false)
    (still : ∀ cell, inf.settled.size ≤ cell → cell < after.settled.size →
      now.isSettled cell = false)
    (known : ∀ cell, (base.returnType f).Defers cell ∨ σ.Defers cell →
      now.isSettled cell = base.isSettled cell) :
    (now.returnType g).same now (now.returnType h) = true := by
  subst hsub
  have foundFirst : inf.isOpen f = false := (isOpen_of_opened earlier).trans found
  have foundSecond : inf'.isOpen f = false := later.isOpen_eq_false found
  have value : inf.returnType f = base.returnType f :=
    (Inference.Later.of_opened earlier).returnType_eq found
  have value' : inf'.returnType f = base.returnType f := later.returnType_eq found
  cases first with
  | pending ret open_ => simp [Inference.isOpen, ret, open_] at foundFirst
  | @known between _ opened run first =>
    cases second with
    | pending ret open_ => simp [Inference.isOpen, ret, open_] at foundSecond
    | @known between' _ opened' run' second =>
      rw [(first now).2, (second now).2]
      rw [value] at run ⊢
      rw [value'] at run' ⊢
      have early := earlier.trans opened
      have late := later.trans (.of_opened opened')
      let cells cell := (base.returnType f).Defers cell ∨ σ.Defers cell
      have copies : CopiesAlike base cells
          (Substitution.ofTyAt classes σ unsolvedUnknown n (base.returnType f))
          (Substitution.ofTyAt classes σ unsolvedUnknown n (base.returnType f)) :=
        alongside_ofTyAt (fun cell hc => .inr hc) n fun cell hc => .inl hc
      have read : between'.Opened now := by
        have opened : between'.Opened (Substitution.ofTyAt classes σ unsolvedUnknown n
            (base.returnType f) between').2 := opens_ofTyAt n _ between'
        rw [run'] at opened
        exact opened.trans last
      have beside : base.Beside cells between between' :=
        ⟨.of_opened early, late, fun hc => by
          rw [← read.settled, known _ hc, early.settled]⟩
      obtain ⟨-, -, alike⟩ := copies between between' beside
      refine Ty.ReadsAt.sameAt (alike (fun a b => a = now ∧ b = now) ?_ now now ⟨rfl, rfl⟩ Ty.levels)
      rintro _ _ ⟨rfl, rfl⟩
      rw [run, run']
      refine ⟨⟨fun hc => ?_, fun above below => ?_⟩, (Inference.Reads.opened read).first last⟩
      · rw [known _ hc, early.settled]
      · exact still _ (Nat.le_trans opened.size above) below

private theorem same_copies {fs : List FunctionTy}
    (hsub : sub = Substitution.ofTyAt classes σ unsolvedUnknown n)
    (earlier : base.Opened inf) (later : base.Later inf')
    (last : (fs.mapM (Substitution.ofFunction sub) inf').2.Opened now)
    (found : ∀ f ∈ fs, inf'.isOpen f = false)
    (copied : ∀ g ∈ (fs.mapM (Substitution.ofFunction sub) inf).1, now.isOpen g = false)
    (new : ∀ cell, inf.settled.size ≤ cell →
      cell < (fs.mapM (Substitution.ofFunction sub) inf).2.settled.size →
      now.isSettled cell = true →
        ∃ g ∈ (fs.mapM (Substitution.ofFunction sub) inf).1, ∃ o, g.ret = .deferred cell o)
    (known : ∀ f ∈ fs, base.isOpen f = false → ∀ cell,
      (base.returnType f).Defers cell ∨ σ.Defers cell → now.isSettled cell = base.isSettled cell)
    (untouched : ∀ f ∈ fs, base.isOpen f = true →
      Ty.Untouched classes σ unsolvedUnknown base f.found) :
    allPairs (fun g h => (now.returnType g).same now (now.returnType h))
      (fs.mapM (Substitution.ofFunction sub) inf).1
      (fs.mapM (Substitution.ofFunction sub) inf').1 = true := by
  have hs (t : Ty) : Opens (sub t) := by
    rw [hsub]
    exact opens_ofTyAt n t
  have unknown : sub .unknown = pure .unknown := by
    rw [hsub]
    exact ofTyAt_unknown n
  induction fs generalizing inf inf' with
  | nil => rfl
  | cons f fs ih =>
    rw [List.forall_mem_cons] at found known untouched
    rw [run_mapM_cons] at last copied new ⊢
    rw [run_mapM_cons]
    rw [List.forall_mem_cons] at copied
    have next := opens_ofFunction hs f inf
    have next' := opens_ofFunction hs f inf'
    have rest := opens_mapM (opens_ofFunction hs) fs (Substitution.ofFunction sub f inf).2
    have rest' := opens_mapM (opens_ofFunction hs) fs (Substitution.ofFunction sub f inf').2
    have first := copied_ofFunction hs unknown f inf
    have second := copied_ofFunction hs unknown f inf'
    have after := rest'.trans last
    rw [allPairs, Bool.and_eq_true]
    refine ⟨?_, ih (earlier.trans next) (later.trans (.of_opened next')) last
      (fun g hg => (isOpen_of_opened next').trans (found.2 g hg)) copied.2 (fun cell above below settled => ?_)
      known.2 untouched.2⟩
    · cases hopen : base.isOpen f with
      | true =>
        cases first with
        | pending ret still copy =>
          exact same_of_pending hsub later second after found.1 ret copy copied.1
            (untouched.1 hopen)
        | known known _ _ _ =>
          rw [isOpen_of_opened earlier, hopen] at known
          cases known
      | false =>
        refine same_of_known hsub earlier later first second after hopen
          (fun cell above below => ?_) (known.1 hopen)
        rw [Bool.eq_false_iff]
        intro settled
        obtain ⟨g, hg, o, ret⟩ := new cell above (Nat.lt_of_lt_of_le below rest.size) settled
        rcases List.mem_cons.1 hg with rfl | hg
        · cases first with
          | pending ret' still =>
            have open_ : inf.isOpen f = true := by simp [Inference.isOpen, ret', still]
            rw [isOpen_of_opened earlier, hopen] at open_
            cases open_
          | known _ _ _ value =>
            have closed := (value .start).1
            rw [Inference.isOpen, ret] at closed
            cases closed
        · exact absurd below (Nat.not_lt.2 (cells_copied hs unknown hg ret).1)
    · obtain ⟨g, hg, o, ret⟩ := new cell (Nat.le_trans next.size above) below settled
      rcases List.mem_cons.1 hg with rfl | hg
      · exact absurd (first.cell ret).2 (Nat.not_lt.2 above)
      · exact ⟨g, hg, o, ret⟩

end

/-! ## Specializing first and asking first -/

/-- The ways to see a type with other types in the places of its variables: with what was found for
them, or as a member of a view of a class. -/
inductive Seeing
  | solved (σ : Solution) (unsolvedUnknown : Bool)
  | member (owner : ClassTy) (self : Option ClassTy)

namespace Seeing

def apply (classes : ClassTable) : Seeing → Ty → StateM Inference Ty
  | solved σ unsolvedUnknown, t => t.substitute classes σ unsolvedUnknown
  | member owner self, t => t.specialize classes owner self

/-- The types that are put in the places of variables. -/
def solution (classes : ClassTable) : Seeing → Solution
  | solved σ _ => σ
  | member owner self => (memberSolution classes owner self).getD .empty

def unsolvedUnknown : Seeing → Bool
  | solved _ unsolvedUnknown => unsolvedUnknown
  | member _ _ => false

variable {classes : ClassTable} (v : Seeing) {t : Ty}

private theorem apply_eq :
    v.apply classes t = t.substitute classes (v.solution classes) v.unsolvedUnknown := by
  cases v with
  | solved σ unsolvedUnknown => rfl
  | member owner self =>
    change t.specialize classes owner self =
      t.substitute classes ((memberSolution classes owner self).getD .empty) false
    unfold Ty.specialize
    cases memberSolution classes owner self with
    | none => rfl
    | some σ => rfl

private theorem apply_callable (callable : t.isCallable = true) : v.apply classes t = pure t ∨
    ∃ sub, sub = Substitution.ofTyAt classes (v.solution classes) v.unsolvedUnknown (Ty.levels - 1) ∧
      ∀ inf, ((v.apply classes t inf).1.callables, (v.apply classes t inf).2) =
        t.callables.mapM (Substitution.ofFunction sub) inf := by
  rw [apply_eq, Ty.substitute]
  split
  · exact .inl rfl
  · refine .inr ⟨_, rfl, fun inf => ?_⟩
    cases t with
    | function f => rfl
    | overloaded fs => rfl
    | _ => cases callable

/-- Specializes and then asks for the return types of what came out. -/
def thenInfer (classes : ClassTable) (v : Seeing) (t : Ty) : Check Ty := do
  let u ← lift (v.apply classes t)
  demandAll u
  pure u

/-- Asks for the return types and then specializes. -/
def afterInferring (classes : ClassTable) (v : Seeing) (t : Ty) : Check Ty := do
  demandAll t
  lift (v.apply classes t)

end Seeing

/-- The return types of the functions are the same, one by one. -/
def Ty.sameReturns (inf : Inference) (t u : Ty) : Bool :=
  allPairs (fun f g => (inf.returnType f).same inf (inf.returnType g)) t.callables u.callables

/-- What is found out about the functions is nothing that the solution touches, and the types that
are put together meanwhile mention no function among them whose return type is still open. -/
structure Ty.Specializable (classes : ClassTable) (σ : Solution) (unsolvedUnknown : Bool)
    (inf : Inference) (t : Ty) : Prop where
  handed : ∀ f ∈ t.callables, ∀ cell o, f.ret = .deferred cell o → cell < inf.settled.size
  once : FindersAgree t.callables
  known : ∀ f ∈ t.callables, inf.isOpen f = false →
    ∀ cell, (inf.returnType f).Defers cell ∨ σ.Defers cell → cell < inf.settled.size ∧
      ∀ g ∈ t.callables, inf.isOpen g = true → ∀ o, g.ret ≠ .deferred cell o
  untouched : ∀ f ∈ t.callables, inf.isOpen f = true →
    Ty.Untouched classes σ unsolvedUnknown inf f.found

section

variable {classes : ClassTable} {v : Seeing} {t : Ty} {s : CheckState}

private theorem exec_thenInfer (classes : ClassTable) (v : Seeing) (t : Ty) (s : CheckState) :
    exec (v.thenInfer classes t) s =
      exec ((v.apply classes t s.inference).1.callables.forM demand >>= fun _ =>
        pure (v.apply classes t s.inference).1)
        { s with inference := (v.apply classes t s.inference).2 } := by
  unfold Seeing.thenInfer
  rw [exec_bind_of_ok (exec_lift _ s), exec_bind, exec_bind, exec_demandAll]

private theorem exec_afterInferring (classes : ClassTable) (v : Seeing) (t : Ty) (s : CheckState) :
    exec (v.afterInferring classes t) s =
      exec (t.callables.forM demand >>= fun _ => lift (v.apply classes t)) s := by
  unfold Seeing.afterInferring
  rw [exec_bind, exec_bind, exec_demandAll]

private theorem exec_bind_error_iff {α β : Type} {act : Check α} {k : α → Check β}
    {e : InferenceError}
    (hk : ∀ a s, ∃ b, (exec (k a) s).1 = .ok b) :
    (exec (act >>= k) s).1 = .error e ↔ (exec act s).1 = .error e := by
  rw [exec_bind]
  rcases exec act s with ⟨r, u⟩
  cases r with
  | error e' => simp
  | ok a =>
    obtain ⟨b, ended⟩ := hk a u
    simp [ended]

private theorem exec_demands_of_found {fs : List FunctionTy}
    (h : ∀ f ∈ fs, s.inference.isOpen f = false) :
    exec (fs.forM demand) s = (.ok (), s) := by
  induction fs with
  | nil => rfl
  | cons f fs ih =>
    rw [List.forall_mem_cons] at h
    change exec (demand f >>= fun _ => fs.forM demand) s = _
    rw [exec_bind_of_ok (exec_demand_of_found h.1)]
    exact ih h.2

private theorem exec_demands_later {fs : List FunctionTy} {s' : CheckState} (once : FindersAgree fs)
    (fine : ∀ f ∈ fs, f.failure? s.inference = none) (later : s.inference.Later s'.inference) :
    ∃ t, exec (fs.forM demand) s' = (.ok (), t) := by
  have fine' : ∀ f ∈ fs, f.failure? s'.inference = none := by
    intro f hf
    cases hopen' : s'.inference.isOpen f with
    | false => simp [FunctionTy.failure?, hopen']
    | true =>
      cases hopen : s.inference.isOpen f with
      | false => rw [later.isOpen_eq_false hopen] at hopen'; cases hopen'
      | true =>
        rw [failure?_congr (hopen'.trans hopen.symm)]
        exact fine f hf
  have ended : (exec (fs.forM demand) s').1 = .ok () := by
    rw [exec_demands once, List.findSome?_eq_none_iff.2 fine']
  exact ⟨_, Prod.ext ended rfl⟩

private theorem commutes_of_pure
    (h : t.Specializable classes (v.solution classes) v.unsolvedUnknown s.inference)
    (nothing : v.apply classes t = pure t) {u : Ty} {s' : CheckState}
    (ran : exec (v.thenInfer classes t) s = (.ok u, s')) :
    u.callables.length = t.callables.length ∧
      ∃ w s'', exec (v.afterInferring classes t) s' = (.ok w, s'') ∧
        u.sameReturns s''.inference w = true := by
  rw [exec_thenInfer, nothing] at ran
  obtain ⟨⟨⟩, s₁, asked, ended⟩ := exec_bind_eq_ok.1 ran
  cases ended
  have found : ∀ f ∈ t.callables, s'.inference.isOpen f = false :=
    (demanded_of_exec asked).found h.handed
  refine ⟨rfl, t, s', ?_, ?_⟩
  · rw [exec_afterInferring, nothing, exec_bind_of_ok (exec_demands_of_found found)]
    rfl
  · exact allPairs_self _ fun f _ => sameAt_self _ _ _

private theorem commutes_of_copied
    (h : t.Specializable classes (v.solution classes) v.unsolvedUnknown s.inference)
    {sub : Ty → StateM Inference Ty}
    (hsub : sub = Substitution.ofTyAt classes (v.solution classes) v.unsolvedUnknown (Ty.levels - 1))
    (copied : ∀ inf, ((v.apply classes t inf).1.callables, (v.apply classes t inf).2) =
      t.callables.mapM (Substitution.ofFunction sub) inf) {u : Ty} {s' : CheckState}
    (ran : exec (v.thenInfer classes t) s = (.ok u, s')) :
    u.callables.length = t.callables.length ∧
      ∃ w s'', exec (v.afterInferring classes t) s' = (.ok w, s'') ∧
        u.sameReturns s''.inference w = true := by
  have hs (t : Ty) : Opens (sub t) := hsub ▸ opens_ofTyAt _ t
  have unknown : sub .unknown = pure .unknown := hsub ▸ ofTyAt_unknown _
  obtain ⟨callables, after⟩ := Prod.ext_iff.1 (copied s.inference)
  dsimp only at callables after
  have opened := opens_mapM (opens_ofFunction hs) t.callables s.inference
  rw [exec_thenInfer] at ran
  obtain ⟨⟨⟩, s₁, asked, ended⟩ := exec_bind_eq_ok.1 ran
  cases ended
  rw [callables, after] at asked
  have first := demanded_of_exec asked
  have later := (Inference.Later.of_opened opened).trans first.later
  -- no finder fails, so the functions are found out as well
  have fine : ∀ f ∈ t.callables, f.failure? s.inference = none := by
    have ended := congrArg Prod.fst asked
    rw [exec_demands (findersAgree_copied hs unknown _ _),
      findSome?_failure?_copied hs unknown _ _ (.refl _)] at ended
    cases failed : t.callables.findSome? (FunctionTy.failure? s.inference) with
    | none => exact List.findSome?_eq_none_iff.1 failed
    | some e =>
      rw [failed] at ended
      cases ended
  obtain ⟨s₂, ran'⟩ := exec_demands_later h.once fine later
  have second := demanded_of_exec ran'
  obtain ⟨callables', after'⟩ := Prod.ext_iff.1 (copied s₂.inference)
  dsimp only at callables' after'
  refine ⟨?_, (v.apply classes t s₂.inference).1,
    { s₂ with inference := (v.apply classes t s₂.inference).2 }, ?_, ?_⟩
  · rw [callables, length_mapM]
  · rw [exec_afterInferring, exec_bind_of_ok ran']
    rfl
  · dsimp only [Ty.sameReturns]
    rw [callables, callables', after']
    have last := opens_mapM (opens_ofFunction hs) t.callables s₂.inference
    have whole := later.trans second.later
    -- a cell that is settled in the end was settled at first or is one of a copy or of a function
    have settled {cell : CellId} (h : (t.callables.mapM (Substitution.ofFunction sub)
        s₂.inference).2.isSettled cell = true) : s.inference.isSettled cell = true ∨
        (∃ g ∈ (t.callables.mapM (Substitution.ofFunction sub) s.inference).1,
          ∃ o, g.ret = .deferred cell o) ∨ ∃ f ∈ t.callables, ∃ o, f.ret = .deferred cell o := by
      rw [last.settled] at h
      rcases second.settled h with h | own
      · rcases first.settled h with h | copy
        · exact .inl ((opened.settled cell).symm.trans h)
        · exact .inr (.inl copy)
      · exact .inr (.inr own)
    refine same_copies hsub (.refl s.inference) whole (.refl _) ?_ ?_ ?_ ?_ h.untouched
    · exact second.found fun f hf cell o ret =>
        Nat.lt_of_lt_of_le (h.handed f hf cell o ret) later.size
    · intro g hg
      refine (second.later.trans (.of_opened last)).isOpen_eq_false (first.found ?_ g hg)
      exact fun g hg cell o ret => (cells_copied hs unknown hg ret).2
    · intro cell above below settles
      rcases settled settles with before | copy | ⟨f, hf, o, ret⟩
      · rw [Inference.isSettled_of_size_le above] at before
        cases before
      · exact copy
      · exact absurd (h.handed f hf cell o ret) (Nat.not_lt.2 above)
    · intro f hf hopen cell hc
      obtain ⟨handed, apart⟩ := h.known f hf hopen cell hc
      rw [Bool.eq_iff_iff]
      refine ⟨fun settles => ?_, fun settles => last.settled cell ▸ whole.settled settles⟩
      rcases settled settles with before | ⟨g, hg, o, ret⟩ | ⟨g, hg, o, ret⟩
      · exact before
      · exact absurd handed (Nat.not_lt.2 (cells_copied hs unknown hg ret).1)
      · by_contra still
        rw [Bool.not_eq_true] at still
        exact apart g hg (by simp [Inference.isOpen, ret, still]) o ret

/-- Specializing a function commutes with asking for its return type where what is found out is
nothing that specializing touches: each of the two ways fails if the other does, and otherwise the
return types that one of them ends with are the same as those that the other then ends with. -/
theorem specializing_commutes_with_inferring (callable : t.isCallable = true)
    (h : t.Specializable classes (v.solution classes) v.unsolvedUnknown s.inference) :
    (∀ e, (exec (v.thenInfer classes t) s).1 = .error e ↔
      (exec (v.afterInferring classes t) s).1 = .error e) ∧
    ∀ u s', exec (v.thenInfer classes t) s = (.ok u, s') →
      u.callables.length = t.callables.length ∧
      ∃ w s'', exec (v.afterInferring classes t) s' = (.ok w, s'') ∧
        u.sameReturns s''.inference w = true := by
  refine ⟨fun e => ?_, fun u s' ran => ?_⟩
  · rw [exec_thenInfer, exec_afterInferring, exec_bind_error_iff fun _ _ => ⟨_, rfl⟩,
      exec_bind_error_iff fun _ _ => ⟨_, rfl⟩]
    rcases v.apply_callable callable with nothing | ⟨sub, hsub, copied⟩
    · rw [nothing]
      exact Iff.rfl
    · have hs (t : Ty) : Opens (sub t) := hsub ▸ opens_ofTyAt _ t
      have unknown : sub .unknown = pure .unknown := hsub ▸ ofTyAt_unknown _
      obtain ⟨callables, after⟩ := Prod.ext_iff.1 (copied s.inference)
      dsimp only at callables after
      rw [callables, after, exec_demands (findersAgree_copied hs unknown _ _), exec_demands h.once]
      dsimp only
      rw [findSome?_failure?_copied hs unknown _ _ (.refl _)]
  · rcases v.apply_callable callable with nothing | ⟨sub, hsub, copied⟩
    · exact commutes_of_pure h nothing ran
    · exact commutes_of_copied h hsub copied ran

end

namespace Sample

def solvedVar : TypeVar := .make "T" "g" .invariant none

def solvedBy (id : ClassId) : Seeing :=
  .solved ((Solution.forScope "g").insert solvedVar (some (instanceOf id))) false

/-- Two overloads, the return type of one of them still to be found out. -/
def halfOpen (found : Ty) : Ty :=
  .overloaded [deferred 0 found, function none [some (.var solvedVar)] (.declared (.var solvedVar))]

def awaiting : CheckState := ⟨⟨#[false], []⟩, #[], [], [], none, none, []⟩

end Sample

section

open Sample

/-- One overload yields an instance of a class, which is found out later, and the other what a
variable stands for. -/
theorem specializing_commutes_for_overloads :
    (halfOpen (instanceOf 1)).isCallable = true ∧
    (halfOpen (instanceOf 1)).Specializable (ofDecls [object]).classes
      ((solvedBy 2).solution (ofDecls [object]).classes) (solvedBy 2).unsolvedUnknown
      awaiting.inference ∧
    ∃ u s' w s'', exec ((solvedBy 2).thenInfer (ofDecls [object]).classes (halfOpen (instanceOf 1)))
        awaiting = (.ok u, s') ∧
      exec ((solvedBy 2).afterInferring (ofDecls [object]).classes (halfOpen (instanceOf 1)))
        s' = (.ok w, s'') ∧ u.sameReturns s''.inference w = true := by
  have specializable : (halfOpen (instanceOf 1)).Specializable (ofDecls [object]).classes
      ((solvedBy 2).solution (ofDecls [object]).classes) (solvedBy 2).unsolvedUnknown
      awaiting.inference := by
    have plain (id : ClassId) (cell : CellId) : ¬ (instanceOf id).Defers cell := by
      rintro (_ | _ | _ | _ | _ | here)
      cases here
    refine ⟨?_, ?_, ?_, ?_⟩
    · rintro f hf cell o ret
      rcases List.mem_pair.1 hf with rfl | rfl <;> cases ret
      exact Nat.zero_lt_one
    · rintro f hf g hg cell o o' ret ret'
      rcases List.mem_pair.1 hf with rfl | rfl <;> cases ret
      rcases List.mem_pair.1 hg with rfl | rfl <;> cases ret'
      rfl
    · rintro f hf found cell mentioned
      rcases List.mem_pair.1 hf with rfl | rfl
      · cases found
      · exfalso
        rcases mentioned with mentioned | ⟨e, he, t, ht, mentioned⟩
        · cases mentioned with
          | bound h => cases h
        · cases List.mem_singleton.1 he
          cases ht
          exact plain 2 cell mentioned
    · rintro f hf still
      rcases List.mem_pair.1 hf with rfl | rfl
      · exact .bare rfl rfl
      · cases still
  obtain ⟨-, agree⟩ := specializing_commutes_with_inferring rfl specializable
  obtain ⟨-, w, s'', ran, same⟩ := agree _ _ rfl
  exact ⟨rfl, specializable, _, _, w, s'', rfl, ran, same⟩

/-- The type that a finder yields is not specialized in a copy that was made before. -/
example :
    (exec (do
      let u ← (solvedBy 2).thenInfer (ofDecls [object]).classes (halfOpen (.var solvedVar))
      let w ← (solvedBy 2).afterInferring (ofDecls [object]).classes (halfOpen (.var solvedVar))
      let inf ← inference
      pure (u.sameReturns inf w)) awaiting).1.toOption = some false := by
  decide +kernel

end

end Conformance
