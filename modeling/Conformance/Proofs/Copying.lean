import Conformance.Proofs.Reading
import Conformance.Proofs.TwinLookups

/-!
# Copies made at different times

What is substituted in a type at one time reads like what is substituted in it at another, wherever
the cells that the type and the solution mention are known alike. Where a solution has nothing to put
into a type, what is substituted in it reads like the type itself.
-/

namespace Conformance

/-! ## Two computations that hand out cells -/

/-- The time may be one at which the results of a computation are read: nothing was found out since
the beginning about the cells that matter, and the cells that were handed out are open. -/
structure Inference.Reads (cells : CellId → Prop) (before after now : Inference) : Prop where
  kept {cell : CellId} (h : cells cell) : now.isSettled cell = before.isSettled cell
  fresh {cell : CellId} (h : before.settled.size ≤ cell) (h' : cell < after.settled.size) :
    now.isSettled cell = false

theorem Inference.isSettled_of_size_le {inf : Inference} {cell : CellId}
    (h : inf.settled.size ≤ cell) : inf.isSettled cell = false := by
  simp [Inference.isSettled, Array.getD_eq_getD_getElem?, h]

namespace Inference.Reads

variable {cells : CellId → Prop} {a b c now : Inference}

theorem refl (cells : CellId → Prop) (inf : Inference) : inf.Reads cells inf inf :=
  ⟨fun _ => rfl, fun h _ => isSettled_of_size_le h⟩

theorem opened (h : a.Opened b) : a.Reads cells b b :=
  ⟨fun _ => h.settled _, fun h' _ => (h.settled _).trans (isSettled_of_size_le h')⟩

theorem first (h : a.Reads cells c now) (later : b.Opened c) : a.Reads cells b now :=
  ⟨h.kept, fun above below => h.fresh above (Nat.lt_of_lt_of_le below later.size)⟩

theorem rest (h : a.Reads cells c now) (earlier : a.Opened b) : b.Reads cells c now :=
  ⟨fun {_} here => (h.kept here).trans (earlier.settled _).symm,
    fun above below => h.fresh (Nat.le_trans earlier.size above) below⟩

end Inference.Reads

/-- Two later times at which the cells that matter are known alike. -/
structure Inference.Beside (base : Inference) (cells : CellId → Prop) (inf inf' : Inference) :
    Prop where
  left : base.Later inf
  right : base.Later inf'
  agree {cell : CellId} (h : cells cell) : inf'.isSettled cell = inf.isSettled cell

section

variable {α β γ δ : Type}

/-- Begun at times at which the cells that matter are known alike, the two computations hand out
cells at most, and their results are related wherever they may be read. -/
def Alongside (base : Inference) (cells : CellId → Prop)
    (R : (Inference → Inference → Prop) → α → β → Prop) (act : StateM Inference α)
    (act' : StateM Inference β) : Prop :=
  ∀ inf inf', base.Beside cells inf inf' →
    inf.Opened (act inf).2 ∧ inf'.Opened (act' inf').2 ∧
      ∀ times : Inference → Inference → Prop,
        (∀ now now', times now now' →
          inf.Reads cells (act inf).2 now ∧ inf'.Reads cells (act' inf').2 now') →
        R times (act inf).1 (act' inf').1

variable {base : Inference} {cells : CellId → Prop}
  {R : (Inference → Inference → Prop) → α → β → Prop}
  {S : (Inference → Inference → Prop) → γ → δ → Prop}

namespace Alongside

theorem pure {a : α} {b : β} (h : ∀ times : Inference → Inference → Prop,
    (∀ now now', times now now' → ∀ cell, cells cell → now'.isSettled cell = now.isSettled cell) →
      R times a b) : Alongside base cells R (pure a) (pure b) := by
  refine fun inf inf' beside => ⟨.refl inf, .refl inf', fun times reads => h times ?_⟩
  intro now now' here cell hc
  obtain ⟨left, right⟩ := reads now now' here
  rw [left.kept hc, right.kept hc, beside.agree hc]

theorem bind {act : StateM Inference α} {act' : StateM Inference β} {k : α → StateM Inference γ}
    {k' : β → StateM Inference δ} (h : Alongside base cells R act act')
    (hk : ∀ a b, Alongside base cells (fun times c d => R times a b → S times c d) (k a) (k' b)) :
    Alongside base cells S (act >>= k) (act' >>= k') := by
  intro inf inf' beside
  obtain ⟨opened, opened', first⟩ := h inf inf' beside
  have between : base.Beside cells (act inf).2 (act' inf').2 :=
    ⟨beside.left.trans (.of_opened opened), beside.right.trans (.of_opened opened'),
      fun hc => by rw [opened.settled, opened'.settled, beside.agree hc]⟩
  obtain ⟨later, later', second⟩ := hk (act inf).1 (act' inf').1 _ _ between
  refine ⟨opened.trans later, opened'.trans later', fun times reads => ?_⟩
  refine second times (fun now now' here => ?_) (first times fun now now' here => ?_)
  · exact ⟨(reads now now' here).1.rest opened, (reads now now' here).2.rest opened'⟩
  · exact ⟨(reads now now' here).1.first later, (reads now now' here).2.first later'⟩

theorem mapM {as : List γ} {f : γ → StateM Inference α} {g : γ → StateM Inference β}
    (h : ∀ a ∈ as, Alongside base cells R (f a) (g a)) :
    Alongside base cells (fun times => List.Forall₂ (R times)) (as.mapM f) (as.mapM g) := by
  induction as with
  | nil => exact .pure fun _ _ => .nil
  | cons a as ih =>
    rw [List.forall_mem_cons] at h
    rw [List.mapM_cons, List.mapM_cons]
    refine .bind h.1 fun b c => .bind (ih h.2) fun bs cs => .pure fun times _ rest first => ?_
    exact .cons first rest

end Alongside

end

/-! ## Parts of a substitution -/

/-- Functions with these return types have return types that read alike. -/
def Return.Alike (times : Inference → Inference → Prop) (r r' : Return) : Prop :=
  ∀ f g : FunctionTy, f.ret = r → g.ret = r' → ∀ now now', times now now' → ∀ n,
    Ty.ReadsAt now now' n (now.returnType f) (now'.returnType g)

def Solution.Defers (cell : CellId) (σ : Solution) : Prop :=
  ∃ e ∈ σ.entries, ∃ t, e.2 = some t ∧ t.Defers cell

private theorem Solution.exists_entry {σ : Solution} {v : TypeVar} {t : Ty}
    (h : σ.get? v = some t) :
    ∃ e ∈ σ.entries, e.2 = some t := by
  unfold Solution.get? at h
  cases found : σ.entries.lookup v.key with
  | none =>
    rw [found] at h
    cases h
  | some o =>
    rw [found] at h
    have there : (v.key, o) ∈ σ.entries := by
      obtain ⟨before, after, split, -⟩ := List.lookup_eq_some_iff.1 found
      rw [split]
      exact List.mem_append_right _ List.mem_cons_self
    exact ⟨(v.key, o), there, h⟩

/-- The two computations yield types that read alike. -/
abbrev CopiesAlike (base : Inference) (cells : CellId → Prop) (act act' : StateM Inference Ty) :
    Prop :=
  Alongside base cells Ty.Alike act act'

namespace Alongside

variable {classes : ClassTable} {σ : Solution} {unsolvedUnknown : Bool} {base : Inference}
  {cells : CellId → Prop} {sub sub' : Ty → StateM Inference Ty} {t : Ty} {f : FunctionTy}

theorem itself (known : ∀ cell, t.Defers cell → cells cell) :
    CopiesAlike base cells (Pure.pure t) (Pure.pure t) :=
  .pure fun _ agree => .of_agreeOn fun _ _ here cell hc => agree _ _ here cell (known cell hc)

theorem option {o : Option Ty} (h : ∀ t, o = some t → CopiesAlike base cells (sub t) (sub' t)) :
    Alongside base cells (fun times => Option.Rel (Ty.Alike times))
      (Substitution.ofOption sub o) (Substitution.ofOption sub' o) := by
  cases o with
  | none => exact .pure fun _ _ => .none
  | some t => exact .bind (h t rfl) fun _ _ => .pure fun _ _ here => .some here

theorem arguments {as : List (Option Ty)}
    (h : ∀ t, some t ∈ as → CopiesAlike base cells (sub t) (sub' t)) :
    Alongside base cells (fun times => List.Forall₂ (Option.Rel (Ty.Alike times)))
      (as.mapM (Substitution.ofOption sub)) (as.mapM (Substitution.ofOption sub')) :=
  .mapM fun _ ho => .option fun t ht => h t (ht ▸ ho)

theorem param {p : Param} (h : ∀ t, p.type = some t → CopiesAlike base cells (sub t) (sub' t)) :
    Alongside base cells (fun times => Param.ReadsBy (Ty.Alike times))
      (Substitution.ofParam sub p) (Substitution.ofParam sub' p) := by
  refine .bind (.option h) fun a b => .pure fun times _ alike => ⟨rfl, rfl, ?_⟩
  exact rel_option_getD alike .unknown

theorem function {act act' : StateM Inference Return}
    (params : ∀ p ∈ f.params, ∀ t, p.type = some t → CopiesAlike base cells (sub t) (sub' t))
    (ret : Alongside base cells Return.Alike act act') :
    Alongside base cells FunctionTy.Alike
      (do
        let params ← f.params.mapM (Substitution.ofParam sub)
        let ret ← act
        Pure.pure { f with params := params, ret := ret })
      (do
        let params ← f.params.mapM (Substitution.ofParam sub')
        let ret ← act'
        Pure.pure { f with params := params, ret := ret }) := by
  refine .bind (.mapM fun p hp => .param (params p hp)) fun ps qs => .bind ret fun r r' => ?_
  exact .pure fun times _ ret params => ⟨rfl, params, ret _ _ rfl rfl⟩

/-- What is built from types that read alike reads alike. -/
theorem union {ts : List Ty} (h : ∀ t ∈ ts, CopiesAlike base cells (sub t) (sub' t)) :
    CopiesAlike base cells
      (do
        let us ← ts.mapM sub
        let inf ← get
        Pure.pure (Ty.combine inf (us.map some)))
      (do
        let us ← ts.mapM sub'
        let inf ← get
        Pure.pure (Ty.combine inf (us.map some))) := by
  intro inf inf' beside
  obtain ⟨opened, opened', alike⟩ := Alongside.mapM h inf inf' beside
  refine ⟨opened, opened', fun times reads => ?_⟩
  -- the alternatives are compared with each other when all of them are there
  let built now now' := times now now' ∨
    now = (ts.mapM sub inf).2 ∧ now' = (ts.mapM sub' inf').2
  have alternatives := alike built fun now now' here => by
    rcases here with here | ⟨rfl, rfl⟩
    · exact reads now now' here
    · exact ⟨.opened opened, .opened opened'⟩
  have here : built (ts.mapM sub inf).2 (ts.mapM sub' inf').2 := .inr ⟨rfl, rfl⟩
  have given : List.Forall₂ (Option.Rel (Ty.Alike built)) ((ts.mapM sub inf).1.map some)
      ((ts.mapM sub' inf').1.map some) := List.rel_map (fun _ _ h => .some h) alternatives
  exact ((Ty.Alike.combined here).combine given).mono fun now now' here => .inl here

end Alongside

/-! ## The same type at two times -/

section

variable {classes : ClassTable} {σ : Solution} {unsolvedUnknown : Bool} {base : Inference}
  {cells : CellId → Prop}

theorem exists_cell_of_isOpen {f : FunctionTy} {inf : Inference} (h : inf.isOpen f = true) :
    ∃ cell outcome, f.ret = .deferred cell outcome ∧ inf.isSettled cell = false := by
  unfold Inference.isOpen at h
  split at h
  · rename_i cell outcome ret
    exact ⟨cell, outcome, ret, by simpa using h⟩
  · cases h

theorem Inference.AgreeOn.isOpen_eq {f : FunctionTy} {inf inf' : Inference}
    (h : inf.AgreeOn inf' (.function f)) : inf'.isOpen f = inf.isOpen f := by
  unfold Inference.isOpen
  cases hr : f.ret with
  | deferred cell outcome =>
    dsimp only
    rw [h cell (.here hr)]
  | _ => rfl

theorem ofTyAt_unknown (n : Nat) :
    Substitution.ofTyAt classes σ unsolvedUnknown n .unknown = pure .unknown := by
  cases n <;> rfl

theorem returnType_of_open {f : FunctionTy} {cell : CellId} {outcome : Outcome} {inf : Inference}
    (ret : f.ret = .deferred cell outcome) (h : inf.isSettled cell = false) :
    inf.returnType f = .unknown := by
  simp [Inference.returnType, ret, h]

/-- A return type that is open stays so in a copy, which has a cell of its own. -/
theorem ofReturn_of_open {f : FunctionTy} {sub : Ty → StateM Inference Ty} {cell : CellId}
    {outcome : Outcome} {inf : Inference} (ret : f.ret = .deferred cell outcome)
    (h : inf.isSettled cell = false) :
    Substitution.ofReturn sub f inf =
      (.deferred inf.settled.size outcome, (Inference.newCell inf).2) := by
  have still : inf.isOpen f = true := by simp [Inference.isOpen, ret, h]
  rw [Substitution.ofReturn, ret]
  change (if inf.isOpen f then _ else _ : StateM Inference Return) inf = _
  rw [still]
  exact Pairing.renew_of_open h

theorem size_newCell (inf : Inference) :
    (Inference.newCell inf).2.settled.size = inf.settled.size + 1 :=
  Array.size_push false

private theorem alongside_ofReturn {f : FunctionTy} {sub : Ty → StateM Inference Ty}
    (unknown : sub .unknown = pure .unknown)
    (known : ∀ cell, (Ty.function f).Defers cell → cells cell)
    (hs : ∀ t, (∀ cell, t.Defers cell → cells cell) → CopiesAlike base cells (sub t) (sub t)) :
    Alongside base cells Return.Alike (Substitution.ofReturn sub f)
      (Substitution.ofReturn sub f) := by
  intro inf inf' beside
  have agree : inf.AgreeOn inf' (.function f) := fun cell hc => beside.agree (known cell hc)
  cases hopen : inf.isOpen f with
  | true =>
    obtain ⟨cell, outcome, ret, still⟩ := exists_cell_of_isOpen hopen
    have still' : inf'.isSettled cell = false := (agree cell (.here ret)).trans still
    rw [ofReturn_of_open ret still, ofReturn_of_open ret still']
    refine ⟨opens_newCell inf, opens_newCell inf', fun times reads f' g' hf hg now now' here n => ?_⟩
    obtain ⟨left, right⟩ := reads now now' here
    have last (inf : Inference) : inf.settled.size < (Inference.newCell inf).2.settled.size :=
      Nat.lt_of_lt_of_eq (Nat.lt_succ_self _) (size_newCell inf).symm
    rw [returnType_of_open hf (left.fresh (Nat.le_refl _) (last inf)),
      returnType_of_open hg (right.fresh (Nat.le_refl _) (last inf'))]
    exact .of_agreeOn n .unknown
  | false =>
    have hopen' : inf'.isOpen f = false := by
      rw [← hopen]
      exact agree.isOpen_eq
    obtain ⟨after, value⟩ := Pairing.ofReturn_of_found unknown (.refl inf) hopen
    obtain ⟨after', value'⟩ := Pairing.ofReturn_of_found unknown (.refl inf') hopen'
    rw [agree.returnType_eq] at after' value'
    obtain ⟨opened, opened', alike⟩ :=
      hs (inf.returnType f) (fun cell hc => known cell hc.of_returnType) inf inf' beside
    rw [after, after']
    refine ⟨opened, opened', fun times reads f' g' hf hg now now' here n => ?_⟩
    rw [(value f' hf now).2, (value' g' hg now').2]
    exact alike times reads now now' here n

private theorem alongside_return {f : FunctionTy} {sub : Ty → StateM Inference Ty}
    (unknown : sub .unknown = pure .unknown)
    (known : ∀ cell, (Ty.function f).Defers cell → cells cell)
    (hs : ∀ inf : Inference,
      CopiesAlike base cells (pure (inf.returnType f)) (sub (inf.returnType f))) :
    Alongside base cells Return.Alike (pure f.ret) (Substitution.ofReturn sub f) := by
  intro inf inf' beside
  have agree : inf'.AgreeOn inf (.function f) := fun cell hc => (beside.agree (known cell hc)).symm
  have kept {now : Inference} (reads : inf.Reads cells inf now) : inf'.AgreeOn now (.function f) :=
    fun cell hc => (reads.kept (known cell hc)).trans (agree cell hc)
  cases hopen : inf'.isOpen f with
  | true =>
    obtain ⟨cell, outcome, ret, still⟩ := exists_cell_of_isOpen hopen
    rw [ofReturn_of_open ret still]
    refine ⟨.refl inf, opens_newCell inf', fun times reads f' g' hf hg now now' here n => ?_⟩
    obtain ⟨left, right⟩ := reads now now' here
    have last : inf'.settled.size < (Inference.newCell inf').2.settled.size :=
      Nat.lt_of_lt_of_eq (Nat.lt_succ_self _) (size_newCell inf').symm
    rw [returnType_of_open (hf.trans ret) ((kept left cell (.here ret)).trans still),
      returnType_of_open hg (right.fresh (Nat.le_refl _) last)]
    exact .of_agreeOn n .unknown
  | false =>
    obtain ⟨after, value⟩ := Pairing.ofReturn_of_found unknown (.refl inf') hopen
    obtain ⟨opened, opened', alike⟩ := hs inf' inf inf' beside
    rw [after]
    refine ⟨opened, opened', fun times reads f' g' hf hg now now' here n => ?_⟩
    rw [(value g' hg now').2, Pairing.returnType_congr hf, (kept (reads now now' here).1).returnType_eq]
    exact alike times reads now now' here n

section

variable (solved : ∀ cell, σ.Defers cell → cells cell)
include solved

private theorem alike_ofVar {times : Inference → Inference → Prop}
    (agree : ∀ now now', times now now' → ∀ cell, cells cell →
      now'.isSettled cell = now.isSettled cell) (v : TypeVar) :
    Ty.Alike times (Substitution.ofVar σ unsolvedUnknown v)
      (Substitution.ofVar σ unsolvedUnknown v) := by
  unfold Substitution.ofVar
  split
  · exact .var v
  · split
    · rename_i t found
      obtain ⟨e, here, ht⟩ := Solution.exists_entry found
      exact .of_agreeOn fun now now' later cell hc =>
        agree now now' later cell (solved cell ⟨e, here, t, ht, hc⟩)
    · split
      · exact .unknown
      · exact .var v

private theorem alongside_var (n : Nat) (v : TypeVar) :
    CopiesAlike base cells (Substitution.ofTyAt classes σ unsolvedUnknown n (.var v))
      (Substitution.ofTyAt classes σ unsolvedUnknown n (.var v)) := by
  cases n with
  | zero => exact Alongside.pure fun times _ => .var v
  | succ n => exact Alongside.pure fun times agree => alike_ofVar solved agree v

/-- What is substituted in a type at two times reads alike if the cells of the type and of the
solution are known alike. -/
theorem alongside_ofTyAt (n : Nat) {t : Ty} (known : ∀ cell, t.Defers cell → cells cell) :
    CopiesAlike base cells (Substitution.ofTyAt classes σ unsolvedUnknown n t)
      (Substitution.ofTyAt classes σ unsolvedUnknown n t) := by
  induction n generalizing t with
  | zero => exact .itself known
  | succ n ih =>
    have function {f : FunctionTy} (known : ∀ cell, (Ty.function f).Defers cell → cells cell) :
        Alongside base cells FunctionTy.Alike
          (Substitution.ofFunction (Substitution.ofTyAt classes σ unsolvedUnknown n) f)
          (Substitution.ofFunction (Substitution.ofTyAt classes σ unsolvedUnknown n) f) := by
      refine .function (fun p hp t ht => ih fun cell hc => known cell (.param hp ht hc)) ?_
      exact alongside_ofReturn (ofTyAt_unknown n) known fun t => ih
    cases t with
    | var v => exact alongside_var solved (n + 1) v
    | cls c =>
      refine .bind (R := fun times => ClassTy.ReadsBy (Ty.Alike times)) ?_
        fun c d => .pure fun times _ h => .cls h
      unfold Substitution.ofClassTy
      cases given : c.args with
      | some as =>
        refine .bind (.arguments fun t ht => ih fun cell hc => known cell (.argument ?_ hc))
          fun as bs => .pure fun times _ alike => ⟨rfl, rfl, rfl, alike⟩
        rwa [ClassTy.argList, given]
      | none =>
        dsimp only
        split
        · refine .pure fun times _ => ⟨rfl, rfl, rfl, ?_⟩
          rw [ClassTy.argList, given]
          exact .nil
        · refine .bind (.mapM fun v _ => .option fun t ht => ?_)
            fun as bs => .pure fun times _ alike => ⟨rfl, rfl, rfl, alike⟩
          cases ht
          exact alongside_var solved n v
    | function f => exact .bind (function known) fun f g => .pure fun times _ h => .function h
    | overloaded fs =>
      refine .bind (.mapM fun f hf => function fun cell hc => known cell (.overload hf hc))
        fun fs gs => .pure fun times _ h => .overloaded h
    | union ts => exact .union fun t ht => ih fun cell hc => known cell (.alternative ht hc)
    | unknown | any | noneObject | module => exact .itself known

end

/-! ## Types into which nothing is put -/

/-- The solution has nothing to put into the type: no variable that it replaces, and no generic class
without arguments whose scope it solves. The alternatives of a union stay apart from the given time
on, so that it is not built anew as something else. -/
inductive Ty.Untouched (classes : ClassTable) (σ : Solution) (unsolvedUnknown : Bool)
    (base : Inference) : Ty → Prop
  | unknown : Ty.Untouched classes σ unsolvedUnknown base .unknown
  | any : Ty.Untouched classes σ unsolvedUnknown base .any
  | noneObject : Ty.Untouched classes σ unsolvedUnknown base .noneObject
  | module (name : String) (table : TableId) :
      Ty.Untouched classes σ unsolvedUnknown base (.module name table)
  | var {v : TypeVar} (kept : Substitution.ofVar σ unsolvedUnknown v = .var v) :
      Ty.Untouched classes σ unsolvedUnknown base (.var v)
  | bare {c : ClassTy} (bare : c.args = none)
      (kept : ((classes.decl c.id).params.isEmpty || !σ.solves (classes.decl c.id).scope) = true) :
      Ty.Untouched classes σ unsolvedUnknown base (.cls c)
  | special {c : ClassTy} {ts : List (Option Ty)} (given : c.args = some ts)
      (args : ∀ t, some t ∈ ts → Ty.Untouched classes σ unsolvedUnknown base t) :
      Ty.Untouched classes σ unsolvedUnknown base (.cls c)
  | function {f : FunctionTy}
      (params : ∀ p ∈ f.params, ∀ t, p.type = some t →
        Ty.Untouched classes σ unsolvedUnknown base t)
      (ret : ∀ t, f.ret = .declared t → Ty.Untouched classes σ unsolvedUnknown base t)
      (found : ∀ cell t, f.ret = .deferred cell (.returns (some t)) →
        Ty.Untouched classes σ unsolvedUnknown base t) :
      Ty.Untouched classes σ unsolvedUnknown base (.function f)
  | overloaded {fs : List FunctionTy}
      (each : ∀ f ∈ fs, Ty.Untouched classes σ unsolvedUnknown base (.function f)) :
      Ty.Untouched classes σ unsolvedUnknown base (.overloaded fs)
  | union {ts : List Ty} (each : ∀ t ∈ ts, Ty.Untouched classes σ unsolvedUnknown base t)
      (built : ∀ now, base.Later now → Fragment.Built now ts) :
      Ty.Untouched classes σ unsolvedUnknown base (.union ts)

theorem mapM_pure {α : Type} (as : List α) : as.mapM (pure : α → StateM Inference α) = pure as := by
  induction as with
  | nil => rfl
  | cons a as ih => rw [List.mapM_cons, ih]; rfl

private theorem ofOption_pure (o : Option Ty) : Substitution.ofOption pure o = pure o := by
  cases o <;> rfl

private theorem ofParam_pure (p : Param) : Substitution.ofParam pure p = pure p := by
  rw [Substitution.ofParam, ofOption_pure]
  obtain ⟨kind, name, type, hasDefault⟩ := p
  rfl

/-- What is known of the return type of the function is not touched either. -/
theorem Ty.Untouched.returnType {f : FunctionTy}
    (h : Ty.Untouched classes σ unsolvedUnknown base (.function f)) (inf : Inference) :
    Ty.Untouched classes σ unsolvedUnknown base (inf.returnType f) := by
  cases h with
  | function params ret found =>
    unfold Inference.returnType
    cases hr : f.ret with
    | declared t => exact ret t hr
    | undeclared => exact .unknown
    | deferred cell outcome =>
      dsimp only
      split
      · cases outcome with
        | raises message => exact .unknown
        | returns o =>
          cases o with
          | none => exact .unknown
          | some t => exact found cell t hr
      · exact .unknown

private theorem alongside_union {ts : List Ty} {sub : Ty → StateM Inference Ty}
    (copied : Alongside base cells (fun times => List.Forall₂ (Ty.Alike times)) (pure ts)
      (ts.mapM sub))
    (built : ∀ now, base.Later now → Fragment.Built now ts) :
    CopiesAlike base cells (pure (.union ts))
      (do
        let us ← ts.mapM sub
        let inf ← get
        pure (Ty.combine inf (us.map some))) := by
  intro inf inf' beside
  obtain ⟨opened, opened', alike⟩ := copied inf inf' beside
  refine ⟨opened, opened', fun times reads => ?_⟩
  let within now now' := times now now' ∨ now = inf ∧ now' = (ts.mapM sub inf').2
  have alternatives := alike within fun now now' here => by
    rcases here with here | ⟨rfl, rfl⟩
    · exact reads now now' here
    · exact ⟨.refl cells now, .opened opened'⟩
  have here : within inf (ts.mapM sub inf').2 := .inr ⟨rfl, rfl⟩
  have given : List.Forall₂ (Option.Rel (Ty.Alike within)) (ts.map some)
      ((ts.mapM sub inf').1.map some) := List.rel_map (fun _ _ h => .some h) alternatives
  have combined := (Ty.Alike.combined here).combine given
  rw [(built inf beside.left).combine_eq] at combined
  exact combined.mono fun now now' here => .inl here

private theorem alongside_view {c : ClassTy} {ts : List (Option Ty)}
    {sub : Ty → StateM Inference Ty}
    (given : c.args = some ts)
    (args : ∀ t, some t ∈ ts → CopiesAlike base cells (pure t) (sub t)) :
    Alongside base cells (fun times => ClassTy.ReadsBy (Ty.Alike times)) (pure c)
      (Substitution.ofClassTy classes σ sub c) := by
  have arguments : Alongside base cells
      (fun times => List.Forall₂ (Option.Rel (Ty.Alike times)))
      (ts.mapM (Substitution.ofOption pure)) (ts.mapM (Substitution.ofOption sub)) :=
    .arguments args
  rw [show Substitution.ofOption pure = pure from funext ofOption_pure, mapM_pure] at arguments
  have viewed : Alongside base cells (fun times => ClassTy.ReadsBy (Ty.Alike times))
      (pure { c with args := some ts }) (Substitution.ofClassTy classes σ sub c) := by
    unfold Substitution.ofClassTy
    rw [given]
    refine Alongside.bind (k := fun as => pure { c with args := some as }) arguments
      fun as bs => .pure fun times _ alike => ?_
    exact ⟨rfl, rfl, rfl, alike⟩
  have whole : { c with args := some ts } = c := by
    obtain ⟨id, isInstance, args, explicit, literal⟩ := c
    cases given
    rfl
  rwa [whole] at viewed

private theorem alongside_function {f : FunctionTy} {sub : Ty → StateM Inference Ty}
    (params : ∀ p ∈ f.params, ∀ t, p.type = some t → CopiesAlike base cells (pure t) (sub t))
    (ret : Alongside base cells Return.Alike (pure f.ret) (Substitution.ofReturn sub f)) :
    Alongside base cells FunctionTy.Alike (pure f) (Substitution.ofFunction sub f) := by
  have whole : (do
      let params ← f.params.mapM (Substitution.ofParam pure)
      let ret ← (pure f.ret : StateM Inference Return)
      pure { f with params := params, ret := ret }) = (pure f : StateM Inference FunctionTy) := by
    rw [show Substitution.ofParam pure = pure from funext ofParam_pure, mapM_pure]
    obtain ⟨name, params, ret, kind, scope⟩ := f
    rfl
  rw [← whole]
  exact .function params ret

/-- What is substituted in a type into which nothing is put reads like the type itself. -/
theorem alongside_untouched (n : Nat) {t : Ty}
    (untouched : Ty.Untouched classes σ unsolvedUnknown base t)
    (known : ∀ cell, t.Defers cell → cells cell) :
    CopiesAlike base cells (pure t) (Substitution.ofTyAt classes σ unsolvedUnknown n t) := by
  induction n generalizing t with
  | zero => exact .itself known
  | succ n ih =>
    have function {f : FunctionTy}
        (untouched : Ty.Untouched classes σ unsolvedUnknown base (.function f))
        (known : ∀ cell, (Ty.function f).Defers cell → cells cell) :
        Alongside base cells FunctionTy.Alike (pure f)
          (Substitution.ofFunction (Substitution.ofTyAt classes σ unsolvedUnknown n) f) := by
      refine alongside_function (fun p hp t ht => ?_) ?_
      · cases untouched with
        | function params => exact ih (params p hp t ht) fun cell hc => known cell (.param hp ht hc)
      · exact alongside_return (ofTyAt_unknown n) known fun inf =>
          ih (untouched.returnType inf) fun cell hc => known cell hc.of_returnType
    cases untouched with
    | unknown | any | noneObject | module => exact .itself known
    | var kept =>
      change CopiesAlike base cells (pure _) (pure (Substitution.ofVar σ unsolvedUnknown _))
      rw [kept]
      exact .pure fun times _ => .var _
    | @bare c bare kept =>
      have unchanged : Substitution.ofClassTy classes σ
          (Substitution.ofTyAt classes σ unsolvedUnknown n) c = pure c := by
        unfold Substitution.ofClassTy
        rw [bare]
        dsimp only
        rw [if_pos kept]
      change CopiesAlike base cells (pure _)
        (Substitution.ofClassTy classes σ (Substitution.ofTyAt classes σ unsolvedUnknown n) c >>= _)
      rw [unchanged]
      exact .itself known
    | @special c ts given args =>
      have viewed : Alongside base cells (fun times => ClassTy.ReadsBy (Ty.Alike times)) (pure c)
          (Substitution.ofClassTy classes σ (Substitution.ofTyAt classes σ unsolvedUnknown n) c) := by
        refine alongside_view given fun t ht => ih (args t ht) fun cell hc => known cell ?_
        exact .argument (by rwa [ClassTy.argList, given]) hc
      exact .bind (k := fun c => pure (Ty.cls c)) viewed fun c d => .pure fun times _ h => .cls h
    | @function f params ret found =>
      exact Alongside.bind (k := fun f => pure (Ty.function f))
        (function (.function params ret found) known) fun f g => .pure fun times _ h => .function h
    | @overloaded fs each =>
      have copied := Alongside.mapM fun f hf =>
        function (each f hf) fun cell hc => known cell (.overload hf hc)
      rw [mapM_pure] at copied
      exact Alongside.bind (k := fun fs => pure (Ty.overloaded fs)) copied
        fun fs gs => .pure fun times _ h => .overloaded h
    | @union ts each built =>
      have copied := Alongside.mapM fun t ht =>
        ih (each t ht) fun cell hc => known cell (.alternative ht hc)
      rw [mapM_pure] at copied
      exact alongside_union copied built

end

end Conformance
