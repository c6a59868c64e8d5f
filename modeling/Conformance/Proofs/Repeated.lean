import Conformance.Proofs.History
import Conformance.Proofs.Sample
import Conformance.Proofs.TwinJudges

/-!
# Repeated checks

What a session was asked before matters to a check of two types only through return types, and only
through those of functions that the check may come across. If none of these was found out in between,
the check ends as it would have ended before: with the same answer or with the same failure, and with
the same solution, up to the numbers of the cells that were handed out since.
-/

namespace Conformance

open Check

/-- The types that a check may come across which starts from some types: these, what they are put
together from, and what is written where their classes and modules are declared. -/
inductive World.Reaches (w : World) (starts : Ty → Prop) : Ty → Prop
  | start {t : Ty} (h : starts t) : w.Reaches starts t
  | part {t u : Ty} (whole : w.Reaches starts t) (h : u.Part t) : w.Reaches starts u
  | decl {c : ClassTy} {t : Ty} (here : w.Reaches starts (.cls c))
      (h : (w.classes.decl c.id).Declares t) : w.Reaches starts t
  | module {name : String} {table : TableId} {t : Ty} (here : w.Reaches starts (.module name table))
      (h : (w.moduleMembers table).Declares t) : w.Reaches starts t
  | object : w.Reaches starts (Builtin.instanceOf Builtin.object)
  | typedDict : w.Reaches starts (.cls w.typedDict)

namespace Pairing

variable {m : Pairing} {w : World} {starts : Ty → Prop}

theorem Shares.fixes (h : m.Shares (w.Reaches starts))
    (classes : ∀ id, m.classes id → ∃ c : ClassTy, c.id = id ∧ w.Reaches starts (.cls c))
    (modules : ∀ table, m.modules table → ∃ name, w.Reaches starts (.module name table))
    (self : ∀ c : ClassTy, m.classes c.id →
      TypeVar.Alike m (w.classes.selfVar c) (w.classes.selfVar c)) :
    m.Fixes w where
  decl {id t} known here := by
    obtain ⟨c, rfl, reached⟩ := classes id known
    exact h.twin (.decl reached here)
  module {table t} known here := by
    obtain ⟨name, reached⟩ := modules table known
    exact h.twin (.module reached here)
  self {c} known := self c known
  object := h.twin .object
  typedDict := h.twin .typedDict

end Pairing

namespace Session

/-- The types that a check of two types starts from: the two, what the caller has found for type
variables, and the comparisons in progress. -/
inductive Starts (s : Session) (request : Request) (dest source : Option Ty) : Ty → Prop
  | dest {t : Ty} (h : dest = some t) : s.Starts request dest source t
  | source {t : Ty} (h : source = some t) : s.Starts request dest source t
  | solution {σ : Solution} {key : String} {t : Ty} (h : request.solution = some σ)
      (here : (key, some t) ∈ σ.entries) : s.Starts request dest source t
  | candidate {p : Pending} (here : p ∈ s.pending ++ request.lent) :
      s.Starts request dest source (.cls p.candidate)
  | protocol {p : Pending} (here : p ∈ s.pending ++ request.lent) :
      s.Starts request dest source (.cls p.protocol)

/-- The check may come across a function whose return type is kept in the cell. -/
def ComesAcross (s : Session) (request : Request) (dest source : Option Ty)
    (cell : CellId) : Prop :=
  ∃ f outcome, s.world.Reaches (s.Starts request dest source) (.function f) ∧
    f.ret = .deferred cell outcome

/-- A check in a session, and the same check in the session as it is later. They have those cells in
common of which the same is known. -/
def pairing (s t : Session) (request : Request) (dest source : Option Ty) : Pairing where
  left := s.inference
  right := t.inference
  common cell := t.inference.isSettled cell = s.inference.isSettled cell
  classes id := ∃ c : ClassTy, c.id = id ∧
    s.world.Reaches (s.Starts request dest source) (.cls c)
  modules table := ∃ name, s.world.Reaches (s.Starts request dest source) (.module name table)
  loose := False
  naming := .none

variable {s t : Session} {request : Request} {dest source : Option Ty}

section

variable (onward : s.Onward t)
  (handed : ∀ cell, s.ComesAcross request dest source cell → cell < s.inference.settled.size)
  (unfound : ∀ cell, s.ComesAcross request dest source cell →
    t.inference.isSettled cell = true → s.inference.isSettled cell = true)
include onward handed unfound

private theorem shares_pairing :
    (s.pairing t request dest source).Shares (s.world.Reaches (s.Starts request dest source)) where
  part := .part
  cls reached := ⟨_, rfl, reached⟩
  module reached := ⟨_, reached⟩
  cell {f cell outcome} reached ret := by
    have across : s.ComesAcross request dest source cell := ⟨f, outcome, reached, ret⟩
    have given := handed cell across
    refine .inl ⟨?_, given, Nat.lt_of_lt_of_le given onward.later.size, rfl⟩
    exact Bool.eq_iff_iff.2 ⟨unfound cell across, onward.later.settled⟩
  var _ := .refl rfl _
  scope _ := rfl

private theorem meets_entering :
    (s.pairing t request dest source).Meets (Frame.entering s request)
      (Frame.entering t request) := by
  apply (shares_pairing onward handed unfound).meets
  · exact .start _ fun cell known => known
  · exact onward.pending
  · rfl
  · rfl
  · exact fun p here => ⟨.start (.candidate here), .start (.protocol here)⟩
  · exact fun σ _ => Pairing.keeps_of_none rfl σ
  · exact fun σ h key t here => .start (.solution h here)

end

/-- In every session and whatever it was asked, a check of two types ends as it would have ended
before, with the same answer or the same failure and with the same solution, if no return type was
found out in between of a function that the check may come across. Which types are one object must not
depend on the numbers of the cells that were handed out in between. -/
theorem outcome_unless_found_out (history : s.AskedOften t) (request : Request) (depth : Int)
    (mode : Mode) (dest source : Option Ty)
    (handed : ∀ cell, s.ComesAcross request dest source cell → cell < s.inference.settled.size)
    (unfound : ∀ cell, s.ComesAcross request dest source cell →
      t.inference.isSettled cell = true → s.inference.isSettled cell = true)
    (identified : (s.pairing t request dest source).Identifies s.world s.world) :
    let check := fun w => (judgeAt w depth).assign mode dest source
    let before := ((Session.run request check).run s).1
    let after := ((Session.run request check).run t).1
    after.answer = before.answer ∧
      Option.Rel (Solution.Twin (s.pairing t request dest source)) before.solution
        after.solution := by
  intro check before after
  have onward := history.onward
  have shares := shares_pairing onward handed unfound
  have fixes := shares.fixes (fun _ known => known) (fun _ known => known) fun _ _ => .refl rfl _
  have respects := Pairing.respects_judge fixes identified (levelsAt depth)
  have itself {o : Option Ty} (h : ∀ u, o = some u → s.Starts request dest source u) :
      Option.Rel (Ty.Twin (s.pairing t request dest source)) o o :=
    rel_option_self fun u hu => shares.twin (.start (h u hu))
  obtain ⟨ends, left⟩ := respects.assign mode (itself fun _ => .dest) (itself fun _ => .source)
    _ _ (meets_entering onward handed unfound)
  have same : exec (check t.world) (Frame.entering t request) =
      exec (check s.world) (Frame.entering t request) := by
    rw [onward.world]
  constructor
  · change (exec (check t.world) (Frame.entering t request)).1 = _
    rw [same]
    exact ends.eq
  · change Option.Rel _ _ (exec (check t.world) (Frame.entering t request)).2.solving
    rw [same]
    exact left.solving

end Session

private theorem Sample.part_function {ret : Return} {u : Ty}
    (h : u.Part (.function (function none [] ret))) :
    ret = .declared u ∨ ∃ cell, ret = .deferred cell (.returns (some u)) := by
  cases h with
  | param here typed =>
    rw [List.mem_singleton.1 here] at typed
    cases typed
  | declared ret => exact .inl ret
  | found ret => exact .inr ⟨_, ret⟩

private theorem Sample.cell_of_comesAcross {s : Session} (world : s.world = ofDecls [object])
    (idle : s.pending = []) {dest source : FunctionTy}
    (parts : ∀ f, f = dest ∨ f = source → ∀ u : Ty, u.Part (.function f) → ∃ id, u = instanceOf id)
    {cell : CellId}
    (h : s.ComesAcross .plain (some (.function dest)) (some (.function source)) cell) :
    ∃ f outcome, (f = dest ∨ f = source) ∧ f.ret = .deferred cell outcome := by
  obtain ⟨f, outcome, reached, ret⟩ := h
  have simple (id : ClassId) : Simple ((ofDecls [object]).classes.decl id) :=
    simple_decl (by simpa using simple_object) id
  have bare (id : ClassId) : ((ofDecls [object]).classes.decl id).members.entries = [] := by
    rw [decl_ofDecls]
    rcases id with _ | id <;> rfl
  have shape : ∀ u, s.world.Reaches
      (s.Starts .plain (some (.function dest)) (some (.function source))) u →
      (∃ f, u = .function f ∧ (f = dest ∨ f = source)) ∨ ∃ c : ClassTy, u = .cls c ∧ c.args = none := by
    rw [world]
    intro u reached
    induction reached with
    | start h =>
      cases h with
      | dest h => exact .inl ⟨dest, (Option.some.inj h).symm, .inl rfl⟩
      | source h => exact .inl ⟨source, (Option.some.inj h).symm, .inr rfl⟩
      | solution h => cases h
      | candidate here =>
        rw [idle] at here
        cases here
      | protocol here =>
        rw [idle] at here
        cases here
    | part _ part ih =>
      rcases ih with ⟨f, rfl, hf⟩ | ⟨c, rfl, none⟩
      · obtain ⟨id, rfl⟩ := parts f hf _ part
        exact .inr ⟨_, rfl, rfl⟩
      · cases part with
        | argument here =>
          rw [ClassTy.argList, none] at here
          cases here
    | @decl c _ _ here _ =>
      cases here with
      | ancestor here =>
        obtain ⟨id, rfl⟩ := (simple c.id).mro _ here
        exact .inr ⟨_, rfl, rfl⟩
      | member here =>
        obtain ⟨here, -⟩ := here
        rw [bare] at here
        cases here
      | param here =>
        rw [(simple c.id).params] at here
        cases here
      | metaclass here =>
        rw [(simple c.id).metaclass] at here
        cases here
      | accessor here =>
        rw [(simple c.id).accessors] at here
        cases here
    | module _ here _ =>
      obtain ⟨here, -⟩ := here
      cases here
    | object => exact .inr ⟨_, rfl, rfl⟩
    | typedDict => exact .inr ⟨_, rfl, rfl⟩
  rcases shape _ reached with ⟨g, same, hg⟩ | ⟨c, same, -⟩
  · cases same
    exact ⟨f, outcome, hg, ret⟩
  · cases same

/-- A function is compared with another before and after the return type of a third one is found
out. -/
theorem same_answer_after_another_was_found :
    let dest := Sample.function none [] (.declared (Sample.instanceOf 0))
    let source := Sample.deferred 0 (Sample.instanceOf 0)
    let other := Ty.function (Sample.deferred 1 (Sample.instanceOf 0))
    let check := fun w => (judgeAt w 0).assign .default (some (.function dest)) (some (.function source))
    let s : Session := { Session.ofDecls #[Sample.object] with inference := ⟨#[false, false], []⟩ }
    let t := ((Session.run .plain fun _ => demandAll other).run s).2
    s.inference.isSettled 1 = false ∧ t.inference.isSettled 1 = true ∧
      ((Session.run .plain check).run t).1.answer = ((Session.run .plain check).run s).1.answer := by
  intro dest source other check s t
  have asked : s.AskedOften t := Relation.ReflTransGen.single (.infer .plain other s)
  have only {cell : CellId}
      (h : s.ComesAcross .plain (some (.function dest)) (some (.function source)) cell) :
      cell = 0 := by
    have parts (f : FunctionTy) (hf : f = dest ∨ f = source) (u : Ty) (part : u.Part (.function f)) :
        ∃ id, u = Sample.instanceOf id := by
      rcases hf with rfl | rfl
      · rcases Sample.part_function part with ret | ⟨_, ret⟩
        · exact ⟨0, (Return.declared.inj ret).symm⟩
        · cases ret
      · rcases Sample.part_function part with ret | ⟨_, ret⟩
        · cases ret
        · cases ret
          exact ⟨0, rfl⟩
    obtain ⟨f, outcome, hf, ret⟩ := @Sample.cell_of_comesAcross s rfl rfl dest source parts cell h
    rcases hf with rfl | rfl
    · cases ret
    · cases ret
      rfl
  refine ⟨by decide, by decide, ?_⟩
  refine (Session.outcome_unless_found_out asked .plain 0 .default _ _ (fun cell h => ?_)
    (fun cell h => ?_) fun _ _ => .inl rfl).1
  · rw [only h]
    decide
  · rw [only h]
    decide

end Conformance
