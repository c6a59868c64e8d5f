import Conformance.Proofs.Operation
import Conformance.Proofs.Pairs
import Conformance.Proofs.Sample

/-!
# Further members

A class may have more members than are asked for. What it declares under a name that no protocol
declares, and that is not the name of the call method, no comparison ever looks at: neither the
answers nor the explanations, the solutions or the lines of the trace are other ones for it, wherever
the class occurs.
-/

namespace Conformance

open Check

/-! ## Names that nothing asks for -/

/-- No comparison looks up the name on account of the class: the class is no protocol, and no
protocol declares the name. -/
structure ClassTable.Unasked (t : ClassTable) (c : ClassTy) (name : String) : Prop where
  ordinary : t.isProtocol c = false
  undeclared : ∀ id, (t.decl id).flags.protocol = true → name ∉ (t.decl id).members.names
  uncalled : name ≠ "__call__"

namespace MemberTable

/-- A table with a further member between two parts of another table. -/
def between (before : List (String × Member)) (name : String) (m : Member)
    (after : List (String × Member)) : MemberTable :=
  ⟨before ++ (name, m) :: after⟩

private theorem find?_between {table : MemberTable} {before after : List (String × Member)}
    (split : table.entries = before ++ after) (m : Member) {name other : String}
    (h : other ≠ name) : (between before name m after).find? other = table.find? other := by
  have apart : (other == name) = false := beq_eq_false_iff_ne.2 h
  simp only [between, find?, split, List.lookup_append, List.lookup_cons, apart]

end MemberTable

section

variable {w : World} {c : ClassTy} {name : String} {before after : List (String × Member)}
  (unasked : w.classes.Unasked c name)
  (split : (w.classes.decl c.id).members.entries = before ++ after) (m : Member)
include unasked split

private theorem alikeOn_between :
    w.AlikeOn (· ≠ name) (w.withMembers c.id (.between before name m after)) :=
  World.alikeOn_withMembers (fun _ => MemberTable.find?_between split m) unasked.uncalled.symm

private theorem all_between (asObject : Bool) (protocol : ClassTy) :
    Requirement.all (w.withMembers c.id (.between before name m after)).classes asObject protocol =
      Requirement.all w.classes asObject protocol := by
  refine (alikeOn_between unasked split m).classes.all asObject protocol fun owner ho => ?_
  have isProtocol : w.classes.isProtocol owner = true := (List.mem_filter.1 ho).2
  have other : owner.id ≠ c.id := by
    intro same
    rw [ClassTable.isProtocol, same] at isProtocol
    exact Bool.false_ne_true (unasked.ordinary.symm.trans isProtocol)
  rw [decl_withMembers w _ other]

private theorem ne_of_mem_all (asObject : Bool) (protocol : ClassTy) : ∀ r ∈ Requirement.all
      (w.withMembers c.id (.between before name m after)).classes asObject protocol,
      r.name ≠ name := by
  intro r hr same
  rw [all_between unasked split m] at hr
  obtain ⟨isProtocol, declared⟩ := Requirement.declared_of_mem_all hr
  have named : r.name ∈ (w.classes.decl r.owner.id).members.names :=
    List.mem_map_of_mem (f := Prod.fst) declared
  exact unasked.undeclared r.owner.id (List.mem_filter.1 isProtocol).2 (same ▸ named)

private theorem matchMembers_between (j : Judge) (mode : Mode) (asObject : Bool)
    (protocol candidate : ClassTy) :
    matchMembers (w.withMembers c.id (.between before name m after)) j mode asObject protocol
        candidate = matchMembers w j mode asObject protocol candidate :=
  (alikeOn_between unasked split m).matchMembers_eq_of_asked j mode (.inr rfl)
    (all_between unasked split m _ _) (ne_of_mem_all unasked split m _ _)

private theorem matchModule_between (j : Judge) (mode : Mode) (protocol : ClassTy)
    (table : TableId) :
    matchModule (w.withMembers c.id (.between before name m after)) j mode protocol table =
      matchModule w j mode protocol table :=
  (alikeOn_between unasked split m).matchModule_eq_of_asked j mode (all_between unasked split m _ _)
    table

private theorem judge_between (n : Nat) :
    judge (w.withMembers c.id (.between before name m after)) n = judge w n := by
  have alike := alikeOn_between unasked split m
  induction n with
  | zero => exact alike.accepting
  | succ n ih =>
    rw [judge_succ, judge_succ, ih]
    simp only [judgeStep, matchClass, alike.assignStep_eq rfl, alike.traceClass, alike.traceModule,
      matchMembers_between unasked split m, matchModule_between unasked split m]

end

/-! ## Sessions -/

namespace Session

/-- The session in which a class declares other members. -/
def withMembers (s : Session) (c : ClassTy) (members : MemberTable) : Session :=
  { s with catalog := s.catalog.modify c fun d => { d with members := members } }

private theorem nameOf_withMembers (s : Session) (c : ClassTy) (members : MemberTable) :
    (s.withMembers c members).classes.nameOf = s.classes.nameOf := by
  funext id
  change ((s.classes.modify c.id _).decl id).name = (s.classes.decl id).name
  rw [ClassTable.decl_modify]
  split <;> rfl

private theorem text_withMembers (s : Session) (c : ClassTy) (members : MemberTable) (t : Ty) :
    (s.withMembers c members).text t = s.text t := by
  rw [text, text, nameOf_withMembers]
  rfl

private theorem optionText_withMembers (s : Session) (c : ClassTy) (members : MemberTable)
    (t : Option Ty) : (s.withMembers c members).optionText t = s.optionText t := by
  rw [optionText, optionText, nameOf_withMembers]
  rfl

/-- The computation yields the same where a class declares other members, and leaves the classes as
they are. -/
structure PassesBy {α : Type} (c : ClassTy) (members : MemberTable) (act : SessionM α)
    (s : Session) : Prop where
  catalog : (act.run s).2.catalog = s.catalog
  run : act.run (s.withMembers c members) = ((act.run s).1, (act.run s).2.withMembers c members)

section

variable {α β : Type} {c : ClassTy} {members : MemberTable} {s : Session}

theorem PassesBy.bind {act : SessionM α} {k : α → SessionM β} (h : PassesBy c members act s)
    (hk : ∀ t : Session, t.catalog = s.catalog → ∀ a, PassesBy c members (k a) t) :
    PassesBy c members (act >>= k) s := by
  have next := hk _ h.catalog (act.run s).1
  constructor
  · rw [StateT.run_bind]
    exact next.catalog.trans h.catalog
  · rw [StateT.run_bind, StateT.run_bind, h.run]
    exact next.run

private theorem passesBy_pure (a : α) : PassesBy c members (pure a) s := ⟨rfl, rfl⟩

private theorem passesBy_run {check : World → Check α}
    (h : check (s.withMembers c members).world = check s.world) (request : Request) :
    PassesBy c members (Session.run request check) s := by
  refine ⟨rfl, ?_⟩
  rw [Frame.run_check, h]
  rfl

private theorem reportFailure_withMembers {l : Location} {code : Code} {wording : Wording}
    {values : Session → List (String × String)}
    (hv : ∀ t : Session, values (t.withMembers c members) = values t) (t : Session)
    (why : Option Explanation) :
    ((reportFailure l code wording values why).run (t.withMembers c members)).2 =
      ((reportFailure l code wording values why).run t).2.withMembers c members := by
  unfold reportFailure
  dsimp only [modify, modifyGet, MonadStateOf.modifyGet, StateT.modifyGet, StateT.run]
  rw [hv]
  rfl

private theorem passesBy_checkOrReport {l : Location} {code : Code} {wording : Wording}
    {values : Session → List (String × String)} {check : World → Check Bool}
    (hv : ∀ t : Session, values (t.withMembers c members) = values t)
    (h : check (s.withMembers c members).world = check s.world) :
    PassesBy c members (ExceptT.run (checkOrReport l code wording values check)) s := by
  have entering : Frame.entering (s.withMembers c members) .plain = Frame.entering s .plain := rfl
  have runs : ∀ t : Session, (ExceptT.run (checkOrReport l code wording values check)).run t = _ :=
    fun t => run_bind _ _ t
  constructor
  · rw [runs, run_lift, Frame.run_check]
    rcases exec (check s.world) (Frame.entering s .plain) with ⟨_ | _ | _, t⟩ <;> rfl
  · rw [runs, runs, run_lift, run_lift, Frame.run_check, Frame.run_check, h, entering]
    rcases exec (check s.world) (Frame.entering s .plain) with ⟨_ | _ | _, t⟩
    · rfl
    · exact congrArg (Prod.mk _) (reportFailure_withMembers hv (Frame.leaving s t) t.notes)
    · rfl

end

end Session

/-- What a session may be asked about two types. -/
inductive Question
  | assign (request : Request) (depth : Int) (mode : Mode) (dest source : Option Ty)
  | checkAssignment (declared assigned : Option Ty) (l : Location)
  | checkProtocol (protocol : ClassTy) (candidate : Option Ty) (l : Location)

/-- What comes back for a question. A check that is reported only says whether it failed; its lines
go to the report of the session. -/
inductive Reply
  | checked (c : Checked Bool)
  | reported (r : Except InferenceError Bool)

namespace Question

def ask : Question → SessionM Reply
  | assign request depth mode dest source => do
    let c ← Session.run request fun w => (judgeAt w depth).assign mode dest source
    pure (.checked c)
  | checkAssignment declared assigned l => do
    let r ← ExceptT.run (Session.checkAssignment declared assigned l)
    pure (.reported r)
  | checkProtocol protocol candidate l => do
    let r ← ExceptT.run (Session.checkProtocol protocol candidate l)
    pure (.reported r)

/-- The replies to questions that are asked one after another. -/
def askAll (qs : List Question) : SessionM (List Reply) := qs.mapM ask

section

variable {s : Session} {c : ClassTy} {name : String} {before after : List (String × Member)}
  (unasked : s.classes.Unasked c name)
  (split : (s.classes.decl c.id).members.entries = before ++ after) (m : Member)
include unasked split

private theorem judgeAt_between (depth : Int) :
    judgeAt (s.withMembers c (.between before name m after)).world depth = judgeAt s.world depth :=
  judge_between (w := s.world) unasked split m _

private theorem passesBy_ask (q : Question) :
    Session.PassesBy c (.between before name m after) q.ask s := by
  have judges := judgeAt_between unasked split m
  have assignment : ∀ declared assigned l, Session.PassesBy c (.between before name m after)
      (ExceptT.run (Session.checkAssignment declared assigned l)) s := by
    intro declared assigned l
    refine Session.passesBy_checkOrReport (fun t => ?_) ?_
    · simp only [Session.optionText_withMembers]
    · simp only [judges]
  cases q with
  | assign request depth mode dest source =>
    refine (Session.passesBy_run ?_ request).bind fun _ _ _ => Session.passesBy_pure _
    simp only [judges]
  | checkAssignment declared assigned l =>
    exact (assignment declared assigned l).bind fun _ _ _ => Session.passesBy_pure _
  | checkProtocol protocol candidate l =>
    refine Session.PassesBy.bind ?_ fun _ _ _ => Session.passesBy_pure _
    unfold Session.checkProtocol
    split
    · refine Session.passesBy_checkOrReport (fun t => ?_) ?_
      · simp only [Session.text_withMembers, Session.nameOf_withMembers]
      · simp only [judges]
    · refine Session.passesBy_checkOrReport (fun t => ?_) ?_
      · simp only [Session.nameOf_withMembers]
      · simp only [judges]
    · exact assignment _ _ l

private theorem passesBy_askAll (qs : List Question) :
    Session.PassesBy c (.between before name m after) (askAll qs) s := by
  induction qs generalizing s with
  | nil => exact Session.passesBy_pure []
  | cons q qs ih =>
    rw [askAll, List.mapM_cons]
    refine (passesBy_ask unasked split m q).bind fun t same reply => ?_
    have others : Session.PassesBy c (.between before name m after) (askAll qs) t := by
      refine ih ?_ ?_
      · rw [Session.classes, same]
        exact unasked
      · rw [Session.classes, same]
        exact split
    exact others.bind fun _ _ _ => Session.passesBy_pure _

end

end Question

/-- A class that is no protocol may declare a further member, at any place, under a name that no
protocol declares and that is not that of the call method: whatever a session is asked about any
types, the verdicts, the failures, the explanations and the solutions are the same, and so are the
report, the trace and everything else that the session keeps, apart from the member. -/
theorem further_member_changes_nothing (s : Session) (c : ClassTy) (name : String) (m : Member)
    {before after : List (String × Member)}
    (split : (s.classes.decl c.id).members.entries = before ++ after)
    (ordinary : s.classes.isProtocol c = false)
    (undeclared : ∀ id, (s.classes.decl id).flags.protocol = true →
      name ∉ (s.classes.decl id).members.names)
    (uncalled : name ≠ "__call__") (qs : List Question) :
    let widened := s.withMembers c (.between before name m after)
    let asked := (Question.askAll qs).run s
    (Question.askAll qs).run widened =
      (asked.1, asked.2.withMembers c (.between before name m after)) :=
  (Question.passesBy_askAll ⟨ordinary, undeclared, uncalled⟩ split m qs).run

private theorem Session.run_addMember (s : Session) (c : ClassTy) (name : String) (m : Member) :
    (Session.addMember c name m).run s =
      if ((s.classes.decl c.id).members.find? name).isSome then (false, s)
      else (true, s.withMembers c (.between (s.classes.decl c.id).members.entries name m [])) := by
  have adds : s.catalog.addMember? c name m =
      if ((s.classes.decl c.id).members.find? name).isSome then none
      else some (s.catalog.modify c fun d =>
        { d with members := .between (s.classes.decl c.id).members.entries name m [] }) := by
    unfold Catalog.addMember? MemberTable.insert?
    change Option.map _ (if ((s.classes.decl c.id).members.find? name).isSome then _ else _) = _
    split <;> rfl
  have runs : ∀ added, s.catalog.addMember? c name m = added →
      (Session.addMember c name m).run s =
        added.elim (false, s) fun cat => (true, { s with catalog := cat }) := by
    intro added h
    unfold Session.addMember Session.declaring
    simp only [StateT.run_bind, StateT.run_get, pure_bind, bind_pure_comp, h]
    cases added <;> rfl
  rw [runs _ adds]
  by_cases taken : ((s.classes.decl c.id).members.find? name).isSome
  · rw [if_pos taken, if_pos taken]
    rfl
  · rw [if_neg taken, if_neg taken]
    rfl

/-- Asking and adding such a member may change places. -/
theorem asking_commutes_with_adding {s : Session} {c : ClassTy} {name : String}
    (unasked : s.classes.Unasked c name) (m : Member) (qs : List Question) :
    (Question.askAll qs).run ((Session.addMember c name m).run s).2 =
      (((Question.askAll qs).run s).1,
        ((Session.addMember c name m).run ((Question.askAll qs).run s).2).2) := by
  have passes := Question.passesBy_askAll unasked (List.append_nil _).symm m qs
  have same : ((Question.askAll qs).run s).2.classes = s.classes :=
    congrArg Catalog.classes passes.catalog
  rw [Session.run_addMember, Session.run_addMember, same]
  split
  · rfl
  · exact passes.run

namespace Sample

/-- A protocol with one member, a class that has it, and a class that does not. -/
def bearers : Session :=
  Session.ofDecls #[object, protocolOf "P" [final "x" (instanceOf 0)],
    classOf "C" [final "x" (instanceOf 0)], classOf "D" []]

def bearerQuestions : List Question :=
  [.checkAssignment (some (instanceOf 1)) (some (instanceOf 2)) .start,
    .checkProtocol (.ofId 1) (some (instanceOf 3)) .start]

end Sample

-- of the two classes one satisfies the protocol
example : (((Question.askAll Sample.bearerQuestions).run Sample.bearers).1.map fun
    | .checked c => c.answer.toOption
    | .reported r => r.toOption) = [some true, some false] := by
  decide +kernel

/-- A further member in front of the one that is asked for. -/
theorem bearer_with_further_member :
    let s := Sample.bearers
    let asked := (Question.askAll Sample.bearerQuestions).run s
    let y := Sample.field "y" (Sample.instanceOf 3)
    let members := MemberTable.between [] y.1 y.2 [Sample.final "x" (Sample.instanceOf 0)]
    (Question.askAll Sample.bearerQuestions).run (s.withMembers (.ofId 2) members) =
      (asked.1, asked.2.withMembers (.ofId 2) members) := by
  intro s asked y members
  have undeclared : ∀ id, (s.classes.decl id).flags.protocol = true →
      "y" ∉ (s.classes.decl id).members.names := by
    intro id isProtocol
    match id with
    | 0 | 2 | 3 => cases isProtocol
    | 1 => decide
    | n + 4 => cases isProtocol
  exact further_member_changes_nothing s (.ofId 2) "y" y.2 rfl rfl undeclared (by decide)
    Sample.bearerQuestions

end Conformance
