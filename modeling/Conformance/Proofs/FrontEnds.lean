import Conformance.Proofs.Sample
import Conformance.Proofs.Uncut

/-!
# Checking by name and by members

A session checks a class against a protocol in two ways: as an assignment, where the linearization
of the class comes first, and by the members that the protocol asks for. Where the linearization
leads to no view of the protocol whose type arguments would have to be compared, the two agree, as
far as the assignment, which stands one level further down, is not cut.
-/

namespace Conformance

open Check

def World.derivation (w : World) (dest source : ClassTy) : Derivation :=
  findAncestor dest (.resolved source.toClassObject :: (w.classes.decl source.id).mro)

/-- The linearization of the candidate leads to no type arguments to be compared with those of the
protocol: it has no view of the protocol, or the protocol is written without type arguments. -/
def World.ByMembers (w : World) (protocol candidate : ClassTy) : Prop :=
  protocol.args = none ∨ ∀ ancestor, w.derivation protocol candidate ≠ .derived ancestor

/-- Between the two states of the session the last level was never passed. -/
def Session.UncutUntil (s t : Session) : Prop :=
  ∃ new, t.history = s.history ++ new ∧ Event.allUncut new = true

private theorem Session.uncutUntil_of_start {s t : Session} (h : s.history = [])
    (hu : Event.allUncut t.history = true) : s.UncutUntil t :=
  ⟨t.history, by rw [h, List.nil_append], hu⟩

/-! ## Comparisons -/

private theorem findAncestor_toInstance (dest : ClassTy) (lineage : List Ancestor) :
    findAncestor dest.toInstance lineage = findAncestor dest lineage := by
  induction lineage with
  | nil => rfl
  | cons a rest ih =>
    cases a with
    | unresolved => rfl
    | resolved c =>
      rw [findAncestor, findAncestor, ih]
      rfl

section

variable {w : World} {j : Judge}

private theorem assignStep_cls (dest source : ClassTy) :
    assignStep w j .default (some (.cls dest)) (some (.cls source)) = pure true ∨
      assignStep w j .default (some (.cls dest)) (some (.cls source)) =
        assignToClass w j .default dest (.cls source) :=
  (assignStep_cases _ _).imp_left And.right

private theorem assignToClass_protocol {protocol candidate : ClassTy}
    (hp : w.classes.isProtocol protocol = true) (literal : protocol.literal = none)
    (hc : candidate.isInstance = true) (members : w.ByMembers protocol candidate) :
    assignToClass w j .default protocol.toInstance (.cls candidate) = pure true ∨
      assignToClass w j .default protocol.toInstance (.cls candidate) =
        j.conforms .default false protocol.toInstance candidate := by
  have instances : (protocol.toInstance.isInstance == candidate.isInstance) = true := by
    rw [hc]
    rfl
  unfold assignToClass
  split
  · exact .inl rfl
  · dsimp only
    rw [if_pos instances]
    unfold assignClassToClass
    rw [if_neg (by simp [ClassTy.toInstance, literal])]
    split
    · exact .inl rfl
    · dsimp only
      rw [findAncestor_toInstance, ← World.derivation]
      cases hd : w.derivation protocol candidate with
      | unresolved => exact .inl rfl
      | derived ancestor =>
        have bare := members.resolve_right fun h => h ancestor hd
        exact .inl (if_pos (by simp [ClassTy.toInstance, bare]))
      | unrelated => exact .inr (if_pos hp)

end

private theorem confirms_conforms (w : World) (protocol candidate : ClassTy) :
    Confirms Bool ((judge w 14).conforms .default false protocol.toInstance candidate)
      ((judgeAt w 0).conforms .default false protocol candidate) :=
  Confirms.bind (.trace w _ _) fun _ =>
    Confirms.matchClass (Confirms.judge w (by decide : 13 ≤ 14)).1 .own .default false protocol
      candidate

/-! ## Sessions -/

namespace Session

/-- What checks of a session come to, and the session afterwards. -/
def outcome {α : Type} (act : ExceptT InferenceError SessionM α) (s : Session) :
    Except InferenceError α × Session :=
  (ExceptT.run act).run s

private theorem outcome_checkOrReport (l : Location) (code : Code) (wording : Wording)
    (values : Session → List (String × String)) (check : World → Check Bool) (s : Session) :
    (s.outcome (checkOrReport l code wording values check)).1 =
        (exec (check s.world) (Frame.entering s .plain)).1 ∧
      (s.outcome (checkOrReport l code wording values check)).2.history =
        (exec (check s.world) (Frame.entering s .plain)).2.history := by
  rw [outcome, checkOrReport, run_bind, run_lift, Frame.run_check]
  rcases exec (check s.world) (Frame.entering s .plain) with ⟨_ | _ | _, t⟩ <;> exact ⟨rfl, rfl⟩

end Session

namespace Sample

/-- Two classes, a protocol whose method reads a value of its parameter, and a class. -/
def readers (c : ClassDecl) : Session :=
  Session.ofDecls #[object, classOf "A" [], classOf "B" [],
    generic .covariant
      (protocolOf "P" [method "read" none [] (.var (parameter .covariant "P"))]), c]

/-- The check of an instance of a class against a protocol. -/
def checked (s : Session) (protocol : ClassTy) (candidate : ClassId) :
    Except InferenceError Bool × Session :=
  s.outcome (Session.checkProtocol protocol (some (instanceOf candidate)) .start)

/-- The assignment of an instance of a class where an instance of a protocol is declared. -/
def assigned (s : Session) (protocol : ClassTy) (candidate : ClassId) :
    Except InferenceError Bool × Session :=
  s.outcome (Session.checkAssignment (some (.cls protocol.toInstance)) (some (instanceOf candidate))
    .start)

end Sample

/-- A class that has its method from a specialization of the protocol is accepted by its members as any
other specialization, since the method that is asked for is seen as that of the specialization too. -/
example :
    let s := Sample.readers { Sample.classOf "C" [] with
      mro := [.resolved (Sample.viewOf 3 (Sample.instanceOf 1))] }
    let protocol := Sample.viewOf 3 (Sample.instanceOf 2)
    (Sample.checked s protocol 4).1.toOption = some true ∧
      (Sample.assigned s protocol 4).1.toOption = some false := by
  decide +kernel

end Conformance
