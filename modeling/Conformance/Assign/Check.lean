import Conformance.Builtin
import Conformance.Explanation
import Conformance.Trace
import Conformance.Ty.Literal
import Conformance.Ty.Printer
import Conformance.Wording

/-!
# Checks

A check is a computation that looks at the declared classes and modules and may ask for return
types, which may fail. It carries the solution that is being found, if there is one, the explanation
that is being written, if one is wanted, the comparisons with protocols that are in progress, and the
history of those that were made.
What a part of a check sets up for itself is undone when that part ends, by an answer or by a
failure.
-/

namespace Conformance

/-- Which of the types that are compared are one object. Types of equal content may be one object or
several; types of different content are never one. -/
structure Identity where
  identical : Ty → Ty → Bool
  eq_of_identical {a b : Ty} (h : identical a b = true) : a = b

namespace Identity

/-- Every type is an object of its own. -/
def apart : Identity := ⟨fun _ _ => false, fun h => nomatch h⟩

end Identity

/-- What checks look at. -/
structure World where
  classes : ClassTable
  modules : Array MemberTable
  /-- The class that stands for typed dictionaries. -/
  typedDict : ClassTy
  verbose : Bool
  identity : Identity

namespace World

def moduleMembers (w : World) (table : TableId) : MemberTable := w.modules.getD table .empty

def nameOf (w : World) (c : ClassTy) : String := w.classes.nameOf c.id

end World

/-- How two types are compared. -/
structure Mode where
  /-- The two types have to be the same. -/
  invariant : Bool
  /-- The variables to be solved are those of the source. -/
  reverse : Bool
  /-- Literal types are kept in the solution instead of being widened. -/
  keepLiterals : Bool
deriving DecidableEq, Repr

def Mode.default : Mode := ⟨false, false, false⟩

/-- A comparison of a class with a protocol, both as class objects. -/
structure Pending where
  candidate : ClassTy
  protocol : ClassTy

/-- A comparison as it is asked for: of the instances of a class, or of the class object itself. -/
structure Comparison where
  pair : Pending
  asObject : Bool

/-- What becomes of the comparisons with protocols while a check runs. No answer depends on it. -/
inductive Event
  /-- The last level was passed. -/
  | cut
  /-- A comparison was taken to hold because its pair was pending. -/
  | assumed (c : Comparison)
  /-- A comparison was made, with so many pending in the session while it ran, and with what became
  of the comparisons it called for. There is no answer if a return type was not found out. -/
  | made (c : Comparison) (pending : Nat) (answer : Option Bool) (inner : List Event)

/-- The stack of comparisons that an operation runs on: that of the session, or one that its caller
brings. -/
inductive StackChoice
  | own
  | lent
deriving DecidableEq, Repr

structure CheckState where
  inference : Inference
  trace : Array TraceLine
  pending : List Pending
  lent : List Pending
  solving : Option Solution
  notes : Option Explanation
  history : List Event

abbrev Check := ExceptT InferenceError (StateM CheckState)

namespace Check

/-- Runs a computation that only asks about cells. -/
def lift {α : Type} (act : StateM Inference α) : Check α := do
  let s ← get
  let (a, inf) := act.run s.inference
  set { s with inference := inf }
  pure a

def inference : Check Inference := do
  let s ← get
  pure s.inference

/-- The solution that is being found. -/
def solution : Check (Option Solution) := do
  let s ← get
  pure s.solving

/-- Records a type for a variable in the solution that is being found. -/
def solve (v : TypeVar) (t : Ty) : Check Unit :=
  modify fun s => { s with solving := s.solving.map fun σ => σ.insert v (some t) }

/-- Runs a part of a check in a state of its own. `leave` makes the state after it from the states
before it and at its end, whether it answered or failed. -/
def within {α : Type} (enter : CheckState → CheckState)
    (leave : CheckState → CheckState → CheckState) (act : Check α) : Check α :=
  ExceptT.mk fun s =>
    let (r, s') := (ExceptT.run act).run (enter s)
    (r, leave s s')

/-- Solves for another solution, or for none, and then goes on with the present one. -/
def solvingFor {α : Type} (σ : Option Solution) (act : Check α) : Check α :=
  within (fun s => { s with solving := σ }) (fun before s => { s with solving := before.solving }) act

/-- Explains nothing. -/
def silently {α : Type} (act : Check α) : Check α :=
  within (fun s => { s with notes := none }) (fun before s => { s with notes := before.notes }) act

/-- Puts what is explained under a new child of the present explanation. -/
def child {α : Type} (act : Check α) : Check α :=
  within (fun s => { s with notes := s.notes.map fun _ => .empty })
    (fun before s =>
      { s with notes := before.notes.map fun e => e.addChild (s.notes.getD .empty) }) act

/-- Neither solves nor explains anything. -/
def detached {α : Type} (act : Check α) : Check α := silently (solvingFor none act)

/-- Keeps the solution only if the answer is yes. -/
def attempt (act : Check Bool) : Check Bool :=
  ExceptT.mk fun s =>
    match (ExceptT.run act).run s with
    | (.ok true, s') => (.ok true, s')
    | (r, s') => (r, { s' with solving := s.solving })

def pendingOn (choice : StackChoice) (s : CheckState) : List Pending :=
  match choice with
  | .own => s.pending
  | .lent => s.lent

def setPendingOn (choice : StackChoice) (s : CheckState) (entries : List Pending) : CheckState :=
  match choice with
  | .own => { s with pending := entries }
  | .lent => { s with lent := entries }

/-- Adds an event to the history. -/
def record (e : Event) : Check Unit :=
  modify fun s => { s with history := s.history ++ [e] }

/-- Takes a comparison below the last level to hold. -/
def cutOff : Check Bool := do
  record .cut
  pure true

/-- Counts a comparison as pending while it runs. -/
def whilePending (choice : StackChoice) (c : Comparison) (act : Check Bool) : Check Bool :=
  ExceptT.mk fun s =>
    let entered := setPendingOn choice { s with history := [] } (c.pair :: pendingOn choice s)
    let (r, s') := (ExceptT.run act).run entered
    let made := Event.made c entered.pending.length r.toOption s'.history
    let left := setPendingOn choice s' (pendingOn choice s').tail
    (r, { left with history := s.history ++ [made] })

/-- All elements are tried, and the answer is yes if it is for each of them. -/
def allOf {α : Type} (f : α → Check Bool) : List α → Check Bool
  | [] => pure true
  | a :: as => do
    let first ← f a
    let others ← allOf f as
    pure (first && others)

/-- Tries the elements until the answer for one is yes. -/
def anyOf {α : Type} (f : α → Check Bool) : List α → Check Bool
  | [] => pure false
  | a :: as => do
    if ← f a then pure true else anyOf f as

/-- Adds a message to the explanation. -/
def tell (wording : Wording) (values : Inference → List (String × String)) : Check Unit :=
  modify fun s =>
    match s.notes with
    | none => s
    | some e => { s with notes := some (e.addMessage (wording.format (values s.inference))) }

/-- Writes a line of the trace, if the world is verbose. -/
def trace (w : World) (line : CheckState → TraceLine) : Check Unit :=
  modify fun s => if w.verbose then { s with trace := s.trace.push (line s) } else s

/-- Answers no and says why. -/
def refuse (wording : Wording) (values : Inference → List (String × String)) : Check Bool := do
  tell wording values
  pure false

/-- Asks for the return type of a function. -/
def demand (f : FunctionTy) : Check Unit := do
  let s ← get
  let (r, inf) := (ExceptT.run (Inference.demand f)).run s.inference
  set { s with inference := inf }
  match r with
  | .ok () => pure ()
  | .error e => throw e

/-- Asks for the return types of a function or of its overloads. -/
def demandAll (t : Ty) : Check Unit :=
  match t with
  | .function f => demand f
  | .overloaded overloads => overloads.forM demand
  | _ => pure ()

end Check

/-- Answers no because the source does not fit the destination. -/
def mismatch (w : World) (source dest : Ty) : Check Bool :=
  Check.refuse .mismatch fun inf =>
    [("sourceType", source.text w.classes.nameOf inf), ("destType", dest.text w.classes.nameOf inf)]

end Conformance
