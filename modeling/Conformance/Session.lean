import Conformance.Assign.SelfComparison
import Conformance.Report.Log

/-!
# Sessions

A session declares classes and modules, answers questions about types and reports the checks that
fail. It keeps what was declared, which return types were asked for, the report, and the trace.
-/

namespace Conformance

structure Options where
  /-- How deep and how long the notes of a finding may be. -/
  maxDepth : Int
  maxLines : Int
  verbose : Bool
  /-- The class that stands for typed dictionaries in place of the builtin one. -/
  typedDict : Option ClassTy

namespace Options

def default : Options := ⟨5, 8, false, none⟩

end Options

structure Session where
  catalog : Catalog
  modules : Array MemberTable
  inference : Inference
  options : Options
  pending : List Pending
  trace : Array TraceLine
  history : List Event
  report : Report
  /-- The class that takes the place of other parameters when a variance is found out. -/
  placeholder : Option ClassTy
  identity : Identity

abbrev SessionM := StateM Session

/-- What a check leaves behind for its caller. -/
structure Checked (α : Type) where
  answer : Except InferenceError α
  solution : Option Solution
  explanation : Option Explanation
  lent : List Pending

/-- What a caller brings to a check. -/
structure Request where
  solution : Option Solution
  explain : Bool
  lent : List Pending

namespace Request

/-- Nothing is solved, and what fails is explained. -/
def plain : Request := ⟨none, true, []⟩

end Request

namespace Session

/-- A session with the builtin classes alone. -/
def start : Session :=
  let (catalog, inference) := Catalog.start.run .start
  ⟨catalog, #[], inference, .default, [], #[], [], .empty, none, .apart⟩

instance : Inhabited Session := ⟨start⟩

def classes (s : Session) : ClassTable := s.catalog.classes

def typedDict (s : Session) : ClassTy := s.options.typedDict.getD Builtin.typedDict

def world (s : Session) : World :=
  ⟨s.classes, s.modules, s.typedDict, s.options.verbose, s.identity⟩

/-- The text of a type as far as its return types are known. -/
def text (s : Session) (t : Ty) : String := t.text s.classes.nameOf s.inference

/-- Runs a computation that only asks about cells. -/
def asking {α : Type} (act : ClassTable → StateM Inference α) : SessionM α := do
  let s ← get
  let (a, inf) := (act s.classes).run s.inference
  set { s with inference := inf }
  pure a

/-- Runs a change of the catalog. -/
def declaring {α : Type} (act : Catalog → StateM Inference (α × Catalog)) : SessionM α := do
  let s ← get
  let ((a, catalog), inf) := (act s.catalog).run s.inference
  set { s with catalog := catalog, inference := inf }
  pure a

/-! ## Declarations -/

def addClass (name : String) (flags : ClassFlags) (moduleName : String) : SessionM ClassTy :=
  declaring fun cat => pure (cat.addClass name flags moduleName)

def functionScope (name : String) : SessionM String :=
  declaring fun cat => pure (cat.functionScope name)

/-- Adds a type parameter to a class. -/
def addParam (c : ClassTy) (name : String) (variance : Variance) (bound : Option Ty) :
    SessionM Unit :=
  declaring fun cat => pure ((), cat.addParam c (.make name (cat.scopeOf c) variance bound))

/-- Adds a parameter specification to the type parameters of a class. -/
def addParamSpec (c : ClassTy) (name : String) : SessionM Unit :=
  declaring fun cat => pure ((), cat.addParam c (.paramSpec name (cat.scopeOf c)))

def finalizeClass (c : ClassTy) (bases : List (Option Ty)) (metaclass : Option Ty) :
    SessionM Unit :=
  declaring fun cat => do
    let cat ← cat.finalize c bases metaclass
    pure ((), cat)

def setBases (c : ClassTy) (bases : List (Option Ty)) : SessionM Bool :=
  declaring fun cat => do
    let (cat, consistent) ← cat.setBases c bases
    pure (consistent, cat)

def declareClass (name : String) (bases : List (Option Ty)) : SessionM ClassTy :=
  declaring fun cat => cat.declareClass name .none bases

def declareProtocol (name : String) (bases : List (Option Ty)) : SessionM ClassTy :=
  declaring fun cat => cat.declareProtocol name bases

def declareProperty (getter setter deleter : Option FunctionTy) : SessionM ClassTy :=
  declaring fun cat => cat.declareProperty getter setter deleter

/-- Adds a member to a class; the answer is no if the name is taken. -/
def addMember (c : ClassTy) (name : String) (m : Member) : SessionM Bool :=
  declaring fun cat =>
    match cat.addMember? c name m with
    | some cat => pure (true, cat)
    | none => pure (false, cat)

/-- A table for the members of a new module. -/
def addModule : SessionM TableId := do
  let s ← get
  set { s with modules := s.modules.push .empty }
  pure s.modules.size

/-- Adds a member to a module; the answer is no if the name is taken. -/
def addModuleMember (table : TableId) (name : String) (m : Member) : SessionM Bool := do
  let s ← get
  match (s.modules.getD table .empty).insert? name m with
  | some members =>
    set { s with modules := s.modules.setIfInBounds table members }
    pure true
  | none => pure false

/-- A function whose return type is found out when it is asked for. -/
def deferReturn (f : FunctionTy) (outcome : Outcome) : SessionM FunctionTy :=
  asking fun _ => do
    let cell ← Inference.newCell
    pure { f with ret := .deferred cell outcome }

/-! ## Checks -/

/-- Runs a check with what its caller brings. -/
def run {α : Type} (request : Request) (check : World → Check α) : SessionM (Checked α) := do
  let s ← get
  let before : CheckState :=
    { inference := s.inference
      trace := s.trace
      pending := s.pending
      lent := request.lent
      solving := request.solution
      notes := if request.explain then some .empty else none
      history := s.history }
  let (answer, after) := (ExceptT.run (check s.world)).run before
  set
    { s with
      inference := after.inference
      trace := after.trace
      pending := after.pending
      history := after.history }
  pure ⟨answer, after.solving, after.notes, after.lent⟩

/-- Runs a check for its answer, explaining nothing. -/
def answer {α : Type} (check : World → Check α) : ExceptT InferenceError SessionM α := do
  let checked ← run { Request.plain with explain := false } check
  match checked.answer with
  | .ok a => pure a
  | .error e => throw e

/-- Reports an error with the explanation of a check. -/
def reportFailure (l : Location) (code : Code) (wording : Wording)
    (values : Session → List (String × String)) (why : Option Explanation) : SessionM Unit :=
  modify fun s =>
    let report := s.report.error l (wording.format (values s)) code
    { s with
      report :=
        report.addExplanation (why.getD .empty) s.options.maxDepth s.options.maxLines }

/-- Runs a check and reports an error if the answer is no. -/
def checkOrReport (l : Location) (code : Code) (wording : Wording)
    (values : Session → List (String × String)) (check : World → Check Bool) :
    ExceptT InferenceError SessionM Bool := do
  let checked ← run .plain check
  match checked.answer with
  | .error e => throw e
  | .ok true => pure true
  | .ok false =>
    reportFailure l code wording values checked.explanation
    pure false

def optionText (s : Session) (t : Option Ty) : String :=
  Ty.optionText s.classes.nameOf s.inference t

/-- Reports an error if a value of the assigned type does not fit the declared type. -/
def checkAssignment (declared assigned : Option Ty) (l : Location) :
    ExceptT InferenceError SessionM Bool :=
  checkOrReport l .assignment .incompatible
    (fun s => [("sourceType", s.optionText assigned), ("destType", s.optionText declared)])
    fun w => (judgeAt w 0).assign .default declared assigned

/-- Reports an error if a class object, an instance or a module does not satisfy a protocol. Any
other type is checked as a value of the protocol. -/
def checkProtocol (protocol : ClassTy) (candidate : Option Ty) (l : Location) :
    ExceptT InferenceError SessionM Bool :=
  match candidate with
  | some (.cls c) =>
    checkOrReport l .protocol .protocolIncompatible
      (fun s => [("sourceType", s.text (.cls c)), ("destType", s.classes.nameOf protocol.id)])
      fun w => (judgeAt w 0).conforms .default (!c.isInstance) protocol c
  | some (.module name table) =>
    checkOrReport l .moduleProtocol .moduleIncompatible
      (fun s => [("sourceType", name), ("destType", s.classes.nameOf protocol.id)])
      fun w => (judgeAt w 0).moduleConforms .default protocol name table
  | _ => checkAssignment (some (.cls protocol.toInstance)) candidate l

/-- The class that takes the place of other parameters, declared when it is first needed. -/
def placeholderClass : SessionM ClassTy := do
  let s ← get
  match s.placeholder with
  | some c => pure c
  | none =>
    let c ← declareClass "__varianceDummy" []
    modify fun s => { s with placeholder := some c }
    pure c

section

variable (fits : World → (dest source : ClassTy) → Check Bool)

/-- Reports a warning if a parameter of a protocol is declared with another variance than its
members call for. Parameter specifications have no variance. -/
def checkParamVariance (protocol : ClassTy) (l : Location) (placeholder : Ty) (index : Nat)
    (v : TypeVar) : ExceptT InferenceError SessionM Bool := do
  if v.isParamSpec then pure true
  else
    let expected ← answer fun w => expectedVariance w (fits w) protocol index placeholder
    if expected = v.variance then pure true
    else
      modify fun s =>
        let message := (Wording.shouldBe expected).format
          [("variable", v.name), ("class", s.classes.nameOf protocol.id)]
        { s with report := s.report.warning l message .variance }
      pure false

def checkParamVariances (protocol : ClassTy) (l : Location) (placeholder : Ty) :
    Nat → List TypeVar → ExceptT InferenceError SessionM Bool
  | _, [] => pure true
  | index, v :: vs => do
    let first ← checkParamVariance fits protocol l placeholder index v
    let others ← checkParamVariances protocol l placeholder (index + 1) vs
    pure (first && others)

/-- Compares the declared variance of each type parameter of a protocol with its use, by the way to
compare two specializations. -/
def checkVarianceBy (protocol : ClassTy) (l : Location) : ExceptT InferenceError SessionM Bool := do
  let s ← get
  let params := (s.classes.decl protocol.id).params
  if !s.classes.isProtocol protocol || params.isEmpty then pure true
  else
    let placeholder ← placeholderClass
    checkParamVariances fits protocol l (Builtin.instanceOf placeholder) 0 params

end

/-- Compares the declared variance of each type parameter of a protocol with its use. -/
def checkVariance : (protocol : ClassTy) → Location → ExceptT InferenceError SessionM Bool :=
  checkVarianceBy fun w => fitsItself w (judgeAt w 0)

end Session

end Conformance
