import Conformance.Proofs.Operation
import Conformance.Proofs.Levels

/-!
# Small worlds

Ways to write down the worlds that examples are about, as lists of declarations. A class is known by
its place in the list. Worlds of classes that have only members and ancestors are of a narrow
fragment.
-/

namespace Conformance

open Check

/-- A comparison that is started on its own, with nothing in progress. -/
def Comparison.alone (c : Comparison) (w : World) (inf : Inference) :
    Except InferenceError Bool × CheckState :=
  exec (conformsFrom w .own 0 .default c.asObject c.pair.protocol c.pair.candidate)
    ⟨inf, #[], [], [], none, none, []⟩

namespace Sample

def ofDecls (decls : List ClassDecl) : World := (Session.ofDecls decls.toArray).world

def instanceOf (id : ClassId) : Ty := .cls (ClassTy.ofId id).toInstance

def final (name : String) (t : Ty) : String × Member :=
  (name, .ofDeclarations .classBody [.annotated (some t) true])

def field (name : String) (t : Ty) : String × Member :=
  (name, .ofDeclarations .classBody [.annotated (some t) false])

/-- A function of a receiver and of positional parameters. -/
def function (receiver : Option Ty) (params : List (Option Ty)) (ret : Return) : FunctionTy :=
  ⟨"f", ⟨.simple, "self", receiver, false⟩ :: params.map (⟨.simple, "__a", ·, false⟩), ret,
    .instanceMethod, ""⟩

/-- A function whose return type is to be found out. -/
def deferred (cell : CellId) (t : Ty) : FunctionTy :=
  function none [] (.deferred cell (.returns (some t)))

def method (name : String) (receiver : Option Ty) (params : List (Option Ty)) (ret : Ty) :
    String × Member :=
  (name, .ofDeclarations .classBody
    [.function (some (.function (function receiver params (.declared ret))))])

def classOf (name : String) (members : List (String × Member)) : ClassDecl :=
  { ClassDecl.fresh name name name .none with members := ⟨members⟩ }

def protocolOf (name : String) (members : List (String × Member)) : ClassDecl :=
  { classOf name members with flags := { ClassFlags.none with protocol := true } }

def object : ClassDecl :=
  { classOf "object" [] with flags := { ClassFlags.none with builtin := true } }

def parameter (variance : Variance) (name : String) : TypeVar := .make "T" name variance none

def generic (variance : Variance) (d : ClassDecl) : ClassDecl :=
  { d with params := [parameter variance d.scope] }

def viewOf (id : ClassId) (arg : Ty) : ClassTy := (ClassTy.ofId id).withArgs [some arg] true

/-- The comparison of the instances of a class with a protocol. -/
def compare (protocol candidate : ClassId) : Comparison :=
  .of false (.ofId protocol) (.ofId candidate)

/-! ## Plain classes -/

/-- Every class may be mentioned, and no type variable. -/
def plainTypes : Fragment where
  inf := .start
  wide := False
  ids _ := True
  vars _ := False

theorem hasClass_ofId (id : ClassId) : plainTypes.HasClass (.ofId id) :=
  .cls trivial (.inr ⟨rfl, rfl⟩) fun _ h => nomatch h

/-- A method without parameters of which the receiver is not annotated. -/
theorem bindable_method {ret : Return} :
    plainTypes.Bindable (function none [] ret) :=
  .inr (.inr fun p hp => by
    cases hp
    rfl)

theorem params_method {ret : Return} :
    ∀ p ∈ (function none [] ret).params, plainTypes.HasOption p.type := by
  intro p hp
  rw [List.mem_singleton.1 hp]
  exact Fragment.hasOption_none

/-- A method that yields a value of a class. -/
theorem hasMember_method (name : String) (id : ClassId) :
    plainTypes.HasMember ((method name none [] (instanceOf id)).2.effectiveType .start) := by
  refine ⟨.function params_method ?_ (fun _ _ h => nomatch h), fun f hf => ?_,
    fun _ h => nomatch h⟩
  · rintro _ ⟨⟩
    exact (hasClass_ofId id).toInstance
  · cases hf
    exact bindable_method

/-- The class has nothing but members and ancestors. -/
structure Simple (d : ClassDecl) : Prop where
  params : d.params = []
  metaclass : d.metaclass = none
  accessors : ∀ a : Accessor, a.of d = none
  mro : ∀ c, Ancestor.resolved c ∈ d.mro → ∃ id, c = .ofId id

theorem simple_classOf (name : String) (members : List (String × Member)) :
    Simple (classOf name members) :=
  ⟨rfl, rfl, fun a => by cases a <;> rfl, fun _ h => absurd h List.not_mem_nil⟩

theorem Simple.derived {d : ClassDecl} (h : Simple d) (flags : ClassFlags)
    (ancestors : List ClassId) :
    Simple { d with flags := flags, mro := ancestors.map fun id => .resolved (.ofId id) } := by
  refine ⟨h.params, h.metaclass, fun a => (by cases a <;> rfl : _ = a.of d).trans (h.accessors a),
    fun c hc => ?_⟩
  obtain ⟨id, -, hid⟩ := List.mem_map.1 hc
  exact ⟨id, (Ancestor.resolved.inj hid).symm⟩

theorem simple_object : Simple object := (simple_classOf _ _).derived _ []

theorem simple_protocolOf (name : String) (members : List (String × Member)) :
    Simple (protocolOf name members) := (simple_classOf _ _).derived _ []

theorem decl_ofDecls (decls : List ClassDecl) (id : ClassId) :
    (ofDecls decls).classes.decl id = decls[id]?.getD default := by
  simp [ClassTable.decl, ofDecls, Session.ofDecls, Session.world, Session.classes,
    Array.getD_eq_getD_getElem?]

section

variable {decls : List ClassDecl} (h : ∀ d ∈ decls, Simple d)
include h

theorem simple_decl (id : ClassId) : Simple ((ofDecls decls).classes.decl id) := by
  rw [decl_ofDecls]
  cases hd : decls[id]? with
  | none => exact ⟨rfl, rfl, fun a => by cases a <;> rfl, fun c hc => absurd hc List.not_mem_nil⟩
  | some d => exact h d (List.mem_of_getElem? hd)

private theorem scopes_ofDecls : plainTypes.Scopes (ofDecls decls) where
  params {id} _ v hv := by
    rw [(simple_decl h id).params] at hv
    cases hv
  apart := .inr fun _ _ hv => hv.elim

/-- A world of simple classes is of the fragment if their members are, or yield their receiver. -/
theorem covers_ofDecls
    (hm : ∀ id, ∀ d ∈ decls[id]?, ∀ e ∈ d.members.entries,
      plainTypes.HasMember (e.2.effectiveType .start) ∨
        d.flags.protocol = false ∧ e.1 ≠ "__call__" ∧ ∃ f, e.2.effectiveType .start = .function f ∧
          plainTypes.ReturnsSelf ((ofDecls decls).classes.selfVar (.ofId id)) f) :
    plainTypes.Covers (ofDecls decls) where
  toScopes := scopes_ofDecls h
  object := trivial
  typedDict := hasClass_ofId 10
  mro {id} _ c hc := by
    obtain ⟨id', rfl⟩ := (simple_decl h id).mro c hc
    exact hasClass_ofId id'
  metaclass {c} _ m hm := by
    rw [ClassTable.metaclass?, (simple_decl h c.id).metaclass] at hm
    cases hm
  accessors {id} _ a f hf := by
    rw [(simple_decl h id).accessors a] at hf
    cases hf
  members {id} _ e he := by
    rw [decl_ofDecls] at he ⊢
    cases hd : decls[id]? with
    | none =>
      rw [hd] at he
      cases he
    | some d =>
      rw [hd] at he
      rcases hm id d hd e he with has | ⟨other, named, f, hf, self⟩
      · exact .inl has
      · have receives := Fragment.receives_of_returnsSelf (scopes_ofDecls h) self
        exact .inr ⟨other, named, hf ▸ receives⟩
  modules table e he := by
    cases he

end

end Sample

end Conformance
