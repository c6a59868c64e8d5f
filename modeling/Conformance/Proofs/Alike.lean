import Conformance.Assign.SelfComparison

/-!
# Alike worlds

Two worlds are alike on some names if their classes declare the same members under these names, in
whichever order. What is substituted is the same in both, and so is what is looked up under one of
the names.
-/

namespace Conformance

/-- The declarations differ in their members at most, and have the same ones under the names. -/
structure ClassDecl.AlikeOn (names : String → Prop) (d d' : ClassDecl) : Prop where
  rest : { d' with members := d.members } = d
  members : ∀ name, names name → d'.members.find? name = d.members.find? name

def ClassTable.AlikeOn (names : String → Prop) (t t' : ClassTable) : Prop :=
  ∀ id, (t.decl id).AlikeOn names (t'.decl id)

/-- The classes of both worlds declare the same members under the names, of which the name of the
call method is one. Another class may stand for typed dictionaries, and other types may be one object. -/
structure World.AlikeOn (names : String → Prop) (w w' : World) : Prop where
  classes : w.classes.AlikeOn names w'.classes
  modules : w'.modules = w.modules
  verbose : w'.verbose = w.verbose
  called : names "__call__"

/-- The declarations differ in the order of their members at most. -/
structure World.Alike (w w' : World) : Prop extends w.AlikeOn (fun _ => True) w' where
  typedDict : w'.typedDict = w.typedDict
  identity : w'.identity = w.identity

theorem ClassDecl.AlikeOn.refl (names : String → Prop) (d : ClassDecl) : d.AlikeOn names d :=
  ⟨rfl, fun _ _ => rfl⟩

theorem World.AlikeOn.refl (w : World) : w.AlikeOn (fun _ => True) w :=
  ⟨fun _ => .refl _ _, rfl, rfl, trivial⟩

theorem World.Alike.refl (w : World) : w.Alike w := ⟨.refl w, rfl, rfl⟩

/-- The world in which a class declares other members. -/
def World.withMembers (w : World) (id : ClassId) (members : MemberTable) : World :=
  { w with classes := w.classes.modify id fun d => { d with members := members } }

theorem decl_withMembers (w : World) {id : ClassId} (members : MemberTable) {other : ClassId}
    (h : other ≠ id) : (w.withMembers id members).classes.decl other = w.classes.decl other := by
  rw [World.withMembers, ClassTable.decl_modify, if_neg fun same => h same.1.symm]

/-- The world in which another class stands for typed dictionaries. -/
def World.withTypedDict (w : World) (d : ClassTy) : World := { w with typedDict := d }

/-- The world in which other types are one object. -/
def World.identifying (w : World) (i : Identity) : World := { w with identity := i }

@[simp] theorem World.classes_withTypedDict (w : World) (d : ClassTy) :
    (w.withTypedDict d).classes = w.classes := rfl

theorem World.alikeOn_withTypedDict (w : World) (d : ClassTy) :
    w.AlikeOn (fun _ => True) (w.withTypedDict d) := ⟨fun _ => .refl _ _, rfl, rfl, trivial⟩

theorem World.alikeOn_identifying (w : World) (i : Identity) :
    w.AlikeOn (fun _ => True) (w.identifying i) := ⟨fun _ => .refl _ _, rfl, rfl, trivial⟩

variable {names : String → Prop}

/-- Other members make a world alike if they are the same under the names. -/
theorem World.alikeOn_withMembers {w : World} {id : ClassId} {members : MemberTable}
    (same : ∀ name, names name →
      members.find? name = (w.classes.decl id).members.find? name) (called : names "__call__") :
    w.AlikeOn names (w.withMembers id members) := by
  refine ⟨fun other => ?_, rfl, rfl, called⟩
  rw [World.withMembers, ClassTable.decl_modify]
  split
  · rename_i h
    obtain ⟨rfl, -⟩ := h
    exact ⟨rfl, same⟩
  · exact .refl _ _

namespace ClassTable.AlikeOn

variable {t t' : ClassTable} (h : t.AlikeOn names t')
include h

/-! ## Declarations -/

theorem name (id : ClassId) : (t'.decl id).name = (t.decl id).name :=
  (congrArg ClassDecl.name (h id).rest :)

theorem scope (id : ClassId) : (t'.decl id).scope = (t.decl id).scope :=
  (congrArg ClassDecl.scope (h id).rest :)

theorem flags (id : ClassId) : (t'.decl id).flags = (t.decl id).flags :=
  (congrArg ClassDecl.flags (h id).rest :)

theorem mro (id : ClassId) : (t'.decl id).mro = (t.decl id).mro :=
  (congrArg ClassDecl.mro (h id).rest :)

theorem params (id : ClassId) : (t'.decl id).params = (t.decl id).params :=
  (congrArg ClassDecl.params (h id).rest :)

theorem accessor (a : Accessor) (id : ClassId) : a.of (t'.decl id) = a.of (t.decl id) := by
  cases a
  · exact (congrArg ClassDecl.getter (h id).rest :)
  · exact (congrArg ClassDecl.setter (h id).rest :)
  · exact (congrArg ClassDecl.deleter (h id).rest :)

theorem nameOf : t'.nameOf = t.nameOf := funext fun id => h.name id

theorem isBuiltin : t'.isBuiltin = t.isBuiltin := by
  funext c name
  rw [ClassTable.isBuiltin, ClassTable.isBuiltin, h.flags, h.nameOf]

theorem isProtocol : t'.isProtocol = t.isProtocol := by
  funext c
  rw [ClassTable.isProtocol, ClassTable.isProtocol, h.flags]

theorem isTypedDict : t'.isTypedDict = t.isTypedDict := by
  funext c
  rw [ClassTable.isTypedDict, ClassTable.isTypedDict, h.flags]

theorem isProperty : t'.isProperty = t.isProperty := by
  funext c
  rw [ClassTable.isProperty, ClassTable.isProperty, h.flags]

theorem metaclass? : t'.metaclass? = t.metaclass? := by
  funext c
  rw [ClassTable.metaclass?, ClassTable.metaclass?, (congrArg ClassDecl.metaclass (h c.id).rest :)]

theorem selfVar : t'.selfVar = t.selfVar := by
  funext c
  rw [ClassTable.selfVar, ClassTable.selfVar, h.nameOf, h.scope]

theorem derives : t'.derives = t.derives := by
  funext c ancestor
  rw [ClassTable.derives, ClassTable.derives, h.mro]

theorem protocols : Requirement.protocols t' = Requirement.protocols t := by
  funext protocol
  rw [Requirement.protocols, Requirement.protocols, h.mro]
  congr 1
  exact h.isProtocol

/-- The same is asked for if the protocols declare the same members. -/
theorem all (asObject : Bool) (protocol : ClassTy)
    (same : ∀ owner ∈ Requirement.protocols t protocol,
      (t'.decl owner.id).members = (t.decl owner.id).members) :
    Requirement.all t' asObject protocol = Requirement.all t asObject protocol := by
  have declared : ∀ owner ∈ Requirement.protocols t protocol,
      Requirement.ofDeclared t' asObject owner = Requirement.ofDeclared t asObject owner := by
    intro owner ho
    rw [Requirement.ofDeclared, Requirement.ofDeclared, same owner ho]
  rw [Requirement.all, Requirement.all, h.protocols, List.flatMap_def, List.flatMap_def,
    List.map_congr_left declared]

/-! ## Substitution -/

theorem ofClass : Solution.ofClass t' = Solution.ofClass t := by
  funext c
  rw [Solution.ofClass, Solution.ofClass, h.scope, h.params]

theorem withSelf (σ : Solution) : σ.withSelf t' = σ.withSelf t := by
  funext c self
  rw [Solution.withSelf, Solution.withSelf, h.selfVar]

theorem ofClassTy (σ : Solution) : Substitution.ofClassTy t' σ = Substitution.ofClassTy t σ := by
  funext sub c
  simp only [Substitution.ofClassTy, h.params, h.scope]

theorem ofTyAt (σ : Solution) (u : Bool) (n : Nat) :
    Substitution.ofTyAt t' σ u n = Substitution.ofTyAt t σ u n := by
  induction n with
  | zero => rfl
  | succ n ih =>
    funext ty
    cases ty <;> simp only [Substitution.ofTyAt, h.ofClassTy, ih]

theorem substitute : Ty.substitute t' = Ty.substitute t := by
  funext σ u ty
  rw [Ty.substitute, Ty.substitute, h.ofTyAt]

theorem substituteFunction : FunctionTy.substitute t' = FunctionTy.substitute t := by
  funext σ f
  rw [FunctionTy.substitute, FunctionTy.substitute, h.ofTyAt]

theorem substituteClass : ClassTy.substitute t' = ClassTy.substitute t := by
  funext σ u c
  rw [ClassTy.substitute, ClassTy.substitute, h.ofTyAt, h.ofClassTy]

theorem memberSolution : memberSolution t' = Conformance.memberSolution t := by
  funext owner self
  simp only [Conformance.memberSolution, h.ofClass, h.withSelf]

theorem specialize : Ty.specialize t' = Ty.specialize t := by
  funext owner self ty
  simp only [Ty.specialize, h.memberSolution, h.substitute]

theorem specializeFunction : FunctionTy.specialize t' = FunctionTy.specialize t := by
  funext owner f
  simp only [FunctionTy.specialize, h.memberSolution, h.substituteFunction]

theorem specializeClass : ClassTy.specialize t' = ClassTy.specialize t := by
  funext c owner
  simp only [ClassTy.specialize, h.memberSolution, h.substituteClass]

/-! ## Lookup -/

section

variable {name : String} (hn : names name)
include hn

theorem findIn (ancestors : List Ancestor) :
    t'.findIn name ancestors = t.findIn name ancestors := by
  induction ancestors with
  | nil => rfl
  | cons a rest ih =>
    cases a with
    | unresolved => rfl
    | resolved c => simp only [ClassTable.findIn, (h c.id).members name hn, ih]

theorem lookup (c : ClassTy) : t'.lookup c name = t.lookup c name := by
  simp only [ClassTable.lookup, h.findIn hn, h.mro, h.specializeClass]

end

theorem typeOf : t'.typeOf = t.typeOf := by
  funext found
  simp only [ClassTable.typeOf, h.specialize]

end ClassTable.AlikeOn

/-! ## Lines of the trace -/

namespace World.AlikeOn

variable {w w' : World} (h : w.AlikeOn names w')
include h

theorem traceClass : traceClass w' = Conformance.traceClass w := by
  funext levels protocol candidate
  simp only [Conformance.traceClass, Check.trace, nameOf, h.classes.nameOf, h.verbose]

theorem traceModule : traceModule w' = Conformance.traceModule w := by
  funext protocol name
  simp only [Conformance.traceModule, Check.trace, nameOf, h.classes.nameOf, h.verbose]

theorem accepting : accepting w' = Conformance.accepting w := by
  rw [Conformance.accepting, Conformance.accepting, h.traceClass, h.traceModule]

end World.AlikeOn

end Conformance
