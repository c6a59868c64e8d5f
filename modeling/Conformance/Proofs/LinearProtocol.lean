import Conformance.Proofs.Linear
import Conformance.Proofs.Sample

/-!
# Linear protocols

The type parameters of a linear protocol stand as a whole in the signatures of its methods, each at
one position. A class satisfies a specialization of it exactly if it has the methods, and each of
them, bound to an instance, is accepted where the method of the specialization is declared: solving
the parameters and comparing the solution with the type arguments comes to the same as putting the
arguments into the methods first.
-/

namespace Conformance

open Check

/-- The member is declared as this function, in the body of its class. -/
structure Member.IsMethod (m : Member) (f : FunctionTy) : Prop where
  inClass : m.flags.inClass = true
  functions : ∀ d ∈ m.declarations, d.kind = .function
  type : m.declaredType = some (.function f)

section

variable (w : World) (j : Judge)

/-- A member of an instance of a class, bound to the instance. -/
def boundMember (c : ClassTy) (name : String) : Check (Option Ty) := do
  match ← lift (w.classes.lookup c name) with
  | none => pure none
  | some found =>
    let t ← lift (w.classes.typeOf found)
    bind w j (.of (.cls c.toInstance)) t found.owner

/-- What a protocol asks for, with the type arguments of a specialization put into it, bound to an
instance of the specialization. -/
def Requirement.boundMember (r : Requirement) (protocol : ClassTy) : Check (Option Ty) := do
  match r.member.declaredType with
  | none => pure none
  | some t =>
    let t ← r.seenFrom w protocol t
    let t ← lift (t.specialize w.classes protocol none)
    bind w j (.of (.cls protocol.toInstance)) t (some protocol)

/-- The class has the member that is asked for, and it may stand where that of the specialization is
declared, both of them bound. -/
def memberFits (protocol candidate : ClassTy) (r : Requirement) : Check Bool := do
  let source ← Conformance.boundMember w j candidate r.name
  let dest ← r.boundMember w j protocol
  match dest, source with
  | some dest, some source => j.assign .default (some dest) (some source)
  | _, _ => pure false

end

/-! ## Methods -/

namespace Member

variable {m : Member} (h : ∀ d ∈ m.declarations, d.kind = .function)
include h

theorem isFinal_of_functions : m.isFinal = false := by
  refine List.any_eq_false.2 fun d hd => ?_
  simp [h d (List.mem_filter.1 hd).1]

theorem isMutableVariable_of_functions : m.isMutableVariable = false := by
  unfold Member.isMutableVariable
  split
  · rename_i d ds hd
    simp [h d (hd ▸ List.mem_cons_self)]
  · rfl

end Member

namespace Member.IsMethod

variable {m : Member} {f : FunctionTy} (h : m.IsMethod f)
include h

theorem effectiveType (inf : Inference) : m.effectiveType inf = .function f := by
  rw [Member.effectiveType, h.type]

theorem isFinal : m.isFinal = false := isFinal_of_functions h.functions

theorem isMutableVariable : m.isMutableVariable = false :=
  isMutableVariable_of_functions h.functions

end Member.IsMethod

/-- The member of a class without type arguments, wherever it is declared. -/
def ClassTable.memberOf (classes : ClassTable) (id : ClassId) (name : String) : Option FoundMember :=
  classes.findIn name (.resolved (.ofId id) :: (classes.decl id).mro)

private theorem findIn_cons (classes : ClassTable) (name : String) (a : Ancestor)
    (rest : List Ancestor) :
    classes.findIn name (a :: rest) =
      (classes.findIn name [a]).or (classes.findIn name rest) := by
  cases a with
  | unresolved t mark => rfl
  | resolved c =>
    rw [ClassTable.findIn, ClassTable.findIn]
    cases (classes.decl c.id).members.find? name with
    | none => rfl
    | some m =>
      dsimp only
      cases FoundMember.of? m c <;> rfl

/-- Nothing is put into the owner of a member by a class without type arguments. -/
theorem lookup_ofId (classes : ClassTable) (id : ClassId) (name : String) :
    classes.lookup (.ofId id) name = pure (classes.memberOf id name) := by
  have itself : (ClassTy.ofId id).toClassObject = .ofId id := rfl
  unfold ClassTable.lookup ClassTable.memberOf
  rw [itself, findIn_cons classes name (.resolved (.ofId id)) (classes.decl id).mro]
  cases classes.findIn name [.resolved (.ofId id)] with
  | some found => rfl
  | none =>
    dsimp only [Option.none_or, ClassTy.ofId]
    cases classes.findIn name (classes.decl id).mro with
    | none => rfl
    | some found =>
      obtain ⟨member, owner, isInstanceMember, isClassVar⟩ := found
      cases owner <;> rfl

namespace Fragment

variable {F : Fragment} {w : World} {f g : FunctionTy} {ρ σ : Solution} {params : List TypeVar}
  {k n : Nat}

/-- A method of which the receiver is not annotated, with a closed signature. -/
structure ClosedMethod (F : Fragment) (w : World) (g : FunctionTy) : Prop where
  has : F.HasFunction g
  closed : (Ty.function g).Closed w.classes
  unannotated : g.Unannotated

private theorem closed_function (h : (Ty.function g).Closed w.classes) :
    (∀ p ∈ g.params, ∀ t, p.type = some t → t.Closed w.classes) ∧
      ∀ t, g.ret = .declared t → t.Closed w.classes := by
  cases h with
  | function params ret => exact ⟨params, ret⟩

theorem ClosedMethod.fixesSignature (h : F.ClosedMethod w g) (σ : Solution) :
    F.FixesSignature w σ g :=
  have ⟨params, ret⟩ := closed_function h.closed
  ⟨fun p hp t ht => fixes_closed (params p hp t ht) (h.has.params p hp t ht) σ,
    fun t ht => fixes_closed (ret t ht) (h.has.declared t ht) σ, h.has.settled⟩

theorem ClosedMethod.takes (h : F.ClosedMethod w g) : ∀ p ∈ g.withoutReceiver.params,
    F.Has p.typeOrUnknown ∧ p.typeOrUnknown.Closed w.classes := by
  intro p hp
  have hp := params_withoutReceiver.subset hp
  refine ⟨.typeOrUnknown (h.has.params p hp), ?_⟩
  unfold Param.typeOrUnknown
  cases ht : p.type with
  | none => exact .unknown
  | some t => exact (closed_function h.closed).1 p hp t ht

theorem ClosedMethod.settled (h : F.ClosedMethod w g) (cell : CellId) (outcome : Outcome) :
    g.withoutReceiver.ret ≠ .deferred cell outcome := by
  rw [ret_withoutReceiver]
  exact h.has.settled cell outcome

theorem ClosedMethod.returnType (h : F.ClosedMethod w g) :
    F.Has (F.inf.returnType g.withoutReceiver) ∧
      (F.inf.returnType g.withoutReceiver).Closed w.classes := by
  have same : F.inf.returnType g.withoutReceiver = F.inf.returnType g := by
    rw [Inference.returnType, Inference.returnType, ret_withoutReceiver]
  rw [same]
  refine ⟨h.has.returnType F.inf, ?_⟩
  unfold Inference.returnType
  cases hr : g.ret with
  | declared t => exact (closed_function h.closed).2 t hr
  | undeclared => exact .unknown
  | deferred cell outcome => exact absurd hr (h.has.settled cell outcome)

theorem ClosedMethod.bound (h : F.ClosedMethod w g) :
    (Ty.function g.withoutReceiver).Closed w.classes := by
  obtain ⟨params, ret⟩ := closed_function h.closed
  exact .function (fun p hp => params p (params_withoutReceiver.subset hp))
    fun t ht => ret t (ret_withoutReceiver ▸ ht)

/-- No variable stands as a whole in a bound method that is closed. -/
theorem ClosedMethod.findings_eq_nil (h : F.ClosedMethod w g) (f : FunctionTy) :
    g.withoutReceiver.findings F.inf f = [] :=
  FunctionTy.findings_eq_nil f h.settled (fun p hp => whole_of_closed (h.takes p hp).2)
    (whole_of_closed h.returnType.2)

/-- No parameter is a part of a parameter specification. -/
theorem dropSpecRest_eq (h : ∀ p ∈ f.params, ∀ v, p.type = some (.var v) → v.access = .whole) :
    f.dropSpecRest = pure f := by
  unfold FunctionTy.dropSpecRest
  split
  · rename_i last beforeLast rest hr
    have mem : beforeLast ∈ f.params := by
      rw [← List.mem_reverse, hr]
      exact List.mem_cons_of_mem _ List.mem_cons_self
    have plain : beforeLast.isSpecRest .args .args = false := by
      unfold Param.isSpecRest
      split
      · rename_i v hv
        simp [h _ mem v hv]
      · simp
    rw [plain, Bool.false_and, if_neg Bool.false_ne_true]
  · rfl

private theorem exec_boundOr {j : Judge} {owner : Option ClassTy} {s : CheckState} {c : ClassTy}
    (seen : ∀ d, owner = some d → ∀ σ, memberSolution w.classes d none = some σ →
      F.FixesSignature w σ f)
    (settled : ∀ cell outcome, f.ret ≠ .deferred cell outcome) (unannotated : f.Unannotated)
    (whole : ∀ p ∈ f.params, ∀ v, p.type = some (.var v) → v.access = .whole)
    (hs : s.inference = F.inf) :
    exec (Match.boundOr w j (.of (.cls c.toInstance)) (.function f) owner) s =
      (.ok (.function f.withoutReceiver), s) := by
  have dropped : f.withoutReceiver.dropSpecRest = pure f.withoutReceiver :=
    dropSpecRest_eq fun p hp => whole p (params_withoutReceiver.subset hp)
  unfold Match.boundOr
  rw [exec_bind_of_ok (exec_bind_function seen settled unannotated c hs)]
  dsimp only [Ty.dropSpecRest]
  rw [dropped]
  rfl

end Fragment

/-- The variables that stand as a whole in a method that is asked for. -/
def Requirement.whole (r : Requirement) : List TypeVar :=
  match r.member.declaredType with
  | some (.function f) => f.whole
  | _ => []

/-- The methods that are compared for a requirement, without their receivers; none if the class has
no such method. -/
def World.methods (w : World) (id : ClassId) (r : Requirement) :
    Option (FunctionTy × FunctionTy) := do
  let f ← r.member.declaredType.bind Ty.asFunction?
  let found ← w.classes.memberOf id r.name
  let g ← found.member.declaredType.bind Ty.asFunction?
  pure (f.withoutReceiver, g.withoutReceiver)

/-- A method that is bound is a new object: no type is one with a method that the class has for the
protocol. -/
def World.BindsAnew (w : World) (p c : ClassId) : Prop :=
  ∀ r ∈ Requirement.all w.classes false (.ofId p), ∀ {f g : FunctionTy},
    w.methods c r = some (f, g) → ∀ t, w.identity.identical t (.function g) = false

namespace Fragment

section

variable (F : Fragment) (w : World)

/-- A generic protocol apart from the fragment, of which each type parameter has a name of its own. -/
structure GenericProtocol (p : ClassId) : Prop where
  outside : ¬ F.ids p
  apart : F.Apart w (.forScope (w.classes.decl p).scope)
  scope : (w.classes.decl p).scope ≠ ""
  own : ∀ id, (w.classes.decl id).scope = (w.classes.decl p).scope → id = p
  generic : (w.classes.decl p).params ≠ []
  params : ∀ v ∈ (w.classes.decl p).params,
    v.scope = (w.classes.decl p).scope ∧ v.access = .whole ∧ v.bound = none ∧
      v.key ≠ (w.classes.selfVar (.ofId p)).key
  distinct : ((w.classes.decl p).params.map (·.key)).Nodup

/-- A generic protocol apart from the fragment, whose type parameters stand in its methods as a whole,
each at one position at most. -/
structure LinearProtocol (p : ClassId) : Prop where
  outside : ¬ F.ids p
  apart : F.Apart w (.forScope (w.classes.decl p).scope)
  scope : (w.classes.decl p).scope ≠ ""
  own : ∀ id, (w.classes.decl id).scope = (w.classes.decl p).scope → id = p
  generic : (w.classes.decl p).params ≠ []
  params : ∀ v ∈ (w.classes.decl p).params,
    v.scope = (w.classes.decl p).scope ∧ v.access = .whole ∧ v.bound = none ∧
      v.key ≠ (w.classes.selfVar (.ofId p)).key
  distinct : ((w.classes.decl p).params.map (·.key)).Nodup
  methods : ∀ r ∈ Requirement.all w.classes false (.ofId p), ∃ f, r.member.IsMethod f ∧
    f.Unannotated ∧ F.Linear w (w.classes.decl p).params f
  once : ((Requirement.all w.classes false (.ofId p)).flatMap Requirement.whole).Pairwise
    fun u v => u.key ≠ v.key

/-- What a class has of the members that a protocol asks for is declared elsewhere, as methods with
closed signatures. -/
structure Supplies (p c : ClassId) : Prop where
  ordinary : w.classes.isTypedDict (.ofId c) = false
  methods : ∀ r ∈ Requirement.all w.classes false (.ofId p), ∀ found,
    w.classes.memberOf c r.name = some found → ∃ owner g, found.owner = some owner ∧
      owner.id ≠ p ∧ found.member.IsMethod g ∧ F.ClosedMethod w g

/-- The class has a method under the name of a requirement. -/
structure Answered (p c : ClassId) (r : Requirement) (found : FoundMember) (owner : ClassTy)
    (f g : FunctionTy) : Prop where
  present : w.classes.memberOf c r.name = some found
  declared : found.owner = some owner
  other : owner.id ≠ p
  asked : r.member.IsMethod f
  unannotated : f.Unannotated
  linear : F.Linear w (w.classes.decl p).params f
  method : found.member.IsMethod g
  closed : F.ClosedMethod w g

/-- Closed types for all parameters of a class. -/
structure Arguments (p : ClassId) (A : List Ty) : Prop where
  full : A.length = (w.classes.decl p).params.length
  has : ∀ t ∈ A, F.Has t
  closed : ∀ t ∈ A, t.Closed w.classes

end

variable {F : Fragment} {w : World} {f g : FunctionTy} {ρ σ : Solution} {p c : ClassId}
  {A : List Ty} {r : Requirement} {k n : Nat}

theorem LinearProtocol.toGeneric (hP : F.LinearProtocol w p) : F.GenericProtocol w p :=
  ⟨hP.outside, hP.apart, hP.scope, hP.own, hP.generic, hP.params, hP.distinct⟩

section

variable (hP : F.GenericProtocol w p)
include hP

theorem GenericProtocol.solves :
    (Solution.forScope (w.classes.decl p).scope).solves (w.classes.decl p).scope = true :=
  solves_addScope_self hP.scope

theorem GenericProtocol.solvable :
    Solvable (.forScope (w.classes.decl p).scope) (w.classes.decl p).params := by
  intro v hv
  obtain ⟨scope, whole, unbounded, -⟩ := hP.params v hv
  rw [scope]
  exact ⟨hP.solves, whole, unbounded⟩

/-- The type parameters stay where those of another class are filled in. -/
theorem GenericProtocol.keeps_other {owner : ClassTy} (other : owner.id ≠ p) {σ : Solution}
    (hσ : memberSolution w.classes owner none = some σ) :
    ∀ v ∈ (w.classes.decl p).params, Substitution.ofVar σ false v = .var v := by
  intro v hv
  have shown : σ = Solution.ofClass w.classes owner := by
    unfold memberSolution at hσ
    split at hσ
    · rename_i given
      cases given
    · split at hσ
      · exact (Option.some.inj hσ).symm
      · cases hσ
  apply ofVar_eq_var
  rw [shown, solves_eq (scopes_ofClass _ _), (hP.params v hv).1]
  refine Bool.eq_false_iff.2 fun solves => ?_
  rcases solves_addScope solves with solves | same
  · simp [Solution.solves, Solution.empty] at solves
  · exact other (hP.own owner.id same.symm)

/-- The class of the receiver is put into the place of no type parameter. -/
theorem GenericProtocol.keeps_self (candidate : ClassTy) :
    ∀ v ∈ (w.classes.decl p).params, Substitution.ofVar
      ((Solution.forScope (w.classes.decl p).scope).withSelf w.classes (.ofId p) candidate)
        false v = .var v := by
  intro v hv
  obtain ⟨-, -, -, name⟩ := hP.params v hv
  have nothing : ((Solution.forScope (w.classes.decl p).scope).withSelf w.classes (.ofId p)
      candidate).get? v = none := by
    unfold Solution.withSelf
    dsimp only
    rw [Solution.get?_insert, if_neg name, Solution.get?, entries_addScope, Solution.forScope,
      entries_addScope]
    rfl
  unfold Substitution.ofVar
  rw [nothing]
  simp

end

section

variable (hP : F.LinearProtocol w p) (hC : F.Supplies w p c)
  (hr : r ∈ Requirement.all w.classes false (.ofId p))
include hP hC hr

/-- The class lacks what is asked for, or two methods are compared. -/
theorem methods_cases :
    (w.classes.memberOf c r.name = none ∧ w.methods c r = none) ∨
      ∃ found owner f g, F.Answered w p c r found owner f g ∧
        w.methods c r = some (f.withoutReceiver, g.withoutReceiver) := by
  obtain ⟨f, asked, unannotated, linear⟩ := hP.methods r hr
  cases present : w.classes.memberOf c r.name with
  | none => exact .inl ⟨rfl, by simp [World.methods, asked.type, present, Ty.asFunction?]⟩
  | some found =>
    obtain ⟨owner, g, howner, other, method, closed⟩ := hC.methods r hr found present
    refine .inr ⟨found, owner, f, g, ?_, ?_⟩
    · exact ⟨present, howner, other, asked, unannotated, linear, method, closed⟩
    · simp [World.methods, asked.type, method.type, present, Ty.asFunction?]

end

/-! ## Compared methods -/

theorem exec_lift_of_steady {α : Type} {m : StateM Inference α} {a : α} {s : CheckState}
    (h : F.Steady (· = a) m) (hs : s.inference = F.inf) : exec (lift m) s = (.ok a, s) := by
  obtain ⟨b, hb, rfl⟩ := h
  exact exec_lift_of_eq (hs ▸ hb)

/-- The comparison of a class without type arguments with a specialization. -/
def plainMatch (w : World) (p c : ClassId) (A : List Ty) : Match :=
  ⟨(ClassTy.ofId p).given A, .ofId c, false,
    (Solution.forScope (w.classes.decl p).scope).withSelf w.classes (.ofId p) (.ofId c)⟩

theorem match_of (ordinary : w.classes.isTypedDict (.ofId c) = false) :
    Match.of w ((ClassTy.ofId p).given A) (.ofId c) false = plainMatch w p c A := by
  unfold Match.of
  rw [ordinary]
  rfl

/-- What is found for an instance of a class without type arguments is its member. -/
theorem exec_find {m : Match} (instances : m.asObject = false) (candidate : m.candidate = .ofId c)
    (name : String) (s : CheckState) :
    exec (m.find w name) s =
      (.ok ((w.classes.memberOf c name).map fun found => (found, false)), s) := by
  have nothing : exec (m.findOnMetaclass w name) s = (.ok none, s) := by
    unfold Match.findOnMetaclass
    rw [instances]
    cases w.classes.metaclass? m.candidate <;> rfl
  have looked : exec (lift (w.classes.lookup m.candidate name)) s =
      (.ok (w.classes.memberOf c name), s) := by
    rw [candidate, lookup_ofId]
    rfl
  unfold Match.find
  rw [exec_bind_of_ok nothing]
  dsimp only
  rw [exec_bind_of_ok looked]
  rfl

section

variable {found : FoundMember} {owner : ClassTy} {s : CheckState} (hs : s.inference = F.inf)
include hs

theorem exec_foundType {m : Match} (declared : found.owner = some owner)
    (method : found.member.IsMethod g) (settled : ∀ cell outcome, g.ret ≠ .deferred cell outcome)
    (fixes : ∀ σ, F.Fixes w σ (.function g)) :
    exec (m.foundType w found) s = (.ok (.function g), s) := by
  have demanded : exec (Match.demandPlain (.function g)) s = (.ok (), s) := by
    unfold Match.demandPlain
    dsimp only
    rw [exec_demand, demand_eq settled]
  have seen : F.Steady (· = .function g)
      ((Ty.function g).specialize w.classes owner (some m.candidate)) :=
    steady_specialize_eq fun σ _ => fixes σ
  unfold Match.foundType
  rw [declared]
  dsimp only
  rw [exec_bind_of_ok (exec_inference s), method.effectiveType, exec_bind_of_ok demanded]
  exact exec_lift_of_steady seen hs

variable (hP : F.GenericProtocol w p)
include hP

omit hP in
/-- A type that no other class has anything to put into is seen as it is written. -/
theorem exec_seenFrom_of_fixes {t : Ty}
    (fixes : r.owner.id ≠ p → ∀ σ, memberSolution w.classes r.owner none = some σ → F.Fixes w σ t) :
    exec (r.seenFrom w ((ClassTy.ofId p).given A) t) s = (.ok t, s) := by
  unfold Requirement.seenFrom
  cases view : r.owner.sameClass ((ClassTy.ofId p).given A) with
  | true => rfl
  | false =>
    have other : r.owner.id ≠ p := beq_eq_false_iff_ne.1 view
    exact exec_lift_of_steady (steady_specialize_eq (fixes other)) hs

theorem exec_seenFrom (linear : F.Linear w (w.classes.decl p).params f) :
    exec (r.seenFrom w ((ClassTy.ofId p).given A) (.function f)) s = (.ok (.function f), s) :=
  exec_seenFrom_of_fixes hs fun other _ hσ =>
    (linear.fixesSignature (hP.keeps_other other hσ)).fixes

omit hs in
private theorem whole_of_linear (linear : F.Linear w (w.classes.decl p).params f) :
    ∀ q ∈ f.params, ∀ v, q.type = some (.var v) → v.access = .whole := by
  intro q hq v hv
  have place := typeOrUnknown_eq hv ▸ linear.takes q hq
  cases place with
  | closed _ closed => exact absurd rfl (closed.not_var v)
  | var param _ => exact (hP.solvable v param).2.1

theorem exec_comparedTypes (h : F.Answered w p c r found owner f g) (j : Judge) :
    exec ((plainMatch w p c A).comparedTypes w j found false (.function f) (.function g)) s =
      (.ok (.function f.withoutReceiver, .function g.withoutReceiver), s) := by
  have plain : ∀ q ∈ g.params, ∀ v, q.type = some (.var v) → v.access = .whole := fun q hq v hv =>
    absurd rfl (((closed_function h.closed.closed).1 q hq _ hv).not_var v)
  have dest : exec (lift ((Ty.function f).substitute w.classes (plainMatch w p c A).self false)) s =
      (.ok (.function f), s) :=
    exec_lift_of_steady (h.linear.fixesSignature (hP.keeps_self _)).fixes.substitute hs
  have bound_source : exec (Match.boundOr w j (plainMatch w p c A).receiver (.function g)
      (some owner)) s = (.ok (.function g.withoutReceiver), s) :=
    exec_boundOr (fun _ _ σ _ => h.closed.fixesSignature σ) h.closed.has.settled
      h.closed.unannotated plain hs
  have bound_dest : exec (Match.boundOr w j
      (.of (.cls (plainMatch w p c A).candidate.toInstance)) (.function f) (some owner)) s =
        (.ok (.function f.withoutReceiver), s) := by
    refine exec_boundOr (fun d hd σ hσ => ?_) h.linear.settled h.unannotated
      (whole_of_linear hP h.linear) hs
    cases hd
    exact h.linear.fixesSignature (hP.keeps_other h.other hσ)
  unfold Match.comparedTypes
  rw [h.declared]
  change exec (lift ((Ty.function f).substitute w.classes (plainMatch w p c A).self false) >>= _) s
    = _
  rw [exec_bind_of_ok dest, exec_bind_of_ok bound_source, exec_bind_of_ok bound_dest]
  rfl

end

/-- The methods that are compared for a requirement are one, or they meet, by the ways in which their
positions fit. -/
def Met (F : Fragment) (w : World) (fits : Variance → Ty → Ty → Prop) (c : ClassId)
    (r : Requirement) : Prop :=
  ∃ f g, w.methods c r = some (f, g) ∧ F.Joined w fits f g

def foundFor (F : Fragment) (w : World) (c : ClassId) (r : Requirement) : List (TypeVar × Ty) :=
  (w.methods c r).toList.flatMap fun p => p.1.findings F.inf p.2

theorem foundFor_eq (h : w.methods c r = some (f, g)) : F.foundFor w c r = f.findings F.inf g := by
  rw [foundFor, h, Option.toList_some, List.flatMap_singleton]

section

variable {l : List Pending} {L : Link F} {found : List (TypeVar × Ty)} (hf : F.wide)
  (hP : F.LinearProtocol w p) (base : L.base l [])
  (hj : L.Judges (judge w (k + 1)) (judge w n))
include hf hP base hj

private theorem weighs_matchType {member : FoundMember} {owner : ClassTy}
    (h : F.Answered w p c r member owner f g)
    (new : Distinct (found ++ f.withoutReceiver.findings F.inf g.withoutReceiver)) :
    Weighs L.clean (F.seeking (.forScope (w.classes.decl p).scope) l found)
      (F.seeking (.forScope (w.classes.decl p).scope) l
        (found ++ f.withoutReceiver.findings F.inf g.withoutReceiver))
      (F.Joined w (F.FitsApart w n) f.withoutReceiver g.withoutReceiver)
      ((plainMatch w p c A).matchType w (judge w (k + 2)) r member false) := by
  have inference {found : List (TypeVar × Ty)} {s : CheckState}
      (hs : (F.seeking (.forScope (w.classes.decl p).scope) l found).Is s) :
      s.inference = F.inf := by
    obtain ⟨τ, seeks, -⟩ := hs
    exact seeks.inference
  have linear := h.linear.withoutReceiver
  have positions {m : Mode} (ahead : m.reverse = false) :
      Weighs L.clean (F.seeking (.forScope (w.classes.decl p).scope) l found)
        (F.seeking (.forScope (w.classes.decl p).scope) l
          (found ++ f.withoutReceiver.findings F.inf g.withoutReceiver))
        (f.withoutReceiver.Meets F.inf (F.FitsApart w n) g.withoutReceiver)
        (assignFunction w (judge w (k + 1)) m f.withoutReceiver g.withoutReceiver) :=
    run_assignFunction (Weighs.rules _) (Q := fun s => F.Has s ∧ s.Closed w.classes) @inference
      (fun loose hd hs new =>
        weighs_place hf hP.apart base hj hP.toGeneric.solvable loose hd hs.1 hs.2 new)
      ahead linear.settled h.closed.settled linear.takes h.closed.takes linear.returnType
      h.closed.returnType new
  have loose : ({ (plainMatch w p c A).mode with
      invariant := r.member.isMutableVariable } : Mode).invariant = false :=
    h.asked.isMutableVariable
  have still (one : f.withoutReceiver = g.withoutReceiver) :
      f.withoutReceiver.findings F.inf g.withoutReceiver = [] := by
    rw [one]
    exact h.closed.findings_eq_nil _
  have joined {m : Mode} (ahead : m.reverse = false) (loose : m.invariant = false) :
      Weighs L.clean (F.seeking (.forScope (w.classes.decl p).scope) l found)
        (F.seeking (.forScope (w.classes.decl p).scope) l
          (found ++ f.withoutReceiver.findings F.inf g.withoutReceiver))
        (F.Joined w (F.FitsApart w n) f.withoutReceiver g.withoutReceiver)
        ((judge w (k + 2)).assign m (some (.function f.withoutReceiver))
          (some (.function g.withoutReceiver))) :=
    (run_shared (Weighs.rules _) still (positions ahead)).congr fun s _ =>
      exec_assign_function (k + 1) loose _ _ s
  have compared := (joined rfl loose).child.explained (Link.quiet_tellMember r)
  have final : Match.agreeOnFinal r member = pure true := by
    rw [Match.agreeOnFinal, h.asked.isFinal, h.method.isFinal]
    rfl
  unfold Match.matchType
  rw [h.asked.type, final]
  refine Weighs.after (fun s hs => exec_seenFrom (inference hs) hP.toGeneric h.linear) ?_
  refine Weighs.after (fun s hs => exec_foundType (inference hs) h.declared h.method
    h.closed.has.settled fun σ => (h.closed.fixesSignature σ).fixes) ?_
  refine Weighs.after (fun s hs => exec_comparedTypes (inference hs) hP.toGeneric h _) ?_
  exact ((compared.both (.yes trivial)).iff (and_true _).to_iff).child

/-- A requirement is met if the methods meet, apart from what is found for the variables. -/
theorem weighs_matchMember (hC : F.Supplies w p c) (hr : r ∈ Requirement.all w.classes false (.ofId p))
    (new : Distinct (found ++ F.foundFor w c r)) :
    Weighs L.clean (F.seeking (.forScope (w.classes.decl p).scope) l found)
      (F.seeking (.forScope (w.classes.decl p).scope) l (found ++ F.foundFor w c r))
      (F.Met w (F.FitsApart w n) c r)
      ((plainMatch w p c A).matchMember w (judge w (k + 2)) r) := by
  unfold Match.matchMember
  refine Weighs.after (fun s _ => exec_find rfl rfl r.name s) ?_
  rcases methods_cases hP hC hr with ⟨missing, unmatched⟩ | ⟨member, owner, f, g, h, matched⟩
  · rw [missing, foundFor, unmatched, Option.toList_none, List.flatMap_nil, List.append_nil]
    refine (Weighs.refuse .memberMissing _).iff ?_
    simp [Met, unmatched]
  · have classVar : Match.agreeOnClassVar r member = pure true := by
      simp [Match.agreeOnClassVar, h.method.inClass]
    rw [foundFor_eq matched] at new ⊢
    rw [h.present]
    dsimp only [Option.map_some]
    rw [classVar]
    refine ((weighs_matchType hf hP base hj h new).both (.yes trivial)).iff ?_
    simp [Met, matched]

end

end Fragment

end Conformance
