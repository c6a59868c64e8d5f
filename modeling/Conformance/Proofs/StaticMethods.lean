import Conformance.Proofs.Exactness
import Conformance.Proofs.Heirs
import Conformance.Proofs.Inherited

/-!
# Modules and static methods

Modules and classes are matched with protocols by two procedures. For a protocol of methods and a
class that declares the functions of a module as static methods, both come down to the same
comparisons: each method that is asked for, without its receiver, with the function of its name.
-/

namespace Conformance

open Check

/-! ## Fragments without type variables -/

namespace Fragment

/-- There may be type arguments, but no type variables. -/
structure Ground (F : Fragment) : Prop where
  wide : F.wide
  vars : ∀ v, ¬ F.vars v

variable {F : Fragment} {w : World} (hF : F.Ground)
include hF

theorem Ground.not_var {v : TypeVar} : ¬ F.Has (.var v) := by
  intro h
  cases h with
  | var here _ => exact hF.vars v here

variable (hw : F.Scopes w)
include hw

theorem Ground.params_eq_nil {id : ClassId} (hi : F.ids id) : (w.classes.decl id).params = [] :=
  List.eq_nil_iff_forall_not_mem.2 fun v hv => hF.not_var (hw.params hi v hv).2

/-- There is nothing to put anything into. -/
theorem Ground.fixes {t : Ty} (ht : F.Has t) (σ : Solution) : F.Fixes w σ t := by
  have untouched : F.Untouched w σ :=
    ⟨fun v hv => (hF.vars v hv).elim, fun hi => .inl (hF.params_eq_nil hw hi)⟩
  exact fun n => steady_ofTyAt_eq untouched n ht

theorem Ground.fixesSignature {f : FunctionTy} (hf : F.HasFunction f) (σ : Solution) :
    F.FixesSignature w σ f :=
  ⟨fun p hp t ht => hF.fixes hw (hf.params p hp t ht) σ,
    fun t ht => hF.fixes hw (hf.declared t ht) σ, hf.settled⟩

omit hw in
theorem Ground.dropSpecRest_eq {f : FunctionTy} (hf : ∀ p ∈ f.params, F.HasOption p.type) :
    f.dropSpecRest = pure f :=
  Fragment.dropSpecRest_eq fun p hp _ hv => (hF.not_var (hf p hp _ hv)).elim

omit hF hw in
private theorem HasFunction.withKind {f : FunctionTy} (h : F.HasFunction f) (kind : MethodKind) :
    F.HasFunction { f with kind := kind } := .function h.params h.declared h.settled

end Fragment

/-! ## Bound methods -/

/-- A method, overloaded or not, as it is reached through an instance; none without overloads. -/
def Ty.bound? : Ty → Option Ty
  | .function f => some (.function f.withoutReceiver)
  | .overloaded fs =>
    match fs.map FunctionTy.withoutReceiver with
    | [] => none
    | [f] => some (.function f)
    | gs => some (.overloaded gs)
  | t => some t

def Ty.withoutReceiver (t : Ty) : Ty := t.bound?.getD t

private theorem Ty.isCallable_withoutReceiver {t : Ty} (h : t.isCallable = true) :
    t.withoutReceiver.isCallable = true := by
  unfold Ty.withoutReceiver Ty.bound?
  split
  · rfl
  · split <;> rfl
  · exact h

private theorem Ty.withoutReceiver_static {f : FunctionTy} (h : f.kind = .staticMethod) :
    (Ty.function f).withoutReceiver = .function f :=
  congrArg Ty.function (if_pos h)

/-- The methods that make up a type. -/
def Ty.methods : Ty → List FunctionTy
  | .function f => [f]
  | .overloaded fs => fs
  | _ => []

namespace Fragment

/-- A method that loses its receiver alone when it is bound: no receiver is annotated, and the
signature is seen as it is written. -/
structure BindsAsWritten (F : Fragment) (w : World) (owner : Option ClassTy) (f : FunctionTy) :
    Prop where
  seen : ∀ c, owner = some c → ∀ σ, memberSolution w.classes c none = some σ →
    F.FixesSignature w σ f
  settled : ∀ cell outcome, f.ret ≠ .deferred cell outcome
  unannotated : f.Unannotated

section

variable {F : Fragment} {w : World} {j : Judge} {s : CheckState} {owner : Option ClassTy}
  (c : ClassTy) (hs : s.inference = F.inf)
include hs

private theorem exec_bindOverloads {fs : List FunctionTy}
    (h : ∀ f ∈ fs, F.BindsAsWritten w owner f) :
    exec (bindOverloads w j (.of (.cls c.toInstance)) owner fs) s =
      (.ok (fs.map FunctionTy.withoutReceiver), s) := by
  induction fs with
  | nil => rfl
  | cons f fs ih =>
    obtain ⟨seen, settled, unannotated⟩ := h f List.mem_cons_self
    have first : exec (bindFunction w j (.of (.cls c.toInstance)) f owner) s =
        (.ok (some f.withoutReceiver), s) := exec_bindFunction seen settled unannotated c hs
    have rest := ih fun g hg => h g (List.mem_cons_of_mem f hg)
    unfold bindOverloads
    rw [exec_bind_of_ok first, exec_bind_of_ok rest]
    rfl

theorem exec_bind_method {t : Ty} (h : ∀ f ∈ t.methods, F.BindsAsWritten w owner f) :
    exec (bind w j (.of (.cls c.toInstance)) t owner) s = (.ok t.bound?, s) := by
  cases t with
  | function f =>
    obtain ⟨seen, settled, unannotated⟩ := h f List.mem_cons_self
    exact exec_bind_function seen settled unannotated c hs
  | overloaded fs =>
    have bound : exec (bindOverloads w j (.of (.cls c.toInstance)) owner fs) s =
        (.ok (fs.map FunctionTy.withoutReceiver), s) := exec_bindOverloads c hs h
    unfold Conformance.bind Ty.bound?
    dsimp only
    rw [exec_bind_of_ok bound]
    generalize fs.map FunctionTy.withoutReceiver = gs
    rcases gs with _ | ⟨g, _ | ⟨g', gs⟩⟩ <;> rfl
  | _ => rfl

end

variable {F : Fragment} {w : World} (hF : F.Ground) (hw : F.Scopes w) {j : Judge} {s : CheckState}
  (hs : s.inference = F.inf)
include hF hw

private theorem Ground.bindsAsWritten {t : Ty} (ht : F.Has t) (unannotated : t.Unannotated)
    (owner : Option ClassTy) : ∀ f ∈ t.methods, F.BindsAsWritten w owner f := by
  have written {f : FunctionTy} (hf : F.HasFunction f) (first : f.Unannotated) :
      F.BindsAsWritten w owner f :=
    ⟨fun _ _ σ _ => hF.fixesSignature hw hf σ, hf.settled, first⟩
  intro f hf
  cases ht with
  | function params ret settled =>
    cases List.mem_singleton.1 hf
    exact written (.function params ret settled) unannotated
  | overloaded each => exact written (each f hf) (unannotated f hf)
  | _ => cases hf

include hs

private theorem exec_boundOr_method {owner : Option ClassTy} {t : Ty} (ht : F.Has t)
    (unannotated : t.Unannotated) (c : ClassTy) :
    exec (Match.boundOr w j (.of (.cls c.toInstance)) t owner) s = (.ok t.withoutReceiver, s) := by
  have function {f : FunctionTy} (hf : F.HasFunction f) :
      (Ty.function f.withoutReceiver).dropSpecRest = pure (.function f.withoutReceiver) := by
    have dropped := hF.dropSpecRest_eq hf.withoutReceiver.params
    unfold Ty.dropSpecRest
    dsimp only
    rw [dropped]
    rfl
  have dropped : ∀ b, t.bound? = some b → b.dropSpecRest = pure b := by
    intro b hb
    cases t with
    | function f =>
      cases hb
      exact function ht
    | overloaded fs =>
      cases ht with
      | overloaded each =>
        unfold Ty.bound? at hb
        dsimp only at hb
        match fs with
        | [] => cases hb
        | [f] =>
          cases hb
          exact function (each f List.mem_cons_self)
        | _ :: _ :: _ =>
          cases hb
          rfl
    | _ =>
      cases hb
      rfl
  unfold Match.boundOr Ty.withoutReceiver
  rw [exec_bind_of_ok (exec_bind_method c hs (hF.bindsAsWritten hw ht unannotated owner))]
  cases hb : t.bound? with
  | none => rfl
  | some b =>
    dsimp only
    rw [dropped b hb]
    rfl

end Fragment

/-! ## Functions that are declared twice -/

def FunctionTy.asStatic (f : FunctionTy) : FunctionTy := { f with kind := .staticMethod }

def Ty.asStatic : Ty → Ty
  | .function f => .function f.asStatic
  | t => t

section

variable {w : World} {m : Mode} {dest : Ty} (j : Judge)

private theorem assignTy_callable (loose : m.invariant = false) (hd : dest.isCallable = true)
    (f : FunctionTy) :
    assignTy w j m dest (.function f) = assignToCallable w j m dest (.function f) := by
  funext s
  change exec (solution >>= _) s = _
  rw [exec_bind_of_ok (exec_solution s)]
  unfold assignProper
  rw [loose]
  cases dest with
  | function | overloaded => rfl
  | _ => cases hd

private theorem assignToOverloads_asStatic (f : FunctionTy) (gs : List FunctionTy) :
    assignToOverloads w j m (.function f.asStatic) gs = assignToOverloads w j m (.function f) gs := by
  induction gs with
  | nil => rfl
  | cons g gs ih =>
    unfold assignToOverloads
    rw [ih]
    rfl

private theorem assignTy_asStatic (loose : m.invariant = false) (hd : dest.isCallable = true)
    (f : FunctionTy) :
    assignTy w j m dest (.function f.asStatic) = assignTy w j m dest (.function f) := by
  rw [assignTy_callable j loose hd, assignTy_callable j loose hd]
  cases dest with
  | function g => rfl
  | overloaded gs => exact assignToOverloads_asStatic j f gs
  | _ => cases hd

end

/-! ## What the two matchers compare -/

/-- A method, overloaded or not, is asked for, and no receiver of it is annotated. -/
structure Requirement.IsMethod (r : Requirement) (t : Ty) : Prop where
  functions : ∀ d ∈ r.member.declarations, d.kind = .function
  declared : r.member.declaredType = some t
  callable : t.isCallable = true
  unannotated : t.Unannotated

namespace World

variable (w : World)

/-- The protocol asks for methods only, and not for the hook that makes a class object take type
arguments. -/
def AsksForMethods (protocol : ClassTy) : Prop :=
  ∀ r ∈ Requirement.all w.classes true protocol,
    r.name ≠ "__class_getitem__" ∧ ∃ t, r.IsMethod t

/-- The module declares functions, and the class has each of them as a static method. -/
def Copies (id : ClassId) (table : TableId) : Prop :=
  ∀ e ∈ (w.moduleMembers table).entries, ∃ f m, e.2.declaredType = some (.function f) ∧
    (w.classes.decl id).members.find? e.1 = some m ∧
    m.IsMethod f.asStatic

/-- Where a method that is asked for, without its receiver, is one object with the function of its
name, or with that function as a static method, the function fits if the two are compared. -/
def SharesFitting (F : Fragment) (protocol : ClassTy) (table : TableId) : Prop :=
  ∀ r ∈ Requirement.all w.classes true protocol, ∀ (t : Ty) (m : Member) (f : FunctionTy),
    r.member.declaredType = some t → (w.moduleMembers table).find? r.name = some m →
    m.declaredType = some (.function f) →
    w.identity.identical t.withoutReceiver (.function f) = true ∨
      w.identity.identical t.withoutReceiver (.function f.asStatic) = true →
    ∀ n s, F.Start s →
      (exec (assignTy w (judge w n) .default t.withoutReceiver (.function f)) s).1 = .ok true

/-- The method that is asked for, without its receiver, is compared with the function of its
name. -/
def compareMethod (compare : Ty → Ty → Check Bool) (table : TableId) (r : Requirement) :
    Check Bool :=
  match (w.moduleMembers table).find? r.name with
  | none => refuse .memberMissing fun _ => [("name", r.name)]
  | some member =>
    match r.member.declaredType, member.declaredType with
    | some dest, some source =>
      child <| explained (child (compare dest.withoutReceiver source))
        (Match.tellMember .memberMismatch r)
    | _, _ => pure true

/-- All methods that are asked for are compared, where the type parameters of the protocol would be
solved for. -/
def compareMethods (compare : Ty → Ty → Check Bool) (protocol : ClassTy) (table : TableId) :
    Check Bool :=
  solvingFor (some (.forScope (w.classes.decl protocol.id).scope))
    (allOf (w.compareMethod compare table) (Requirement.all w.classes true protocol))

end World

def Judge.compareFunction (j : Judge) (dest source : Ty) : Check Bool :=
  j.assign .default (some dest) (some source)

def Judge.compareStatic (j : Judge) (dest source : Ty) : Check Bool :=
  j.assign .default (some dest) (some source.asStatic)

/-- What asks for methods asks for the same whether instances or class objects are matched. -/
theorem World.AsksForMethods.all_eq {w : World} {protocol : ClassTy}
    (h : w.AsksForMethods protocol) :
    Requirement.all w.classes false protocol = Requirement.all w.classes true protocol := by
  -- of each name that is declared, the nearest declaration is asked for
  have named : ∀ r ∈ (Requirement.protocols w.classes protocol).flatMap
      (Requirement.ofDeclared w.classes true), r.name ≠ "__class_getitem__" := by
    intro r hr
    have declared : (((Requirement.protocols w.classes protocol).flatMap
        (Requirement.ofDeclared w.classes true)).find? (·.name == r.name)).isSome = true :=
      List.find?_isSome.2 ⟨r, hr, beq_self_eq_true _⟩
    obtain ⟨first, found⟩ := Option.isSome_iff_exists.1 declared
    have same : first.name = r.name := by simpa using List.find?_some found
    have asked : first ∈ Requirement.all w.classes true protocol :=
      Requirement.mem_nearest.2 (same ▸ found)
    exact same ▸ (h first asked).1
  unfold Requirement.all
  congr 1
  refine List.flatMap_congr fun owner ho => congrArg (List.map _) (List.filter_congr fun e he => ?_)
  cases counted : Requirement.counts true e.1 e.2 with
  | true =>
    have mem : ⟨owner, e.1, e.2⟩ ∈ Requirement.ofDeclared w.classes true owner :=
      List.mem_map.2 ⟨e, List.mem_filter.2 ⟨he, counted⟩, rfl⟩
    have other := named _ (List.mem_flatMap.2 ⟨owner, ho, mem⟩)
    simpa [Requirement.counts, other] using counted
  | false =>
    unfold Requirement.counts at counted ⊢
    rw [Bool.true_or, Bool.and_true] at counted
    rw [counted, Bool.false_and]

private theorem ClassTable.memberOf_of_find? {classes : ClassTable} {id : ClassId} {name : String}
    {m : Member} (h : (classes.decl id).members.find? name = some m)
    (inClass : m.flags.inClass = true) :
    ∃ found, classes.memberOf id name = some found ∧ found.member = m ∧
      found.owner = some (.ofId id) := by
  unfold ClassTable.memberOf ClassTable.findIn
  simp only [ClassTy.ofId, h, FoundMember.of?, inClass, if_true]
  cases m.flags.inInstance <;> exact ⟨_, rfl, rfl, rfl⟩

namespace Fragment

variable {F : Fragment} {w : World} (hF : F.Ground) (hw : F.Covers w) {id : ClassId}
  {table : TableId} (copies : w.Copies id table) {r : Requirement} {t : Ty}
  (asked : r.IsMethod t) (ht : F.Has t) (n : Nat)
include hF hw copies asked ht

omit copies asked in
private theorem exec_seenFrom_ground (protocol : ClassTy) {s : CheckState}
    (hs : s.inference = F.inf) :
    exec (r.seenFrom w protocol t) s = (.ok t, s) := by
  unfold Requirement.seenFrom
  split
  · rfl
  · exact exec_lift_of_steady (steady_specialize_eq fun σ _ => hF.fixes hw.toScopes ht σ) hs

private theorem alike_matchModuleMember (protocol : ClassTy) :
    F.Alike (matchModuleMember w (judge w n) protocol (w.moduleMembers table) r)
      (w.compareMethod (judge w n).compareFunction table r) := by
  intro s hs
  unfold matchModuleMember World.compareMethod
  cases found : (w.moduleMembers table).find? r.name with
  | none => rfl
  | some member =>
    obtain ⟨f, -, declared, -, -⟩ := copies _ (MemberTable.mem_of_find? found)
    have effective : member.effectiveType s.inference = .function f := by
      rw [Member.effectiveType, declared]
    have required : exec (moduleRequiredType w (judge w n) protocol r t (.function f)) s =
        (.ok t.withoutReceiver, s) := by
      have bound : exec (Conformance.bind w (judge w n) (.of (.cls protocol.toInstance)) t
          (some protocol)) s = (.ok t.bound?, s) :=
        exec_bind_method protocol hs.inference
          (hF.bindsAsWritten hw.toScopes ht asked.unannotated _)
      unfold moduleRequiredType
      rw [exec_bind_of_ok (exec_seenFrom_ground hF hw ht protocol hs.inference),
        if_pos (by rw [asked.callable]; rfl), exec_bind_of_ok bound]
      rfl
    dsimp only
    rw [asked.declared, declared]
    dsimp only
    rw [exec_bind_of_ok (exec_inference s), effective, exec_bind_of_ok required]
    rfl

omit hF hw copies ht in
private theorem alike_assignMember_copy {m : Match} (candidate : m.candidate = .ofId id)
    {f : FunctionTy} :
    F.Alike (m.assignMember w (judge w n) r t.withoutReceiver (.function f.asStatic))
      (explained (child ((judge w n).compareStatic t.withoutReceiver (.function f)))
        (Match.tellMember .memberMismatch r)) := by
  have callable := Ty.isCallable_withoutReceiver asked.callable
  have plain : Match.property? w t.withoutReceiver = none := by
    generalize t.withoutReceiver = u at callable
    cases u with
    | cls => cases callable
    | _ => rfl
  have mode : m.mode = .default := by
    rw [Match.mode, candidate]
    rfl
  unfold Match.assignMember
  rw [plain]
  dsimp only
  rw [Member.isMutableVariable_of_functions asked.functions, mode]
  exact .refl _

omit copies in
private theorem exec_comparedTypes_copy {m : Match} (instances : m.asObject = false)
    {f : FunctionTy}
    (hf : F.HasFunction f) {found : FoundMember} {s : CheckState} (hs : s.inference = F.inf) :
    exec (m.comparedTypes w (judge w n) found false t (.function f.asStatic)) s =
      (.ok (t.withoutReceiver, .function f.asStatic), s) := by
  have dest : exec (lift (t.substitute w.classes m.self false)) s = (.ok t, s) :=
    exec_lift_of_steady (hF.fixes hw.toScopes ht m.self).substitute hs
  have source : exec (Match.boundOr w (judge w n) (.of (.cls m.candidate.toInstance))
      (.function f.asStatic) found.owner) s = (.ok _, s) :=
    exec_boundOr_method hF hw.toScopes hs (hf.withKind .staticMethod) (.inl rfl) m.candidate
  have receiver : m.receiver = .of (.cls m.candidate.toInstance) := by
    rw [Match.receiver, instances]
    rfl
  rw [Ty.withoutReceiver_static rfl] at source
  unfold Match.comparedTypes
  rw [receiver]
  change exec (lift (t.substitute w.classes m.self false) >>= _) s = _
  rw [exec_bind_of_ok dest, exec_bind_of_ok source, exec_bind_of_ok
    (exec_boundOr_method hF hw.toScopes hs ht asked.unannotated m.candidate)]
  rfl

private theorem alike_matchMember_copy {m : Match} (instances : m.asObject = false)
    (candidate : m.candidate = .ofId id)
    (lacks : (w.moduleMembers table).find? r.name = none → w.classes.memberOf id r.name = none) :
    F.Alike (m.matchMember w (judge w n) r)
      (w.compareMethod (judge w n).compareStatic table r) := by
  intro s hs
  unfold Match.matchMember World.compareMethod
  rw [exec_bind_of_ok (exec_find instances candidate r.name s)]
  cases found : (w.moduleMembers table).find? r.name with
  | none =>
    rw [lacks found]
    rfl
  | some member =>
    have here := MemberTable.mem_of_find? found
    obtain ⟨f, own, declared, copied, method⟩ := copies _ here
    obtain ⟨there, present, rfl, owner⟩ := ClassTable.memberOf_of_find? copied method.inClass
    have hf : F.HasFunction f := by
      have has := hw.modules table _ here
      rwa [Member.effectiveType, declared] at has
    have static := hf.withKind .staticMethod
    -- no function is final, and every method is declared in the body of its class
    have final : Match.agreeOnFinal r there = pure true := by
      rw [Match.agreeOnFinal, Member.isFinal_of_functions asked.functions, method.isFinal]
      rfl
    have classVar : Match.agreeOnClassVar r there = pure true := by
      simp [Match.agreeOnClassVar, method.inClass]
    have typed := exec_foundType hs.inference owner method static.settled
      (m := m) (w := w) fun σ => hF.fixes hw.toScopes static σ
    dsimp only at declared
    rw [present, asked.declared]
    dsimp only [Option.map_some]
    rw [classVar, declared]
    unfold Match.matchType
    rw [asked.declared, final]
    simp only [pure_bind, Bool.and_true, bind_pure]
    rw [exec_bind_of_ok (exec_seenFrom_ground hF hw ht m.protocol hs.inference),
      exec_bind_of_ok typed,
      exec_bind_of_ok (exec_comparedTypes_copy hF hw asked ht n instances hf hs.inference)]
    exact Alike.child (alike_assignMember_copy asked n candidate) s hs

end Fragment

/-! ## Verdicts -/

namespace Fragment

variable {F : Fragment} {w : World} {id : ClassId} {protocol : ClassTy} {table : TableId} {n : Nat}
  {s : CheckState}

theorem has_withoutReceiver {t : Ty} (ht : F.Has t) : F.Has t.withoutReceiver := by
  cases ht with
  | function params ret settled => exact HasFunction.withoutReceiver (.function params ret settled)
  | @overloaded fs each =>
    have bound : ∀ g ∈ fs.map FunctionTy.withoutReceiver, F.HasFunction g := by
      intro g hg
      obtain ⟨f, hf, rfl⟩ := List.mem_map.1 hg
      exact HasFunction.withoutReceiver (each f hf)
    unfold Ty.withoutReceiver Ty.bound?
    dsimp only
    generalize fs.map FunctionTy.withoutReceiver = gs at bound
    rcases gs with _ | ⟨g, _ | ⟨g', gs⟩⟩
    · exact .overloaded each
    · exact bound g List.mem_cons_self
    · exact .overloaded bound
  | cls id narrow args => exact .cls id narrow args
  | var here bound => exact .var here bound
  | union each built => exact .union each built
  | module name table => exact .module name table
  | unknown => exact .unknown
  | any => exact .any
  | noneObject => exact .noneObject

theorem Ground.idle (hF : F.Ground) (σ : Option Solution) : F.Idle σ :=
  fun v hv => (hF.vars v hv).elim

private theorem Ground.agrees_of_yes (hF : F.Ground) {L : Link F} {act act' : Check Bool}
    (h : L.Calm (· = true) act) (h' : L.Calm (· = true) act') : L.Agrees .idle act act' := by
  refine ⟨h.imp fun _ _ => trivial, h'.imp fun _ _ => trivial, fun hs he he' _ => ?_⟩
  obtain ⟨rfl, -⟩ := h.elim hs.left he
  obtain ⟨rfl, -⟩ := h'.elim hs.right he'
  exact ⟨F.agree_refl true, hF.idle _, hF.idle _⟩

section

variable (hF : F.Ground) (hw : F.Covers w)
include hw

private theorem calm_of_fits {d u : Ty} (hd : F.Has d) (hu : F.Has u)
    (fits : ∀ s, F.Start s → (exec (assignTy w (judge w n) .default d u) s).1 = .ok true) :
    F.beside.Calm (· = true) ((judge w (n + 1)).assign .default (some d) (some u)) := by
  intro s hs
  obtain ⟨b, t, he, -, kept⟩ := ((follows_itself hw (n + 1)).assign (Regime.modes_refl .same .default)
    (hasOption_some hd) (hasOption_some hu)).left s hs
  refine ⟨b, t, he, ?_, kept⟩
  change exec (assignStep w (judge w n) .default (some d) (some u)) s = _ at he
  rcases assignStep_cases d u with ⟨-, identical⟩ | compared
  · rw [identical] at he
    cases he
    rfl
  · have yes := fits s hs
    rw [← compared, he] at yes
    exact Except.ok.inj yes

include hF

private theorem agrees_compareStatic {d : Ty} {f : FunctionTy} (callable : d.isCallable = true)
    (hd : F.Has d) (hf : F.HasFunction f)
    (shared : w.identity.identical d (.function f) = true ∨
        w.identity.identical d (.function f.asStatic) = true →
      ∀ n s, F.Start s → (exec (assignTy w (judge w n) .default d (.function f)) s).1 = .ok true) :
    F.beside.Agrees .idle ((judge w n).compareStatic d (.function f))
      ((judge w n).compareFunction d (.function f)) := by
  have itself := (follows_itself hw n).assign (Regime.modes_refl .idle .default) (hasOption_some hd)
    (hasOption_some (t := .function f) hf)
  cases n with
  | zero => exact itself
  | succ n =>
    have copied : assignTy w (judge w n) .default d (.function f.asStatic) =
        assignTy w (judge w n) .default d (.function f) := assignTy_asStatic _ rfl callable f
    by_cases one : w.identity.identical d (.function f) = true ∨
        w.identity.identical d (.function f.asStatic) = true
    · have fits := shared one n
      refine hF.agrees_of_yes (calm_of_fits hw hd (hf.withKind .staticMethod) ?_)
        (calm_of_fits hw hd hf fits)
      rw [Ty.asStatic, copied]
      exact fits
    · rw [not_or] at one
      have static : (judge w (n + 1)).compareStatic d (.function f) =
          assignTy w (judge w n) .default d (.function f.asStatic) := if_neg one.2
      have function : (judge w (n + 1)).compareFunction d (.function f) =
          assignTy w (judge w n) .default d (.function f) := if_neg one.1
      rw [static, copied, ← function]
      exact itself

variable (hp : F.HasClass protocol)
include hp

omit hF in
private theorem has_method {r : Requirement} {t : Ty}
    (hr : r ∈ Requirement.all w.classes true protocol)
    (asked : r.IsMethod t) : F.Has t :=
  have requires := Link.hasRequirement_of_mem hw hp hr
  (hw.required requires.owner.ids requires.protocol requires.declared asked.declared).has

variable (copies : w.Copies id table) (asks : w.AsksForMethods protocol)
  (shared : w.SharesFitting F protocol table)
include copies asks shared

private theorem agrees_compareMethod {r : Requirement}
    (hr : r ∈ Requirement.all w.classes true protocol) :
    F.beside.Agrees .idle (w.compareMethod (judge w n).compareStatic table r)
      (w.compareMethod (judge w n).compareFunction table r) := by
  obtain ⟨-, t, asked⟩ := asks r hr
  unfold World.compareMethod
  cases found : (w.moduleMembers table).find? r.name with
  | none => exact .refuse ..
  | some member =>
    have here := MemberTable.mem_of_find? found
    obtain ⟨f, -, declared, -, -⟩ := copies _ here
    dsimp only at declared
    have hf : F.HasFunction f := by
      have has := hw.modules table _ here
      rwa [Member.effectiveType, declared] at has
    have compared := agrees_compareStatic (n := n) hF hw
      (Ty.isCallable_withoutReceiver asked.callable)
      (has_withoutReceiver (has_method hw hp hr asked)) hf
      (shared r hr t member f asked.declared found declared)
    have told : Link.Quiet (Match.tellMember .memberMismatch r) := Link.Quiet.tell _ _
    dsimp only
    rw [asked.declared, declared]
    exact (Link.Agrees.explained compared.child told told).child

private theorem answers_compareMethods (n : Nat) {s s' : CheckState} (hs : s.inference = F.inf)
    (hs' : s'.inference = F.inf) (pending : F.beside.base s.pending s'.pending) :
    ∃ b, (exec (w.compareMethods (judge w n).compareStatic protocol table) s).1 = .ok b ∧
      (exec (w.compareMethods (judge w n).compareFunction protocol table) s').1 = .ok b := by
  have compared := Link.Agrees.allOf fun _ hr =>
    agrees_compareMethod (n := n) hF hw hp copies asks shared hr
  have solving : F.Solving (some (.forScope (w.classes.decl protocol.id).scope)) :=
    solving_forScope (.inl hF.wide)
  have related : F.beside.Related .idle
      { s with solving := some (.forScope (w.classes.decl protocol.id).scope) }
      { s' with solving := some (.forScope (w.classes.decl protocol.id).scope) } :=
    ⟨⟨hs, solving⟩, ⟨hs', solving⟩, pending, hF.idle _, hF.idle _⟩
  obtain ⟨b, t, he, -⟩ := compared.left _ related.left
  obtain ⟨b', t', he', -⟩ := compared.right _ related.right
  have same := (compared.link related he he' fun _ _ _ _ => trivial).1.2 hF.wide
  refine ⟨b, ?_, ?_⟩
  · rw [World.compareMethods, exec_solvingFor, he]
  · rw [World.compareMethods, exec_solvingFor, he', same]

omit copies asks shared in
private theorem answer_meetAll {compare : Ty → Ty → Check Bool} {meets : Requirement → Check Bool}
    (h : ∀ r ∈ Requirement.all w.classes true protocol,
      F.Alike (meets r) (w.compareMethod compare table r))
    (calm : ∀ r ∈ Requirement.all w.classes true protocol,
      F.beside.Calm (fun _ => True) (w.compareMethod compare table r))
    (mode : Mode) (hs : s.inference = F.inf) :
    (exec (meetAll w (judge w n) mode protocol (Requirement.all w.classes true protocol)
        meets) s).1 =
      (exec (w.compareMethods compare protocol table) s).1 := by
  have start : F.Start { s with solving := some (.forScope (w.classes.decl protocol.id).scope) } :=
    ⟨hs, solving_forScope (.inl hF.wide)⟩
  have same := Alike.allOf (fun r hr => (h r hr).symm) calm _ start
  rw [exec_meetAll (hF.params_eq_nil hw.toScopes hp.ids), World.compareMethods,
    exec_solvingFor, same]

private theorem answer_matchModule (object : protocol.toClassObject = protocol) (mode : Mode)
    (hs : s.inference = F.inf) :
    (exec (matchModule w (judge w n) mode protocol table) s).1 =
      (exec (w.compareMethods (judge w n).compareFunction protocol table) s).1 := by
  unfold matchModule
  rw [object]
  refine answer_meetAll hF hw hp (fun r hr => ?_)
    (fun r hr => (agrees_compareMethod hF hw hp copies asks shared hr).right) mode hs
  obtain ⟨-, t, asked⟩ := asks r hr
  exact alike_matchModuleMember hF hw copies asked (has_method hw hp hr asked) n _

private theorem answer_matchMembers (ordinary : w.classes.isTypedDict (.ofId id) = false)
    (lacks : ∀ r ∈ Requirement.all w.classes true protocol,
      (w.moduleMembers table).find? r.name = none → w.classes.memberOf id r.name = none)
    {mode : Mode} (hm : mode.invariant = false) (hs : s.inference = F.inf) :
    (exec (matchMembers w (judge w n) mode false protocol (.ofId id)) s).1 =
      (exec (w.compareMethods (judge w n).compareStatic protocol table) s).1 := by
  have viewed : Match.of w protocol (.ofId id) false =
      ⟨protocol, .ofId id, false, (Match.of w protocol (.ofId id) false).self⟩ := by
    unfold Match.of
    rw [ordinary]
    rfl
  unfold matchMembers
  rw [if_neg (Bool.eq_false_iff.1 hm)]
  dsimp only
  rw [asks.all_eq, viewed]
  refine answer_meetAll hF hw hp (fun r hr => ?_)
    (fun r hr => (agrees_compareMethod hF hw hp copies asks shared hr).left) mode hs
  obtain ⟨-, t, asked⟩ := asks r hr
  exact alike_matchMember_copy hF hw copies asked (has_method hw hp hr asked) n rfl rfl (lacks r hr)

end

private theorem isPending_apart (apart : ¬ F.ids id) {c : Comparison} (hc : F.HasComparison c)
    (protocol : ClassTy) : isPending F.inf [⟨.ofId id, protocol⟩] c.pair = false := by
  refine Bool.eq_false_iff.2 fun pending => apart ?_
  obtain ⟨e, he, same⟩ := List.any_eq_true.1 pending
  rw [List.mem_singleton.1 he] at same
  have view := ClassTy.ViewOf.of_same (Bool.and_eq_true_iff.1 same).1
  exact view.id ▸ hc.candidate.ids

end Fragment

namespace Sample

def methodOf (name : String) (f : FunctionTy) : String × Member :=
  (name, .ofDeclarations .classBody [.function (some (.function f))])

/-- A protocol asks for a method. A module has a function of its name, of which a class has a copy, and
the method of another class yields a value of this class. -/
def copied (asked given : FunctionTy) (flags : ClassFlags) (identity : Identity) : World :=
  { ofDecls [object, protocolOf "P" [methodOf "next" asked],
      { classOf "K" [methodOf "next" given.asStatic] with
        flags := flags
        mro := [.resolved Builtin.object] },
      classOf "C" [method "next" none [] (instanceOf 3)]] with
    modules := #[⟨[("next", .ofDeclarations .none [.function (some (.function given))])]⟩]
    identity := identity }

/-- A method that yields another value of its protocol. -/
def yieldsProtocol : FunctionTy := function none [] (.declared (instanceOf 1))

/-- A function that yields a value of a class that satisfies the protocol. -/
def yieldsClass : FunctionTy := ⟨"f", [], .declared (instanceOf 3), .instanceMethod, ""⟩

/-- A function with a parameter that can be given neither by its place nor by its name. -/
def uncallable : FunctionTy :=
  ⟨"f", [⟨.args, "args", none, false⟩, ⟨.simple, "__a", none, false⟩], .undeclared,
    .instanceMethod, ""⟩

/-- Whether this is the type of the function. -/
def isUncallable : Ty → Bool
  | .function ⟨"f", [⟨.args, "args", none, false⟩, ⟨.simple, "__a", none, false⟩], .undeclared,
      .instanceMethod, ""⟩ => true
  | _ => false

private theorem eq_uncallable {t : Ty} (h : isUncallable t = true) : t = .function uncallable := by
  unfold isUncallable at h
  split at h
  · rfl
  · cases h

/-- The function is one object wherever it is declared. -/
def sharing : Identity where
  identical a b := isUncallable a && isUncallable b
  eq_of_identical h := by
    rw [Bool.and_eq_true] at h
    rw [eq_uncallable h.1, eq_uncallable h.2]

private theorem ground_other : otherTypes.Ground := ⟨trivial, fun _ => id⟩

private theorem hasFunction_yieldsProtocol : otherTypes.HasFunction yieldsProtocol :=
  .function (forall_function (fun _ h => nomatch h) fun _ h => nomatch h)
    (fun _ ht => Return.declared.inj ht ▸ has_other (by decide)) fun _ _ h => nomatch h

private theorem hasFunction_yieldsClass : otherTypes.HasFunction yieldsClass :=
  .function (fun _ h => nomatch h) (fun _ ht => Return.declared.inj ht ▸ has_other (by decide))
    fun _ _ h => nomatch h

private theorem hasFunction_uncallable : otherTypes.HasFunction uncallable := by
  refine .function (fun p hp => ?_) (fun _ h => nomatch h) fun _ _ h => nomatch h
  rw [uncallable, List.mem_cons, List.mem_singleton] at hp
  rcases hp with rfl | rfl <;> exact fun _ h => nomatch h

section

variable {asked given : FunctionTy} {flags : ClassFlags} {identity : Identity}

private theorem covers_copied (ha : otherTypes.HasFunction asked)
    (hg : otherTypes.HasFunction given) :
    otherTypes.Covers (copied asked given flags identity) := by
  have nothing {d : ClassDecl} (h : d.mro = []) :
      ∀ c, Ancestor.resolved c ∈ d.mro → c.id ≠ 2 := by
    rw [h]
    exact fun _ h => nomatch h
  refine covers_other (fun id other => ?_) rfl fun table e he => ?_
  · rw [show (copied asked given flags identity).classes.decl id = _ from decl_ofDecls _ id]
    match id with
    | 0 => exact ⟨simple_object, nothing rfl, fun _ h => nomatch h⟩
    | 1 =>
      refine ⟨simple_protocolOf _ _, nothing rfl, fun e he => ?_⟩
      rw [List.mem_singleton.1 he]
      exact ha
    | 3 =>
      refine ⟨simple_classOf _ _, nothing rfl, fun e he => ?_⟩
      rw [List.mem_singleton.1 he]
      refine .function (forall_function (fun _ h => nomatch h) fun _ h => nomatch h) ?_
        fun _ _ h => nomatch h
      exact fun t ht => Return.declared.inj ht ▸ has_other (by decide)
    | n + 4 =>
      exact ⟨⟨rfl, rfl, fun a => by cases a <;> rfl, fun _ h => nomatch h⟩, nothing rfl,
        fun _ h => nomatch h⟩
  · match table with
    | 0 =>
      rw [List.mem_singleton.1 he]
      exact hg
    | n + 1 => cases he

private theorem asks_copied (unannotated : asked.Unannotated) :
    (copied asked given flags identity).AsksForMethods (.ofId 1) := by
  intro r hr
  have only : Requirement.all (copied asked given flags identity).classes true (.ofId 1) =
      [⟨.ofId 1, "next", (methodOf "next" asked).2⟩] := rfl
  rw [only, List.mem_singleton] at hr
  subst hr
  refine ⟨(by decide : "next" ≠ "__class_getitem__"), .function asked, fun d hd => ?_, rfl, rfl,
    unannotated⟩
  rw [List.mem_singleton.1 hd]
  rfl

private theorem copies_copied : (copied asked given flags identity).Copies 2 0 := by
  intro e he
  rw [List.mem_singleton.1 he]
  refine ⟨_, _, rfl, List.lookup_cons_self, rfl, fun d hd => ?_, rfl⟩
  rw [List.mem_singleton.1 hd]
  rfl

end

/-- A class that declares the functions of a module as static methods, and nothing else, satisfies a
protocol of methods that the module does not, or the other way round. -/
structure MatchedOtherwise (w : World) : Prop where
  covers : otherTypes.Covers w
  asks : w.AsksForMethods (.ofId 1)
  copies : w.Copies 2 0
  names : (w.classes.decl 2).members.names = (w.moduleMembers 0).names
  base : (w.classes.decl 2).mro = [.resolved Builtin.object]
  verdicts :
    (exec (conformsFrom w .own 0 .default false (.ofId 1) (ClassTy.ofId 2).toInstance)
        (idle .start)).1 ≠
      (exec (moduleConformsAt w 0 .default (.ofId 1) 0) (idle .start)).1

end Sample

end Conformance
