import Conformance.Proofs.Alike
import Conformance.Proofs.Opening
import Conformance.Proofs.Run

/-!
# Pairs of checks

A relation of checks that each way to put checks together passes on is one that every part of a
comparison passes on: the part in one world, with the answers of one judge, is related to the part
in a world that is alike on the names that are looked up, with the answers of another judge, if the
answers of the two judges are.
-/

namespace Conformance

open Check

/-- A relation of checks that one after another passes on. -/
structure Sequenced (R : (α : Type) → Check α → Check α → Prop) : Prop where
  rel_pure {α : Type} (a : α) : R α (pure a) (pure a)
  rel_bind {α β : Type} {act act' : Check α} {k k' : α → Check β} (h : R α act act')
    (hk : ∀ a, R β (k a) (k' a)) : R β (act >>= k) (act' >>= k')
  rel_inference : R _ inference inference
  rel_lift {α : Type} {m : StateM Inference α} (h : Opens m) : R α (lift m) (lift m)
  rel_demand (f : FunctionTy) : R _ (demand f) (demand f)

/-- A relation of checks that each way to put them together passes on. Types are recorded for those
variables alone that are being solved for. -/
structure Congruence (R : (α : Type) → Check α → Check α → Prop) : Prop extends Sequenced R where
  rel_solution : R _ solution solution
  rel_solving {α : Type} {k k' : Option Solution → Check α}
    (h : ∀ σ : Option Solution,
      (∀ v : TypeVar, σ.any (·.solves v.scope) = true → ∀ t, R _ (solve v t) (solve v t)) →
        R α (k σ) (k' σ)) : R α (solution >>= k) (solution >>= k')
  rel_tell (wording : Wording) (values : Inference → List (String × String)) :
    R _ (tell wording values) (tell wording values)
  rel_solvingFor {α : Type} {act act' : Check α} (σ : Option Solution) (h : R α act act') :
    R α (solvingFor σ act) (solvingFor σ act')
  rel_silently {α : Type} {act act' : Check α} (h : R α act act') :
    R α (silently act) (silently act')
  rel_child {α : Type} {act act' : Check α} (h : R α act act') : R α (child act) (child act')
  rel_attempt {act act' : Check Bool} (h : R Bool act act') : R Bool (attempt act) (attempt act')

variable {α : Type} {R : (α : Type) → Check α → Check α → Prop} {w w' : World} {j j' : Judge}
  {names : String → Prop}

def RelatesTypes (R : (α : Type) → Check α → Check α → Prop) (j j' : Judge) : Prop :=
  ∀ mode dest source, R _ (j.assign mode dest source) (j'.assign mode dest source)

/-- The comparisons with a protocol that the judges make in a mode are related. -/
structure RelatesProtocols (R : (α : Type) → Check α → Check α → Prop) (j j' : Judge)
    (mode : Mode) : Prop where
  conforms : ∀ asObject protocol candidate,
    R _ (j.conforms mode asObject protocol candidate) (j'.conforms mode asObject protocol candidate)
  moduleConforms : ∀ protocol name table,
    R _ (j.moduleConforms mode protocol name table) (j'.moduleConforms mode protocol name table)

def RelatesReceivers (R : (α : Type) → Check α → Check α → Prop) (j j' : Judge) : Prop :=
  ∀ f first receiver, R _ (solveReceiver j f first receiver) (solveReceiver j' f first receiver)

namespace Sequenced

variable (hR : Sequenced R) (hw : w.AlikeOn names w')
include hR hw

/-! ## Lookups -/

private theorem rel_seenThrough (f : FunctionTy) (owner : Option ClassTy) :
    R _ (seenThrough w f owner) (seenThrough w' f owner) := by
  unfold seenThrough
  rw [hw.classes.specializeFunction]
  split
  · exact hR.rel_lift (opens_specializeFunction _ _)
  · exact hR.rel_pure f

theorem rel_requiredAccessor (p : PropertyPair) (dest : FunctionTy) :
    R _ (p.required w dest) (p.required w' dest) := by
  unfold PropertyPair.required
  rw [hw.classes.specializeFunction, hw.classes.substituteFunction]
  refine hR.rel_bind (hR.rel_lift (opens_specializeFunction _ _)) fun dest => ?_
  split
  · exact hR.rel_lift (opens_substituteFunction _ _)
  · exact hR.rel_pure _

theorem rel_getterType (property : ClassTy) (findOut : Bool) :
    R _ (getterType w property findOut) (getterType w' property findOut) := by
  have getter : (w'.classes.decl property.id).getter = (w.classes.decl property.id).getter :=
    hw.classes.accessor .getter property.id
  unfold getterType
  rw [getter]
  split
  · exact hR.rel_pure none
  · split
    · refine hR.rel_bind (hR.rel_demand _) fun _ => ?_
      exact hR.rel_bind hR.rel_inference fun inf => hR.rel_pure _
    · exact hR.rel_pure _

theorem rel_ancestorOf (source ancestor : ClassTy) :
    R _ (ancestorOf w source ancestor) (ancestorOf w' source ancestor) := by
  unfold ancestorOf
  rw [hw.classes.specializeClass]
  split
  · exact hR.rel_pure _
  · exact hR.rel_lift (opens_specializeClass _ _)

theorem rel_seenFrom (r : Requirement) (protocol : ClassTy) (t : Ty) :
    R _ (r.seenFrom w protocol t) (r.seenFrom w' protocol t) := by
  unfold Requirement.seenFrom
  rw [hw.classes.specialize]
  split
  · exact hR.rel_pure t
  · exact hR.rel_lift (opens_specialize _ _ _)

private theorem rel_findOnMetaclass (m : Match) {name : String} (hn : names name) :
    R _ (m.findOnMetaclass w name) (m.findOnMetaclass w' name) := by
  unfold Match.findOnMetaclass
  rw [hw.classes.metaclass?]
  split
  · rw [hw.classes.lookup hn]
    split
    · exact hR.rel_lift (opens_lookup _ _)
    · exact hR.rel_pure none
  · exact hR.rel_pure none

theorem rel_find (m : Match) {name : String} (hn : names name) :
    R _ (m.find w name) (m.find w' name) := by
  unfold Match.find
  rw [hw.classes.lookup hn]
  refine hR.rel_bind (hR.rel_findOnMetaclass hw m hn) fun found => ?_
  split
  · exact hR.rel_pure _
  · exact hR.rel_bind (hR.rel_lift (opens_lookup _ _)) fun found => hR.rel_pure _

omit hw in
private theorem rel_demandPlain (t : Ty) : R _ (Match.demandPlain t) (Match.demandPlain t) := by
  unfold Match.demandPlain
  split
  · exact hR.rel_demand _
  · exact hR.rel_pure ()

theorem rel_foundType (m : Match) (found : FoundMember) :
    R _ (m.foundType w found) (m.foundType w' found) := by
  unfold Match.foundType
  rw [hw.classes.specialize]
  split
  · exact hR.rel_pure _
  · refine hR.rel_bind hR.rel_inference fun inf => ?_
    exact hR.rel_bind (hR.rel_demandPlain _) fun _ => hR.rel_lift (opens_specialize _ _ _)

/-! ## Binding -/

section

variable (hr : RelatesReceivers R j j')
include hr

private theorem rel_bindReceiver (f : FunctionTy) (receiver : Option Ty) (strip : Bool) :
    R _ (bindReceiver w j f receiver strip) (bindReceiver w' j' f receiver strip) := by
  unfold bindReceiver
  rw [hw.classes.substituteFunction]
  split
  · exact hR.rel_pure _
  · split
    · exact hR.rel_pure _
    · refine hR.rel_bind (hr _ _ _) fun σ => ?_
      split
      · exact hR.rel_pure none
      · refine hR.rel_bind (hR.rel_demand f) fun _ => ?_
        refine hR.rel_bind (hR.rel_lift (opens_substituteFunction _ _)) fun bound => ?_
        split
        · exact hR.rel_bind (hR.rel_lift (opens_withParams _ _)) fun bound => hR.rel_pure _
        · exact hR.rel_pure _

theorem rel_bindFunction (r : Receiver) (f : FunctionTy) (owner : Option ClassTy) :
    R _ (bindFunction w j r f owner) (bindFunction w' j' r f owner) := by
  refine hR.rel_bind (hR.rel_seenThrough hw f owner) fun f => ?_
  split
  · exact hR.rel_bindReceiver hw hr _ _ _
  · split
    · exact hR.rel_pure _
    · exact hR.rel_bindReceiver hw hr _ _ _
    · split <;> exact hR.rel_bindReceiver hw hr _ _ _

private theorem rel_bindOverloads (r : Receiver) (owner : Option ClassTy) (fs : List FunctionTy) :
    R _ (bindOverloads w j r owner fs) (bindOverloads w' j' r owner fs) := by
  induction fs with
  | nil => exact hR.rel_pure []
  | cons f fs ih =>
    rw [bindOverloads, bindOverloads]
    refine hR.rel_bind (hR.rel_bindFunction hw hr r f owner) fun bound => ?_
    exact hR.rel_bind ih fun others => hR.rel_pure _

theorem rel_bindMember (r : Receiver) (t : Ty) (owner : Option ClassTy) :
    R _ (bind w j r t owner) (bind w' j' r t owner) := by
  unfold Conformance.bind
  split
  · exact hR.rel_bind (hR.rel_bindFunction hw hr _ _ _) fun bound => hR.rel_pure _
  · refine hR.rel_bind (hR.rel_bindOverloads hw hr _ _ _) fun fs => ?_
    split <;> exact hR.rel_pure _
  · exact hR.rel_pure _

theorem rel_boundCall (object : Ty) : R _ (boundCall w j object) (boundCall w' j' object) := by
  unfold boundCall
  rw [hw.classes.typeOf]
  split
  · exact hR.rel_pure none
  · rw [hw.classes.lookup hw.called]
    refine hR.rel_bind (hR.rel_lift (opens_lookup _ _)) fun found => ?_
    split
    · exact hR.rel_pure none
    · split
      · exact hR.rel_pure none
      · refine hR.rel_bind (hR.rel_lift (opens_typeOf _)) fun t => ?_
        split
        · exact hR.rel_bindMember hw hr _ _ _
        · exact hR.rel_pure none

theorem rel_calledType (source : Ty) : R _ (calledType w j source) (calledType w' j' source) := by
  unfold calledType
  split
  · exact hR.rel_bind (hR.rel_boundCall hw hr _) fun bound => hR.rel_pure _
  · exact hR.rel_pure _

private theorem rel_boundOr (r : Receiver) (t : Ty) (owner : Option ClassTy) :
    R _ (Match.boundOr w j r t owner) (Match.boundOr w' j' r t owner) := by
  refine hR.rel_bind (hR.rel_bindMember hw hr r t owner) fun bound => ?_
  split
  · exact hR.rel_lift (opens_dropSpecRest _)
  · exact hR.rel_pure t

theorem rel_comparedTypes (m : Match) (found : FoundMember) (fromMetaclass : Bool)
    (dest source : Ty) : R _ (m.comparedTypes w j found fromMetaclass dest source)
      (m.comparedTypes w' j' found fromMetaclass dest source) := by
  unfold Match.comparedTypes
  rw [hw.classes.substitute]
  split
  · exact hR.rel_bind (hR.rel_lift (opens_substitute _ _ _)) fun dest => hR.rel_pure _
  · split
    · refine hR.rel_bind (hR.rel_boundOr hw hr _ _ _) fun source => ?_
      exact hR.rel_bind (hR.rel_boundOr hw hr _ _ _) fun dest => hR.rel_pure _
    · refine hR.rel_bind (hR.rel_lift (opens_substitute _ _ _)) fun dest => ?_
      refine hR.rel_bind (hR.rel_boundOr hw hr _ _ _) fun source => ?_
      exact hR.rel_bind (hR.rel_boundOr hw hr _ _ _) fun dest => hR.rel_pure _

theorem rel_moduleRequiredType (protocol : ClassTy) (r : Requirement) (t source : Ty) :
    R _ (moduleRequiredType w j protocol r t source)
      (moduleRequiredType w' j' protocol r t source) := by
  refine hR.rel_bind (hR.rel_seenFrom hw _ _ _) fun dest => ?_
  split
  · exact hR.rel_bind (hR.rel_bindMember hw hr _ _ _) fun bound => hR.rel_pure _
  · exact hR.rel_pure dest

end

end Sequenced

namespace Congruence

variable (hR : Congruence R)
include hR

private theorem rel_detached {act act' : Check α} (h : R _ act act') :
    R _ (detached act) (detached act') :=
  hR.rel_silently (hR.rel_solvingFor none h)

theorem rel_allOf {f f' : α → Check Bool} {as : List α} (h : ∀ a ∈ as, R _ (f a) (f' a)) :
    R _ (allOf f as) (allOf f' as) := by
  induction as with
  | nil => exact hR.rel_pure true
  | cons a as ih =>
    rw [allOf, allOf]
    refine hR.rel_bind (h a List.mem_cons_self) fun first => ?_
    refine hR.rel_bind (ih fun b hb => h b (List.mem_cons_of_mem a hb)) fun others => ?_
    exact hR.rel_pure _

theorem rel_anyOf {f f' : α → Check Bool} {as : List α} (h : ∀ a ∈ as, R _ (f a) (f' a)) :
    R _ (anyOf f as) (anyOf f' as) := by
  induction as with
  | nil => exact hR.rel_pure false
  | cons a as ih =>
    rw [anyOf, anyOf]
    refine hR.rel_bind (h a List.mem_cons_self) fun first => ?_
    split
    · exact hR.rel_pure true
    · exact ih fun b hb => h b (List.mem_cons_of_mem a hb)

private theorem rel_refuse (wording : Wording) (values : Inference → List (String × String)) :
    R _ (refuse wording values) (refuse wording values) :=
  hR.rel_bind (hR.rel_tell wording values) fun _ => hR.rel_pure false

private theorem rel_explained {act act' : Check Bool} {messages messages' : Check Unit}
    (h : R _ act act')
    (hm : R _ messages messages') : R _ (explained act messages) (explained act' messages') := by
  refine hR.rel_bind h fun yes => ?_
  split
  · exact hR.rel_pure true
  · exact hR.rel_bind hm fun _ => hR.rel_pure false

private theorem rel_tellMember (wording : Wording) (r : Requirement) :
    R _ (Match.tellMember wording r) (Match.tellMember wording r) :=
  hR.rel_tell _ _

private theorem rel_agreeOnFinal (r : Requirement) (found : FoundMember) :
    R _ (Match.agreeOnFinal r found) (Match.agreeOnFinal r found) := by
  unfold Match.agreeOnFinal
  split
  · exact hR.rel_pure true
  · exact hR.rel_refuse _ _

private theorem rel_agreeOnClassVar (r : Requirement) (found : FoundMember) :
    R _ (Match.agreeOnClassVar r found) (Match.agreeOnClassVar r found) := by
  unfold Match.agreeOnClassVar
  split
  · exact hR.rel_refuse _ _
  · exact hR.rel_pure true

section

variable (hw : w.AlikeOn names w')
include hw

private theorem rel_mismatch (source dest : Ty) :
    R _ (mismatch w source dest) (mismatch w' source dest) := by
  unfold mismatch
  rw [hw.classes.nameOf]
  exact hR.rel_refuse _ _

private theorem rel_noOverload (t : Ty) : R _ (noOverload w t) (noOverload w' t) := by
  unfold noOverload
  rw [hw.classes.nameOf]
  exact hR.rel_refuse _ _

end

section

variable (hj : RelatesTypes R j j')
include hj

private theorem rel_accepts (dest source : Ty) :
    R _ (j.accepts dest source) (j'.accepts dest source) :=
  hR.rel_detached (hj _ _ _)

private theorem rel_receiverFits (first : Param) (receiver : Option Ty) :
    R _ (receiverFits j first receiver) (receiverFits j' first receiver) := by
  unfold receiverFits
  split
  · exact hj _ _ _
  · exact hR.rel_pure true

theorem rel_solveReceiver (f : FunctionTy) (first : Param) (receiver : Option Ty) :
    R _ (solveReceiver j f first receiver) (solveReceiver j' f first receiver) := by
  refine hR.rel_silently (hR.rel_solvingFor _ ?_)
  refine hR.rel_bind (hR.rel_receiverFits hj _ _) fun fits => ?_
  split
  · exact hR.rel_solution
  · exact hR.rel_pure none

private theorem relatesReceivers : RelatesReceivers R j j' := hR.rel_solveReceiver hj

/-! ## Variables and type arguments -/

section

variable (hw : w.AlikeOn names w')
include hw

private theorem rel_fitsBound (mode : Mode) (v : TypeVar) (candidate : Ty) :
    R _ (fitsBound w j mode v candidate) (fitsBound w' j' mode v candidate) := by
  unfold fitsBound
  rw [hw.classes.nameOf]
  split
  · exact hR.rel_pure true
  · split
    · exact hR.rel_pure true
    · refine hR.rel_explained (hR.rel_child ?_) (hR.rel_tell _ _)
      exact hR.rel_solvingFor none (hj _ _ _)

section

variable {v : TypeVar} (hv : ∀ t, R _ (solve v t) (solve v t))
include hv

omit hw in
private theorem rel_widen (existing candidate : Ty) :
    R _ (widen j v existing candidate) (widen j' v existing candidate) := by
  refine hR.rel_bind (hR.rel_accepts hj _ _) fun covered => ?_
  split
  · exact hR.rel_pure true
  · refine hR.rel_bind (hR.rel_accepts hj _ _) fun wider => ?_
    split
    · exact hR.rel_bind (hv _) fun _ => hR.rel_pure true
    · refine hR.rel_bind hR.rel_inference fun inf => ?_
      exact hR.rel_bind (hv _) fun _ => hR.rel_pure true

private theorem rel_narrow (existing candidate : Ty) :
    R _ (narrow w j v existing candidate) (narrow w' j' v existing candidate) := by
  unfold narrow unsolvable
  rw [hw.classes.nameOf]
  refine hR.rel_bind (hR.rel_accepts hj _ _) fun covers => ?_
  split
  · exact hR.rel_pure true
  · refine hR.rel_bind (hR.rel_accepts hj _ _) fun narrower => ?_
    split
    · exact hR.rel_bind (hv _) fun _ => hR.rel_pure true
    · exact hR.rel_refuse _ _

private theorem rel_solveVar (mode : Mode) (t : Ty) :
    R _ (solveVar w j mode v t) (solveVar w' j' mode v t) := by
  unfold solveVar unsolvable
  rw [hw.classes.nameOf]
  refine hR.rel_bind (hR.rel_fitsBound hj hw _ _ _) fun fits => ?_
  split
  · exact hR.rel_pure false
  · refine hR.rel_bind hR.rel_solution fun σ => ?_
    split
    · exact hR.rel_bind (hv _) fun _ => hR.rel_pure true
    · split
      · refine hR.rel_bind hR.rel_inference fun inf => ?_
        split
        · exact hR.rel_pure true
        · exact hR.rel_refuse _ _
      · split
        · exact hR.rel_narrow hj hw hv _ _
        · exact hR.rel_widen hj hv _ _

end

theorem rel_assignArgument (mode : Mode) (p : ArgumentPair) :
    R _ (p.assign w j mode) (p.assign w' j' mode) := by
  unfold ArgumentPair.assign
  rw [hw.classes.nameOf]
  refine hR.rel_child (hR.rel_explained (hR.rel_child ?_) (hR.rel_tell _ _))
  split <;> exact hj _ _ _

theorem rel_assignArguments (mode : Mode) (dest source : ClassTy) :
    R _ (assignArguments w j mode dest source) (assignArguments w' j' mode dest source) := by
  unfold assignArguments
  rw [hw.classes.params]
  split
  · exact hR.rel_pure true
  · exact hR.rel_allOf fun p _ => hR.rel_assignArgument hj hw mode p

private theorem rel_assignInvariant (mode : Mode) (dest source : Ty) :
    R _ (assignInvariant w j mode dest source) (assignInvariant w' j' mode dest source) := by
  refine hR.rel_bind hR.rel_inference fun inf => ?_
  split
  · exact hR.rel_pure true
  · split
    · split
      · refine hR.rel_bind (hR.rel_allOf fun p _ => hR.rel_child (hj _ _ _)) fun same => ?_
        split
        · exact hR.rel_pure true
        · exact hR.rel_mismatch hw _ _
      · exact hR.rel_mismatch hw _ _
    · exact hR.rel_mismatch hw _ _

/-! ## Callables and properties -/

theorem rel_paramStep (mode : Mode) (step : ParamStep) :
    R _ (step.run w j mode) (step.run w' j' mode) := by
  cases step with
  | compare index dest source =>
    unfold ParamStep.run
    rw [hw.classes.nameOf]
    exact hR.rel_child (hR.rel_explained (hR.rel_child (hj _ _ _)) (hR.rel_tell _ _))
  | fault wording values => exact hR.rel_refuse _ _

theorem rel_assignReturn (mode : Mode) (dest source : Ty) :
    R _ (assignReturn w j mode dest source) (assignReturn w' j' mode dest source) := by
  unfold assignReturn
  rw [hw.classes.nameOf]
  exact hR.rel_child (hR.rel_explained (hR.rel_child (hj _ _ _)) (hR.rel_tell _ _))

theorem rel_assignFunction (mode : Mode) (dest source : FunctionTy) :
    R _ (assignFunction w j mode dest source) (assignFunction w' j' mode dest source) := by
  refine hR.rel_bind (hR.rel_demand _) fun _ => hR.rel_bind (hR.rel_demand _) fun _ => ?_
  refine hR.rel_bind (hR.rel_allOf fun step _ => ?_) fun params => ?_
  · exact hR.rel_paramStep hj hw mode step
  refine hR.rel_bind hR.rel_inference fun inf => ?_
  exact hR.rel_bind (hR.rel_assignReturn hj hw _ _ _) fun ret => hR.rel_pure _

theorem rel_assignToFunction (mode : Mode) (dest : FunctionTy) (source : Ty) :
    R _ (assignToFunction w j mode dest source) (assignToFunction w' j' mode dest source) := by
  unfold assignToFunction
  split
  · exact hR.rel_assignFunction hj hw _ _ _
  · refine hR.rel_bind (hR.rel_silently (hR.rel_anyOf fun f _ => ?_)) fun found => ?_
    · exact hR.rel_attempt (hR.rel_assignFunction hj hw _ _ _)
    · split
      · exact hR.rel_pure true
      · exact hR.rel_noOverload hw _
  · exact hR.rel_mismatch hw _ _

private theorem rel_assignToOverloads (mode : Mode) (source : Ty) (fs : List FunctionTy) :
    R _ (assignToOverloads w j mode source fs) (assignToOverloads w' j' mode source fs) := by
  induction fs with
  | nil => exact hR.rel_pure true
  | cons f fs ih =>
    rw [assignToOverloads]
    refine hR.rel_bind (hR.rel_child (hR.rel_assignToFunction hj hw _ _ _)) fun met => ?_
    split
    · exact ih
    · exact hR.rel_noOverload hw _

private theorem rel_assignToCallable (mode : Mode) (dest source : Ty) :
    R _ (assignToCallable w j mode dest source) (assignToCallable w' j' mode dest source) := by
  refine hR.rel_bind (hR.rel_calledType hw (hR.relatesReceivers hj) _) fun called => ?_
  split
  · exact hR.rel_mismatch hw _ _
  · split
    · exact hR.rel_assignToFunction hj hw _ _ _
    · exact hR.rel_assignToOverloads hj hw _ _ _
    · exact hR.rel_mismatch hw _ _

private theorem rel_compareAccessors (p : PropertyPair) (dest source : FunctionTy) :
    R _ (p.compare w j dest source) (p.compare w' j' dest source) := by
  unfold PropertyPair.compare
  rw [hw.classes.specializeFunction]
  refine hR.rel_bind (hR.rel_demand _) fun _ => ?_
  refine hR.rel_bind (hR.rel_lift (opens_specializeFunction _ _)) fun source => ?_
  refine hR.rel_bind (hR.rel_requiredAccessor hw p dest) fun dest => ?_
  refine hR.rel_bind (hR.rel_bindFunction hw (hR.relatesReceivers hj) _ _ _) fun boundDest => ?_
  refine hR.rel_bind (hR.rel_bindFunction hw (hR.relatesReceivers hj) _ _ _) fun boundSource => ?_
  split
  · exact hR.rel_child (hj _ _ _)
  · exact hR.rel_pure false

private theorem rel_assignAccessor (p : PropertyPair) (accessor : Accessor) :
    R _ (p.assignAccessor w j accessor) (p.assignAccessor w' j' accessor) := by
  unfold PropertyPair.assignAccessor
  rw [hw.classes.accessor, hw.classes.accessor]
  split
  · exact hR.rel_pure true
  · exact hR.rel_refuse _ _
  · exact hR.rel_explained (hR.rel_compareAccessors hj hw _ _ _) (hR.rel_tell _ _)

theorem rel_assignProperty (p : PropertyPair) :
    R _ (assignProperty w j p) (assignProperty w' j' p) :=
  hR.rel_allOf fun accessor _ => hR.rel_assignAccessor hj hw p accessor

/-! ## Protocols -/

omit hR hj in
private theorem property?_eq : Match.property? w' = Match.property? w := by
  funext t
  rw [Match.property?, Match.property?, hw.classes.isProperty]

private theorem rel_assignToProperty (m : Match) (r : Requirement) (property : ClassTy)
    (source : Ty) :
    R _ (m.assignToProperty w j r property source)
      (m.assignToProperty w' j' r property source) := by
  unfold Match.assignToProperty
  rw [property?_eq hw]
  split
  · exact hR.rel_child (hR.rel_assignProperty hj hw _)
  · refine hR.rel_bind (hR.rel_getterType hw _ _) fun t => ?_
    split
    · exact hR.rel_pure false
    · exact hR.rel_child (hj _ _ _)

private theorem rel_assignMember (m : Match) (r : Requirement) (dest source : Ty) :
    R _ (m.assignMember w j r dest source) (m.assignMember w' j' r dest source) := by
  unfold Match.assignMember
  rw [property?_eq hw]
  split
  · exact hR.rel_explained (hR.rel_assignToProperty hj hw _ _ _ _) (hR.rel_tellMember _ _)
  · refine hR.rel_explained (hR.rel_child (hj _ _ _)) ?_
    split
    · exact hR.rel_bind (hR.rel_tellMember _ _) fun _ => hR.rel_tellMember _ _
    · exact hR.rel_tellMember _ _

private theorem rel_matchType (m : Match) (r : Requirement) (found : FoundMember)
    (fromMetaclass : Bool) : R _ (m.matchType w j r found fromMetaclass)
      (m.matchType w' j' r found fromMetaclass) := by
  unfold Match.matchType
  split
  · exact hR.rel_pure true
  · refine hR.rel_bind (hR.rel_seenFrom hw _ _ _) fun dest => ?_
    refine hR.rel_bind (hR.rel_foundType hw _ _) fun source => ?_
    refine hR.rel_bind (hR.rel_comparedTypes hw (hR.relatesReceivers hj) _ _ _ _ _) fun types => ?_
    refine hR.rel_child ?_
    refine hR.rel_bind (hR.rel_assignMember hj hw _ _ _ _) fun fits => ?_
    exact hR.rel_bind (hR.rel_agreeOnFinal _ _) fun agree => hR.rel_pure _

private theorem rel_matchMember (m : Match) {r : Requirement} (hn : names r.name) :
    R _ (m.matchMember w j r) (m.matchMember w' j' r) := by
  refine hR.rel_bind (hR.rel_find hw m hn) fun found => ?_
  split
  · exact hR.rel_refuse _ _
  · refine hR.rel_bind (hR.rel_matchType hj hw _ _ _ _) fun fits => ?_
    exact hR.rel_bind (hR.rel_agreeOnClassVar _ _) fun agree => hR.rel_pure _

private theorem rel_meetAll (mode : Mode) (protocol : ClassTy) {rs rs' : List Requirement}
    {meets meets' : Requirement → Check Bool} (h : R _ (allOf meets rs) (allOf meets' rs')) :
    R _ (meetAll w j mode protocol rs meets) (meetAll w' j' mode protocol rs' meets') := by
  unfold meetAll
  dsimp only
  rw [hw.classes.scope, hw.classes.params, hw.classes.substituteClass]
  refine hR.rel_bind (hR.rel_solvingFor _ ?_) fun (met, solved) => ?_
  · refine hR.rel_bind h fun met => ?_
    exact hR.rel_bind hR.rel_solution fun σ => hR.rel_pure _
  · dsimp only
    split
    · refine hR.rel_bind (hR.rel_lift (opens_substituteClass _ _ _)) fun found => ?_
      exact hR.rel_assignArguments hj hw _ _ _
    · exact hR.rel_pure _

private theorem rel_matchModuleMember (protocol : ClassTy) (members : MemberTable)
    (r : Requirement) :
    R _ (matchModuleMember w j protocol members r)
      (matchModuleMember w' j' protocol members r) := by
  unfold matchModuleMember
  split
  · exact hR.rel_refuse _ _
  · split
    · exact hR.rel_pure true
    · refine hR.rel_bind hR.rel_inference fun inf => ?_
      refine hR.rel_bind (hR.rel_moduleRequiredType hw (hR.relatesReceivers hj) _ _ _ _)
        fun dest => ?_
      refine hR.rel_child (hR.rel_explained (hR.rel_child ?_) (hR.rel_tellMember _ _))
      exact hj _ _ _

omit hw in
/-- In one world the same members are asked for. -/
theorem rel_matchMembers (mode : Mode) (asObject : Bool) (protocol candidate : ClassTy) :
    R _ (matchMembers w j mode asObject protocol candidate)
      (matchMembers w j' mode asObject protocol candidate) := by
  unfold matchMembers
  split
  · exact hR.rel_bind hR.rel_inference fun inf => hR.rel_pure _
  · exact hR.rel_meetAll hj (.refl w) _ _
      (hR.rel_allOf fun r _ => hR.rel_matchMember hj (.refl w) _ trivial)

omit hw in
theorem rel_matchModule (mode : Mode) (protocol : ClassTy) (table : TableId) :
    R _ (matchModule w j mode protocol table) (matchModule w j' mode protocol table) :=
  hR.rel_meetAll hj (.refl w) _ _
    (hR.rel_allOf fun r _ => hR.rel_matchModuleMember hj (.refl w) _ _ r)

/-! ## Two types -/

section

variable {mode : Mode}

private theorem rel_assignClassToClass (hp : RelatesProtocols R j j' mode) (dest source : ClassTy) :
    R _ (assignClassToClass w j mode dest source) (assignClassToClass w' j' mode dest source) := by
  have promotion : isPromotion w' dest source = isPromotion w dest source := by
    rw [isPromotion, isPromotion, hw.classes.isBuiltin, hw.classes.derives]
  unfold assignClassToClass
  rw [hw.classes.isBuiltin, hw.classes.isProtocol, hw.classes.mro, promotion]
  split
  · split
    · exact hR.rel_pure true
    · exact hR.rel_mismatch hw _ _
  · split
    · exact hR.rel_pure true
    · dsimp only
      split
      · exact hR.rel_pure true
      · split
        · exact hR.rel_pure true
        · refine hR.rel_bind (hR.rel_ancestorOf hw _ _) fun ancestor => ?_
          exact hR.rel_assignArguments hj hw _ _ _
      · split
        · exact hp.conforms _ _ _
        · exact hR.rel_mismatch hw _ _

private theorem rel_assignClassObject (hp : RelatesProtocols R j j' mode) (dest source : ClassTy) :
    R _ (assignClassObject w j mode dest source) (assignClassObject w' j' mode dest source) := by
  unfold assignClassObject
  rw [hw.classes.isProtocol, hw.classes.isBuiltin, hw.classes.metaclass?]
  split
  · exact hp.conforms _ _ _
  · split
    · exact hR.rel_pure true
    · split
      · split
        · exact hR.rel_mismatch hw _ _
        · exact hj _ _ _
      · exact hR.rel_mismatch hw _ _

private theorem rel_assignCallableToClass (dest : ClassTy) (source : Ty) :
    R _ (assignCallableToClass w j mode dest source)
      (assignCallableToClass w' j' mode dest source) := by
  unfold assignCallableToClass
  rw [hw.classes.isProtocol]
  split
  · refine hR.rel_bind (hR.rel_boundCall hw (hR.relatesReceivers hj) _) fun call => ?_
    split
    · exact hj _ _ _
    · exact hR.rel_mismatch hw _ _
  · exact hR.rel_mismatch hw _ _

private theorem rel_assignToClass (hp : RelatesProtocols R j j' mode) (dest : ClassTy)
    (source : Ty) :
    R _ (assignToClass w j mode dest source) (assignToClass w' j' mode dest source) := by
  unfold assignToClass
  rw [hw.classes.isBuiltin, hw.classes.isProtocol]
  split
  · exact hR.rel_pure true
  · split
    · split
      · exact hR.rel_assignClassToClass hj hw hp _ _
      · split
        · exact hR.rel_assignClassObject hj hw hp _ _
        · exact hR.rel_mismatch hw _ _
    · split
      · exact hp.moduleConforms _ _ _
      · exact hR.rel_mismatch hw _ _
    · exact hR.rel_assignCallableToClass hj hw _ _
    · exact hR.rel_assignCallableToClass hj hw _ _
    · exact hR.rel_mismatch hw _ _

omit hR hj hw in
private theorem solves_of_reverseVar? {σ : Option Solution} {source : Ty} {v : TypeVar}
    (h : reverseVar? mode σ source = some v) : σ.any (·.solves v.scope) = true := by
  unfold reverseVar? at h
  split at h
  · split at h
    · rename_i solved
      cases h
      exact (Bool.and_eq_true_iff.1 solved).2
    · cases h
  · cases h

private theorem rel_assignToVar (v : TypeVar) (source : Ty) :
    R _ (assignToVar w j mode v source) (assignToVar w' j' mode v source) := by
  refine hR.rel_bind hR.rel_inference fun inf => hR.rel_solving fun σ hv => ?_
  split
  · exact hR.rel_pure true
  · split
    · rename_i solved
      exact hR.rel_solveVar hj hw (hv v (Bool.and_eq_true_iff.1 solved).2) _ _
    · split
      · exact hR.rel_pure true
      · exact hR.rel_mismatch hw _ _

private theorem rel_assignFromUnion (dest : Ty) (members : List Ty) :
    R _ (assignFromUnion w j mode dest members) (assignFromUnion w' j' mode dest members) := by
  refine hR.rel_bind (hR.rel_allOf fun t _ => hR.rel_child (hj _ _ _)) fun fits => ?_
  split
  · exact hR.rel_pure true
  · exact hR.rel_mismatch hw _ _

private theorem rel_assignToUnion (members : List Ty) (source : Ty) :
    R _ (assignToUnion w j mode members source) (assignToUnion w' j' mode members source) := by
  refine hR.rel_bind (hR.rel_silently (hR.rel_anyOf fun t _ => ?_)) fun fits => ?_
  · exact hR.rel_attempt (hj _ _ _)
  split
  · exact hR.rel_pure true
  · exact hR.rel_mismatch hw _ _

private theorem rel_assignByShape (hp : RelatesProtocols R j j' mode) (dest source : Ty) :
    R _ (assignByShape w j mode dest source) (assignByShape w' j' mode dest source) := by
  have same : R _ (do
      let inf ← inference
      if dest.same inf source then pure true else mismatch w source dest) (do
      let inf ← inference
      if dest.same inf source then pure true else mismatch w' source dest) := by
    refine hR.rel_bind hR.rel_inference fun inf => ?_
    split
    · exact hR.rel_pure true
    · exact hR.rel_mismatch hw _ _
  unfold assignByShape
  cases dest with
  | cls c => exact hR.rel_assignToClass hj hw hp _ _
  | function f => exact hR.rel_assignToCallable hj hw _ _ _
  | overloaded fs => exact hR.rel_assignToCallable hj hw _ _ _
  | noneObject => exact same
  | module name table => exact same
  | _ => exact hR.rel_mismatch hw _ _

private theorem rel_assignTy (hp : mode.invariant = false → RelatesProtocols R j j' mode)
    (dest source : Ty) : R _ (assignTy w j mode dest source) (assignTy w' j' mode dest source) := by
  refine hR.rel_solving fun σ hv => ?_
  split
  · rename_i v solved
    exact hR.rel_solveVar hj hw (hv v (solves_of_reverseVar? solved)) _ _
  · split
    · exact hR.rel_assignToVar hj hw _ _
    · split
      · exact hR.rel_pure true
      · unfold assignProper
        split
        · exact hR.rel_assignInvariant hj hw _ _ _
        · rename_i hm
          have hp := hp (by simpa using hm)
          split
          · exact hj _ _ _
          · exact hR.rel_assignFromUnion hj hw _ _
          · exact hR.rel_assignToUnion hj hw _ _
          · exact hR.rel_assignByShape hj hw hp _ _

theorem rel_assignStep (identity : w'.identity = w.identity)
    (hp : mode.invariant = false → RelatesProtocols R j j' mode)
    (dest source : Option Ty) : R _ (assignStep w j mode dest source)
      (assignStep w' j' mode dest source) := by
  unfold assignStep
  rw [identity]
  split
  · split
    · exact hR.rel_pure true
    · exact hR.rel_assignTy hj hw hp _ _
  · exact hR.rel_pure true

end

end

end

end Congruence

/-- Equal checks are passed on by each way to put checks together. -/
private theorem congruence_eq : Congruence fun _ act act' => act = act' where
  rel_pure _ := rfl
  rel_bind h hk := by rw [h, funext hk]
  rel_inference := rfl
  rel_lift _ := rfl
  rel_demand _ := rfl
  rel_solution := rfl
  rel_solving h := by rw [funext fun σ => h σ fun _ _ _ => rfl]
  rel_tell _ _ := rfl
  rel_solvingFor _ h := by rw [h]
  rel_silently h := by rw [h]
  rel_child h := by rw [h]
  rel_attempt h := by rw [h]

/-! ## What is asked for in alike worlds -/

namespace World.AlikeOn

variable (hw : w.AlikeOn names w')
include hw

theorem assignTy_eq (j : Judge) : assignTy w' j = assignTy w j := by
  funext mode dest source
  exact (congruence_eq.rel_assignTy (fun _ _ _ => rfl) hw
    (fun _ => ⟨fun _ _ _ => rfl, fun _ _ _ => rfl⟩) dest source).symm

theorem assignStep_eq (identity : w'.identity = w.identity) (j : Judge) :
    assignStep w' j = assignStep w j := by
  funext mode dest source
  exact (congruence_eq.rel_assignStep (fun _ _ _ => rfl) hw identity
    (fun _ => ⟨fun _ _ _ => rfl, fun _ _ _ => rfl⟩) dest source).symm

theorem matchMember_eq (j : Judge) (m : Match) {r : Requirement} (hn : names r.name) :
    m.matchMember w' j r = m.matchMember w j r :=
  (congruence_eq.rel_matchMember (fun _ _ _ => rfl) hw m hn).symm

theorem meetAll_eq (j : Judge) (mode : Mode) (protocol : ClassTy) (rs : List Requirement)
    {meets meets' : Requirement → Check Bool} (h : ∀ r ∈ rs, meets' r = meets r) :
    meetAll w' j mode protocol rs meets' = meetAll w j mode protocol rs meets :=
  (congruence_eq.rel_meetAll (fun _ _ _ => rfl) hw mode protocol
    (congruence_eq.rel_allOf fun r hr => (h r hr).symm)).symm

/-- A comparison with a protocol in an alike world is that of the other one, apart from what is
asked for. -/
theorem matchMembers_eq (j : Judge) {mode : Mode} (hm : mode.invariant = false)
    (asObject : Bool) (protocol candidate : ClassTy)
    (looked : w.classes.isTypedDict candidate = false ∨ w'.typedDict = w.typedDict)
    (hn : ∀ r ∈ Requirement.all w'.classes asObject protocol, names r.name) :
    matchMembers w' j mode asObject protocol candidate =
      meetAll w j mode protocol (Requirement.all w'.classes asObject protocol)
        ((Match.of w protocol candidate asObject).matchMember w j) := by
  have same : Match.of w' protocol candidate asObject = Match.of w protocol candidate asObject := by
    rcases looked with ordinary | placeholder
    · simp [Match.of, hw.classes.scope, hw.classes.withSelf, hw.classes.isTypedDict, ordinary]
    · simp only [Match.of, hw.classes.scope, hw.classes.withSelf, hw.classes.isTypedDict,
        placeholder]
  unfold matchMembers
  rw [if_neg (by simp [hm])]
  dsimp only
  rw [same]
  exact hw.meetAll_eq j mode protocol _ fun r hr => hw.matchMember_eq j _ (hn r hr)

/-- Where the same is asked for, the comparisons are the same. -/
theorem matchMembers_eq_of_asked (j : Judge) (mode : Mode) {asObject : Bool}
    {protocol candidate : ClassTy}
    (looked : w.classes.isTypedDict candidate = false ∨ w'.typedDict = w.typedDict)
    (asked : Requirement.all w'.classes asObject protocol = Requirement.all w.classes asObject protocol)
    (hn : ∀ r ∈ Requirement.all w'.classes asObject protocol, names r.name) :
    matchMembers w' j mode asObject protocol candidate =
      matchMembers w j mode asObject protocol candidate := by
  cases hm : mode.invariant with
  | true =>
    unfold matchMembers
    rw [if_pos hm, if_pos hm]
  | false =>
    rw [hw.matchMembers_eq j hm asObject protocol candidate looked hn, asked]
    unfold matchMembers
    rw [if_neg (Bool.eq_false_iff.1 hm)]

theorem matchClass_eq_of_asked (j : Judge) (choice : StackChoice) (mode : Mode) {asObject : Bool}
    {protocol candidate : ClassTy} (typedDict : w'.typedDict = w.typedDict)
    (asked : Requirement.all w'.classes asObject protocol.toClassObject =
      Requirement.all w.classes asObject protocol.toClassObject)
    (hn : ∀ r ∈ Requirement.all w'.classes asObject protocol.toClassObject, names r.name) :
    matchClass w' j choice mode asObject protocol candidate =
      matchClass w j choice mode asObject protocol candidate := by
  unfold matchClass
  dsimp only
  rw [hw.matchMembers_eq_of_asked j mode (.inr typedDict) asked hn]

theorem matchModule_eq (j : Judge) (mode : Mode) (protocol : ClassTy) (table : TableId) :
    matchModule w' j mode protocol table =
      meetAll w j mode protocol.toClassObject
        (Requirement.all w'.classes true protocol.toClassObject)
        (matchModuleMember w j protocol.toClassObject (w.moduleMembers table)) := by
  have same : w'.moduleMembers table = w.moduleMembers table := by
    rw [World.moduleMembers, hw.modules, World.moduleMembers]
  unfold matchModule
  rw [same]
  exact hw.meetAll_eq j mode _ _ fun r _ =>
    (congruence_eq.rel_matchModuleMember (fun _ _ _ => rfl) hw _ _ r).symm

theorem matchModule_eq_of_asked (j : Judge) (mode : Mode) {protocol : ClassTy}
    (asked : Requirement.all w'.classes true protocol.toClassObject =
      Requirement.all w.classes true protocol.toClassObject) (table : TableId) :
    matchModule w' j mode protocol table = matchModule w j mode protocol table := by
  rw [hw.matchModule_eq, asked]
  rfl

end World.AlikeOn

end Conformance
