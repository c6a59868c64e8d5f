import Conformance.Proofs.Pairs

/-!
# Properties of checks

A property that the smallest checks have and that each way to put checks together passes on is one
that every part of a comparison has, if the answers of the judge one level down have it. The parts
that look members up and bind them need less of it: they explain nothing, and solve only apart from
what is being solved.
-/

namespace Conformance

open Check

/-- A property of checks that one after another passes on. -/
structure Sequential (P : (α : Type) → Check α → Prop) : Prop where
  holds_pure {α : Type} (a : α) : P α (pure a)
  holds_bind {α β : Type} {act : Check α} {k : α → Check β} (h : P α act) (hk : ∀ a, P β (k a)) :
    P β (act >>= k)
  holds_inference : P _ inference
  holds_lift {α : Type} {m : StateM Inference α} (h : Opens m) : P α (lift m)
  holds_demand (f : FunctionTy) : P _ (demand f)

/-- A property of checks that each way to put them together passes on. Types are recorded for those
variables alone that are being solved for. -/
structure Compositional (P : (α : Type) → Check α → Prop) : Prop extends Sequential P where
  holds_solution : P _ solution
  holds_solving {α : Type} {k : Option Solution → Check α}
    (h : ∀ σ : Option Solution,
      (∀ v : TypeVar, σ.any (·.solves v.scope) = true → ∀ t, P _ (solve v t)) → P α (k σ)) :
    P α (solution >>= k)
  holds_tell (wording : Wording) (values : Inference → List (String × String)) :
    P _ (tell wording values)
  holds_solvingFor {α : Type} {act : Check α} (σ : Option Solution) (h : P α act) :
    P α (solvingFor σ act)
  holds_silently {α : Type} {act : Check α} (h : P α act) : P α (silently act)
  holds_child {α : Type} {act : Check α} (h : P α act) : P α (child act)
  holds_attempt {act : Check Bool} (h : P Bool act) : P Bool (attempt act)

def Assigns (P : (α : Type) → Check α → Prop) (j : Judge) : Prop :=
  ∀ mode dest source, P _ (j.assign mode dest source)

/-- Each comparison with a protocol that the judge makes in a mode has the property. -/
structure Compares (P : (α : Type) → Check α → Prop) (j : Judge) (mode : Mode) : Prop where
  conforms : ∀ asObject protocol candidate, P _ (j.conforms mode asObject protocol candidate)
  moduleConforms : ∀ protocol name table, P _ (j.moduleConforms mode protocol name table)

def Receives (P : (α : Type) → Check α → Prop) (j : Judge) : Prop :=
  ∀ f first receiver, P _ (solveReceiver j f first receiver)

variable {α : Type} {P : (α : Type) → Check α → Prop} {w : World} {j : Judge}

/-! ## Properties as relations -/

def Held (P : (α : Type) → Check α → Prop) (α : Type) (act _ : Check α) : Prop := P α act

private theorem Sequential.sequenced (hP : Sequential P) : Sequenced (Held P) where
  rel_pure := hP.holds_pure
  rel_bind h hk := hP.holds_bind h hk
  rel_inference := hP.holds_inference
  rel_lift h := hP.holds_lift h
  rel_demand := hP.holds_demand

theorem Compositional.congruence (hP : Compositional P) : Congruence (Held P) where
  toSequenced := hP.toSequential.sequenced
  rel_solution := hP.holds_solution
  rel_solving h := hP.holds_solving h
  rel_tell := hP.holds_tell
  rel_solvingFor σ h := hP.holds_solvingFor σ h
  rel_silently h := hP.holds_silently h
  rel_child h := hP.holds_child h
  rel_attempt h := hP.holds_attempt h

theorem Assigns.held (hj : Assigns P j) : RelatesTypes (Held P) j j := hj

theorem Compares.held {mode : Mode} (hp : Compares P j mode) :
    RelatesProtocols (Held P) j j mode :=
  ⟨hp.conforms, hp.moduleConforms⟩

theorem Receives.held (hr : Receives P j) : RelatesReceivers (Held P) j j := hr

/-! ## Lookups and binding -/

namespace Sequential

variable (hP : Sequential P)
include hP

theorem holds_requiredAccessor (p : PropertyPair) (dest : FunctionTy) : P _ (p.required w dest) :=
  hP.sequenced.rel_requiredAccessor (.refl w) p dest

theorem holds_getterType (property : ClassTy) (findOut : Bool) :
    P _ (getterType w property findOut) :=
  hP.sequenced.rel_getterType (.refl w) property findOut

theorem holds_ancestorOf (source ancestor : ClassTy) : P _ (ancestorOf w source ancestor) :=
  hP.sequenced.rel_ancestorOf (.refl w) source ancestor

theorem holds_seenFrom (r : Requirement) (protocol : ClassTy) (t : Ty) :
    P _ (r.seenFrom w protocol t) :=
  hP.sequenced.rel_seenFrom (.refl w) r protocol t

theorem holds_find (m : Match) (name : String) : P _ (m.find w name) :=
  hP.sequenced.rel_find (.refl w) m trivial

theorem holds_foundType (m : Match) (found : FoundMember) : P _ (m.foundType w found) :=
  hP.sequenced.rel_foundType (.refl w) m found

theorem holds_expectedVariance {fits : ClassTy → ClassTy → Check Bool}
    (h : ∀ dest source, P _ (fits dest source)) (protocol : ClassTy) (index : Nat) (other : Ty) :
    P _ (expectedVariance w fits protocol index other) := by
  refine hP.holds_bind (h _ _) fun covariant => ?_
  split
  · exact hP.holds_pure _
  · refine hP.holds_bind (h _ _) fun contravariant => ?_
    split <;> exact hP.holds_pure _

section

variable (hr : Receives P j)
include hr

theorem holds_bindFunction (r : Receiver) (f : FunctionTy) (owner : Option ClassTy) :
    P _ (bindFunction w j r f owner) :=
  hP.sequenced.rel_bindFunction (.refl w) hr.held r f owner

theorem holds_bindMember (r : Receiver) (t : Ty) (owner : Option ClassTy) :
    P _ (bind w j r t owner) :=
  hP.sequenced.rel_bindMember (.refl w) hr.held r t owner

theorem holds_boundCall (object : Ty) : P _ (boundCall w j object) :=
  hP.sequenced.rel_boundCall (.refl w) hr.held object

theorem holds_calledType (source : Ty) : P _ (calledType w j source) :=
  hP.sequenced.rel_calledType (.refl w) hr.held source

theorem holds_comparedTypes (m : Match) (found : FoundMember) (fromMetaclass : Bool)
    (dest source : Ty) : P _ (m.comparedTypes w j found fromMetaclass dest source) :=
  hP.sequenced.rel_comparedTypes (.refl w) hr.held m found fromMetaclass dest source

theorem holds_moduleRequiredType (protocol : ClassTy) (r : Requirement) (t source : Ty) :
    P _ (moduleRequiredType w j protocol r t source) :=
  hP.sequenced.rel_moduleRequiredType (.refl w) hr.held protocol r t source

end

end Sequential

/-! ## Comparisons -/

namespace Compositional

variable (hP : Compositional P) (hj : Assigns P j)
include hP hj

theorem receives : Receives P j := fun f first receiver =>
  hP.congruence.rel_solveReceiver hj.held f first receiver

theorem holds_assignArguments (mode : Mode) (dest source : ClassTy) :
    P _ (assignArguments w j mode dest source) :=
  hP.congruence.rel_assignArguments hj.held (.refl w) mode dest source

theorem holds_assignArgument (mode : Mode) (p : ArgumentPair) : P _ (p.assign w j mode) :=
  hP.congruence.rel_assignArgument hj.held (.refl w) mode p

theorem holds_paramStep (mode : Mode) (step : ParamStep) : P _ (step.run w j mode) :=
  hP.congruence.rel_paramStep hj.held (.refl w) mode step

theorem holds_assignReturn (mode : Mode) (dest source : Ty) :
    P _ (assignReturn w j mode dest source) :=
  hP.congruence.rel_assignReturn hj.held (.refl w) mode dest source

theorem holds_assignFunction (mode : Mode) (dest source : FunctionTy) :
    P _ (assignFunction w j mode dest source) :=
  hP.congruence.rel_assignFunction hj.held (.refl w) mode dest source

theorem holds_assignToFunction (mode : Mode) (dest : FunctionTy) (source : Ty) :
    P _ (assignToFunction w j mode dest source) :=
  hP.congruence.rel_assignToFunction hj.held (.refl w) mode dest source

theorem holds_assignProperty (p : PropertyPair) : P _ (assignProperty w j p) :=
  hP.congruence.rel_assignProperty hj.held (.refl w) p

theorem holds_matchMembers (mode : Mode) (asObject : Bool) (protocol candidate : ClassTy) :
    P _ (matchMembers w j mode asObject protocol candidate) :=
  hP.congruence.rel_matchMembers hj.held mode asObject protocol candidate

theorem holds_matchModule (mode : Mode) (protocol : ClassTy) (table : TableId) :
    P _ (matchModule w j mode protocol table) :=
  hP.congruence.rel_matchModule hj.held mode protocol table

theorem holds_assignStep {mode : Mode} (hp : mode.invariant = false → Compares P j mode)
    (dest source : Option Ty) : P _ (assignStep w j mode dest source) :=
  hP.congruence.rel_assignStep hj.held (.refl w) rfl (fun hm => (hp hm).held) dest source

/-! ## Specializations -/

omit hj in
theorem holds_allOf {f : α → Check Bool} {as : List α} (h : ∀ a ∈ as, P _ (f a)) :
    P _ (allOf f as) := by
  have held : Held P _ (allOf f as) (allOf f as) := hP.congruence.rel_allOf h
  exact held

omit hj in
theorem holds_anyOf {f : α → Check Bool} {as : List α} (h : ∀ a ∈ as, P _ (f a)) :
    P _ (anyOf f as) := by
  have held : Held P _ (anyOf f as) (anyOf f as) := hP.congruence.rel_anyOf h
  exact held

private theorem holds_compareMember (dest source : ClassTy) (e : String × Member) :
    P _ (compareMember w j dest source e) := by
  unfold compareMember
  dsimp only
  split
  · exact hP.holds_pure true
  · refine hP.holds_bind (hP.holds_lift (opens_lookup _ _)) fun found => ?_
    split
    · refine hP.holds_bind (hP.holds_lift (opens_typeOf _)) fun sourceType => ?_
      refine hP.holds_bind (hP.holds_lift (opens_specialize _ _ _)) fun destType => ?_
      split
      · exact hP.holds_assignProperty hj _
      · exact hj _ _ _
    · exact hP.holds_pure true

private theorem holds_compareMembers (dest source : ClassTy) (es : List (String × Member)) :
    P _ (compareMembers w j dest source es) := by
  induction es with
  | nil => exact hP.holds_pure true
  | cons e es ih =>
    rw [compareMembers]
    refine hP.holds_bind (hP.holds_compareMember hj _ _ _) fun fits => ?_
    split
    · exact ih
    · exact hP.holds_pure false

private theorem holds_compareSpecializations (height : Nat) (dest source : ClassTy) :
    P _ (compareSpecializations w j height dest source) := by
  induction height generalizing dest source with
  | zero => exact hP.holds_pure true
  | succ height ih =>
    rw [compareSpecializations]
    refine hP.holds_bind (hP.holds_silently (hP.holds_solvingFor _ ?_)) fun own => ?_
    · exact hP.holds_compareMembers hj _ _ _
    refine hP.holds_bind (hP.holds_allOf fun base _ => ?_) fun bases => hP.holds_pure _
    refine hP.holds_bind (hP.holds_lift (opens_specializeBase _ _)) fun d => ?_
    exact hP.holds_bind (hP.holds_lift (opens_specializeBase _ _)) fun s => ih d s

theorem holds_fitsItself (dest source : ClassTy) : P _ (fitsItself w j dest source) :=
  hP.holds_compareSpecializations hj _ _ _

end Compositional

end Conformance
