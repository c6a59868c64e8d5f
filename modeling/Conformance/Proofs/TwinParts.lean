import Conformance.Proofs.TwinRuns

/-!
# Parts of comparisons of twins

Where the judge one level down gives the same answers about twins, so do the parts of a comparison that
bind methods, solve for variables, and compare type arguments and callables.
-/

namespace Conformance

open Check

namespace Pairing

/-- The judges give the same answers about twins. A type of which nothing is known accepts everything
at once. -/
structure Respects (m : Pairing) (j j' : Judge) : Prop where
  assign (mode : Mode) {d d' s s' : Option Ty} (hd : Option.Rel (Ty.Twin m) d d')
    (hs : Option.Rel (Ty.Twin m) s s') : m.Agrees (j.assign mode d s) (j'.assign mode d' s')
  conforms (mode : Mode) (asObject : Bool) {p p' c c' : ClassTy} (hp : p.Twin m p')
    (hc : c.Twin m c') : m.Agrees (j.conforms mode asObject p c) (j'.conforms mode asObject p' c')
  moduleConforms (mode : Mode) {p p' : ClassTy} (hp : p.Twin m p') (name name' : String)
    {table : TableId} (known : m.modules table) :
    m.Agrees (j.moduleConforms mode p name table) (j'.moduleConforms mode p' name' table)
  anything (s : Option Ty) : Idles (j.assign .default (some .unknown) s)
  anything' (s : Option Ty) : Idles (j'.assign .default (some .unknown) s)

variable {m : Pairing} {w : World} {j j' : Judge}

/-! ## What is known of a class -/

section

variable {c d : ClassTy} (h : c.Twin m d)
include h

theorem isBuiltin_eq (name : String) : w.classes.isBuiltin d name = w.classes.isBuiltin c name := by
  rw [ClassTable.isBuiltin, ClassTable.isBuiltin, h.id]

theorem isProtocol_eq : w.classes.isProtocol d = w.classes.isProtocol c := by
  rw [ClassTable.isProtocol, ClassTable.isProtocol, h.id]

theorem isTypedDict_eq : w.classes.isTypedDict d = w.classes.isTypedDict c := by
  rw [ClassTable.isTypedDict, ClassTable.isTypedDict, h.id]

private theorem isProperty_eq : w.classes.isProperty d = w.classes.isProperty c := by
  rw [ClassTable.isProperty, ClassTable.isProperty, h.id]

theorem metaclass?_eq : w.classes.metaclass? d = w.classes.metaclass? c := by
  rw [ClassTable.metaclass?, ClassTable.metaclass?, h.id]

theorem sameClass_eq {c' d' : ClassTy} (h' : c'.Twin m d') : d.sameClass d' = c.sameClass c' := by
  rw [ClassTy.sameClass, ClassTy.sameClass, h.id, h'.id]

private theorem derives_eq (ancestor : ClassTy) :
    w.classes.derives d ancestor = w.classes.derives c ancestor := by
  rw [ClassTable.derives, ClassTable.derives, ClassTy.sameClass, ClassTy.sameClass, h.id]

end

theorem isPromotion_eq {c d c' d' : ClassTy} (h : c.Twin m d) (h' : c'.Twin m d') :
    isPromotion w d d' = isPromotion w c c' := by
  rw [isPromotion, isPromotion, isBuiltin_eq h, isBuiltin_eq h, derives_eq h', derives_eq h']

theorem metaclass_twin (hw : m.Fixes w) {c k : ClassTy} (known : m.classes c.id)
    (h : w.classes.metaclass? c = some k) : k.Twin m k := by
  unfold ClassTable.metaclass? at h
  rw [Option.bind_eq_some_iff] at h
  obtain ⟨t, ht, hk⟩ := h
  have twin := hw.decl known (.metaclass ht)
  rwa [Fragment.eq_of_asClassObject? hk] at twin

theorem rel_property? {t u : Ty} (h : t.Twin m u) :
    Option.Rel (ClassTy.Twin m) (Match.property? w t) (Match.property? w u) := by
  have instances := h.asInstance?
  unfold Match.property?
  generalize t.asInstance? = a at instances
  generalize u.asInstance? = b at instances
  cases instances with
  | none => exact .none
  | some hc =>
    change Option.Rel _ (if _ then _ else _) (if _ then _ else _)
    rw [isProperty_eq hc]
    split
    · exact .some hc.toClassObject
    · exact .none

private theorem rel_asClass? {t u : Ty} (h : t.Twin m u) :
    Option.Rel (ClassTy.Twin m) t.asClass? u.asClass? := by
  cases h with
  | cls alike args => exact .some (.cls alike args)
  | _ => exact .none

/-! ## Binding -/

/-- The functions are reached in the same way, through twins, and not in order to construct an
object. -/
structure ReceiverTwin (m : Pairing) (r r' : Receiver) : Prop where
  base : Option.Rel (Ty.Twin m) r.base r'.base
  plain : r.constructors = false
  plain' : r'.constructors = false
  first : Option.Rel (Ty.Twin m) r.first r'.first

theorem receiver_of {t u : Ty} (h : t.Twin m u) : m.ReceiverTwin (.of t) (.of u) :=
  ⟨.some h, rfl, rfl, .none⟩

private theorem instanceFor_twin {t u : Ty} (h : t.Twin m u) :
    (instanceFor t).Twin m (instanceFor u) := by
  have objects := h.asClassObject?
  unfold instanceFor
  generalize t.asClassObject? = a at objects
  generalize u.asClassObject? = b at objects
  cases objects with
  | none => exact h
  | some hc => exact hc.toInstance

private theorem classObjectFor_twin {t u : Ty} (h : t.Twin m u) :
    (classObjectFor t).Twin m (classObjectFor u) := by
  have instances := h.asInstance?
  unfold classObjectFor
  generalize t.asInstance? = a at instances
  generalize u.asInstance? = b at instances
  cases instances with
  | none => exact h
  | some hc => exact hc.toClassObject

private theorem receiverScopes_twin {f g : FunctionTy} (h : f.Twin m g) {p q : Param}
    (hp : p.Twin m q) :
    (receiverScopes f p).Twin m (receiverScopes g q) := by
  have annotated := hp.annotated
  have own : (Solution.forScope f.scope).Twin m (Solution.forScope g.scope) := by
    rw [h.scope]
    exact .forScope m f.scope
  unfold receiverScopes
  generalize p.type = a at annotated
  generalize q.type = b at annotated
  cases annotated with
  | both ht =>
    cases ht with
    | var alike bound =>
      dsimp only
      rw [alike.scope]
      exact own.addScope _
    | _ => exact own
  | _ => exact own

section

variable (hj : m.Respects j j')
include hj

private theorem agrees_receiverFits {p q : Param} (hp : p.Twin m q) {r r' : Option Ty}
    (hr : Option.Rel (Ty.Twin m) r r') :
    m.Agrees (receiverFits j p r) (receiverFits j' q r') := by
  have annotated := hp.annotated
  unfold receiverFits
  generalize p.type = a at annotated
  generalize q.type = b at annotated
  cases hr with
  | none => cases annotated <;> exact agrees_pure true
  | some hr =>
    cases annotated with
    | both ht => exact hj.assign _ (.some ht) (.some hr)
    | neither => exact agrees_pure true
    | left => exact runs_of_idles_left (hj.anything _)
    | right => exact runs_of_idles (hj.anything' _)

private theorem runs_solveReceiver {f g : FunctionTy} (h : f.Twin m g) {p q : Param}
    (hp : p.Twin m q)
    {r r' : Option Ty} (hr : Option.Rel (Ty.Twin m) r r') :
    m.Runs (Option.Rel (Solution.Twin m)) (solveReceiver j f p r) (solveReceiver j' g q r') := by
  refine runs_silently (runs_solvingFor (.some (receiverScopes_twin h hp)) ?_)
  exact runs_ite (agrees_receiverFits hj hp hr) runs_solution (runs_pure .none)

variable (hw : m.Fixes w)
include hw

private theorem runs_bindReceiver {f g : FunctionTy} (h : f.Twin m g) {r r' : Option Ty}
    (hr : Option.Rel (Ty.Twin m) r r') (strip : Bool) :
    m.Runs (Option.Rel (FunctionTy.Twin m)) (bindReceiver w j f r strip)
      (bindReceiver w j' g r' strip) := by
  have params := h.params
  unfold bindReceiver
  generalize f.params = ps at params
  generalize g.params = qs at params
  cases params with
  | nil => exact runs_pure (.some h)
  | @cons p q ps qs hp _ =>
    dsimp only
    rw [hp.kind]
    split
    · exact runs_pure (.some h)
    · refine runs_bind (runs_solveReceiver hj h hp hr) fun σ τ hσ => ?_
      cases hσ with
      | none => exact runs_pure .none
      | some hσ =>
        refine runs_bind (runs_demand h.ret) fun _ _ _ => ?_
        refine runs_bind (runs_lift (both_substituteFunction hw hσ h)) fun f g h => ?_
        split
        · refine runs_bind (runs_lift (both_withParams h (rel_tail h.params))) ?_
          exact fun f g h => runs_pure (.some h)
        · exact runs_pure (.some h)

omit hj in
private theorem runs_seenThrough {f g : FunctionTy} (h : f.Twin m g) {o o' : Option ClassTy}
    (ho : Option.Rel (ClassTy.Twin m) o o') :
    m.Runs (FunctionTy.Twin m) (seenThrough w f o) (seenThrough w g o') := by
  cases ho with
  | none => exact runs_pure h
  | some ho => exact runs_lift (both_specializeFunction hw ho h)

section

variable {r r' : Receiver} (hr : m.ReceiverTwin r r') {o o' : Option ClassTy}
  (ho : Option.Rel (ClassTy.Twin m) o o')
include hr ho

theorem runs_bindFunction {f g : FunctionTy} (h : f.Twin m g) :
    m.Runs (Option.Rel (FunctionTy.Twin m)) (bindFunction w j r f o) (bindFunction w j' r' g o') := by
  have base := hr.base
  refine runs_bind (runs_seenThrough hw h ho) fun f g h => ?_
  generalize r.base = a at base
  generalize r'.base = b at base
  cases base with
  | none => exact runs_bindReceiver hj hw h .none true
  | @some t u ht =>
    have object : Option.Rel (Ty.Twin m) (some (r.first.getD (classObjectFor t)))
        (some (r'.first.getD (classObjectFor u))) :=
      .some (rel_option_getD hr.first (classObjectFor_twin ht))
    dsimp only
    rw [h.kind, hr.plain, hr.plain', ht.isInstance_eq, rel_option_isSome hr.first]
    split
    · exact runs_pure (.some h)
    · exact runs_bindReceiver hj hw h object true
    · exact runs_bindReceiver hj hw h (.some (rel_option_getD hr.first (instanceFor_twin ht))) _

private theorem runs_bindOverloads {fs gs : List FunctionTy}
    (h : List.Forall₂ (FunctionTy.Twin m) fs gs) :
    m.Runs (List.Forall₂ (FunctionTy.Twin m)) (bindOverloads w j r o fs)
      (bindOverloads w j' r' o' gs) := by
  induction h with
  | nil => exact runs_pure .nil
  | cons h _ ih =>
    rw [bindOverloads, bindOverloads]
    refine runs_bind (runs_bindFunction hj hw hr ho h) fun a b hab => ?_
    refine runs_bind ih fun fs gs h => runs_pure ?_
    cases hab with
    | none => exact h
    | some hab => exact .cons hab h

theorem runs_bindMember {t u : Ty} (h : t.Twin m u) :
    m.Runs (Option.Rel (Ty.Twin m)) (bind w j r t o) (bind w j' r' u o') := by
  have itself := h
  unfold Conformance.bind
  cases h with
  | function h =>
    refine runs_bind (runs_bindFunction hj hw hr ho h) fun a b hab => runs_pure ?_
    exact rel_option_map hab fun f g h => .function h
  | overloaded h =>
    refine runs_bind (runs_bindOverloads hj hw hr ho h) fun fs gs h => ?_
    cases h with
    | nil => exact runs_pure .none
    | cons first rest =>
      cases rest with
      | nil => exact runs_pure (.some (.function first))
      | cons second rest => exact runs_pure (.some (.overloaded (.cons first (.cons second rest))))
  | _ => exact runs_pure (.some itself)

theorem runs_boundOr {t u : Ty} (h : t.Twin m u) :
    m.Runs (Ty.Twin m) (Match.boundOr w j r t o) (Match.boundOr w j' r' u o') := by
  refine runs_bind (runs_bindMember hj hw hr ho h) fun a b hab => ?_
  cases hab with
  | none => exact runs_pure h
  | some hab => exact runs_lift (both_dropSpecRest hab)

end

theorem runs_boundCall {t u : Ty} (h : t.Twin m u) :
    m.Runs (Option.Rel (Ty.Twin m)) (boundCall w j t) (boundCall w j' u) := by
  have classes := rel_asClass? h
  unfold boundCall
  generalize t.asClass? = a at classes
  generalize u.asClass? = b at classes
  cases classes with
  | none => exact runs_pure .none
  | some hc =>
    refine runs_bind (runs_lift (both_lookup hw hc "__call__")) fun a b hab => ?_
    cases hab with
    | none => exact runs_pure .none
    | @some found found' hf =>
      have owner := hf.owner
      dsimp only
      cases ho : found.owner with
      | none =>
        cases ho' : found'.owner with
        | none => exact runs_pure .none
        | some o' =>
          rw [ho, ho'] at owner
          cases owner
      | some o =>
        cases ho' : found'.owner with
        | none =>
          rw [ho, ho'] at owner
          cases owner
        | some o' =>
          rw [ho, ho'] at owner
          refine runs_bind (runs_lift (both_typeOf hw hf)) fun t' u' ht => ?_
          rw [ht.isCallable]
          split
          · exact runs_bindMember hj hw (receiver_of h) owner ht
          · exact runs_pure .none

private theorem runs_calledType {t u : Ty} (h : t.Twin m u) :
    m.Runs (Ty.Twin m) (calledType w j t) (calledType w j' u) := by
  unfold calledType
  rw [h.isInstance_eq]
  split
  · exact runs_bind (runs_boundCall hj hw h) fun a b hab => runs_pure (rel_option_getD hab h)
  · exact runs_pure h

end

/-! ## Variables -/

section

variable (hj : m.Respects j j')
include hj

theorem agrees_accepts {d d' s s' : Ty} (hd : d.Twin m d') (hs : s.Twin m s') :
    m.Agrees (j.accepts d s) (j'.accepts d' s') :=
  runs_silently (runs_solvingFor .none (hj.assign _ (.some hd) (.some hs)))

section

variable {v u : TypeVar} (hv : v.Twin m u)
include hv

theorem agrees_fitsBound (mode : Mode) {t t' : Ty} (ht : t.Twin m t') :
    m.Agrees (fitsBound w j mode v t) (fitsBound w j' mode u t') := by
  have bound := hv.bound
  unfold fitsBound
  generalize v.bound = a at bound
  generalize u.bound = b at bound
  cases bound with
  | none => exact agrees_pure true
  | some hb =>
    dsimp only
    rw [ht.isAnyOrUnknown]
    split
    · exact agrees_pure true
    · refine agrees_explained (runs_child (runs_solvingFor .none ?_)) (tells_tell _ _ _ _)
      exact hj.assign _ (.some hb) (.some ht)

theorem agrees_widen {e e' t t' : Ty} (he : e.Twin m e') (ht : t.Twin m t') :
    m.Agrees (widen j v e t) (widen j' u e' t') := by
  refine runs_ite (agrees_accepts hj he ht) (agrees_pure true) ?_
  refine runs_ite (agrees_accepts hj ht he) ?_ ?_
  · exact runs_bind (runs_solve hv ht) fun _ _ _ => agrees_pure true
  · refine runs_bind runs_inference fun inf inf' holds => ?_
    refine runs_bind (runs_solve hv (holds.rel_combine ?_)) fun _ _ _ => agrees_pure true
    exact .cons (.some he) (.cons (.some ht) .nil)

theorem agrees_narrow {e e' t t' : Ty} (he : e.Twin m e') (ht : t.Twin m t') :
    m.Agrees (narrow w j v e t) (narrow w j' u e' t') := by
  refine runs_ite (agrees_accepts hj ht he) (agrees_pure true) ?_
  refine runs_ite (agrees_accepts hj he ht) ?_ (agrees_refuse _ _ _ _)
  exact runs_bind (runs_solve hv ht) fun _ _ _ => agrees_pure true

omit hj hv in
private theorem solutionCandidate_twin (mode : Mode) {t t' : Ty} (ht : t.Twin m t') :
    (solutionCandidate mode t).Twin m (solutionCandidate mode t') := by
  have itself := ht
  cases ht with
  | cls alike args =>
    unfold solutionCandidate
    dsimp only
    rw [alike.isInstance]
    split
    · exact .cls { alike with literal := rfl } args
    · exact itself
  | _ => exact itself

theorem agrees_solveVar (mode : Mode) {t t' : Ty} (ht : t.Twin m t') :
    m.Agrees (solveVar w j mode v t) (solveVar w j' mode u t') := by
  have candidate := solutionCandidate_twin mode ht
  unfold solveVar
  refine runs_bind (agrees_fitsBound hj hv mode candidate) fun fits fits' same => ?_
  subst same
  split
  · exact agrees_pure false
  · refine runs_bind runs_solution fun σ τ hσ => ?_
    have found : Option.Rel (Ty.Twin m) (σ.bind (·.get? v)) (τ.bind (·.get? u)) := by
      cases hσ with
      | none => exact .none
      | some hσ => exact hσ.get? hv
    generalize σ.bind (·.get? v) = a at found
    generalize τ.bind (·.get? u) = b at found
    cases found with
    | none => exact runs_bind (runs_solve hv candidate) fun _ _ _ => agrees_pure true
    | some he =>
      dsimp only
      split
      · refine runs_bind runs_inference fun inf inf' holds => ?_
        rw [holds.same_eq he candidate]
        split
        · exact agrees_pure true
        · exact agrees_refuse _ _ _ _
      · split
        · exact agrees_narrow hj hv he candidate
        · exact agrees_widen hj hv he candidate

end

end

/-! ## Type arguments -/

/-- Arguments that are compared, and are given for parameters of the same variance. -/
structure ArgumentsTwin (m : Pairing) (p q : ArgumentPair) : Prop where
  dest : Option.Rel (Ty.Twin m) p.dest q.dest
  source : Option.Rel (Ty.Twin m) p.source q.source
  variance : q.variance = p.variance

private theorem rel_mapIdx {α β γ δ : Type} {R : α → β → Prop} {S : γ → δ → Prop} {as : List α}
    {bs : List β} (h : List.Forall₂ R as bs) {f : Nat → α → γ} {g : Nat → β → δ}
    (hf : ∀ i a b, R a b → S (f i a) (g i b)) : List.Forall₂ S (as.mapIdx f) (bs.mapIdx g) := by
  induction h generalizing f g with
  | nil => exact .nil
  | cons hab _ ih =>
    rw [List.mapIdx_cons, List.mapIdx_cons]
    exact .cons (hf 0 _ _ hab) (ih fun i a b hab => hf (i + 1) a b hab)

private theorem variance_eq (p : ArgumentPair) :
    p.variance = (p.param.map (·.variance)).getD .covariant := by
  unfold ArgumentPair.variance
  cases p.param <;> rfl

private theorem rel_pairArguments {params params' : List TypeVar}
    (variances : params'.map (·.variance) = params.map (·.variance))
    {ds ds' ss ss' : List (Option Ty)} (hd : List.Forall₂ (Option.Rel (Ty.Twin m)) ds ds')
    (hs : List.Forall₂ (Option.Rel (Ty.Twin m)) ss ss') :
    List.Forall₂ m.ArgumentsTwin (pairArguments params ds ss) (pairArguments params' ds' ss') := by
  have none_given : ds'.isEmpty = ds.isEmpty := by
    cases hd <;> rfl
  unfold pairArguments
  refine rel_mapIdx hs fun i a b hab => ?_
  rw [none_given, ← hd.length_eq]
  split
  · exact ⟨.some .unknown, hab, rfl⟩
  · have found := rel_getElem? hd (min i (ds.length - 1))
    have param := congrArg (·[min i (ds.length - 1)]?) variances
    dsimp only at param ⊢
    rw [List.getElem?_map, List.getElem?_map] at param
    refine ⟨?_, hab, by rw [variance_eq, variance_eq, param]⟩
    generalize ds[min i (ds.length - 1)]? = x at found
    generalize ds'[min i (ds.length - 1)]? = y at found
    cases found with
    | none => exact .none
    | some h => exact h

/-- Views of classes that need not be the same, with type arguments that are twins for parameters of
the same variances. -/
structure ViewTwin (m : Pairing) (w : World) (c d : ClassTy) : Prop where
  variances : (w.classes.decl d.id).params.map (·.variance) =
    (w.classes.decl c.id).params.map (·.variance)
  args : Option.Rel (List.Forall₂ (Option.Rel (Ty.Twin m))) c.args d.args

theorem ViewTwin.argList {c d : ClassTy} (h : m.ViewTwin w c d) :
    List.Forall₂ (Option.Rel (Ty.Twin m)) c.argList d.argList :=
  rel_option_getD h.args .nil

theorem viewTwin_of_twin {c d : ClassTy} (h : c.Twin m d) : m.ViewTwin w c d :=
  ⟨by rw [h.id], h.args⟩

section

variable (hj : m.Respects j j')
include hj

theorem agrees_assignArgument (mode : Mode) {p q : ArgumentPair} (h : m.ArgumentsTwin p q) :
    m.Agrees (p.assign w j mode) (q.assign w j' mode) := by
  unfold ArgumentPair.assign
  rw [h.variance]
  refine runs_child (agrees_explained (runs_child ?_) (tells_tell _ _ _ _))
  split
  · exact hj.assign _ h.source h.dest
  · exact hj.assign _ h.dest h.source

theorem agrees_assignArguments (mode : Mode) {d d' s s' : ClassTy} (hd : m.ViewTwin w d d')
    (args : Option.Rel (List.Forall₂ (Option.Rel (Ty.Twin m))) s.args s'.args) :
    m.Agrees (assignArguments w j mode d s) (assignArguments w j' mode d' s') := by
  unfold assignArguments
  generalize s.args = a at args
  generalize s'.args = b at args
  cases args with
  | none => exact agrees_pure true
  | some args =>
    exact agrees_allOf (rel_pairArguments hd.variances hd.argList args)
      fun p q h => agrees_assignArgument hj mode h

theorem agrees_assignInvariant (mode : Mode) {d d' s s' : Ty} (hd : d.Twin m d')
    (hs : s.Twin m s') :
    m.Agrees (assignInvariant w j mode d s) (assignInvariant w j' mode d' s') := by
  refine runs_bind runs_inference fun inf inf' holds => ?_
  rw [holds.same_eq hd hs]
  split
  · exact agrees_pure true
  · cases hd with
    | @cls c c' alike args =>
      have hc : c.Twin m c' := .cls alike args
      cases hs with
      | @cls k k' alike' args' =>
        have hk : k.Twin m k' := .cls alike' args'
        have view : sameView c' k' = sameView c k := by
          rw [sameView, sameView, sameClass_eq hc hk, hc.isInstance, hk.isInstance, hc.literal,
            hk.literal]
        dsimp only
        rw [view]
        split
        · refine runs_ite ?_ (agrees_pure true) (agrees_mismatch _ _ _ _ _)
          exact agrees_allOf (rel_padPairs .unknown hc.argList hk.argList)
            fun p q h => runs_child (hj.assign _ h.1 h.2)
        · exact agrees_mismatch _ _ _ _ _
      | _ => exact agrees_mismatch _ _ _ _ _
    | _ => cases hs <;> exact agrees_mismatch _ _ _ _ _

end

/-! ## Callables -/

/-- Steps that compare twins, or faults. -/
inductive StepTwin (m : Pairing) : ParamStep → ParamStep → Prop
  | compare (index : Nat) {d d' s s' : Param} (hd : d.Twin m d') (hs : s.Twin m s') :
      m.StepTwin (.compare index d s) (.compare index d' s')
  | fault (wording : Wording) (values values' : List (String × String)) :
      m.StepTwin (.fault wording values) (.fault wording values')

structure GroupsTwin (m : Pairing) (g g' : ParamGroups) : Prop where
  positional : List.Forall₂ (Param.Twin m) g.positional g'.positional
  keywordOnly : List.Forall₂ (Param.Twin m) g.keywordOnly g'.keywordOnly
  args : Option.Rel (Param.Twin m) g.args g'.args
  kwargs : Option.Rel (Param.Twin m) g.kwargs g'.kwargs

private theorem groups_ofList {ps qs : List Param} (h : List.Forall₂ (Param.Twin m) ps qs) :
    m.GroupsTwin (.ofList ps) (.ofList qs) := by
  have folded : ∀ {g g' : ParamGroups}, m.GroupsTwin g g' →
      m.GroupsTwin (ps.foldl ParamGroups.add g) (qs.foldl ParamGroups.add g') := by
    induction h with
    | nil => exact id
    | @cons p q _ _ hp _ ih =>
      intro g g' hg
      refine ih ?_
      unfold ParamGroups.add
      rw [hp.kind]
      split
      · exact ⟨hg.positional, hg.keywordOnly, .some hp, hg.kwargs⟩
      · exact ⟨hg.positional, hg.keywordOnly, hg.args, .some hp⟩
      · rw [rel_option_isSome hg.args]
        split
        · exact ⟨hg.positional, List.rel_append hg.keywordOnly (.cons hp .nil), hg.args, hg.kwargs⟩
        · exact ⟨List.rel_append hg.positional (.cons hp .nil), hg.keywordOnly, hg.args, hg.kwargs⟩
  exact folded ⟨.nil, .nil, .none, .none⟩

private theorem rel_findKeyword {ps qs : List Param} (h : List.Forall₂ (Param.Twin m) ps qs)
    (name : String) : Option.Rel (Param.Twin m) (findKeyword ps name) (findKeyword qs name) :=
  rel_find? h fun p q hp => by rw [hp.name, hp.isPositionalOnly]

section

variable {d d' s s' : ParamGroups} (hd : m.GroupsTwin d d') (hs : m.GroupsTwin s s')
include hd hs

omit hd in
private theorem rel_positional {n : Nat} {ps ps' qs qs' : List Param}
    (hp : List.Forall₂ (Param.Twin m) ps ps') (hq : List.Forall₂ (Param.Twin m) qs qs') :
    List.Forall₂ m.StepTwin (ParamStep.positional d s n ps qs)
      (ParamStep.positional d' s' n ps' qs') := by
  have args := hs.args
  induction hp generalizing n qs qs' with
  | nil =>
    rw [ParamStep.positional, ParamStep.positional]
    exact .nil
  | @cons p p' ps ps' hp hps ih =>
    cases hq with
    | nil =>
      rw [ParamStep.positional, ParamStep.positional]
      generalize s.args = a at args
      generalize s'.args = b at args
      cases args with
      | none => exact .cons (.fault _ _ _) .nil
      | some ha => exact .cons (.compare _ hp ha) (ih .nil)
    | @cons q q' qs qs' hq hqs =>
      rw [ParamStep.positional, ParamStep.positional]
      refine List.rel_append ?_ (.cons (.compare _ hp hq) (ih hqs))
      unfold ParamStep.nameFault
      rw [hp.isPositionalOnly, hq.isPositionalOnly, hp.name, hq.name]
      split
      · exact .cons (.fault _ _ _) .nil
      · exact .nil

omit hs in
private theorem rel_extra {n : Nat} {ps ps' : List Param}
    (hp : List.Forall₂ (Param.Twin m) ps ps') :
    List.Forall₂ m.StepTwin (ParamStep.extra d n ps) (ParamStep.extra d' n ps') := by
  have args := hd.args
  induction hp generalizing n with
  | nil =>
    rw [ParamStep.extra, ParamStep.extra]
    exact .nil
  | @cons p p' ps ps' hp hps ih =>
    rw [ParamStep.extra, ParamStep.extra]
    refine List.rel_append ?_ ih
    rw [hp.hasDefault, hp.isPositionalOnly, hp.name,
      rel_option_isSome (rel_findKeyword hd.keywordOnly p.name)]
    split
    · exact .nil
    · generalize d.args = a at args
      generalize d'.args = b at args
      cases args with
      | some ha => exact .cons (.compare _ ha hp) .nil
      | none =>
        dsimp only
        split
        · exact .nil
        · exact .cons (.fault _ _ _) .nil

private theorem rel_takesKeyword (name : String) : Option.Rel (Param.Twin m)
    (ParamStep.takesKeyword d s name) (ParamStep.takesKeyword d' s' name) := by
  have or {a a' b b' : Option Param} (ha : Option.Rel (Param.Twin m) a a')
      (hb : Option.Rel (Param.Twin m) b b') : Option.Rel (Param.Twin m) (a.or b) (a'.or b') := by
    cases ha with
    | none => exact hb
    | some ha => exact .some ha
  unfold ParamStep.takesKeyword
  rw [← hd.positional.length_eq]
  exact or (rel_findKeyword hs.keywordOnly name)
    (or (rel_findKeyword (List.forall₂_drop _ hs.positional) name) hs.kwargs)

private theorem step_keyword {p p' : Param} (hp : p.Twin m p') :
    m.StepTwin (ParamStep.keyword d s p) (ParamStep.keyword d' s' p') := by
  have takes := rel_takesKeyword hd hs p.name
  unfold ParamStep.keyword
  rw [hp.name, ← hd.positional.length_eq]
  generalize ParamStep.takesKeyword d s p.name = a at takes
  generalize ParamStep.takesKeyword d' s' p.name = b at takes
  cases takes with
  | none => exact .fault _ _ _
  | some ha => exact .compare _ hp ha

omit hs in
private theorem rel_extraKeyword {p p' : Param} (hp : p.Twin m p') :
    List.Forall₂ m.StepTwin (ParamStep.extraKeyword d p) (ParamStep.extraKeyword d' p') := by
  have kwargs := hd.kwargs
  unfold ParamStep.extraKeyword
  rw [hp.hasDefault, hp.name, rel_option_isSome (rel_findKeyword hd.keywordOnly p.name),
    ← hd.positional.length_eq]
  split
  · exact .nil
  · generalize d.kwargs = a at kwargs
    generalize d'.kwargs = b at kwargs
    cases kwargs with
    | none => exact .cons (.fault _ _ _) .nil
    | some ha => exact .cons (.compare _ ha hp) .nil

omit hd hs in
private theorem rel_rest (n : Nat) (missing : Wording) {a a' b b' : Option Param}
    (ha : Option.Rel (Param.Twin m) a a') (hb : Option.Rel (Param.Twin m) b b') :
    List.Forall₂ m.StepTwin (ParamStep.rest n missing a b) (ParamStep.rest n missing a' b') := by
  cases ha with
  | none => exact .nil
  | some ha =>
    cases hb with
    | none => exact .cons (.fault _ _ _) .nil
    | some hb => exact .cons (.compare _ ha hb) .nil

private theorem rel_plan : List.Forall₂ m.StepTwin (ParamStep.plan d s) (ParamStep.plan d' s') := by
  have keywords : List.Forall₂ m.StepTwin (d.keywordOnly.map (ParamStep.keyword d s))
      (d'.keywordOnly.map (ParamStep.keyword d' s')) :=
    List.rel_map (fun _ _ hp => step_keyword hd hs hp) hd.keywordOnly
  have extras : List.Forall₂ m.StepTwin (s.keywordOnly.flatMap (ParamStep.extraKeyword d))
      (s'.keywordOnly.flatMap (ParamStep.extraKeyword d')) :=
    List.rel_flatMap hs.keywordOnly fun _ _ hp => rel_extraKeyword hd hp
  unfold ParamStep.plan
  rw [← hd.positional.length_eq]
  refine List.rel_append ?_ (rel_rest _ _ hd.kwargs hs.kwargs)
  refine List.rel_append ?_ (rel_rest _ _ hd.args hs.args)
  refine List.rel_append (List.rel_append ?_ keywords) extras
  refine List.rel_append (rel_positional hs hd.positional hs.positional) ?_
  exact rel_extra hd (List.forall₂_drop _ hs.positional)

end

section

variable (hj : m.Respects j j')
include hj

theorem agrees_paramStep (mode : Mode) {p q : ParamStep} (h : m.StepTwin p q) :
    m.Agrees (p.run w j mode) (q.run w j' mode) := by
  cases h with
  | compare index hd hs =>
    refine runs_child (agrees_explained (runs_child ?_) (tells_tell _ _ _ _))
    exact hj.assign _ (.some hs.type) (.some hd.type)
  | fault wording values values' => exact agrees_refuse _ _ _ _

theorem agrees_assignFunction (mode : Mode) {f f' g g' : FunctionTy} (hf : f.Twin m f')
    (hg : g.Twin m g') :
    m.Agrees (assignFunction w j mode f g) (assignFunction w j' mode f' g') := by
  refine runs_bind (runs_demand hf.ret) fun _ _ _ => ?_
  refine runs_bind (runs_demand hg.ret) fun _ _ _ => ?_
  refine runs_bind (agrees_allOf (rel_plan (groups_ofList hf.params) (groups_ofList hg.params))
    fun p q h => agrees_paramStep hj mode h) fun params params' same => ?_
  refine runs_bind runs_inference fun inf inf' holds => ?_
  refine runs_bind (R := (· = ·)) ?_ fun ret ret' same' => ?_
  · refine runs_child (agrees_explained (runs_child ?_) (tells_tell _ _ _ _))
    exact hj.assign _ (.some (holds.returnType hf.ret)) (.some (holds.returnType hg.ret))
  · subst same same'
    exact agrees_pure _

theorem agrees_assignToFunction (mode : Mode) {f f' : FunctionTy} (hf : f.Twin m f') {s s' : Ty}
    (hs : s.Twin m s') :
    m.Agrees (assignToFunction w j mode f s) (assignToFunction w j' mode f' s') := by
  unfold assignToFunction
  cases hs with
  | function hg => exact agrees_assignFunction hj mode hf hg
  | overloaded hgs =>
    refine runs_ite (runs_silently (agrees_anyOf hgs fun g g' hg => ?_)) (agrees_pure true)
      (agrees_refuse _ _ _ _)
    exact agrees_attempt (agrees_assignFunction hj mode hf hg)
  | _ => exact agrees_mismatch _ _ _ _ _

theorem agrees_assignToOverloads (mode : Mode) {s s' : Ty} (hs : s.Twin m s')
    {fs fs' : List FunctionTy} (hf : List.Forall₂ (FunctionTy.Twin m) fs fs') :
    m.Agrees (assignToOverloads w j mode s fs) (assignToOverloads w j' mode s' fs') := by
  induction hf with
  | nil => exact agrees_pure true
  | cons hf _ ih =>
    rw [assignToOverloads, assignToOverloads]
    exact runs_ite (runs_child (agrees_assignToFunction hj mode hf hs)) ih (agrees_refuse _ _ _ _)

variable (hw : m.Fixes w)
include hw

theorem agrees_assignToCallable (mode : Mode) {d d' s s' : Ty} (hd : d.Twin m d')
    (hs : s.Twin m s') :
    m.Agrees (assignToCallable w j mode d s) (assignToCallable w j' mode d' s') := by
  refine runs_bind (runs_calledType hj hw hs) fun called called' hc => ?_
  rw [hc.isCallable]
  split
  · exact agrees_mismatch _ _ _ _ _
  · cases hd with
    | function hf => exact agrees_assignToFunction hj mode hf hc
    | overloaded hf => exact agrees_assignToOverloads hj mode hc hf
    | _ => exact agrees_mismatch _ _ _ _ _

end

end Pairing

end Conformance
