import Conformance.Proofs.Doubles

/-!
# Mirrored comparisons

A type of a narrow fragment takes an instance of a class that no type of the fragment mentions if it
takes one of its double. One judge mirrors another if it follows it also where it is asked about the
second of two doubles and the other about the first one, and so does the judge of one more level.
-/

namespace Conformance

open Check

private theorem World.Doubles.ne {F : Fragment} {w : World} {a b : ClassId} (hd : w.Doubles F a b)
    {c : ClassTy} (hc : F.HasClass c) : c.id ≠ a ∧ c.id ≠ b :=
  ⟨fun h => hd.left.unmentioned (h ▸ hc.ids), fun h => hd.right.unmentioned (h ▸ hc.ids)⟩

/-! ## Sameness -/

section

variable {F : Fragment} {w : World} {a b : ClassId} (hd : w.Doubles F a b) {dest : Ty}
  (has : F.Has dest)
include hd has

private theorem Fragment.sameAt_instances (n : Nat) :
    sameAt F.inf n dest (Builtin.instanceOf (.ofId b)) =
      sameAt F.inf n dest (Builtin.instanceOf (.ofId a)) := by
  cases n with
  | zero => rfl
  | succ n =>
    cases dest with
    | cls c =>
      obtain ⟨left, right⟩ := hd.ne has
      have unlike {id : ClassId} (ne : c.id ≠ id) : c.sameClass (ClassTy.ofId id).toInstance = false :=
        beq_eq_false_iff_ne.2 ne
      simp only [Builtin.instanceOf, sameAt, sameClassTy, unlike left, unlike right, Bool.false_and]
    | _ => rfl

private theorem Fragment.sameAt_standsFor {t u : Ty} (h : t.StandsFor F a b u) (n : Nat) :
    sameAt F.inf n dest u = sameAt F.inf n dest t := by
  cases h with
  | same => rfl
  | instances => exact sameAt_instances hd has n

private theorem Fragment.same_doubles {t u : Ty} (h : t.Doubles F a b u) :
    dest.same F.inf u = dest.same F.inf t := by
  cases h with
  | base h => exact sameAt_standsFor hd has h _
  | @function f g h =>
    cases dest with
    | function d =>
      have ret := sameAt_standsFor hd (HasFunction.returnType has F.inf) h.ret 14
      change sameFunction F.inf (sameAt F.inf 14) d g = sameFunction F.inf (sameAt F.inf 14) d f
      unfold sameFunction
      rw [h.params, h.kind, ret]
    | _ => rfl

end

/-! ## Exchanges -/

section

variable {F : Fragment} {a b : ClassId}

private theorem FunctionTy.StandsFor.exchanged {f g : FunctionTy} (h : f.StandsFor F a b g) :
    f.Exchanged F (Ty.Doubles F a b) g :=
  ⟨h.params, h.typed, h.settled, h.settled', .base h.ret⟩

private theorem Ty.Doubles.exchanged {t u : Ty} (h : t.Doubles F a b u) :
    Ty.Exchanged F (Ty.Doubles F a b) t u := by
  cases h with
  | base h =>
    cases h with
    | same has =>
      refine has.exchanged.imp ?_
      rintro _ _ ⟨has, rfl⟩
      exact .base (.same has)
    | instances => exact .uncalled rfl rfl
  | function h => exact .function h.exchanged

end

namespace Link

/-- The second judge follows the first, also where it is asked about the second of two classes and
the first about the first one. -/
structure Mirrors {F : Fragment} (L : Link F) (a b : ClassId) (j j' : Judge) : Prop
    extends L.Follows j j' where
  doubles {ρ : Regime} {m m' : Mode} (hm : ρ.Modes m m') {dest t u : Ty} (hd : F.Has dest)
    (h : t.Doubles F a b u) :
    L.Agrees ρ (j.assign m (some dest) (some t)) (j'.assign m' (some dest) (some u))
  satisfied {ρ : Regime} {m m' : Mode} (hm : ρ.Modes m m') (hv : m.invariant = false)
    {protocol : ClassTy} (hp : F.HasClass protocol) :
    L.Agrees ρ (j.conforms m false protocol (ClassTy.ofId a).toInstance)
      (j'.conforms m' false protocol (ClassTy.ofId b).toInstance)

variable {F : Fragment} {L : Link F} {ρ : Regime} {w : World} {a b : ClassId} {j j' : Judge}

private theorem Mirrors.exchanges (hj : L.Mirrors a b j j') :
    L.Exchanges (Ty.Doubles F a b) j j' := fun hm hd h => hj.doubles hm hd h

/-! ## Callables -/

section

variable (hj : L.Mirrors a b j j') {m m' : Mode} (hm : ρ.Modes m m')
include hj hm

variable (hw : F.Covers w) (hf : ¬ F.wide) (hab : w.Doubles F a b)
include hw hf hab

private theorem agrees_assignToCallable_doubles {dest t u : Ty} (hd : F.Has dest)
    (h : t.Doubles F a b u) :
    L.Agrees ρ (assignToCallable w j m dest t) (assignToCallable w j' m' dest u) := by
  -- what a call reaches is found at once, unless the two are one type of the fragment
  have reached {t u : Ty}
      (called : F.Prompt (Ty.Doubles F a b) (calledType w j t) (calledType w j' u)) :
      L.Agrees ρ (assignToCallable w j m dest t) (assignToCallable w j' m' dest u) :=
    called.agrees fun t' u' h => agrees_assignCalled hj.assign hm hj.exchanges hd h.exchanged
  cases h with
  | base h =>
    cases h with
    | same has => exact agrees_assignToCallable hj.assign hm hw hd has
    | instances =>
      refine reached ((Fragment.prompt_boundCall hw hf hab).bind fun x y h =>
        Fragment.prompt_pure ?_)
      cases h with
      | none => exact .base .instances
      | some h => exact h
  | function h => exact reached (Fragment.prompt_pure (.function h))

/-! ## Classes -/

omit hw hf hj hm in
private theorem derives_doubles {c : ClassTy} (left : c.id ≠ a) (right : c.id ≠ b) :
    w.classes.derives (ClassTy.ofId b).toInstance c =
      w.classes.derives (ClassTy.ofId a).toInstance c := by
  have unlike {id : ClassId} (ne : c.id ≠ id) : (ClassTy.ofId id).toInstance.sameClass c = false :=
    beq_eq_false_iff_ne.2 (Ne.symm ne)
  unfold ClassTable.derives
  rw [unlike left, unlike right]
  exact congrArg (fun mro : List Ancestor => false || mro.any _) hab.mro

omit hw hf hj hm in
private theorem isPromotion_doubles (dest : ClassTy) :
    isPromotion w dest (ClassTy.ofId b).toInstance =
      isPromotion w dest (ClassTy.ofId a).toInstance := by
  obtain ⟨int, float⟩ := hab.left.unpromoted
  obtain ⟨int', float'⟩ := hab.right.unpromoted
  unfold isPromotion
  rw [derives_doubles hab int.symm int'.symm, derives_doubles hab float.symm float'.symm]

variable (hv : m.invariant = false)
include hv

omit hw in
private theorem agrees_assignClassToClass_doubles {dest : ClassTy} (hd : F.HasClass dest) :
    L.Agrees ρ (assignClassToClass w j m dest (ClassTy.ofId a).toInstance)
      (assignClassToClass w j' m' dest (ClassTy.ofId b).toInstance) := by
  obtain ⟨left, right⟩ := hab.ne hd
  have unlike {id : ClassId} (ne : dest.id ≠ id) :
      dest.sameClass (ClassTy.ofId id).toInstance = false := beq_eq_false_iff_ne.2 ne
  -- an instance of a double is found through its ancestors alone
  have ancestors {id : ClassId} (ne : dest.id ≠ id) : findAncestor dest
      (.resolved (ClassTy.ofId id).toInstance.toClassObject ::
        (w.classes.decl (ClassTy.ofId id).toInstance.id).mro) =
      findAncestor dest (w.classes.decl id).mro :=
    if_neg (Bool.eq_false_iff.1 (beq_eq_false_iff_ne.2 (Ne.symm ne)))
  have bare := (hd.narrow.resolve_left hf).1
  unfold assignClassToClass
  dsimp only
  rw [unlike left, unlike right, isPromotion_doubles hab, ancestors left, ancestors right, hab.mro, bare]
  split
  · exact Agrees.refuse _ _ _ _
  · split
    · exact Agrees.pure true
    · split
      · exact Agrees.pure true
      · exact Agrees.pure true
      · split
        · exact hj.satisfied hm hv hd
        · exact Agrees.refuse _ _ _ _

private theorem agrees_assignToClass_doubles {dest : ClassTy} (hd : F.HasClass dest) {t u : Ty}
    (h : t.Doubles F a b u) :
    L.Agrees ρ (assignToClass w j m dest t) (assignToClass w j' m' dest u) := by
  cases h with
  | base h =>
    cases h with
    | same has => exact agrees_assignToClass hw hj.toFollows hm hv hd has
    | instances =>
      unfold assignToClass
      split
      · exact Agrees.pure true
      · dsimp only [Builtin.instanceOf, ClassTy.toInstance]
        cases dest.isInstance with
        | true => exact agrees_assignClassToClass_doubles hj hm hf hab hv hd
        | false => exact Agrees.refuse _ _ _ _
  | function h =>
    unfold assignToClass
    split
    · exact Agrees.pure true
    · exact agrees_assignCallableToClass hw hj.toFollows hm hj.exchanges hd (.function h)

/-! ## Assignability -/

omit hw hf hv in
private theorem agrees_assignInvariant_doubles {dest t u : Ty} (hd : F.Has dest)
    (h : t.Doubles F a b u) :
    L.Agrees ρ (assignInvariant w j m dest t) (assignInvariant w j' m' dest u) := by
  cases h with
  | base h =>
    cases h with
    | same has => exact agrees_assignInvariant hj.assign hm hd has
    | instances =>
      have unlike {c : ClassTy} {id : ClassId} (ne : c.id ≠ id) :
          sameView c (ClassTy.ofId id).toInstance = false := by
        have other : c.sameClass (ClassTy.ofId id).toInstance = false := beq_eq_false_iff_ne.2 ne
        rw [sameView, other, Bool.false_and, Bool.false_and]
      refine agrees_sameOr (Fragment.same_doubles hab hd (.base .instances)) ?_
      cases dest with
      | cls c =>
        obtain ⟨left, right⟩ := hab.ne hd
        dsimp only [Builtin.instanceOf]
        rw [unlike left, unlike right]
        exact Agrees.refuse _ _ _ _
      | _ => exact Agrees.refuse _ _ _ _
  | function h =>
    refine agrees_sameOr (Fragment.same_doubles hab hd (.function h)) ?_
    cases dest <;> exact Agrees.refuse _ _ _ _

omit hv in
private theorem agrees_assignProper_doubles {dest t u : Ty} (hd : F.Has dest)
    (h : t.Doubles F a b u) :
    L.Agrees ρ (assignProper w j m dest t) (assignProper w j' m' dest u) := by
  have invariant := agrees_assignInvariant_doubles hj hm hab hd h
  have union {members : List Ty} (hd : F.Has (.union members)) :
      L.Agrees ρ (assignToUnion w j m members t) (assignToUnion w j' m' members u) := by
    cases hd with
    | union each _ => exact agrees_assignToUnion hm hj.exchanges each h
  have byShape (loose : ¬ m.invariant = true) :
      L.Agrees ρ (assignByShape w j m dest t) (assignByShape w j' m' dest u) :=
    agrees_assignByShape hd (Fragment.same_doubles hab hd h)
      (fun hc => agrees_assignToClass_doubles hj hm hw hf hab (Bool.eq_false_iff.2 loose) hc h)
      (agrees_assignToCallable_doubles hj hm hw hf hab hd h)
  cases h with
  | base h =>
    cases h with
    | same has => exact agrees_assignProper hw hj.toFollows hm hd has
    | instances =>
      unfold assignProper
      rw [← hm.invariant]
      split
      · exact invariant
      · cases dest with
        | union => exact union hd
        | _ => exact byShape ‹_›
  | function h =>
    unfold assignProper
    rw [← hm.invariant]
    split
    · exact invariant
    · cases dest with
      | union => exact union hd
      | _ => exact byShape ‹_›

omit hj hm hw hab hv in
private theorem alike_assignTy {dest t : Ty} (hd : F.Has dest) (new : ∀ v, t ≠ .var v) :
    F.Alike (assignTy w j m dest t) (assignUnsolved w j m dest t) := by
  intro s hs
  refine exec_assignTy_of_unsolved hd (hs.solving.idle.resolve_left hf) ?_
  unfold reverseVar?
  split
  · exact absurd rfl (new _)
  · rfl

omit hv in
/-- One more level where types are compared that stand for each other. -/
theorem agrees_assignStep_doubles {dest t u : Ty} (hd : F.Has dest) (h : t.Doubles F a b u) :
    L.Agrees ρ (assignStep w j m (some dest) (some t)) (assignStep w j' m' (some dest) (some u)) := by
  have unsolved (known : u.isAnyOrUnknown = t.isAnyOrUnknown) :
      L.Agrees ρ (assignUnsolved w j m dest t) (assignUnsolved w j' m' dest u) :=
    agrees_assignUnsolved (Fragment.same_doubles hab hd h) known
      (agrees_assignProper_doubles hj hm hw hf hab hd h)
  cases h with
  | base h =>
    cases h with
    | same has =>
      exact agrees_assignStep hw hj.toFollows hm (Fragment.hasOption_some hd)
        (Fragment.hasOption_some has)
    | instances =>
      have new (id : ClassId) (v : TypeVar) : Builtin.instanceOf (.ofId id) ≠ .var v := by
        intro same
        cases same
      have other {id : ClassId} (outside : ¬ F.ids id) : dest ≠ Builtin.instanceOf (.ofId id) := by
        rintro rfl
        exact outside (Fragment.HasClass.ids hd)
      rw [assignStep_of_ne (other hab.left.unmentioned), assignStep_of_ne (other hab.right.unmentioned)]
      exact (alike_assignTy hf hd (new a)).sim (alike_assignTy hf hd (new b)) (unsolved rfl)
  | @function f g h =>
    have new (f : FunctionTy) (v : TypeVar) : Ty.function f ≠ .var v := by
      intro same
      cases same
    unfold assignStep
    dsimp only
    rw [hab.shared hd h]
    split
    · exact Agrees.pure true
    · exact (alike_assignTy hf hd (new f)).sim (alike_assignTy hf hd (new g)) (unsolved rfl)

end

end Link

/-! ## Properties -/

namespace Fragment

variable {F : Fragment} {w : World} {j : Judge} (hf : ¬ F.wide)
include hf

theorem HasFunction.unannotated {f : FunctionTy} (h : F.HasFunction f) (bindable : F.Bindable f) :
    f.Unannotated :=
  have member : F.HasMember (.function f) :=
    ⟨h, fun _ same => Ty.function.inj same ▸ bindable, fun _ same => nomatch same⟩
  member.unannotated hf

private theorem alike_compare_bound {p : PropertyPair} (destOwner : p.destOwner.args = none)
    (sourceOwner : p.sourceOwner.args = none) (self : ∀ σ, p.self = some σ → F.Untouched w σ)
    {dest source : FunctionTy} (hd : F.HasFunction dest ∧ F.Bindable dest)
    (hs : F.HasFunction source ∧ F.Bindable source) :
    F.Alike (p.compare w j dest source)
      (child (j.assign .default (some (.function dest.withoutReceiver))
        (some (.function source.withoutReceiver)))) := by
  have seen {owner : ClassTy} (bare : owner.args = none) (f : FunctionTy) :
      F.Alike (lift (f.specialize w.classes owner)) (pure f) := by
    unfold FunctionTy.specialize memberSolution
    rw [bare]
    exact .refl _
  have bound {f : FunctionTy} (h : F.HasFunction f ∧ F.Bindable f) :
      F.Alike (bindFunction w j (.of (.cls p.sourceOwner.toInstance)) f none)
        (pure (some f.withoutReceiver)) := by
    refine fun s start => exec_bindFunction ?_ h.1.settled (h.1.unannotated hf h.2) _ start.inference
    rintro _ ⟨⟩
  have required : F.Alike (p.required w dest) (pure dest) := by
    refine ((seen destOwner dest).pure_bind _).trans ?_
    cases given : p.self with
    | none => exact .refl _
    | some σ =>
      refine .lift ?_
      unfold FunctionTy.substitute
      split
      · exact steady_pure rfl
      · exact hd.1.steady_ofFunction_eq fun t ht => steady_ofTyAt_eq (self σ given) _ ht
  unfold PropertyPair.compare
  refine ((alike_demand hs.1.settled).pure_bind _).trans ?_
  refine ((seen sourceOwner source).pure_bind _).trans ?_
  refine (required.pure_bind _).trans ?_
  exact ((bound hd).pure_bind _).trans ((bound hs).pure_bind _)

end Fragment

namespace Link

variable {F : Fragment} {L : Link F} {ρ : Regime} {w : World} {a b : ClassId} {j j' : Judge}
  {m m' : Match}

private theorem property?_instanceOf {id : ClassId} (h : w.classes.isProperty (.ofId id) = false) :
    Match.property? w (Builtin.instanceOf (.ofId id)) = none := by
  change (if w.classes.isProperty (.ofId id) then _ else _) = _
  rw [h]
  rfl

section

variable (hw : F.Covers w) (hf : ¬ F.wide) (hj : L.Mirrors a b j j') (hab : w.Doubles F a b)
  (hm : m.Doubles F w a b m')
include hw hf hj hab hm

omit hj hab in
private theorem agrees_assignProperty_doubles (hj : L.Judges j j') {r : Requirement}
    (hr : HasRequirement F w r) {dest source : ClassTy} (hd : F.HasClass dest)
    (hs : F.HasClass source) :
    L.Agrees ρ
      (assignProperty w j ⟨dest, source, r.owner, m.candidate, some m.self⟩)
      (assignProperty w j' ⟨dest, source, r.owner, m'.candidate, some m'.self⟩) := by
  refine Agrees.allOf fun accessor _ => ?_
  unfold PropertyPair.assignAccessor
  dsimp only
  cases wanted : accessor.of (w.classes.decl dest.id) with
  | none => exact Agrees.pure true
  | some d =>
    cases found : accessor.of (w.classes.decl source.id) with
    | none => exact Agrees.refuse _ _ _ _
    | some s =>
      have dest := hw.accessors hd.ids accessor d wanted
      have source := hw.accessors hs.ids accessor s found
      have owner : r.owner.args = none := (hr.owner.narrow.resolve_left hf).1
      have bare {id : ClassId} {c : ClassTy} (same : c = .ofId id) : c.args = none := same ▸ rfl
      have only {σ τ : Solution} (h : F.Untouched w σ) (same : some σ = some τ) :
          F.Untouched w τ := Option.some.inj same ▸ h
      refine Agrees.explained ?_ (Quiet.tell _ _) (Quiet.tell _ _)
      refine (Fragment.alike_compare_bound hf owner (bare hm.candidate) (fun _ => only hm.self) dest
        source).sim (Fragment.alike_compare_bound hf owner (bare hm.candidate')
        (fun _ => only hm.self') dest source) (Sim.child (hj (Regime.modes_refl ρ _) ?_ ?_))
      · exact Fragment.hasOption_some dest.1.withoutReceiver
      · exact Fragment.hasOption_some source.1.withoutReceiver

/-! ## Members -/

private theorem agrees_assignToProperty_doubles {r : Requirement} (hr : HasRequirement F w r)
    {property : ClassTy} (hp : F.HasClass property) {t u : Ty} (h : t.Doubles F a b u) :
    L.Agrees ρ (m.assignToProperty w j r property t) (m'.assignToProperty w j' r property u) := by
  obtain ⟨mode, mode'⟩ := hm.modes
  have read (plain : Match.property? w t = none) (plain' : Match.property? w u = none) :
      L.Agrees ρ (m.assignToProperty w j r property t) (m'.assignToProperty w j' r property u) := by
    refine agrees_assignToRead hw hp (.inl plain) (.inl plain') fun hd => ?_
    rw [mode, mode']
    exact hj.doubles (Regime.modes_refl ρ _) hd h
  cases h with
  | base h =>
    cases h with
    | same has =>
      cases found : Match.property? w t with
      | none => exact read found found
      | some source =>
        unfold Match.assignToProperty
        rw [found, hm.instances, hm.instances']
        exact (agrees_assignProperty_doubles hw hf hm hj.assign hr hp
          (has_of_property? has found)).child
    | instances =>
      exact read (property?_instanceOf hab.left.noProperty) (property?_instanceOf hab.right.noProperty)
  | function h => exact read rfl rfl

private theorem agrees_matchType_doubles {r : Requirement} (hr : HasRequirement F w r)
    {found found' : FoundMember} (h : found.Doubles F w r.name found') :
    L.Agrees ρ (m.matchType w j r found false) (m'.matchType w j' r found' false) := by
  unfold Match.matchType
  cases declared : r.member.declaredType with
  | none => exact Agrees.pure true
  | some t =>
    have member := hw.required hr.owner.ids hr.protocol hr.declared declared
    refine ((Fragment.alike_seenFrom hw hf hr m.protocol member).pure_bind _).sim
      ((Fragment.alike_seenFrom hw hf hr m'.protocol member).pure_bind _) ?_
    refine (Fragment.prompt_foundType hw hf hm h).agrees fun source source' hs => ?_
    refine (Fragment.prompt_comparedTypes hf hm h member hs).agrees ?_
    rintro ⟨dest, t⟩ ⟨dest', u⟩ ⟨same, hd, doubles⟩
    cases same
    refine Sim.child (Agrees.both ?_ (agrees_agreeOnFinal r h.isFinal))
    obtain ⟨mode, mode'⟩ := hm.modes
    refine agrees_assignMember_of hd
      (fun hp => agrees_assignToProperty_doubles hw hf hj hab hm hr hp doubles) ?_
    rw [mode, mode']
    exact hj.doubles (Regime.modes_refl ρ _) hd doubles

/-- What a requirement finds in a double is accepted if what it finds in the other is. -/
theorem agrees_matchMember_doubles {r : Requirement} (hr : HasRequirement F w r) :
    L.Agrees ρ (m.matchMember w j r) (m'.matchMember w j' r) := by
  refine (Fragment.prompt_find hw hf hm hab r.name).agrees fun x y found => ?_
  cases found with
  | none => exact Agrees.refuse _ _ _ _
  | @some found found' h =>
    obtain ⟨found, fromMetaclass⟩ := found
    obtain ⟨found', fromMetaclass'⟩ := found'
    obtain ⟨instance_, instance_', h⟩ := h
    cases instance_
    cases instance_'
    exact (agrees_matchType_doubles hw hf hj hab hm hr h).both (agrees_agreeOnClassVar r h.flags)

end

end Link

end Conformance
