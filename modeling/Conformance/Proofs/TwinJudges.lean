import Conformance.Proofs.TwinParts

/-!
# Comparisons of twins

The judge of any number of levels gives the same answers about twins, from states that are twins: a
comparison does not tell them apart.
-/

namespace Conformance

open Check

/-! ## Types that are one object -/

namespace Pairing

variable {m : Pairing} {w : World} {j j' : Judge}

/-- Twins are one object in both worlds or in neither, or it makes no difference, since they are
accepted at once where they are compared. -/
def Identifies (m : Pairing) (w w' : World) : Prop :=
  ∀ {d d' s s' : Ty}, d.Twin m d' → s.Twin m s' →
    w'.identity.identical d' s' = w.identity.identical d s ∨
      ∀ n mode, Idles (assignTy w (judge w n) mode d s) ∧
        Idles (assignTy w' (judge w' n) mode d' s')

/-! ## Properties -/

/-- Properties that are twins, and whose accessors that are asked for are seen alike. -/
structure PairTwin (m : Pairing) (w : World) (p q : PropertyPair) : Prop where
  dest : p.dest.Twin m q.dest
  source : p.source.Twin m q.source
  seen {a : Accessor} {f : FunctionTy} (h : a.of (w.classes.decl p.dest.id) = some f) :
    m.Both (FunctionTy.Twin m) (f.specialize w.classes p.destOwner)
      (f.specialize w.classes q.destOwner)
  sourceOwner : p.sourceOwner.Twin m q.sourceOwner
  self : Option.Rel (Solution.Twin m) p.self q.self

section

variable (hj : m.Respects j j') (hw : m.Fixes w)
include hw

private theorem runs_getterType {c d : ClassTy} (h : c.Twin m d) :
    m.Runs (Option.Rel (Ty.Twin m)) (getterType w c true) (getterType w d true) := by
  unfold getterType
  rw [h.id]
  cases hg : (w.classes.decl c.id).getter with
  | none => exact runs_pure .none
  | some getter =>
    have twin := hw.decl h.known (.accessor (a := .getter) hg)
    cases twin with
    | function twin =>
      refine runs_bind (runs_demand twin.ret) fun _ _ _ => ?_
      exact runs_bind runs_inference fun inf inf' holds => runs_pure (.some (holds.returnType twin.ret))

include hj

theorem agrees_compareAccessors {p q : PropertyPair} (h : m.PairTwin w p q) {a : Accessor}
    {f g g' : FunctionTy} (hf : a.of (w.classes.decl p.dest.id) = some f) (hg : g.Twin m g') :
    m.Agrees (p.compare w j f g) (q.compare w j' f g') := by
  have receiver := receiver_of h.sourceOwner.toInstance
  have required : m.Runs (FunctionTy.Twin m) (p.required w f) (q.required w f) := by
    have self := h.self
    unfold PropertyPair.required
    refine runs_bind (runs_lift (h.seen hf)) fun f f' hf => ?_
    generalize p.self = a at self
    generalize q.self = b at self
    cases self with
    | none => exact runs_pure hf
    | some hσ => exact runs_lift (both_substituteFunction hw hσ hf)
  refine runs_bind (runs_demand hg.ret) fun _ _ _ => ?_
  refine runs_bind (runs_lift (both_specializeFunction hw h.sourceOwner hg)) fun g g' hg => ?_
  refine runs_bind required fun f f' hf => ?_
  refine runs_bind (runs_bindFunction hj hw receiver .none hf) fun a a' ha => ?_
  refine runs_bind (runs_bindFunction hj hw receiver .none hg) fun b b' hb => ?_
  cases ha with
  | none => cases hb <;> exact agrees_pure false
  | some ha =>
    cases hb with
    | none => exact agrees_pure false
    | some hb => exact runs_child (hj.assign _ (.some (.function ha)) (.some (.function hb)))

theorem agrees_assignProperty {p q : PropertyPair} (h : m.PairTwin w p q) :
    m.Agrees (assignProperty w j p) (assignProperty w j' q) := by
  refine agrees_allOf (List.forall₂_same.2 fun a _ => (rfl : a = a)) fun a b same => ?_
  subst same
  unfold PropertyPair.assignAccessor
  rw [h.dest.id, h.source.id]
  cases hd : a.of (w.classes.decl p.dest.id) with
  | none => exact agrees_pure true
  | some f =>
    cases hs : a.of (w.classes.decl p.source.id) with
    | none => exact agrees_refuse _ _ _ _
    | some g =>
      cases hw.decl h.source.known (.accessor hs) with
      | function hg =>
        exact agrees_explained (agrees_compareAccessors hj hw h hd hg) (tells_tell _ _ _ _)

end

/-! ## Protocols -/

/-- The comparisons are twins, apart from the protocols. -/
structure MatchTwin (m : Pairing) (a b : Match) : Prop where
  candidate : a.candidate.Twin m b.candidate
  asObject : b.asObject = a.asObject
  self : a.self.Twin m b.self

/-- The same member is asked for, and what is written for it is seen alike. Some of the types that it
is seen with stay so where the candidate is put in, and if they are properties, then their accessors
are seen alike too. -/
structure Asked (m : Pairing) (w : World) (a b : Match) (seen : Ty → Prop) (r r' : Requirement) :
    Prop where
  name : r'.name = r.name
  member : r'.member = r.member
  type {t : Ty} (h : r.member.declaredType = some t) :
    m.Runs (fun d d' => d.Twin m d' ∧ seen d) (r.seenFrom w a.protocol t)
      (r'.seenFrom w b.protocol t)
  stays {d : Ty} (h : seen d) (inf : Inference) : seen (d.substitute w.classes a.self false inf).1
  accessor {d : Ty} {c : ClassTy} {a : Accessor} {f : FunctionTy} (h : seen d)
    (property : Match.property? w d = some c) (known : m.classes c.id)
    (here : a.of (w.classes.decl c.id) = some f) :
    m.Both (FunctionTy.Twin m) (f.specialize w.classes r.owner) (f.specialize w.classes r'.owner)

/-- What is asked for is its own twin. -/
structure FixesRequirement (m : Pairing) (r : Requirement) : Prop where
  owner : r.owner.Twin m r.owner
  member : m.FixesMember r.member

private theorem fixes_of_mem_all (hw : m.Fixes w) {asObject : Bool} {protocol : ClassTy}
    (known : m.classes protocol.id) {r : Requirement}
    (h : r ∈ Requirement.all w.classes asObject protocol) : m.FixesRequirement r := by
  obtain ⟨owner, member⟩ := Requirement.declared_of_mem_all h
  suffices twin : r.owner.Twin m r.owner from
    ⟨twin, fun t ht => hw.decl twin.known (.member ⟨member, ht⟩)⟩
  obtain ⟨a, ha, here⟩ := List.mem_filterMap.1 (List.mem_filter.1 owner).1
  cases a with
  | unresolved t mark => cases here
  | resolved c =>
    cases here
    rcases List.mem_cons.1 ha with same | ha
    · rw [Ancestor.resolved.inj same]
      exact ClassTy.twin_generic known
    · exact hw.decl known (.ancestor ha)

theorem all_eq {p p' : ClassTy} (h : p.Twin m p') (asObject : Bool) :
    Requirement.all w.classes asObject p' = Requirement.all w.classes asObject p := by
  rw [Requirement.all, Requirement.all, Requirement.protocols, Requirement.protocols, h.generic_eq,
    h.id]

theorem matchTwin_of (hw : m.Fixes w) {p p' c c' : ClassTy} (hc : c.Twin m c') (asObject : Bool)
    (self : (Match.of w p c asObject).self.Twin m (Match.of w p' c' asObject).self) :
    m.MatchTwin (.of w p c asObject) (.of w p' c' asObject) := by
  refine ⟨?_, rfl, self⟩
  unfold Match.of
  rw [isTypedDict_eq hc]
  dsimp only
  split
  · exact hw.typedDict
  · exact hc

theorem match_of (hw : m.Fixes w) {p p' c c' : ClassTy} (hp : p.Twin m p') (hc : c.Twin m c')
    (asObject : Bool) : m.MatchTwin (.of w p c asObject) (.of w p' c' asObject) := by
  refine matchTwin_of hw hc asObject ?_
  unfold Match.of
  rw [hp.id]
  exact withSelf_twin hw (forScope_decl hw hp.known) hp hc

section

variable {a b : Match} (h : m.MatchTwin a b)
include h

private theorem mode_eq : b.mode = a.mode := by
  rw [Match.mode, Match.mode, Ty.hasLiteral, Ty.hasLiteral, h.candidate.hasLiteralAt]

private theorem receiver_twin : m.ReceiverTwin a.receiver b.receiver := by
  unfold Match.receiver
  rw [h.asObject]
  refine receiver_of ?_
  split
  · exact h.candidate
  · exact h.candidate.toInstance

section

variable (hw : m.Fixes w)
include hw

private theorem runs_find (name : String) :
    m.Runs (Option.Rel fun x y => m.Found x.1 y.1 ∧ y.2 = x.2) (a.find w name) (b.find w name) := by
  have onMetaclass : m.Runs (Option.Rel m.Found) (a.findOnMetaclass w name)
      (b.findOnMetaclass w name) := by
    unfold Match.findOnMetaclass
    rw [metaclass?_eq h.candidate, h.asObject]
    split
    · rename_i metaclass hm
      split
      · exact runs_lift (both_lookup hw (metaclass_twin hw h.candidate.known hm) name)
      · exact runs_pure .none
    · exact runs_pure .none
  refine runs_bind onMetaclass fun x y hxy => ?_
  cases hxy with
  | some hf => exact runs_pure (.some ⟨hf, rfl⟩)
  | none =>
    refine runs_bind (runs_lift (both_lookup hw h.candidate name)) fun x y hxy => runs_pure ?_
    exact rel_option_map hxy fun f g hf => ⟨hf, rfl⟩

omit h hw in
private theorem runs_demandPlain {t u : Ty} (ht : t.Twin m u) :
    m.Runs (fun _ _ => True) (Match.demandPlain t) (Match.demandPlain u) := by
  unfold Match.demandPlain
  cases ht with
  | function hf => exact runs_demand hf.ret
  | _ => exact runs_pure trivial

private theorem runs_foundType {f g : FoundMember} (hf : m.Found f g) :
    m.Runs (Ty.Twin m) (a.foundType w f) (b.foundType w g) := by
  have owner := hf.owner
  unfold Match.foundType
  rw [hf.member]
  generalize f.owner = o at owner
  generalize g.owner = o' at owner
  cases owner with
  | none => exact runs_pure .unknown
  | some ho =>
    refine runs_bind runs_inference fun inf inf' holds => ?_
    have effective := hf.fixes.effectiveType holds
    refine runs_bind (runs_demandPlain effective) fun _ _ _ => ?_
    exact runs_lift (both_specialize hw ho (.some h.candidate) effective)

omit h in
private theorem runs_seenFrom {r r' : Requirement} (owner : r.owner.Twin m r'.owner)
    {p p' : ClassTy}
    (own : r'.owner.sameClass p' = r.owner.sameClass p) {t : Ty} (ht : t.Twin m t) :
    m.Runs (Ty.Twin m) (r.seenFrom w p t) (r'.seenFrom w p' t) := by
  unfold Requirement.seenFrom
  rw [own]
  split
  · exact runs_pure ht
  · exact runs_lift (both_specialize hw owner .none ht)

omit h in
theorem asked_of_owner {r r' : Requirement} (name : r'.name = r.name) (member : r'.member = r.member)
    (fixes : m.FixesMember r.member) (owner : r.owner.Twin m r'.owner)
    (own : r'.owner.sameClass b.protocol = r.owner.sameClass a.protocol) :
    m.Asked w a b (fun _ => True) r r' where
  name := name
  member := member
  type declared := runs_gives (runs_seenFrom hw owner own (fixes.declaredType declared))
    (gives_of_true _)
  stays _ _ := trivial
  accessor _ _ known here := by
    cases hw.decl known (.accessor here) with
    | function hf => exact both_specializeFunction hw owner hf

omit h hw in
private theorem gives_boundOr {seen : Ty → Prop} {t : Ty} (ht : seen t ∨ t.isCallable = true)
    (r : Receiver)
    (owner : Option ClassTy) :
    Gives (fun u => seen u ∨ u.isCallable = true) (Match.boundOr w j r t owner) := by
  unfold Match.boundOr
  refine gives_bind (P := fun o => ∀ u, o = some u → seen u ∨ u.isCallable = true) ?_ fun o ho => ?_
  · unfold Conformance.bind
    cases t with
    | function f =>
      refine gives_bind (gives_of_true _) fun o _ => gives_pure ?_
      rintro u hu
      obtain ⟨g, -, rfl⟩ := Option.map_eq_some_iff.1 hu
      exact .inr rfl
    | overloaded fs =>
      refine gives_bind (gives_of_true _) fun gs _ => ?_
      rcases gs with _ | ⟨g, _ | ⟨g', gs⟩⟩ <;> refine gives_pure ?_ <;> rintro u ⟨⟩
      · exact .inr rfl
      · exact .inr rfl
    | _ =>
      refine gives_pure ?_
      rintro u ⟨⟩
      exact ht
  · cases o with
    | none => exact gives_pure ht
    | some u =>
      refine gives_lift fun inf => ?_
      have hu := ho u rfl
      unfold Ty.dropSpecRest
      cases u with
      | function f => exact .inr rfl
      | _ => exact hu

omit h hw in
private theorem gives_comparedTypes {seen : Ty → Prop}
    (stays : ∀ d, seen d → ∀ inf, seen (d.substitute w.classes a.self false inf).1)
    (found : FoundMember) (fromMetaclass : Bool) {d : Ty} (hd : seen d) (s : Ty) :
    Gives (fun types => seen types.1 ∨ types.1.isCallable = true)
      (a.comparedTypes w j found fromMetaclass d s) := by
  unfold Match.comparedTypes
  split
  · exact gives_bind (gives_lift fun inf => .inl (stays d hd inf)) fun d hd => gives_pure hd
  · split
    · refine gives_bind (gives_of_true _) fun s _ => ?_
      exact gives_bind (gives_boundOr (.inl hd) _ _) fun d hd => gives_pure hd
    · refine gives_bind (P := seen) (gives_lift fun inf => stays d hd inf) fun d hd => ?_
      refine gives_bind (gives_of_true _) fun s _ => ?_
      exact gives_bind (gives_boundOr (.inl hd) _ _) fun d hd => gives_pure hd

variable (hj : m.Respects j j')
include hj

private theorem runs_comparedTypes {f g : FoundMember} (hf : m.Found f g) (fromMetaclass : Bool)
    {d d' s s' : Ty} (hd : d.Twin m d') (hs : s.Twin m s') :
    m.Runs (fun x y => x.1.Twin m y.1 ∧ x.2.Twin m y.2) (a.comparedTypes w j f fromMetaclass d s)
      (b.comparedTypes w j' g fromMetaclass d' s') := by
  unfold Match.comparedTypes
  rw [hs.isCallable]
  split
  · exact runs_bind (runs_lift (both_substitute hw h.self _ hd)) fun d d' hd => runs_pure ⟨hd, hs⟩
  · split
    · have receiver : m.ReceiverTwin ⟨some (.cls a.candidate), false, some (.cls a.candidate)⟩
          ⟨some (.cls b.candidate), false, some (.cls b.candidate)⟩ :=
        ⟨.some h.candidate, rfl, rfl, .some h.candidate⟩
      refine runs_bind (runs_boundOr hj hw receiver .none hs) fun s s' hs => ?_
      exact runs_bind (runs_boundOr hj hw receiver .none hd) fun d d' hd => runs_pure ⟨hd, hs⟩
    · refine runs_bind (runs_lift (both_substitute hw h.self _ hd)) fun d d' hd => ?_
      refine runs_bind (runs_boundOr hj hw (receiver_twin h) hf.owner hs) fun s s' hs => ?_
      refine runs_bind (runs_boundOr hj hw (receiver_of h.candidate.toInstance) hf.owner hd) ?_
      exact fun d d' hd => runs_pure ⟨hd, hs⟩

variable {seen : Ty → Prop} {r r' : Requirement} (hr : m.Asked w a b seen r r')
include hr

theorem agrees_assignToProperty {d : Ty} (hd : seen d) {p p' : ClassTy}
    (asked : Match.property? w d = some p) (hp : p.Twin m p') {s s' : Ty} (hs : s.Twin m s') :
    m.Agrees (a.assignToProperty w j r p s) (b.assignToProperty w j' r' p' s') := by
  have property := rel_property? (w := w) hs
  unfold Match.assignToProperty
  rw [h.asObject]
  generalize Match.property? w s = x at property
  generalize Match.property? w s' = y at property
  generalize a.asObject = asObject
  cases property <;> cases asObject
  case some.false hsource =>
    apply runs_child
    exact agrees_assignProperty hj hw
      ⟨hp, hsource, fun here => hr.accessor hd asked hp.known here, h.candidate, .some h.self⟩
  -- Anything else is compared with what the property yields.
  all_goals
    refine runs_bind (runs_getterType hw hp) fun t t' ht => ?_
    rw [mode_eq h]
    cases ht with
    | none => exact agrees_pure false
    | some ht => exact runs_child (hj.assign _ (.some ht) (.some hs))

theorem agrees_assignMember {d d' s s' : Ty} (hd : d.Twin m d')
    (asked : seen d ∨ d.isCallable = true) (hs : s.Twin m s') :
    m.Agrees (a.assignMember w j r d s) (b.assignMember w j' r' d' s') := by
  have property := rel_property? (w := w) hd
  have told (wording : Wording) :
      m.Tells (Match.tellMember wording r) (Match.tellMember wording r') := tells_tell _ _ _ _
  unfold Match.assignMember
  generalize here : Match.property? w d = x at property
  generalize Match.property? w d' = y at property
  cases property with
  | some hp =>
    have noFunction : d.isCallable ≠ true := by
      rintro function
      cases d <;> cases function <;> cases here
    have same := asked.resolve_right noFunction
    exact agrees_explained (agrees_assignToProperty h hw hj hr same here hp hs) (told _)
  | none =>
    dsimp only
    rw [mode_eq h, hr.member]
    refine agrees_explained (runs_child (hj.assign _ (.some hd) (.some hs))) ?_
    split
    · exact runs_bind (told _) fun _ _ _ => told _
    · exact told _

theorem agrees_matchType {f g : FoundMember} (hf : m.Found f g) (fromMetaclass : Bool) :
    m.Agrees (a.matchType w j r f fromMetaclass) (b.matchType w j' r' g fromMetaclass) := by
  unfold Match.matchType
  rw [hr.member]
  cases hd : r.member.declaredType with
  | none => exact agrees_pure true
  | some t =>
    refine runs_bind (hr.type hd) fun d d' hd => ?_
    refine runs_bind (runs_foundType h hw hf) fun s s' hs => ?_
    refine runs_bind (runs_gives (runs_comparedTypes h hw hj hf fromMetaclass hd.1 hs)
      (gives_comparedTypes (fun _ => hr.stays) f fromMetaclass hd.2 s)) fun x y hxy => ?_
    refine runs_child (agrees_both (agrees_assignMember h hw hj hr hxy.1.1 hxy.2 hxy.1.2) ?_)
    unfold Match.agreeOnFinal
    rw [hf.member, hr.member]
    split
    · exact agrees_pure true
    · exact agrees_refuse _ _ _ _

theorem agrees_matchMember : m.Agrees (a.matchMember w j r) (b.matchMember w j' r') := by
  unfold Match.matchMember
  rw [hr.name]
  refine runs_bind (runs_find h hw r.name) fun x y hxy => ?_
  cases hxy with
  | none => exact agrees_refuse _ _ _ _
  | @some x y hxy =>
    obtain ⟨f, fromMetaclass⟩ := x
    obtain ⟨g, fromMetaclass'⟩ := y
    obtain ⟨hf, same⟩ := hxy
    dsimp only at hf same
    subst same
    refine agrees_both (agrees_matchType h hw hj hr hf fromMetaclass') ?_
    unfold Match.agreeOnClassVar
    rw [hf.member, hr.member]
    split
    · exact agrees_refuse _ _ _ _
    · exact agrees_pure true

end

end

/-- Protocols that are not told apart by what is solved for and compared in the end: their scopes
correspond, and their parameters are twins. -/
structure ProtocolTwin (m : Pairing) (w : World) (p p' : ClassTy) : Prop where
  view : m.ViewTwin w p p'
  scope : (w.classes.decl p'.id).scope = m.naming.scope (w.classes.decl p.id).scope
  params : List.Forall₂ (TypeVar.Twin m) (w.classes.decl p.id).params (w.classes.decl p'.id).params

section

variable (hj : m.Respects j j') (hw : m.Fixes w)
include hj hw

theorem agrees_meetAll (mode : Mode) {p p' : ClassTy} (hp : m.ProtocolTwin w p p')
    {rs rs' : List Requirement} {meets meets' : Requirement → Check Bool}
    (each : List.Forall₂ (fun r r' => m.Agrees (meets r) (meets' r')) rs rs') :
    m.Agrees (meetAll w j mode p rs meets) (meetAll w j' mode p' rs' meets') := by
  have generic : (w.classes.decl p'.id).params.isEmpty = (w.classes.decl p.id).params.isEmpty := by
    rw [Bool.eq_iff_iff, List.isEmpty_iff_length_eq_zero, List.isEmpty_iff_length_eq_zero,
      hp.params.length_eq]
  unfold meetAll
  dsimp only
  rw [hp.scope, generic]
  refine runs_bind (R := fun x y => y.1 = x.1 ∧ x.2.Twin m y.2) ?_ fun x y hxy => ?_
  · refine runs_solvingFor (.some (.forScope m _)) ?_
    refine runs_bind (agrees_allOf each fun _ _ h => h) fun met met' same => ?_
    refine runs_bind runs_solution fun σ τ hσ => runs_pure ⟨same.symm, ?_⟩
    exact rel_option_getD hσ (.empty m)
  · obtain ⟨met, solved⟩ := x
    obtain ⟨met', solved'⟩ := y
    obtain ⟨same, hσ⟩ := hxy
    dsimp only at same hσ ⊢
    subst same
    rw [rel_option_isSome hp.view.args]
    split
    · have solved (p : ClassTy) (σ : Solution) : p.generic.substitute w.classes σ true =
          Substitution.ofClassTy w.classes σ
            (Substitution.ofTyAt w.classes σ true (Ty.levels - 1)) p.generic :=
        if_neg (by simp)
      rw [solved, solved]
      refine runs_bind (runs_lift (both_opened (substitutes_ofTyAt hw hσ true _) hσ rfl rfl
        hp.scope hp.params)) ?_
      exact fun c d args => agrees_assignArguments hj mode hp.view args
    · exact agrees_pure _

omit hj in
private theorem protocolTwin_of_twin {p p' : ClassTy} (hp : p.Twin m p') :
    m.ProtocolTwin w p p' := by
  refine ⟨viewTwin_of_twin hp, ?_, ?_⟩
  · rw [hp.id, scope_decl hw hp.known]
  · rw [hp.id]
    exact rel_params hw hp.known

theorem agrees_matchMembers (mode : Mode) (asObject : Bool) {p p' c c' : ClassTy}
    (hp : p.Twin m p') (hc : c.Twin m c') :
    m.Agrees (matchMembers w j mode asObject p c) (matchMembers w j' mode asObject p' c') := by
  unfold matchMembers
  split
  · refine runs_bind runs_inference fun inf inf' holds => ?_
    rw [holds.same_eq hp hc]
    exact agrees_pure _
  · dsimp only
    rw [all_eq hp]
    refine agrees_meetAll hj hw mode (protocolTwin_of_twin hw hp) (List.forall₂_same.2 fun r hr => ?_)
    have asked := fixes_of_mem_all hw hp.known hr
    exact agrees_matchMember (match_of hw hp hc asObject) hw hj
      (asked_of_owner hw rfl rfl asked.member asked.owner (sameClass_eq asked.owner hp))

omit hj hw in
theorem agrees_whilePending (choice : StackChoice) {c c' : Comparison} (hc : c.pair.Twin m c'.pair)
    {act act' : Check Bool} (h : m.Agrees act act') :
    m.Agrees (whilePending choice c act) (whilePending choice c' act') := by
  intro s s' hs
  rw [exec_whilePending, exec_whilePending]
  cases choice with
  | own =>
    have entered : m.Meets (setPendingOn .own { s with history := [] } (c.pair :: s.pending))
        (setPendingOn .own { s' with history := [] } (c'.pair :: s'.pending)) :=
      ⟨hs.inference, .cons hc hs.pending, hs.lent, hs.solving⟩
    obtain ⟨ends, left⟩ := h _ _ entered
    exact ⟨ends, left.inference, rel_tail left.pending, left.lent, left.solving⟩
  | lent =>
    have entered : m.Meets (setPendingOn .lent { s with history := [] } (c.pair :: s.lent))
        (setPendingOn .lent { s' with history := [] } (c'.pair :: s'.lent)) :=
      ⟨hs.inference, hs.pending, .cons hc hs.lent, hs.solving⟩
    obtain ⟨ends, left⟩ := h _ _ entered
    exact ⟨ends, left.inference, left.pending, rel_tail left.lent, left.solving⟩

omit m j j' hj hw in
/-- Views of two classes are not the same. -/
theorem same_of_id_ne {c d : ClassTy} {inf : Inference} (other : c.id ≠ d.id) :
    (Ty.cls c).same inf (.cls d) = false := by
  change sameClassTy _ c d = false
  rw [sameClassTy, ClassTy.sameClass, beq_false_of_ne other]
  rfl

theorem agrees_matchClass (choice : StackChoice) (mode : Mode) (asObject : Bool)
    {p p' c c' : ClassTy} (hp : p.Twin m p') (hc : c.Twin m c') :
    m.Agrees (matchClass w j choice mode asObject p c)
      (matchClass w j' choice mode asObject p' c') := by
  have members := agrees_matchMembers hj hw mode asObject hp.toClassObject hc.toClassObject
  unfold matchClass
  refine runs_bind runs_get fun s s' hs => ?_
  have stack : List.Forall₂ (Pending.Twin m) (pendingOn choice s) (pendingOn choice s') := by
    cases choice
    · exact hs.pending
    · exact hs.lent
  have pending : isPending s'.inference (pendingOn choice s') ⟨c'.toClassObject, p'.toClassObject⟩ =
      isPending s.inference (pendingOn choice s) ⟨c.toClassObject, p.toClassObject⟩ := by
    refine any_eq_of_rel stack fun e e' he => ?_
    cases he with
    | known candidate protocol =>
      rw [hs.inference.same_eq candidate hc.toClassObject,
        hs.inference.same_eq protocol hp.toClassObject]
    | foreign left right =>
      have other (x : ClassTy) (hx : m.classes x.id) (e : Pending) (he : ¬ m.classes e.protocol.id)
          (inf : Inference) : (Ty.cls e.protocol).same inf (.cls x.toClassObject) = false :=
        same_of_id_ne fun same => he (same ▸ hx)
      rw [other p hp.known e left, other p' (hp.id ▸ hp.known) e' right, Bool.and_false,
        Bool.and_false]
  dsimp only
  rw [pending]
  split
  · exact runs_bind (runs_record _ _) fun _ _ _ => agrees_pure true
  · exact agrees_whilePending choice (.known hc.toClassObject hp.toClassObject) members

omit hj in
private theorem fixes_of_mem_module {table : TableId} (known : m.modules table) {name : String}
    {mem : Member} (h : (w.moduleMembers table).find? name = some mem) : m.FixesMember mem :=
  fun _ ht => hw.module known ⟨Fragment.MemberTable.mem_of_find? h, ht⟩

private theorem runs_moduleRequiredType {p p' : ClassTy} (hp : p.Twin m p') {r : Requirement}
    (hr : m.FixesRequirement r) {t : Ty} (ht : t.Twin m t) {s s' : Ty} (hs : s.Twin m s') :
    m.Runs (Ty.Twin m) (moduleRequiredType w j p r t s) (moduleRequiredType w j' p' r t s') := by
  refine runs_bind (runs_seenFrom hw hr.owner (sameClass_eq hr.owner hp) ht) fun d d' hd => ?_
  rw [hs.isCallable, hd.isCallable]
  split
  · refine runs_bind (runs_bindMember hj hw (receiver_of hp.toInstance) (.some hp) hd) ?_
    exact fun a b hab => runs_pure (rel_option_getD hab hd)
  · exact runs_pure hd

theorem agrees_matchModuleMember {p p' : ClassTy} (hp : p.Twin m p') {table : TableId}
    (known : m.modules table) {r : Requirement} (hr : m.FixesRequirement r) :
    m.Agrees (matchModuleMember w j p (w.moduleMembers table) r)
      (matchModuleMember w j' p' (w.moduleMembers table) r) := by
  unfold matchModuleMember
  cases hm : (w.moduleMembers table).find? r.name with
  | none => exact agrees_refuse _ _ _ _
  | some mem =>
    dsimp only
    cases hd : r.member.declaredType with
    | none => exact agrees_pure true
    | some t =>
      refine runs_bind runs_inference fun inf inf' holds => ?_
      have found := (fixes_of_mem_module hw known hm).effectiveType holds
      have asked := hr.member.declaredType hd
      refine runs_bind (runs_moduleRequiredType hj hw hp hr asked found) fun d d' hd => ?_
      refine runs_child (agrees_explained (runs_child ?_) (tells_tell _ _ _ _))
      exact hj.assign _ (.some hd) (.some found)

theorem agrees_matchModule (mode : Mode) {p p' : ClassTy} (hp : p.Twin m p') {table : TableId}
    (known : m.modules table) :
    m.Agrees (matchModule w j mode p table) (matchModule w j' mode p' table) := by
  unfold matchModule
  dsimp only
  rw [all_eq hp.toClassObject]
  refine agrees_meetAll hj hw mode (protocolTwin_of_twin hw hp.toClassObject)
    (List.forall₂_same.2 fun r hr => ?_)
  exact agrees_matchModuleMember hj hw hp.toClassObject known
    (fixes_of_mem_all hw hp.toClassObject.known hr)

end

/-! ## Classes -/

/-- The linearizations say the same about two destinations that are twins. -/
inductive DerivationTwin (m : Pairing) : Derivation → Derivation → Prop
  | unresolved : m.DerivationTwin .unresolved .unresolved
  | derived {c d : ClassTy} (h : c.Twin m d) : m.DerivationTwin (.derived c) (.derived d)
  | unrelated : m.DerivationTwin .unrelated .unrelated

private theorem findAncestor_twin {d d' : ClassTy} (hd : d.Twin m d') {as bs : List Ancestor}
    (h : List.Forall₂ m.Entry as bs) :
    m.DerivationTwin (findAncestor d as) (findAncestor d' bs) := by
  induction h with
  | nil => exact .unrelated
  | cons entry _ ih =>
    cases entry with
    | unresolved t mark => exact .unresolved
    | resolved hc =>
      rw [findAncestor, findAncestor, sameClass_eq hc hd]
      split
      · exact .derived hc
      · exact ih

section

variable (hj : m.Respects j j') (hw : m.Fixes w)
include hw

private theorem runs_ancestorOf {s s' a a' : ClassTy} (hs : s.Twin m s') (ha : a.Twin m a') :
    m.Runs (ClassTy.Twin m) (ancestorOf w s a) (ancestorOf w s' a') := by
  unfold ancestorOf
  rw [sameClass_eq ha hs]
  split
  · exact runs_pure hs.toClassObject
  · exact runs_lift (both_specializeClass hw hs ha)

include hj

theorem agrees_assignClassToClass (mode : Mode) {d d' s s' : ClassTy} (hd : d.Twin m d')
    (hs : s.Twin m s') :
    m.Agrees (assignClassToClass w j mode d s) (assignClassToClass w j' mode d' s') := by
  have lineage : m.DerivationTwin
      (findAncestor d (.resolved s.toClassObject :: (w.classes.decl s.id).mro))
      (findAncestor d' (.resolved s'.toClassObject :: (w.classes.decl s'.id).mro)) := by
    rw [hs.id]
    exact findAncestor_twin hd (.cons (.resolved hs.toClassObject) (rel_mro hw hs.known))
  unfold assignClassToClass
  rw [hd.literal, hs.literal, sameClass_eq hd hs, isBuiltin_eq hd, isPromotion_eq hd hs,
    isProtocol_eq hd, rel_option_isNone hd.args]
  split
  · split
    · exact agrees_pure true
    · exact agrees_mismatch _ _ _ _ _
  · split
    · exact agrees_pure true
    · dsimp only
      generalize findAncestor d _ = x at lineage
      generalize findAncestor d' _ = y at lineage
      cases lineage with
      | unresolved => exact agrees_pure true
      | derived ha =>
        dsimp only
        split
        · exact agrees_pure true
        · refine runs_bind (runs_ancestorOf hw hs ha) fun a a' ha => ?_
          exact agrees_assignArguments hj mode (viewTwin_of_twin hd) ha.args
      | unrelated =>
        dsimp only
        split
        · exact hj.conforms mode false hd hs
        · exact agrees_mismatch _ _ _ _ _

theorem agrees_assignClassObject (mode : Mode) {d d' s s' : ClassTy} (hd : d.Twin m d')
    (hs : s.Twin m s') :
    m.Agrees (assignClassObject w j mode d s) (assignClassObject w j' mode d' s') := by
  unfold assignClassObject
  rw [isProtocol_eq hd, isBuiltin_eq hd, metaclass?_eq hs]
  split
  · exact hj.conforms mode true hd hs
  · split
    · exact agrees_pure true
    · cases hk : w.classes.metaclass? s with
      | none => exact agrees_mismatch _ _ _ _ _
      | some k =>
        have twin := metaclass_twin hw hs.known hk
        dsimp only
        rw [sameClass_eq twin hs]
        split
        · exact agrees_mismatch _ _ _ _ _
        · exact hj.assign mode (.some hd) (.some twin.toInstance)

theorem agrees_assignCallableToClass (mode : Mode) {d d' : ClassTy} (hd : d.Twin m d') {s s' : Ty}
    (hs : s.Twin m s') :
    m.Agrees (assignCallableToClass w j mode d s) (assignCallableToClass w j' mode d' s') := by
  unfold assignCallableToClass
  rw [hd.isInstance, isProtocol_eq hd]
  split
  · refine runs_bind (runs_boundCall hj hw hd) fun a b hab => ?_
    cases hab with
    | none => exact agrees_mismatch _ _ _ _ _
    | some hab => exact hj.assign mode (.some hab) (.some hs)
  · exact agrees_mismatch _ _ _ _ _

theorem agrees_assignToClass (mode : Mode) {d d' : ClassTy} (hd : d.Twin m d') {s s' : Ty}
    (hs : s.Twin m s') :
    m.Agrees (assignToClass w j mode d s) (assignToClass w j' mode d' s') := by
  unfold assignToClass
  rw [hd.isInstance, isBuiltin_eq hd]
  split
  · exact agrees_pure true
  · cases hs with
    | @cls c c' alike args =>
      have hc : c.Twin m c' := .cls alike args
      dsimp only
      rw [hc.isInstance]
      split
      · exact agrees_assignClassToClass hj hw mode hd hc
      · split
        · exact agrees_assignClassObject hj hw mode hd hc
        · exact agrees_mismatch _ _ _ _ _
    | module named known =>
      dsimp only
      rw [isProtocol_eq hd]
      split
      · exact hj.moduleConforms mode hd _ _ known
      · exact agrees_mismatch _ _ _ _ _
    | function h => exact agrees_assignCallableToClass hj hw mode hd (.function h)
    | overloaded h => exact agrees_assignCallableToClass hj hw mode hd (.overloaded h)
    | _ => exact agrees_mismatch _ _ _ _ _

end

/-! ## Types -/

private theorem reverseVar?_twin (mode : Mode) {σ τ : Option Solution}
    (hσ : Option.Rel (Solution.Twin m) σ τ) {s s' : Ty} (hs : s.Twin m s') :
    Option.Rel (TypeVar.Twin m) (reverseVar? mode σ s) (reverseVar? mode τ s') := by
  cases hs with
  | var alike bound =>
    have hv : TypeVar.Twin m _ _ := .var alike bound
    rw [reverseVar?, reverseVar?, hv.scope, Solution.Twin.any_solves hσ]
    split
    · exact .some hv
    · exact .none
  | _ => exact .none

section

variable (hj : m.Respects j j')
include hj

theorem agrees_assignToVar (mode : Mode) {v u : TypeVar} (hv : v.Twin m u) {s s' : Ty}
    (hs : s.Twin m s') : m.Agrees (assignToVar w j mode v s) (assignToVar w j' mode u s') := by
  refine runs_bind runs_inference fun inf inf' holds => ?_
  refine runs_bind runs_solution fun σ τ hσ => ?_
  rw [holds.same_eq hv hs, hv.scope, Solution.Twin.any_solves hσ, hs.isAnyOrUnknown]
  split
  · exact agrees_pure true
  · split
    · exact agrees_solveVar hj hv mode hs
    · split
      · exact agrees_pure true
      · exact agrees_mismatch _ _ _ _ _

theorem agrees_assignFromUnion (mode : Mode) {d d' : Ty} (hd : d.Twin m d') {ts us : List Ty}
    (h : List.Forall₂ (Ty.Twin m) ts us) :
    m.Agrees (assignFromUnion w j mode d ts) (assignFromUnion w j' mode d' us) := by
  refine runs_ite (agrees_allOf h fun t u ht => ?_) (agrees_pure true) (agrees_mismatch _ _ _ _ _)
  exact runs_child (hj.assign mode (.some hd) (.some ht))

theorem agrees_assignToUnion (mode : Mode) {ts us : List Ty} (h : List.Forall₂ (Ty.Twin m) ts us)
    {s s' : Ty} (hs : s.Twin m s') :
    m.Agrees (assignToUnion w j mode ts s) (assignToUnion w j' mode us s') := by
  refine runs_ite (runs_silently (agrees_anyOf h fun t u ht => ?_)) (agrees_pure true)
    (agrees_mismatch _ _ _ _ _)
  exact agrees_attempt (hj.assign mode (.some ht) (.some hs))

variable (hw : m.Fixes w)
include hw

theorem agrees_assignByShape (mode : Mode) {d d' s s' : Ty} (hd : d.Twin m d') (hs : s.Twin m s') :
    m.Agrees (assignByShape w j mode d s) (assignByShape w j' mode d' s') := by
  have identical : m.Agrees (do
        let inf ← inference
        if d.same inf s then pure true else mismatch w s d) (do
        let inf ← inference
        if d'.same inf s' then pure true else mismatch w s' d') := by
    refine runs_bind runs_inference fun inf inf' holds => ?_
    rw [holds.same_eq hd hs]
    split
    · exact agrees_pure true
    · exact agrees_mismatch _ _ _ _ _
  unfold assignByShape
  cases hd with
  | cls alike args =>
    exact agrees_assignToClass hj hw mode (.cls alike args) hs
  | function h => exact agrees_assignToCallable hj hw mode (.function h) hs
  | overloaded h => exact agrees_assignToCallable hj hw mode (.overloaded h) hs
  | noneObject => exact identical
  | module named known => exact identical
  | _ => exact agrees_mismatch _ _ _ _ _

theorem agrees_assignProper (mode : Mode) {d d' s s' : Ty} (hd : d.Twin m d') (hs : s.Twin m s') :
    m.Agrees (assignProper w j mode d s) (assignProper w j' mode d' s') := by
  have shape := agrees_assignByShape hj hw mode hd hs
  have source := hs
  unfold assignProper
  split
  · exact agrees_assignInvariant hj mode hd hs
  · cases hs with
    | var alike bound =>
      exact hj.assign mode (.some hd) (.some (rel_option_getD bound hw.object))
    | union h => exact agrees_assignFromUnion hj mode hd h
    | _ =>
      cases hd with
      | union h => exact agrees_assignToUnion hj mode h source
      | _ => exact shape

theorem agrees_assignTy (mode : Mode) {d d' s s' : Ty} (hd : d.Twin m d') (hs : s.Twin m s') :
    m.Agrees (assignTy w j mode d s) (assignTy w j' mode d' s') := by
  refine runs_bind runs_solution fun σ τ hσ => ?_
  have reversed := reverseVar?_twin mode hσ hs
  have proper : m.Agrees
      (if d.isAnyOrUnknown || s.isAnyOrUnknown then pure true else assignProper w j mode d s)
      (if d'.isAnyOrUnknown || s'.isAnyOrUnknown then pure true
        else assignProper w j' mode d' s') := by
    rw [hd.isAnyOrUnknown, hs.isAnyOrUnknown]
    split
    · exact agrees_pure true
    · exact agrees_assignProper hj hw mode hd hs
  generalize reverseVar? mode σ s = a at reversed
  generalize reverseVar? mode τ s' = b at reversed
  cases reversed with
  | some hv => exact agrees_solveVar hj hv mode hd
  | none =>
    cases hd with
    | var alike bound => exact agrees_assignToVar hj mode (.var alike bound) hs
    | _ => exact proper

/-- Where the types are one object in one world alone, or not at all, the answer is given at once or
twins are compared. -/
theorem agrees_assignStep {i : Identity} (mode : Mode) {d d' s s' : Option Ty}
    (hi : ∀ {t u t' u' : Ty}, t.Twin m t' → u.Twin m u' →
      (w.identifying i).identity.identical t' u' = w.identity.identical t u ∨
        Idles (assignTy w j mode t u) ∧ Idles (assignTy (w.identifying i) j' mode t' u'))
    (hd : Option.Rel (Ty.Twin m) d d') (hs : Option.Rel (Ty.Twin m) s s') :
    m.Agrees (assignStep w j mode d s) (assignStep (w.identifying i) j' mode d' s') := by
  cases hd with
  | none => exact agrees_pure true
  | @some d d' hd =>
    cases hs with
    | none => exact agrees_pure true
    | @some s s' hs =>
      have compared : m.Agrees (assignTy w j mode d s) (assignTy (w.identifying i) j' mode d' s') := by
        rw [(w.alikeOn_identifying i).assignTy_eq]
        exact agrees_assignTy hj hw mode hd hs
      unfold assignStep
      dsimp only
      rcases hi hd hs with one | ⟨idles, idles'⟩
      · rw [one]
        split
        · exact agrees_pure true
        · exact compared
      · split <;> split
        · exact agrees_pure true
        · exact runs_of_idles idles'
        · exact runs_of_idles_left idles
        · exact compared

end

/-! ## Judges -/

omit m j j' in
private theorem idles_cutOff : Idles cutOff := fun _ => ⟨_, rfl, rfl, rfl, rfl, rfl⟩

omit m j' in
private theorem idles_assignStep (s : Option Ty) :
    Idles (assignStep w j .default (some .unknown) s) := by
  intro state
  refine ⟨state, ?_, rfl, rfl, rfl, rfl⟩
  cases s with
  | none => rfl
  | some t =>
    rcases assignStep_cases .unknown t with ⟨-, identical⟩ | compared
    · exact identical ▸ rfl
    · rw [compared]
      cases t <;> rfl

/-- Judges of any number of levels do not tell twins apart, if the same of them are one object. -/
theorem respects_judge (hw : m.Fixes w) {i : Identity} (hi : m.Identifies w (w.identifying i))
    (n : Nat) :
    m.Respects (judge w n) (judge (w.identifying i) n) := by
  induction n with
  | zero =>
    refine ⟨fun _ _ _ _ _ _ _ => agrees_cutOff, ?_, ?_, fun _ => idles_cutOff, fun _ => idles_cutOff⟩
    · exact fun _ _ _ _ _ _ _ _ => runs_bind (runs_trace _ _ _) fun _ _ _ => agrees_cutOff
    · exact fun _ _ _ _ _ _ _ _ => runs_bind (runs_trace _ _ _) fun _ _ _ => agrees_cutOff
  | succ n ih =>
    rw [judge_succ, judge_succ]
    refine ⟨fun mode _ _ _ _ hd hs => ?_, ?_, ?_, idles_assignStep, idles_assignStep⟩
    · exact agrees_assignStep ih hw mode
        (fun ht hu => (hi ht hu).imp_right fun idles => idles n mode) hd hs
    · intro mode asObject p p' c c' hp hc
      refine runs_bind (runs_trace _ _ _) fun _ _ _ => ?_
      rw [(w.alikeOn_identifying i).matchClass_eq_of_asked _ _ _ rfl rfl fun _ _ => trivial]
      exact agrees_matchClass ih hw .own mode asObject hp hc
    · intro mode p p' hp name name' table known
      refine runs_bind (runs_trace _ _ _) fun _ _ _ => ?_
      rw [(w.alikeOn_identifying i).matchModule_eq_of_asked _ _ rfl]
      exact agrees_matchModule ih hw mode hp known

end Pairing

end Conformance
