import Conformance.Proofs.Lockstep
import Conformance.Proofs.ParamPlan
import Conformance.Proofs.Sample

/-!
# Cutting comparisons short

A comparison is cut short by taking it to hold: below the last level, or because it is in progress.
In a plain world every answer that a comparison asks for is used in favour of its own, so a
comparison that is cut short more often accepts at least as much.
-/

namespace Conformance

open Check

variable {K : Setting} {w : World} {j j' : Judge}

/-! ## Binding -/

/-- The two receivers bind a method whose receiver is not annotated in the same way. -/
structure Receiver.Beside (r r' : Receiver) : Prop where
  reached : r.base.isSome = true
  constructors : r'.constructors = r.constructors
  strips : (r'.base.map fun b => b.isInstance || r'.first.isSome) =
    r.base.map fun b => b.isInstance || r.first.isSome

theorem Receiver.Beside.refl {r : Receiver} (h : r.base.isSome = true) : r.Beside r :=
  ⟨h, rfl, rfl⟩

theorem Receiver.beside_of {c d : ClassTy} (h : d.isInstance = c.isInstance) :
    (Receiver.of (.cls c)).Beside (.of (.cls d)) := by
  refine ⟨rfl, rfl, congrArg (fun b => some (b || false)) ?_⟩
  simp only [Ty.isInstance, Ty.asInstance?, h]
  split <;> rfl

private theorem coincides_solveReceiver {f : FunctionTy} {first : Param} (h : first.type = none)
    (receiver receiver' : Option Ty) :
    Coincides K (fun r => ∃ σ, r = some σ ∧ σ.isEmpty = true)
      (solveReceiver j f first receiver) (solveReceiver j' f first receiver') := by
  have nothing : (receiverScopes f first).isEmpty = true := by
    rw [receiverScopes, h, Solution.isEmpty, Solution.forScope, Fragment.entries_addScope]
    rfl
  have run : ∀ (j : Judge) (receiver : Option Ty) (s : CheckState),
      exec (solveReceiver j f first receiver) s = (.ok (some (receiverScopes f first)), s) := by
    intro j receiver s
    unfold solveReceiver receiverFits
    rw [h]
    rfl
  exact fun s s' _ =>
    ⟨_, _, s, s', run j receiver s, run j' receiver' s', ⟨rfl, _, rfl, nothing⟩, .refl s, .refl s'⟩

def Setting.HasFunction (K : Setting) (r : Option FunctionTy) : Prop :=
  ∀ g, r = some g → K.Has (.function g)

private theorem Setting.hasFunction_some {f : FunctionTy} (h : K.Has (.function f)) :
    K.HasFunction (some f) := by
  rintro _ ⟨⟩
  exact h

private theorem coincides_bindReceiver {f : FunctionTy} (hf : K.Has (.function f))
    (hu : ∀ p ∈ f.params.head?, p.type = none) (receiver receiver' : Option Ty) (strip : Bool) :
    Coincides K K.HasFunction (bindReceiver w j f receiver strip)
      (bindReceiver w j' f receiver' strip) := by
  unfold bindReceiver
  cases hp : f.params with
  | nil => exact Coincides.pure (Setting.hasFunction_some hf)
  | cons first rest =>
    dsimp only
    split
    · exact Coincides.pure (Setting.hasFunction_some hf)
    · refine (coincides_solveReceiver (hu first (by rw [hp]; rfl)) receiver receiver').bind
        fun r hσ => ?_
      obtain ⟨σ, rfl, nothing⟩ := hσ
      refine (Coincides.demand hf.plain.settled).bind fun _ _ => ?_
      rw [FunctionTy.substitute, if_pos nothing]
      refine (Coincides.lift (Fragment.steady_pure (P := (· = f)) rfl)).bind fun g hg => ?_
      subst hg
      split
      · have stripped := hf.withParams fun p hp => hf.params p (List.mem_of_mem_tail hp)
        refine (Coincides.lift (R := fun g => K.Has (.function g))
          ⟨_, hf.plain.withParams_eq _ K.inf, stripped⟩).bind fun g hg => ?_
        exact Coincides.pure (Setting.hasFunction_some hg)
      · exact Coincides.pure (Setting.hasFunction_some hf)

section

variable (hw : K.Covers w)
include hw

private theorem coincides_bindFunction {f : FunctionTy} (hf : K.Binds (.function f))
    {r r' : Receiver}
    (hr : r.Beside r') (owner owner' : Option ClassTy) :
    Coincides K K.HasFunction (bindFunction w j r f owner) (bindFunction w j' r' f owner') := by
  have through (owner : Option ClassTy) : Answers K f (seenThrough w f owner) := by
    unfold seenThrough
    cases owner with
    | some c => exact .lift (hw.plain.specializeFunction_eq f c ▸ Fragment.steady_pure rfl)
    | none => exact .of_always (.pure f)
  have seen : Coincides K (· = f) (seenThrough w f owner) (seenThrough w f owner') :=
    .of_answers (through owner) (through owner') ⟨rfl, rfl⟩
  have unannotated : f.Unannotated := hf.unannotated
  obtain ⟨base, hbase⟩ := Option.isSome_iff_exists.1 hr.reached
  have strips := hr.strips
  rw [hbase] at strips
  obtain ⟨base', hbase', strips⟩ := Option.map_eq_some_iff.1 strips
  refine seen.bind fun g hg => ?_
  subst hg
  rw [hbase, hbase', hr.constructors]
  dsimp only
  split
  · exact Coincides.pure (Setting.hasFunction_some hf.toHas)
  · rename_i kind
    exact coincides_bindReceiver hf.toHas (unannotated.resolve_left (by rw [kind]; nofun)) _ _ _
  · rename_i kind
    have hu := unannotated.resolve_left (by rw [kind]; nofun)
    rw [strips]
    split <;> exact coincides_bindReceiver hf.toHas hu _ _ _

private theorem coincides_bindOverloads {fs : List FunctionTy}
    (hf : ∀ f ∈ fs, K.Binds (.function f))
    {r r' : Receiver} (hr : r.Beside r') (owner owner' : Option ClassTy) :
    Coincides K (fun gs => ∀ g ∈ gs, K.Has (.function g)) (bindOverloads w j r owner fs)
      (bindOverloads w j' r' owner' fs) := by
  induction fs with
  | nil => exact Coincides.pure fun _ h => nomatch h
  | cons f fs ih =>
    rw [bindOverloads, bindOverloads]
    refine (coincides_bindFunction hw (hf f List.mem_cons_self) hr owner owner').bind
      fun bound hbound => ?_
    refine (ih fun g hg => hf g (List.mem_cons_of_mem f hg)).bind fun others hothers => ?_
    refine Coincides.pure fun g hg => ?_
    rcases List.mem_append.1 hg with hg | hg
    · exact hbound g (Option.mem_toList.1 hg)
    · exact hothers g hg

private theorem coincides_bind {t : Ty} (ht : K.Binds t) {r r' : Receiver} (hr : r.Beside r')
    (owner owner' : Option ClassTy) :
    Coincides K K.HasOption (bind w j r t owner) (bind w j' r' t owner') := by
  unfold Conformance.bind
  split
  · rename_i f
    refine (coincides_bindFunction hw ht hr owner owner').bind fun bound hbound => ?_
    refine Coincides.pure fun u hu => ?_
    obtain ⟨g, hg, rfl⟩ := Option.map_eq_some_iff.1 hu
    exact hbound g hg
  · rename_i fs
    have each : ∀ f ∈ fs, K.Binds (.function f) := fun f hf =>
      ⟨ht.overloads f hf, ht.unannotated f hf⟩
    refine (coincides_bindOverloads hw each hr owner owner').bind fun gs hgs => ?_
    rcases gs with _ | ⟨g, _ | ⟨g', gs⟩⟩
    · exact Coincides.pure Setting.hasOption_none
    · exact Coincides.pure (Setting.hasOption_some (hgs g List.mem_cons_self))
    · exact Coincides.pure (Setting.hasOption_some (.overloaded hgs))
  · exact Coincides.pure (Setting.hasOption_some ht.toHas)

private theorem coincides_boundCall (object : Ty) :
    Coincides K K.HasOption (boundCall w j object) (boundCall w j' object) := by
  unfold boundCall
  split
  · exact Coincides.pure Setting.hasOption_none
  · refine (Coincides.lift (hw.plain.steady_lookup _ _)).bind fun r hr => ?_
    split
    · exact Coincides.pure Setting.hasOption_none
    · rename_i found
      split
      · exact Coincides.pure Setting.hasOption_none
      · refine (Coincides.lift (hw.steady_typeOf_call (hr found rfl))).bind fun t ht => ?_
        split
        · exact coincides_bind hw ht (.refl rfl) _ _
        · exact Coincides.pure Setting.hasOption_none

private theorem coincides_calledType {source : Ty} (hs : K.Has source) :
    Coincides K K.Has (calledType w j source) (calledType w j' source) := by
  unfold calledType
  split
  · refine (coincides_boundCall hw source).bind fun bound hb => Coincides.pure ?_
    cases bound with
    | some t => exact hb t rfl
    | none => exact hs
  · exact Coincides.pure hs

end

/-! ## Lookups -/

/-- The same member was found in the same way, and it stands in the body of its class. Nothing else
is the same if it does not depend on the candidate. -/
structure FoundAlike (K : Setting) (w : World) (m m' : Match) (name : String)
    (found found' : FoundMember × Bool) : Prop where
  member : found'.1.member = found.1.member
  owner : found'.1.owner.map (·.id) = found.1.owner.map (·.id)
  fromMetaclass : found'.2 = found.2
  declared : found.1.DeclaredIn w name
  seen : m'.candidate = m.candidate ∧ found' = found ∨
    ∀ owner, found.1.owner = some owner →
      (found.1.member.effectiveType K.inf).PlainMember K.inf K.tables

/-- The two matches find the same members. -/
structure Match.Beside (K : Setting) (w : World) (m m' : Match) : Prop where
  asObject : m'.asObject = m.asObject
  mode : m'.mode = m.mode
  isInstance : m'.candidate.isInstance = m.candidate.isInstance
  candidate : K.Has (.cls m.candidate.toInstance)
  find : ∀ name, Lockstep K (Option.Rel (FoundAlike K w m m' name)) (m.find w name) (m'.find w name)

section

variable (hw : K.Covers w) {m m' : Match}
include hw

private theorem answers_seenFrom (r : Requirement) (protocol : ClassTy) (t : Ty) :
    Answers K t (r.seenFrom w protocol t) := by
  unfold Requirement.seenFrom
  split
  · exact .of_always (.pure t)
  · exact .lift (hw.plain.specialize_eq t r.owner ▸ Fragment.steady_pure rfl)

private theorem coincides_find (m : Match) (name : String) :
    Coincides K (fun r => ∀ found, r = some found → found.1.DeclaredIn w name) (m.find w name)
      (m.find w name) := by
  have onMetaclass : Coincides K (fun r => ∀ found, r = some found → found.DeclaredIn w name)
      (m.findOnMetaclass w name) (m.findOnMetaclass w name) := by
    unfold Match.findOnMetaclass
    split
    · split
      · exact Coincides.lift (hw.plain.steady_lookup _ _)
      · exact Coincides.pure fun _ h => nomatch h
    · exact Coincides.pure fun _ h => nomatch h
  refine onMetaclass.bind fun r hr => ?_
  cases r with
  | some found =>
    refine Coincides.pure ?_
    rintro _ ⟨⟩
    exact hr found rfl
  | none =>
    refine (Coincides.lift (hw.plain.steady_lookup _ _)).bind fun r hr =>
      Coincides.pure fun f hf => ?_
    obtain ⟨found, hfound, rfl⟩ := Option.map_eq_some_iff.1 hf
    exact hr found hfound

private theorem Match.beside_refl (h : K.Has (.cls m.candidate.toInstance)) :
    Match.Beside K w m m := by
  refine ⟨rfl, rfl, rfl, h, fun name => ?_⟩
  refine Lockstep.imp (coincides_find hw m name) fun r r' hr => ?_
  obtain ⟨rfl, declared⟩ := hr
  cases r with
  | none => exact .none
  | some found => exact .some ⟨rfl, rfl, rfl, declared found rfl, .inl ⟨rfl, rfl⟩⟩

variable (hm : Match.Beside K w m m')
include hm

private theorem coincides_foundType {name : String} {found found' : FoundMember × Bool}
    (hf : FoundAlike K w m m' name found found') :
    Coincides K K.Binds (m.foundType w found.1) (m'.foundType w found'.1) := by
  have owners := hf.owner
  unfold Match.foundType
  rw [hf.member]
  cases ho : found.1.owner with
  | none =>
    rw [ho, Option.map_none, Option.map_eq_none_iff] at owners
    rw [owners]
    exact Coincides.pure Setting.binds_unknown
  | some owner =>
    rw [ho] at owners
    obtain ⟨owner', ho', -⟩ := Option.map_eq_some_iff.1 owners
    have declared := hf.declared owner ho
    rw [ho']
    refine Coincides.inference.bind fun here hinf => ?_
    rw [hinf]
    have demanded : Coincides K (fun _ => True)
        (Match.demandPlain (found.1.member.effectiveType K.inf))
        (Match.demandPlain (found.1.member.effectiveType K.inf)) := by
      unfold Match.demandPlain
      split
      · rename_i f hf'
        exact Coincides.demand (hw.plain.settled declared hf')
      · exact Coincides.pure trivial
    refine demanded.bind fun _ _ => ?_
    rcases hf.seen with ⟨same, rfl⟩ | member
    · cases ho.symm.trans ho'
      rw [same]
      exact Coincides.lift (hw.steady_seen declared hm.candidate)
    · have member := member owner ho
      have answers (owner c : ClassTy) : Answers K (found.1.member.effectiveType K.inf)
          (lift ((found.1.member.effectiveType K.inf).specialize w.classes owner (some c))) :=
        .lift ⟨_, hw.plain.substitute_eq member.plain _, rfl⟩
      exact Lockstep.of_answers (answers _ _) (answers _ _) ⟨rfl, hw.member declared member⟩

omit hm in
private theorem coincides_boundOr {t : Ty} (ht : K.Binds t) {r r' : Receiver} (hr : r.Beside r')
    (owner owner' : Option ClassTy) :
    Coincides K K.Has (Match.boundOr w j r t owner) (Match.boundOr w j' r' t owner') := by
  refine (coincides_bind hw ht hr owner owner').bind fun bound hb => ?_
  cases bound with
  | some b => exact Coincides.lift (hb b rfl).steady_dropSpecRest
  | none => exact Coincides.pure ht.toHas

private theorem coincides_comparedTypes (found found' : FoundMember) (fromMetaclass : Bool)
    {dest source : Ty} (required : dest.PlainMember K.inf K.tables) (hd : K.Binds dest)
    (hs : K.Binds source) :
    Coincides K (fun p => K.Has p.1 ∧ K.Has p.2)
      (m.comparedTypes w j found fromMetaclass dest source)
      (m'.comparedTypes w j' found' fromMetaclass dest source) := by
  have answers (σ : Solution) : Answers K dest (lift (dest.substitute w.classes σ false)) :=
    .lift ⟨dest, hw.plain.substitute_eq required.plain σ, rfl⟩
  have substituted : Coincides K (· = dest) (lift (dest.substitute w.classes m.self false))
      (lift (dest.substitute w.classes m'.self false)) :=
    .of_answers (answers _) (answers _) ⟨rfl, rfl⟩
  unfold Match.comparedTypes
  split
  · refine substituted.bind ?_
    rintro _ rfl
    exact Coincides.pure ⟨hd.toHas, hs.toHas⟩
  · split
    · have receivers : Receiver.Beside
          ⟨some (.cls m.candidate), false, some (.cls m.candidate)⟩
          ⟨some (.cls m'.candidate), false, some (.cls m'.candidate)⟩ :=
        ⟨rfl, rfl, by simp⟩
      refine (coincides_boundOr hw hs receivers none none).bind fun s hs => ?_
      exact (coincides_boundOr hw hd receivers none none).bind fun d hd => Coincides.pure ⟨hd, hs⟩
    · have instances : (Receiver.of (.cls m.candidate.toInstance)).Beside
          (.of (.cls m'.candidate.toInstance)) := Receiver.beside_of rfl
      have receivers : m.receiver.Beside m'.receiver := by
        unfold Match.receiver
        rw [hm.asObject]
        split
        · exact Receiver.beside_of hm.isInstance
        · exact instances
      refine substituted.bind ?_
      rintro _ rfl
      refine (coincides_boundOr hw hs receivers found.owner found'.owner).bind fun s hs => ?_
      exact (coincides_boundOr hw hd instances found.owner found'.owner).bind fun d hd =>
        Coincides.pure ⟨hd, hs⟩

omit hm

private theorem coincides_getterType (property : ClassTy) :
    Coincides K K.HasOption (getterType w property true) (getterType w property true) := by
  unfold getterType
  split
  · exact Coincides.pure Setting.hasOption_none
  · rename_i getter hg
    have has := (hw.accessor (a := .getter) hg).2.toHas
    refine (Coincides.demand has.plain.settled).bind fun _ _ => ?_
    exact Coincides.inference.bind fun inf _ =>
      Coincides.pure (Setting.hasOption_some (has.returnType inf))

private theorem coincides_ancestorOf {source ancestor : ClassTy}
    (hs : ∀ o ∈ source.argList, K.HasOption o) (ha : ∀ o ∈ ancestor.argList, K.HasOption o) :
    Coincides K (fun c => ∀ o ∈ c.argList, K.HasOption o) (ancestorOf w source ancestor)
      (ancestorOf w source ancestor) := by
  unfold ancestorOf
  split
  · exact Coincides.pure hs
  · exact Coincides.lift (hw.plain.specializeClass_eq ancestor source ▸ Fragment.steady_pure ha)

end

/-! ## Types -/

/-- The comparisons of types by the second judge uphold those by the first. -/
def UpholdsTypes (K : Setting) (j j' : Judge) : Prop :=
  ∀ mode dest source, K.HasOption dest → K.HasOption source →
    Upholds K (j.assign mode dest source) (j'.assign mode dest source)

section

variable (hj : UpholdsTypes K j j') (mode : Mode)
include hj

theorem UpholdsTypes.some {dest source : Ty} (hd : K.Has dest) (hs : K.Has source) :
    Upholds K (j.assign mode (some dest) (some source))
      (j'.assign mode (some dest) (some source)) :=
  hj mode _ _ (Setting.hasOption_some hd) (Setting.hasOption_some hs)

private theorem upholds_assignArgument {p : ArgumentPair} (hd : K.HasOption p.dest)
    (hs : K.HasOption p.source) : Upholds K (p.assign w j mode) (p.assign w j' mode) := by
  refine (Upholds.explained (Lockstep.child ?_) (.tell _ _)).child
  split
  · exact hj _ _ _ hs hd
  · exact hj _ _ _ hd hs

private theorem upholds_assignArguments {dest source : ClassTy}
    (hd : ∀ o ∈ dest.argList, K.HasOption o)
    (hs : ∀ o ∈ source.argList, K.HasOption o) :
    Upholds K (assignArguments w j mode dest source) (assignArguments w j' mode dest source) := by
  unfold assignArguments
  cases hargs : source.args with
  | none => exact Upholds.same true
  | some sources =>
    rw [ClassTy.argList, hargs] at hs
    refine Upholds.allOf fun p hp => ?_
    unfold pairArguments at hp
    obtain ⟨i, hi, rfl⟩ := List.mem_mapIdx.1 hp
    have source := hs _ (List.getElem_mem hi)
    dsimp only
    split
    · exact upholds_assignArgument hj mode (Setting.hasOption_some Setting.has_unknown) source
    · refine upholds_assignArgument hj mode (fun u hu => ?_) source
      exact hd _ (List.mem_of_getElem? (Option.join_eq_some_iff.1 hu)) u rfl

private theorem upholds_assignInvariant {dest source : Ty} (hd : K.Has dest) (hs : K.Has source) :
    Upholds K (assignInvariant w j mode dest source) (assignInvariant w j' mode dest source) := by
  have unknown := Setting.hasOption_some (K := K) Setting.has_unknown
  refine Coincides.inference.bind fun inf _ => ?_
  split
  · exact Upholds.same true
  · split
    · split
      · refine Upholds.orNo (Upholds.allOf fun p hp => ?_) (.mismatch _ _ _)
        obtain ⟨hd, hs⟩ := forall_mem_padPairs unknown unknown hd.args hs.args p hp
        exact (hj _ _ _ hd hs).child
      · exact Upholds.mismatch _ _ _
    · exact Upholds.mismatch _ _ _

/-! ## Callables -/

private theorem upholds_paramStep {step : ParamStep}
    (h : step.Mentions (fun p => K.HasOption p.type) fun p => K.HasOption p.type) :
    Upholds K (step.run w j mode) (step.run w j' mode) := by
  cases step with
  | compare index dest source =>
    refine (Upholds.explained (Lockstep.child ?_) (.tell _ _)).child
    exact hj.some _ (Setting.Has.typeOrUnknown h.2) (Setting.Has.typeOrUnknown h.1)
  | fault wording values => exact Upholds.refuse _ _

private theorem upholds_assignReturn {dest source : Ty} (hd : K.Has dest) (hs : K.Has source) :
    Upholds K (assignReturn w j mode dest source) (assignReturn w j' mode dest source) :=
  (Upholds.explained (hj.some _ hd hs).child (.tell _ _)).child

private theorem upholds_assignFunction {dest source : FunctionTy} (hd : K.Has (.function dest))
    (hs : K.Has (.function source)) :
    Upholds K (assignFunction w j mode dest source) (assignFunction w j' mode dest source) := by
  refine (Coincides.demand hd.plain.settled).bind fun _ _ => ?_
  refine (Coincides.demand hs.plain.settled).bind fun _ _ => ?_
  have steps := ParamStep.mentions_plan (ParamGroups.all_ofList hd.params)
    (ParamGroups.all_ofList hs.params)
  have params := Upholds.allOf fun step h => upholds_paramStep (w := w) hj mode (steps step h)
  refine Lockstep.bind params fun _ _ hp => ?_
  refine Coincides.inference.bind fun inf _ => ?_
  have ret := upholds_assignReturn (w := w) hj mode (hd.returnType inf) (hs.returnType inf)
  exact Lockstep.bind ret fun _ _ hr => Lockstep.pure (Upholds.and_le_and hp hr)

private theorem upholds_assignToFunction {dest : FunctionTy} {source : Ty}
    (hd : K.Has (.function dest))
    (hs : K.Has source) :
    Upholds K (assignToFunction w j mode dest source)
      (assignToFunction w j' mode dest source) := by
  unfold assignToFunction
  split
  · exact upholds_assignFunction hj mode hd hs
  · rename_i overloads
    refine Upholds.orNo (Lockstep.silently (Upholds.anyOf fun f hf => ?_)) (.refuse _ _)
    exact Upholds.attempt (upholds_assignFunction hj mode hd (hs.overloads f hf))
  · exact Upholds.mismatch _ _ _

private theorem upholds_assignToOverloads {source : Ty} (hs : K.Has source) {fs : List FunctionTy}
    (hf : ∀ f ∈ fs, K.Has (.function f)) :
    Upholds K (assignToOverloads w j mode source fs) (assignToOverloads w j' mode source fs) := by
  induction fs with
  | nil => exact Upholds.same true
  | cons f fs ih =>
    rw [assignToOverloads, assignToOverloads]
    have rest := ih fun g hg => hf g (List.mem_cons_of_mem f hg)
    have first := upholds_assignToFunction (w := w) hj mode (hf f List.mem_cons_self) hs
    exact Upholds.ite first.child rest (Upholds.refuse _ _) (Upholds.of_no (.refuse _ _) rest)

private theorem upholds_assignToCallable (hw : K.Covers w) {dest source : Ty} (hd : K.Has dest)
    (hs : K.Has source) :
    Upholds K (assignToCallable w j mode dest source)
      (assignToCallable w j' mode dest source) := by
  refine (coincides_calledType hw hs).bind fun called hc => ?_
  split
  · exact Upholds.mismatch _ _ _
  · split
    · exact upholds_assignToFunction hj mode hd hc
    · exact upholds_assignToOverloads hj mode hc hd.overloads
    · exact Upholds.mismatch _ _ _

end

/-! ## Properties -/

section

variable (hw : K.Covers w) (hj : UpholdsTypes K j j')
include hw hj

private theorem upholds_compareAccessors (p p' : PropertyPair) {dest source : FunctionTy}
    (required : (Ty.function dest).PlainMember K.inf K.tables) (hd : K.Binds (.function dest))
    (hs : K.Binds (.function source)) :
    Upholds K (p.compare w j dest source) (p'.compare w j' dest source) := by
  have asked (p : PropertyPair) : Answers K dest (p.required w dest) := by
    unfold PropertyPair.required
    rw [hw.plain.specializeFunction_eq]
    refine Answers.bind (.lift (Fragment.steady_pure (P := (· = dest)) rfl)) ?_
    cases p.self with
    | some σ => exact .lift ⟨dest, hw.plain.substituteFunction_eq required.plain σ, rfl⟩
    | none => exact .of_always (.pure dest)
  have same : Coincides K (· = dest) (p.required w dest) (p'.required w dest) :=
    .of_answers (asked p) (asked p') ⟨rfl, rfl⟩
  have receivers : (Receiver.of (.cls p.sourceOwner.toInstance)).Beside
      (.of (.cls p'.sourceOwner.toInstance)) := Receiver.beside_of rfl
  refine (Coincides.demand hs.plain.settled).bind fun _ _ => ?_
  rw [hw.plain.specializeFunction_eq, hw.plain.specializeFunction_eq]
  refine (Coincides.lift (Fragment.steady_pure (P := (· = source)) rfl)).bind fun s hs' => ?_
  rw [hs']
  refine same.bind fun d hd' => ?_
  rw [hd']
  refine (coincides_bindFunction hw hd receivers none none).bind fun bd hbd => ?_
  refine (coincides_bindFunction hw hs receivers none none).bind fun bs hbs => ?_
  split
  · exact (hj.some _ (hbd _ rfl) (hbs _ rfl)).child
  · exact Upholds.same false

private theorem upholds_assignProperty {p p' : PropertyPair} (dest : p'.dest = p.dest)
    (source : p'.source = p.source) :
    Upholds K (assignProperty w j p) (assignProperty w j' p') := by
  refine Upholds.allOf fun accessor _ => ?_
  unfold PropertyPair.assignAccessor
  rw [dest, source]
  split
  · exact Upholds.same true
  · exact Upholds.refuse _ _
  · rename_i dest source hd hs
    refine Upholds.explained ?_ (.tell _ _)
    obtain ⟨required, hd⟩ := hw.accessor hd
    exact upholds_compareAccessors hw hj p p' required hd (hw.accessor hs).2

/-! ## Protocols -/

variable {m m' : Match} (hm : Match.Beside K w m m')
include hm

private theorem upholds_assignToProperty (r : Requirement) (property : ClassTy) {source : Ty}
    (hs : K.Has source) :
    Upholds K (m.assignToProperty w j r property source)
      (m'.assignToProperty w j' r property source) := by
  unfold Match.assignToProperty
  rw [hm.asObject, hm.mode]
  split
  · refine Lockstep.child ?_
    exact upholds_assignProperty hw hj rfl rfl
  · refine (coincides_getterType hw property).bind fun t ht => ?_
    split
    · exact Upholds.same false
    · exact (hj.some _ (ht _ rfl) hs).child

private theorem upholds_assignMember (r : Requirement) {dest source : Ty} (hd : K.Has dest)
    (hs : K.Has source) :
    Upholds K (m.assignMember w j r dest source) (m'.assignMember w j' r dest source) := by
  unfold Match.assignMember
  rw [hm.mode]
  split
  · exact Upholds.explained (upholds_assignToProperty hw hj hm r _ hs) (.tell _ _)
  · refine Upholds.explained (hj.some _ hd hs).child ?_
    split
    · exact (Always.tell _ _).bind (.tell _ _)
    · exact .tell _ _

omit hw hj hm in
private theorem upholds_agreeOnFinal (r : Requirement) (found : FoundMember) :
    Upholds K (Match.agreeOnFinal r found) (Match.agreeOnFinal r found) := by
  unfold Match.agreeOnFinal
  split
  · exact Upholds.same true
  · exact Upholds.refuse _ _

omit hw hj hm in
private theorem upholds_agreeOnClassVar (r : Requirement) (found : FoundMember) :
    Upholds K (Match.agreeOnClassVar r found) (Match.agreeOnClassVar r found) := by
  unfold Match.agreeOnClassVar
  split
  · exact Upholds.refuse _ _
  · exact Upholds.same true

section

variable {r : Requirement} (hr : (w.classes.decl r.owner.id).flags.protocol = true)
  (declared : (r.name, r.member) ∈ (w.classes.decl r.owner.id).members.entries)
include hr declared

private theorem upholds_matchType {found found' : FoundMember × Bool}
    (hf : FoundAlike K w m m' r.name found found') :
    Upholds K (m.matchType w j r found.1 found.2) (m'.matchType w j' r found'.1 found'.2) := by
  unfold Match.matchType
  split
  · exact Upholds.same true
  · rename_i t ht
    obtain ⟨required, hd⟩ := hw.required declared hr ht
    have asked : Coincides K (· = t) (r.seenFrom w m.protocol t) (r.seenFrom w m'.protocol t) :=
      .of_answers (answers_seenFrom hw r _ t) (answers_seenFrom hw r _ t) ⟨rfl, rfl⟩
    refine asked.bind fun dest hdest => ?_
    rw [hdest, hf.fromMetaclass]
    refine (coincides_foundType hw hm hf).bind fun source hs => ?_
    refine (coincides_comparedTypes hw hm found.1 found'.1 found.2 required hd hs).bind
      fun types has => ?_
    have agree : Match.agreeOnFinal r found'.1 = Match.agreeOnFinal r found.1 := by
      rw [Match.agreeOnFinal, hf.member, ← Match.agreeOnFinal]
    rw [agree]
    exact Lockstep.child ((upholds_assignMember hw hj hm r has.1 has.2).both
      (upholds_agreeOnFinal r found.1))

private theorem upholds_matchMember : Upholds K (m.matchMember w j r) (m'.matchMember w j' r) := by
  refine Lockstep.bind (hm.find r.name) fun found found' hf => ?_
  cases hf with
  | none => exact Upholds.refuse _ _
  | some hf =>
    rename_i found found'
    have agree : Match.agreeOnClassVar r found'.1 = Match.agreeOnClassVar r found.1 := by
      rw [Match.agreeOnClassVar, hf.member, ← Match.agreeOnClassVar]
    dsimp only
    rw [agree]
    exact (upholds_matchType hw hj hm hr declared hf).both (upholds_agreeOnClassVar r found.1)

end

omit hj hm in
private theorem upholds_meetAll (mode mode' : Mode) {protocol protocol' : ClassTy}
    (same : protocol'.id = protocol.id) {rs : List Requirement}
    {meets meets' : Requirement → Check Bool} (h : ∀ r ∈ rs, Upholds K (meets r) (meets' r)) :
    Upholds K (meetAll w j mode protocol rs meets) (meetAll w j' mode' protocol' rs meets') := by
  have solved : Lockstep K (fun p p' => p.1 ≤ p'.1)
      (solvingFor (some (Solution.forScope (w.classes.decl protocol.id).scope)) do
        let met ← allOf meets rs
        let σ ← solution
        pure (met, σ.getD .empty))
      (solvingFor (some (Solution.forScope (w.classes.decl protocol.id).scope)) do
        let met ← allOf meets' rs
        let σ ← solution
        pure (met, σ.getD .empty)) := by
    refine Lockstep.solvingFor _ (Lockstep.bind (Upholds.allOf h) fun met met' hmet => ?_)
    exact Lockstep.bind Lockstep.solution fun _ _ _ => Lockstep.pure hmet
  have params := (hw.plain.classes protocol.id).params
  unfold meetAll
  rw [same]
  refine Lockstep.bind solved fun p p' hp => ?_
  simp only [params, List.isEmpty_nil, Bool.not_true, Bool.and_false, Bool.false_and,
    Bool.false_eq_true, if_false]
  exact Lockstep.pure hp

/-- Matches that find the same meet the same requirements of a protocol. -/
theorem upholds_matchAll (mode mode' : Mode) (asObject : Bool) {protocol protocol' : ClassTy}
    (same : protocol'.generic = protocol.generic) :
    Upholds K
      (meetAll w j mode protocol (Requirement.all w.classes asObject protocol) (m.matchMember w j))
      (meetAll w j' mode' protocol' (Requirement.all w.classes asObject protocol')
        (m'.matchMember w j')) := by
  have ids : protocol'.id = protocol.id := congrArg (·.id) same
  have asked : Requirement.all w.classes asObject protocol' =
      Requirement.all w.classes asObject protocol := by
    rw [Requirement.all, Requirement.protocols, same, ids]
    rfl
  rw [asked]
  refine upholds_meetAll hw mode mode' ids fun r hr => ?_
  obtain ⟨owner, declared⟩ := Requirement.declared_of_mem_all hr
  exact upholds_matchMember hw hj hm (List.mem_filter.1 owner).2 declared

omit hm in
private theorem upholds_matchMembers (mode : Mode) (asObject : Bool) (protocol : ClassTy)
    {candidate : ClassTy} (hc : K.Has (.cls candidate.toInstance)) :
    Upholds K (matchMembers w j mode asObject protocol candidate)
      (matchMembers w j' mode asObject protocol candidate) := by
  have looked : K.Has (.cls (Match.of w protocol candidate asObject).candidate.toInstance) := by
    unfold Match.of
    dsimp only
    split
    · exact hw.typedDict
    · exact hc
  unfold matchMembers
  split
  · exact Coincides.inference.bind fun _ _ => Upholds.same _
  · exact upholds_matchAll hw hj (Match.beside_refl hw looked) mode mode asObject rfl

omit hm in
private theorem upholds_matchClass (choice : StackChoice) (mode : Mode) (asObject : Bool)
    (protocol : ClassTy) {candidate : ClassTy} (hc : K.Has (.cls candidate.toInstance))
    (granted : K.spare choice ⟨candidate.toClassObject, protocol.toClassObject⟩ →
      Affirmed K (matchClass w j' choice mode asObject protocol candidate)) :
    Upholds K (matchClass w j choice mode asObject protocol candidate)
      (matchClass w j' choice mode asObject protocol candidate) := by
  intro s s' below
  have looked : K.Has (.cls candidate.toClassObject.toInstance) := hc
  have parts := upholds_matchMembers hw hj mode asObject protocol.toClassObject looked
  obtain ⟨b, b', t, t', ht, ht', hb, kept, kept'⟩ :=
    parts _ _ (below.enteringOn choice (.of asObject protocol candidate))
  obtain ⟨u, hu, left⟩ := Upholds.answers_whilePending ht kept
  obtain ⟨u', hu', right⟩ := Upholds.answers_whilePending ht' kept'
  rw [Link.exec_matchClass]
  dsimp only
  split
  · rename_i pending
    have accepted : ∃ v, exec (matchClass w j' choice mode asObject protocol candidate) s' =
        (.ok true, v) ∧ s'.Resumes v := by
      rcases below.stillPending pending with still | spare
      · rw [Link.exec_matchClass]
        exact ⟨_, if_pos still, rfl, rfl, rfl⟩
      · exact granted spare s' below.right
    obtain ⟨v, hv, right⟩ := accepted
    exact ⟨true, true, _, v, rfl, hv, Bool.le_refl _, ⟨rfl, rfl, rfl⟩, right⟩
  · rw [Link.exec_matchClass]
    dsimp only
    split
    · exact ⟨b, true, u, _, hu, rfl, Bool.le_true b, left, ⟨rfl, rfl, rfl⟩⟩
    · exact ⟨b, b', u, u', hu, hu', hb, left, right⟩

omit hm in
private theorem upholds_matchModule (mode : Mode) (protocol : ClassTy) {table : TableId}
    (ht : K.tables table) :
    Upholds K (matchModule w j mode protocol table) (matchModule w j' mode protocol table) := by
  refine upholds_meetAll hw mode mode rfl fun r hr => ?_
  obtain ⟨owner, declared⟩ := Requirement.declared_of_mem_all hr
  unfold matchModuleMember
  split
  · exact Upholds.refuse _ _
  · rename_i member hm
    split
    · exact Upholds.same true
    · rename_i t hdeclared
      obtain ⟨-, hd⟩ := hw.required declared (List.mem_filter.1 owner).2 hdeclared
      refine Coincides.inference.bind fun here hinf => ?_
      rw [hinf]
      have source := hw.moduleMember ht (Fragment.MemberTable.mem_of_find? hm)
      have asked : Coincides K K.Has
          (moduleRequiredType w j protocol.toClassObject r t (member.effectiveType K.inf))
          (moduleRequiredType w j' protocol.toClassObject r t (member.effectiveType K.inf)) := by
        have same : Coincides K (· = t) (r.seenFrom w protocol.toClassObject t)
            (r.seenFrom w protocol.toClassObject t) :=
          .of_answers (answers_seenFrom hw r _ t) (answers_seenFrom hw r _ t) ⟨rfl, rfl⟩
        refine same.bind fun dest hdest => ?_
        rw [hdest]
        split
        · have receiver : Receiver.Beside (.of (.cls protocol.toClassObject.toInstance))
              (.of (.cls protocol.toClassObject.toInstance)) := .refl rfl
          refine (coincides_bind hw hd receiver _ _).bind fun bound hb => ?_
          refine Coincides.pure ?_
          cases bound with
          | some b => exact hb b rfl
          | none => exact hd.toHas
        · exact Coincides.pure hd.toHas
      refine asked.bind fun dest hd => ?_
      exact (Upholds.explained (hj.some _ hd source).child (.tell _ _)).child

end

/-! ## Classes -/

/-- A comparison with a protocol that the comparisons of types come to: in a narrow setting one of
instances that need not be the same. -/
structure Setting.Compares (K : Setting) (mode : Mode) (asObject : Bool)
    (protocol candidate : ClassTy) : Prop where
  candidate : K.Has (.cls candidate.toInstance)
  narrow : K.objects ∨ mode.invariant = false ∧ asObject = false ∧ K.Has (.cls protocol.toInstance)

/-- Each comparison by the second judge upholds that by the first. -/
structure UpholdsJudge (K : Setting) (j j' : Judge) : Prop where
  types : UpholdsTypes K j j'
  conforms {mode : Mode} {asObject : Bool} {protocol candidate : ClassTy}
    (h : K.Compares mode asObject protocol candidate) :
    Upholds K (j.conforms mode asObject protocol candidate)
      (j'.conforms mode asObject protocol candidate)
  modules (mode : Mode) (protocol : ClassTy) (name : String) {table : TableId}
    (ht : K.tables table) :
    Upholds K (j.moduleConforms mode protocol name table)
      (j'.moduleConforms mode protocol name table)

section

variable (hw : K.Covers w) (hj : UpholdsJudge K j j') {mode : Mode}
  (plain : mode.invariant = false)
include hw hj plain

private theorem upholds_assignClassToClass {dest source : ClassTy} (hd : K.Has (.cls dest))
    (hs : K.Has (.cls source)) :
    Upholds K (assignClassToClass w j mode dest source)
      (assignClassToClass w j' mode dest source) := by
  unfold assignClassToClass
  dsimp only
  split
  · split
    · exact Upholds.same true
    · exact Upholds.mismatch _ _ _
  · split
    · exact Upholds.same true
    · split
      · exact Upholds.same true
      · rename_i ancestor hfound
        have args : ∀ o ∈ ancestor.argList, K.HasOption o := by
          rcases List.mem_cons.1 (mem_of_findAncestor hfound) with h | h
          · rw [Ancestor.resolved.inj h]
            exact hs.args
          · exact hw.ancestor h
        split
        · exact Upholds.same true
        · exact (coincides_ancestorOf hw hs.args args).bind fun a ha =>
            upholds_assignArguments hj.types mode hd.args ha
      · split
        · exact hj.conforms ⟨hs.toInstance, .inr ⟨plain, rfl, hd.toInstance⟩⟩
        · exact Upholds.mismatch _ _ _

omit plain in
private theorem upholds_assignClassObject {dest source : ClassTy} (hd : K.Has (.cls dest))
    (hs : K.Has (.cls source)) (object : source.isInstance = false) :
    Upholds K (assignClassObject w j mode dest source)
      (assignClassObject w j' mode dest source) := by
  have wide := hs.objects object
  unfold assignClassObject
  split
  · exact hj.conforms ⟨hs.toInstance, .inl wide⟩
  · split
    · exact Upholds.same true
    · split
      · rename_i metaclass hmeta
        have instances := ((hw.plain.classes source.id).metaclass metaclass hmeta).toInstance
        split
        · exact Upholds.mismatch _ _ _
        · exact hj.types.some _ hd ⟨instances, fun narrow => absurd wide narrow⟩
      · exact Upholds.mismatch _ _ _

omit plain in
private theorem upholds_assignCallableToClass (dest : ClassTy) {source : Ty} (hs : K.Has source) :
    Upholds K (assignCallableToClass w j mode dest source)
      (assignCallableToClass w j' mode dest source) := by
  unfold assignCallableToClass
  split
  · refine (coincides_boundCall hw _).bind fun call hc => ?_
    split
    · exact hj.types.some _ (hc _ rfl) hs
    · exact Upholds.mismatch _ _ _
  · exact Upholds.mismatch _ _ _

private theorem upholds_assignToClass {dest : ClassTy} (hd : K.Has (.cls dest)) {source : Ty}
    (hs : K.Has source) :
    Upholds K (assignToClass w j mode dest source) (assignToClass w j' mode dest source) := by
  unfold assignToClass
  split
  · exact Upholds.same true
  · split
    · rename_i c
      split
      · exact upholds_assignClassToClass hw hj plain hd hs
      · rename_i different
        split
        · rename_i instances
          refine upholds_assignClassObject hw hj hd hs ?_
          simpa [instances] using different
        · exact Upholds.mismatch _ _ _
    · split
      · cases hs.plain with
        | module _ allowed => exact hj.modules _ _ _ allowed
      · exact Upholds.mismatch _ _ _
    · exact upholds_assignCallableToClass hw hj dest hs
    · exact upholds_assignCallableToClass hw hj dest hs
    · exact Upholds.mismatch _ _ _

/-! ## Assignability -/

private theorem upholds_assignByShape {dest source : Ty} (hd : K.Has dest) (hs : K.Has source) :
    Upholds K (assignByShape w j mode dest source) (assignByShape w j' mode dest source) := by
  have same : Upholds K (do
      let inf ← inference
      if dest.same inf source then pure true else mismatch w source dest) (do
      let inf ← inference
      if dest.same inf source then pure true else mismatch w source dest) := by
    refine Coincides.inference.bind fun inf _ => ?_
    split
    · exact Upholds.same true
    · exact Upholds.mismatch _ _ _
  unfold assignByShape
  cases dest with
  | cls c => exact upholds_assignToClass hw hj plain hd hs
  | function f => exact upholds_assignToCallable hj.types mode hw hd hs
  | overloaded fs => exact upholds_assignToCallable hj.types mode hw hd hs
  | noneObject => exact same
  | module name table => exact same
  | _ => exact Upholds.mismatch _ _ _

omit plain in
private theorem upholds_assignProper {dest source : Ty} (hd : K.Has dest) (hs : K.Has source) :
    Upholds K (assignProper w j mode dest source) (assignProper w j' mode dest source) := by
  unfold assignProper
  split
  · exact upholds_assignInvariant hj.types mode hd hs
  · rename_i plain
    split
    · nomatch hs.plain
    · refine Upholds.orNo (Upholds.allOf fun t ht => ?_) (.mismatch _ _ _)
      exact (hj.types.some mode hd (hs.alternatives t ht)).child
    · refine Upholds.orNo (Lockstep.silently (Upholds.anyOf fun t ht => ?_)) (.mismatch _ _ _)
      exact Upholds.attempt (hj.types.some mode (hd.alternatives t ht) hs)
    · exact upholds_assignByShape hw hj (Bool.eq_false_iff.2 plain) hd hs

omit plain in
private theorem upholds_assignTy {dest source : Ty} (hd : K.Has dest) (hs : K.Has source) :
    Upholds K (assignTy w j mode dest source) (assignTy w j' mode dest source) := by
  have unsolved : ∀ σ, reverseVar? mode σ source = none := by
    intro σ
    cases hs.plain <;> rfl
  refine Lockstep.bind Lockstep.solution fun σ σ' _ => ?_
  rw [unsolved σ, unsolved σ']
  dsimp only
  split
  · nomatch hd.plain
  · split
    · exact Upholds.same true
    · exact upholds_assignProper hw hj hd hs

omit plain in
private theorem upholds_assignStep {dest source : Option Ty} (hd : K.HasOption dest)
    (hs : K.HasOption source) :
    Upholds K (assignStep w j mode dest source) (assignStep w j' mode dest source) := by
  unfold assignStep
  split
  · split
    · exact Upholds.same true
    · exact upholds_assignTy hw hj (hd _ rfl) (hs _ rfl)
  · exact Upholds.same true

end

/-! ## Levels -/

section

variable (hw : K.Covers w)

private theorem always_accepting_conforms (mode : Mode) (asObject : Bool)
    (protocol candidate : ClassTy) :
    Always true ((accepting w).conforms mode asObject protocol candidate) :=
  (Always.trace w _).bind .cutOff

private theorem always_accepting_moduleConforms (mode : Mode) (protocol : ClassTy) (name : String)
    (table : TableId) : Always true ((accepting w).moduleConforms mode protocol name table) :=
  (Always.trace w _).bind .cutOff

private theorem upholdsJudge_accepting (answers : UpholdsJudge K j j') :
    UpholdsJudge K j (accepting w) where
  types mode dest source hd hs := Upholds.of_yes (answers.types mode dest source hd hs) .cutOff
  conforms h := Upholds.of_yes (answers.conforms h) (always_accepting_conforms _ _ _ _)
  modules mode protocol name _ ht :=
    Upholds.of_yes (answers.modules mode protocol name ht) (always_accepting_moduleConforms _ _ _ _)

/-- The judge accepts the comparisons that may be in progress in the first run alone. -/
def Setting.Grants (K : Setting) (w : World) (choice : StackChoice) (j : Judge) : Prop :=
  ∀ mode asObject protocol candidate, K.Compares mode asObject protocol candidate →
    K.spare choice ⟨candidate.toClassObject, protocol.toClassObject⟩ →
      Affirmed K (matchClass w j choice mode asObject protocol candidate)

include hw

private theorem upholdsJudge_step (hj : UpholdsJudge K j j') (granted : K.Grants w .own j')
    (k l : Nat) :
    UpholdsJudge K (judgeStep w k j) (judgeStep w l j') where
  types _ _ _ hd hs := upholds_assignStep hw hj hd hs
  conforms h :=
    Lockstep.bind (.of_always (.trace w _) (.trace w _) trivial) fun _ _ (_ : True) =>
      upholds_matchClass hw hj.types .own _ _ _ h.candidate (granted _ _ _ _ h)
  modules mode protocol _ _ ht :=
    Lockstep.bind (.of_always (.trace w _) (.trace w _) trivial) fun _ _ (_ : True) =>
      upholds_matchModule hw hj.types mode protocol ht

omit hw in
theorem levelsAt_anti {depth depth' : Int} (h : depth ≤ depth') :
    levelsAt depth' ≤ levelsAt depth := by
  unfold levelsAt
  omega

/-- The judge of fewer levels upholds that of more. -/
theorem upholdsJudge_judge {n : Nat} (granted : ∀ l < n, K.Grants w .own (judge w l)) {k l : Nat}
    (h : l ≤ k) (hk : k ≤ n) : UpholdsJudge K (judge w k) (judge w l) := by
  induction k generalizing l with
  | zero =>
    cases Nat.le_zero.1 h
    exact ⟨fun _ _ _ _ _ => .of_always .cutOff .cutOff (Bool.le_refl _),
      fun _ => .of_always (always_accepting_conforms _ _ _ _)
        (always_accepting_conforms _ _ _ _) (Bool.le_refl _),
      fun _ _ _ _ _ => .of_always (always_accepting_moduleConforms _ _ _ _)
        (always_accepting_moduleConforms _ _ _ _) (Bool.le_refl _)⟩
  | succ k ih =>
    cases l with
    | zero =>
      have step := upholdsJudge_step hw (ih (Nat.le_refl k) (Nat.le_of_lt hk)) (granted k hk)
        (k + 1) 0
      exact upholdsJudge_accepting step
    | succ l =>
      have below : l ≤ k := Nat.le_of_succ_le_succ h
      exact upholdsJudge_step hw (ih below (Nat.le_of_lt hk))
        (granted l (Nat.lt_of_le_of_lt below hk)) (k + 1) (l + 1)

section

variable {depth depth' : Int} (deeper : depth ≤ depth')
  (granted : ∀ choice, ∀ l < levelsAt depth, K.Grants w choice (judge w l))
include deeper granted

private theorem upholds_assignFrom (mode : Mode) {dest source : Option Ty} (hd : K.HasOption dest)
    (hs : K.HasOption source) :
    Upholds K ((judgeAt w depth).assign mode dest source)
      ((judgeAt w depth').assign mode dest source) :=
  (upholdsJudge_judge hw (granted .own) (levelsAt_anti deeper) (Nat.le_refl _)).types mode _ _ hd hs

private theorem upholds_conformsFrom (choice : StackChoice) {mode : Mode} {asObject : Bool}
    {protocol candidate : ClassTy} (h : K.Compares mode asObject protocol candidate) :
    Upholds K (conformsFrom w choice depth mode asObject protocol candidate)
      (conformsFrom w choice depth' mode asObject protocol candidate) := by
  have fewer : levelsAt depth' ≤ levelsAt depth := levelsAt_anti deeper
  unfold conformsFrom
  generalize levelsAt depth = k at fewer granted
  generalize levelsAt depth' = l at fewer
  have upheld {i l : Nat} (less : l ≤ i) (top : i < k) :=
    upholds_matchClass hw (upholdsJudge_judge hw (granted .own) less (Nat.le_of_lt top)).types
      choice mode asObject protocol h.candidate
      (granted choice l (Nat.lt_of_le_of_lt less top) _ _ _ _ h)
  cases k with
  | zero =>
    cases Nat.le_zero.1 fewer
    exact .of_always .cutOff .cutOff (Bool.le_refl _)
  | succ k =>
    cases l with
    | zero => exact Upholds.of_yes (upheld (Nat.le_refl k) (Nat.lt_succ_self k)) .cutOff
    | succ l => exact upheld (Nat.le_of_succ_le_succ fewer) (Nat.lt_succ_self k)

private theorem upholds_moduleConformsAt (mode : Mode) (protocol : ClassTy) {table : TableId}
    (ht : K.tables table) :
    Upholds K (moduleConformsAt w depth mode protocol table)
      (moduleConformsAt w depth' mode protocol table) := by
  have fewer : levelsAt depth' ≤ levelsAt depth := levelsAt_anti deeper
  unfold moduleConformsAt
  generalize levelsAt depth = k at fewer granted
  generalize levelsAt depth' = l at fewer
  have upheld {i l : Nat} (less : l ≤ i) (top : i < k) :=
    upholds_matchModule hw (upholdsJudge_judge hw (granted .own) less (Nat.le_of_lt top)).types mode
      protocol ht
  cases k with
  | zero =>
    cases Nat.le_zero.1 fewer
    exact .of_always .cutOff .cutOff (Bool.le_refl _)
  | succ k =>
    cases l with
    | zero => exact Upholds.of_yes (upheld (Nat.le_refl k) (Nat.lt_succ_self k)) .cutOff
    | succ l => exact upheld (Nat.le_of_succ_le_succ fewer) (Nat.lt_succ_self k)

end

end

/-! ## All types -/

namespace Setting

/-- All plain types take part, and nothing is in progress in the first run alone. -/
def wide (inf : Inference) (tables : TableId → Prop) : Setting :=
  ⟨inf, tables, True, fun _ _ => False⟩

variable {inf : Inference} {tables : TableId → Prop}

private theorem has_wide {t : Ty} (h : t.Plain tables) : (wide inf tables).Has t :=
  ⟨h, fun narrow => absurd trivial narrow⟩

private theorem covers_wide (h : w.Plain inf tables) : (wide inf tables).Covers w :=
  ⟨h, fun narrow => absurd trivial narrow⟩

private theorem grants_wide (choice : StackChoice) (j : Judge) :
    (wide inf tables).Grants w choice j :=
  fun _ _ _ _ _ spare => spare.elim

end Setting

/-- Both operations answer, each from its own state, and the second says yes if the first does. -/
def Operation.UpheldFrom (w : World) (t t' : CheckState) (op op' : Operation Bool) : Prop :=
  ∃ yes yes' : Bool, (exec (op.check w) t).1 = .ok yes ∧ (exec (op'.check w) t').1 = .ok yes' ∧
    (yes = true → yes' = true)

private theorem Operation.upheldFrom_of_upholds {w : World} {t t' : CheckState}
    {op op' : Operation Bool}
    (h : Upholds K (op.check w) (op'.check w)) (below : t.Below K t') :
    Operation.UpheldFrom w t t' op op' := by
  obtain ⟨b, b', u, u', hu, hu', hb, -⟩ := h t t' below
  exact ⟨b, b', congrArg Prod.fst hu, congrArg Prod.fst hu', hb⟩

/-- In a plain session, a comparison that accepts also accepts at any greater depth with more
comparisons in progress, whatever is being solved or explained. So neither the last level nor a
comparison in progress leads to a rejection that the comparison would not come to without them. -/
theorem cutting_errs_towards_acceptance {s : Session} {tables : TableId → Prop}
    (hs : s.Plain tables) {depth depth' : Int} (deeper : depth ≤ depth') {t t' : CheckState}
    (ht : t.inference = s.inference) (ht' : t'.inference = s.inference)
    (pending : t.pending ⊆ t'.pending) (lent : t.lent ⊆ t'.lent) :
    (∀ mode dest source, (∀ u, dest = some u → u.Plain tables) →
      (∀ u, source = some u → u.Plain tables) →
        Operation.UpheldFrom s.world t t' (.assign depth mode dest source)
          (.assign depth' mode dest source)) ∧
    (∀ choice mode asObject protocol candidate, (Ty.cls candidate).Plain tables →
      Operation.UpheldFrom s.world t t' (.conforms choice depth mode asObject protocol candidate)
        (.conforms choice depth' mode asObject protocol candidate)) ∧
    ∀ mode protocol table, tables table →
      Operation.UpheldFrom s.world t t' (.moduleConforms depth mode protocol table)
        (.moduleConforms depth' mode protocol table) := by
  let K : Setting := .wide s.inference tables
  have hw : K.Covers s.world := Setting.covers_wide hs
  have granted : ∀ choice, ∀ l < levelsAt depth, K.Grants s.world choice (judge s.world l) :=
    fun choice _ _ => Setting.grants_wide choice _
  have below : t.Below K t' := by
    refine ⟨ht, ht', fun choice entry h => ?_⟩
    obtain ⟨e, he, same⟩ := List.any_eq_true.1 h
    refine .inl (List.any_eq_true.2 ⟨e, ?_, same⟩)
    cases choice
    · exact pending he
    · exact lent he
  refine ⟨fun mode dest source hd hsource => ?_,
    fun choice mode asObject protocol candidate hc => ?_,
    fun mode protocol table allowed => ?_⟩
  · refine Operation.upheldFrom_of_upholds ?_ below
    exact upholds_assignFrom hw deeper granted mode (fun u hu => Setting.has_wide (hd u hu))
      fun u hu => Setting.has_wide (hsource u hu)
  · refine Operation.upheldFrom_of_upholds ?_ below
    exact upholds_conformsFrom hw deeper granted choice
      ⟨Setting.has_wide hc.toInstance, .inl trivial⟩
  · refine Operation.upheldFrom_of_upholds ?_ below
    exact upholds_moduleConformsAt hw deeper granted mode protocol allowed

/-- The method of a protocol returns an instance of the protocol. A class whose method returns its
own instance is accepted at the outermost level, and so it is further down while another comparison
is in progress. A class without the method is refused there, but accepted below the last level or
where its own comparison is in progress. -/
theorem cutting_of_returned_protocol :
    let s := Session.ofDecls #[Sample.object,
      Sample.protocolOf "P" [Sample.method "f" none [] (Sample.instanceOf 1)],
      Sample.classOf "C" [Sample.method "f" none [] (Sample.instanceOf 2)],
      Sample.classOf "D" []]
    let other : Pending := ⟨.ofId 3, .ofId 1⟩
    let start (pending : List Pending) : CheckState := ⟨s.inference, #[], pending, [], none, none, []⟩
    let fits (depth : Int) (pending : List Pending) (source : ClassId) :=
      (exec ((judgeAt s.world depth).assign .default (some (Sample.instanceOf 1))
        (some (Sample.instanceOf source))) (start pending)).1.toOption
    s.Plain (fun _ => True) ∧ fits 0 [] 2 = some true ∧ fits 9 [other] 2 = some true ∧
      fits 0 [] 3 = some false ∧ fits 15 [] 3 = some true ∧ fits 0 [other] 3 = some true := by
  intro s other start fits
  have plain : s.Plain fun _ => True := World.plain_of_isPlain (by decide +kernel)
  have instances : ∀ id u, some (Sample.instanceOf id) = some u → u.Plain fun _ => True := by
    rintro id _ ⟨⟩
    exact .cls fun _ h => nomatch h
  have outermost : fits 0 [] 2 = some true := by decide +kernel
  obtain ⟨yes, yes', first, second, upheld⟩ :=
    (cutting_errs_towards_acceptance plain (by decide : (0 : Int) ≤ 9)
      (rfl : (start []).inference = s.inference) (rfl : (start [other]).inference = s.inference)
      (List.nil_subset _) (List.Subset.refl _)).1 .default _ _ (instances 1) (instances 2)
  have accepted : some yes = some true := (congrArg Except.toOption first).symm.trans outermost
  have further : fits 9 [other] 2 = some yes' := congrArg Except.toOption second
  rw [upheld (Option.some.inj accepted)] at further
  exact ⟨plain, outermost, further, by decide +kernel, by decide +kernel, by decide +kernel⟩

end Conformance
