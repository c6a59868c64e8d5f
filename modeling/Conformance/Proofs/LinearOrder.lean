import Conformance.Proofs.Exactness

/-!
# The order of the members of a linear protocol

Each type parameter of a linear protocol is solved for at one position, so what is found for one member
has no say in another one. In whichever order the protocol declares its members, it is satisfied by the
classes of which each method meets the one that is asked for, and of which all that is found fits the
type arguments.
-/

namespace Conformance

open Check

/-! ## What is asked for -/

private theorem Requirement.nodup_nearest (rs : List Requirement) :
    ((nearest rs).map (·.name)).Nodup := by
  have folded (found : List Requirement) (distinct : (found.map (·.name)).Nodup) :
      ((rs.foldl (fun found r => if found.any (·.name == r.name) then found else found ++ [r])
        found).map (·.name)).Nodup := by
    induction rs generalizing found with
    | nil => exact distinct
    | cons r rs ih =>
      refine ih _ ?_
      dsimp only
      split
      · exact distinct
      · rename_i new
        rw [List.map_append, List.nodup_append]
        refine ⟨distinct, List.nodup_singleton _, fun a ha b hb same => new ?_⟩
        obtain ⟨q, hq, rfl⟩ := List.mem_map.1 ha
        rw [List.mem_singleton.1 hb] at same
        exact List.any_eq_true.2 ⟨q, hq, beq_iff_eq.2 same⟩
  exact folded [] List.nodup_nil

/-! ## Another order -/

theorem Ty.Closed.of_alike {names : String → Prop} {classes other : ClassTable}
    (alike : classes.AlikeOn names other) {t : Ty} (h : t.Closed classes) : t.Closed other := by
  induction h with
  | unknown => exact .unknown
  | any => exact .any
  | noneObject => exact .noneObject
  | module name table => exact .module name table
  | bare bare nongeneric plain => exact .bare bare (alike.params _ ▸ nongeneric) plain
  | special given _ plain ih => exact .special given ih plain
  | function _ _ params ret => exact .function params ret
  | overloaded _ _ params ret => exact .overloaded params ret
  | union _ each => exact .union each

namespace Fragment

variable {F : Fragment} {w u : World} {p c : ClassId} {A : List Ty} {params : List TypeVar}
  {f g : FunctionTy} {t : Ty} {r : Requirement} {n : Nat}

section

variable (alike : w.Alike u)
include alike

theorem Place.of_alike {v : Variance} (h : F.Place w params v t) : F.Place u params v t := by
  cases h with
  | closed has closed => exact .closed has (closed.of_alike alike.classes)
  | var param variance => exact .var param variance

theorem Linear.of_alike (h : F.Linear w params f) : F.Linear u params f := by
  obtain ⟨t, ht, place⟩ := h.yields
  exact ⟨fun p hp => (h.takes p hp).of_alike alike, h.plain, t, ht, place.of_alike alike⟩

theorem ClosedMethod.of_alike (h : F.ClosedMethod w g) : F.ClosedMethod u g :=
  ⟨h.has, h.closed.of_alike alike.classes, h.unannotated⟩

theorem Apart.of_alike {σ : Solution} (h : F.Apart w σ) : F.Apart u σ := by
  refine ⟨h.idle, h.keys, fun {id} hid => ?_⟩
  rw [alike.classes.params, alike.classes.scope]
  exact h.classes hid

theorem Arguments.of_alike (h : F.Arguments w p A) : F.Arguments u p A := by
  refine ⟨?_, h.has, fun t ht => (h.closed t ht).of_alike alike.classes⟩
  rw [alike.classes.params]
  exact h.full

private theorem memberOf_alike (name : String) :
    u.classes.memberOf c name = w.classes.memberOf c name := by
  rw [ClassTable.memberOf, ClassTable.memberOf, alike.classes.findIn trivial, alike.classes.mro]

private theorem methods_alike (r : Requirement) : u.methods c r = w.methods c r := by
  rw [World.methods, World.methods, memberOf_alike alike]

private theorem foundFor_alike (r : Requirement) : F.foundFor u c r = F.foundFor w c r := by
  rw [foundFor, foundFor, methods_alike alike]

/-- A world is covered too if the classes of the fragment are declared in the same way. -/
theorem Covers.of_alike (hw : F.Covers w)
    (same : ∀ {id}, F.ids id → u.classes.decl id = w.classes.decl id) : F.Covers u where
  params hid := by
    rw [same hid]
    exact hw.params hid
  apart := by
    refine hw.apart.imp id fun apart {id} hid => ?_
    rw [same hid]
    exact apart hid
  object := hw.object
  typedDict := by
    rw [alike.typedDict]
    exact hw.typedDict
  mro hid := by
    rw [same hid]
    exact hw.mro hid
  metaclass hid := by
    rw [alike.classes.metaclass?]
    exact hw.metaclass hid
  accessors hid := by
    rw [same hid]
    exact hw.accessors hid
  members hid e he := by
    rw [same hid] at he ⊢
    refine (hw.members hid e he).imp id fun ⟨other, named, receives⟩ => ⟨other, named, receives.settled, ?_⟩
    rw [alike.classes.specialize]
    exact receives.becomes
  modules table := by
    rw [World.moduleMembers, alike.modules]
    exact hw.modules table

end

section

variable {members : MemberTable} (distinct : (w.classes.decl p).members.names.Nodup)
  (perm : members.entries.Perm (w.classes.decl p).members.entries)
include distinct perm

private theorem perm_all_withMembers (asObject : Bool) (protocol : ClassTy) :
    (Requirement.all (w.withMembers p members).classes asObject protocol).Perm
      (Requirement.all w.classes asObject protocol) :=
  (List.perm_ext_iff_of_nodup (.of_map _ (Requirement.nodup_nearest _))
    (.of_map _ (Requirement.nodup_nearest _))).2 (mem_all_withMembers distinct perm asObject protocol)

theorem LinearProtocol.withMembers (hP : F.LinearProtocol w p) :
    F.LinearProtocol (w.withMembers p members) p := by
  have alike := alike_withMembers distinct perm
  have asked := perm_all_withMembers distinct perm false (.ofId p)
  have declared := alike.classes.params p
  have scope (id : ClassId) := alike.classes.scope id
  refine ⟨hP.outside, ?_, ?_, fun id => ?_, ?_, ?_, ?_, fun r hr => ?_, ?_⟩
  · rw [scope]
    exact hP.apart.of_alike alike
  · rw [scope]
    exact hP.scope
  · rw [scope, scope]
    exact hP.own id
  · rw [declared]
    exact hP.generic
  · rw [declared, scope, alike.classes.selfVar]
    exact hP.params
  · rw [declared]
    exact hP.distinct
  · rw [declared]
    obtain ⟨f, method, unannotated, linear⟩ := hP.methods r (asked.mem_iff.1 hr)
    exact ⟨f, method, unannotated, linear.of_alike alike⟩
  · exact (asked.flatMap_right _).pairwise_iff (fun h => h.symm) |>.2 hP.once

theorem Supplies.withMembers (hC : F.Supplies w p c) : F.Supplies (w.withMembers p members) p c := by
  have alike := alike_withMembers distinct perm
  refine ⟨?_, fun r hr found present => ?_⟩
  · rw [alike.classes.isTypedDict]
    exact hC.ordinary
  · rw [memberOf_alike alike] at present
    have here := (mem_all_withMembers distinct perm false (.ofId p) r).1 hr
    obtain ⟨owner, g, declared, other, method, closed⟩ := hC.methods r here found present
    exact ⟨owner, g, declared, other, method, closed.of_alike alike⟩

end

/-! ## The same answers -/

theorem Accepts.of_agrees {l : List Pending} {act act' : Check Bool} (accepts : F.Accepts l act)
    (h : F.beside.Agrees .same act act') (h' : F.beside.Agrees .same act' act) :
    F.Accepts l act' := by
  intro s hs
  obtain ⟨b, t, t', he, he'⟩ := answers_alike h h' hs.start
  obtain ⟨u, accepted, -⟩ := accepts s hs
  cases he.symm.trans accepted
  obtain ⟨b, u', ran, -, kept⟩ := h.right s hs.start
  cases he'.symm.trans ran
  exact ⟨t', he', hs.of_kept kept⟩

section

variable (hw : F.Covers w) (rearranged : F.Rearranged w u)
include hw rearranged

private theorem holds_iff_of_rearranged {d s : Ty} (hd : F.Has d) (hs : F.Has s) :
    F.Holds u n d s ↔ F.Holds w n d s := by
  have agrees {x y : World} (hx : F.Rearranged w x) (hy : F.Rearranged w y) :
      F.beside.Agrees .same ((judge x n).assign .default (some d) (some s))
        ((judge y n).assign .default (some d) (some s)) :=
    (follows_rearranged hw hx hy n).assign (Regime.modes_refl .same .default) (hasOption_some hd)
      (hasOption_some hs)
  have same := Rearranged.refl F w
  exact ⟨fun holds => holds.of_agrees (agrees rearranged same) (agrees same rearranged),
    fun holds => holds.of_agrees (agrees same rearranged) (agrees rearranged same)⟩

private theorem fits_iff_of_rearranged {v : Variance} {d s : Ty} (hd : F.Has d) (hs : F.Has s) :
    F.Fits u n v d s ↔ F.Fits w n v d s := by
  unfold Fits
  split
  · exact holds_iff_of_rearranged hw rearranged hs hd
  · exact holds_iff_of_rearranged hw rearranged hd hs

theorem Place.fitsApart_iff {v : Variance} {s : Ty} (h : F.Place w params v t) (hs : F.Has s) :
    F.FitsApart u n v t s ↔ F.FitsApart w n v t s := by
  cases h with
  | closed has closed => exact imp_congr_right fun _ => fits_iff_of_rearranged hw rearranged has hs
  | var param variance => exact iff_of_true (fitsApart_var _ _ _) (fitsApart_var _ _ _)

private theorem Linear.meets_iff (linear : F.Linear w params f) (closed : F.HasFunction g) :
    f.Meets F.inf (F.FitsApart u n) g ↔ f.Meets F.inf (F.FitsApart w n) g := by
  have steps := ParamStep.mentions_plan (ParamGroups.all_ofList linear.takes)
    (ParamGroups.all_ofList fun (p : Param) (hp : p ∈ g.params) =>
      Has.typeOrUnknown (closed.params p hp))
  have step (step : ParamStep) (hs : step ∈ f.steps g) :
      step.Meets (F.FitsApart u n .contravariant) ↔ step.Meets (F.FitsApart w n .contravariant) := by
    have place := steps step hs
    cases step with
    | fault => exact iff_of_false id id
    | compare => exact place.1.fitsApart_iff hw rearranged place.2
  have returned := linear.returnType.fitsApart_iff (n := n) hw rearranged (closed.returnType F.inf)
  rw [FunctionTy.Meets, FunctionTy.Meets, forall₂_congr step, returned]

end

section

variable {members : MemberTable} (distinct : (w.classes.decl p).members.names.Nodup)
  (perm : members.entries.Perm (w.classes.decl p).members.entries) (hw : F.Covers w)
  (hP : F.LinearProtocol w p) (hC : F.Supplies w p c)
include distinct perm hw hP

private theorem LinearProtocol.rearranged : F.Rearranged w (w.withMembers p members) := by
  refine rearranged_withMembers distinct perm fun protocol hp ⟨owner, here, id⟩ => ?_
  obtain ⟨a, ha, same⟩ := List.mem_filterMap.1 (List.mem_filter.1 here).1
  cases a with
  | unresolved => cases same
  | resolved d =>
    cases same
    refine absurd (id ▸ ?_) hP.outside
    rcases List.mem_cons.1 ha with own | ha
    · rw [Ancestor.resolved.inj own]
      exact hp.ids
    · exact (hw.mro hp.ids _ ha).ids

include hC

private theorem met_withMembers (hr : r ∈ Requirement.all w.classes false (.ofId p)) :
    F.Met (w.withMembers p members) (F.FitsApart (w.withMembers p members) n) c r ↔
      F.Met w (F.FitsApart w n) c r := by
  have rearranged := hP.rearranged distinct perm hw
  unfold Met
  rw [methods_alike rearranged.alike]
  rcases methods_cases hP hC hr with ⟨-, unmatched⟩ | ⟨found, owner, f, g, h, matched⟩
  · simp [unmatched]
  · have meets := h.linear.withoutReceiver.meets_iff (n := n) hw rearranged
      h.closed.has.withoutReceiver
    simp [matched, Joined, World.shares, rearranged.alike.identity, meets]

private theorem suited_withMembers (hA : F.Arguments w p A) :
    F.Suited (w.withMembers p members) n p A (F.allFound (w.withMembers p members) p c) ↔
      F.Suited w n p A (F.allFound w p c) := by
  have rearranged := hP.rearranged distinct perm hw
  have given : (w.withMembers p members).given p A = w.given p A := by
    rw [World.given, World.given, rearranged.alike.classes.ofClass]
  have found : (F.allFound (w.withMembers p members) p c).Perm (F.allFound w p c) := by
    unfold allFound
    rw [funext (foundFor_alike rearranged.alike)]
    exact (perm_all_withMembers distinct perm false (.ofId p)).flatMap_right _
  unfold Suited
  rw [given]
  refine (forall_congr' fun x => imp_congr_left found.mem_iff).trans (forall₂_congr fun x hx => ?_)
  obtain ⟨param, -, has, -⟩ := of_allFound hP hC x hx
  exact fits_iff_of_rearranged hw rearranged (closed_argument hP.toGeneric hA param).1 has

end

end Fragment

private theorem linear_protocol_in_any_order {F : Fragment} {w : World} {p c : ClassId}
    {A : List Ty}
    {members : MemberTable} (hw : F.Covers w) (hf : F.wide) (hP : F.LinearProtocol w p)
    (hC : F.Supplies w p c) (hA : F.Arguments w p A)
    (distinct : (w.classes.decl p).members.names.Nodup)
    (perm : members.entries.Perm (w.classes.decl p).members.entries) (choice : StackChoice)
    {s : CheckState} (hs : F.Rests [] s) (lent : s.lent = []) :
    ∃ b b' t t',
      exec (conformsFrom w choice 0 .default false ((ClassTy.ofId p).given A) (.ofId c)) s =
        (.ok b, t) ∧
      exec (conformsFrom (w.withMembers p members) choice 0 .default false
        ((ClassTy.ofId p).given A) (.ofId c)) s = (.ok b', t') ∧
      ∀ new new', t.history = s.history ++ new → t'.history = s.history ++ new' →
        Event.allUncut new = true → Event.allUncut new' = true → b' = b := by
  have rearranged := hP.rearranged distinct perm hw
  have hw' : F.Covers (w.withMembers p members) :=
    hw.of_alike rearranged.alike fun hid =>
      decl_withMembers w members fun same => hP.outside (same ▸ hid)
  obtain ⟨b, t, ran, satisfied⟩ := Fragment.exec_conformsFrom_linear hw hf hP hC hA choice hs lent
  obtain ⟨b', t', ran', satisfied'⟩ := Fragment.exec_conformsFrom_linear hw' hf
    (hP.withMembers distinct perm) (hC.withMembers distinct perm) (hA.of_alike rearranged.alike)
    choice hs lent
  refine ⟨b, b', t, t', ran, ran', fun new new' history history' uncut uncut' => ?_⟩
  rw [Bool.eq_iff_iff, satisfied new history uncut, satisfied' new' history' uncut',
    Fragment.suited_withMembers distinct perm hw hP hC hA]
  refine and_congr_left fun _ => ?_
  refine (forall_congr' fun r => imp_congr_left (mem_all_withMembers distinct perm false _ r)).trans ?_
  exact forall₂_congr fun r hr => Fragment.met_withMembers distinct perm hw hP hC hr

/-- The order in which a class declares its members makes no difference to the comparison of any class
with any protocol, from any state and at any depth, if no protocol that the class is or that extends it
has type parameters, or variables of its scope, to be solved for. It makes none either where type
parameters are solved for at one position each, unless the comparison passes the last level. -/
theorem verdict_in_any_order {F : Fragment} {w : World} {id : ClassId} {members : MemberTable}
    (hw : F.Covers w) (distinct : (w.classes.decl id).members.names.Nodup)
    (perm : members.entries.Perm (w.classes.decl id).members.entries) :
    ((∀ protocol, F.HasClass protocol →
        (∃ owner ∈ Requirement.protocols w.classes protocol, owner.id = id) →
          F.Unsolved w protocol.id) →
      ∀ (choice : StackChoice) (depth : Int) (mode : Mode) (asObject : Bool)
        {protocol candidate : ClassTy}, F.HasClass protocol → F.HasClass candidate →
        ∀ {s : CheckState}, F.Start s → ∃ b t t',
          exec (conformsFrom w choice depth mode asObject protocol candidate) s = (.ok b, t) ∧
          exec (conformsFrom (w.withMembers id members) choice depth mode asObject protocol
            candidate) s = (.ok b, t')) ∧
    (F.wide → F.LinearProtocol w id → ∀ {c : ClassId} {A : List Ty}, F.Supplies w id c →
      F.Arguments w id A → ∀ (choice : StackChoice) {s : CheckState}, F.Rests [] s → s.lent = [] →
        ∃ b b' t t',
          exec (conformsFrom w choice 0 .default false ((ClassTy.ofId id).given A) (.ofId c)) s =
            (.ok b, t) ∧
          exec (conformsFrom (w.withMembers id members) choice 0 .default false
            ((ClassTy.ofId id).given A) (.ofId c)) s = (.ok b', t') ∧
          ∀ new new', t.history = s.history ++ new → t'.history = s.history ++ new' →
            Event.allUncut new = true → Event.allUncut new' = true → b' = b) := by
  refine ⟨fun unsolved choice depth mode asObject protocol candidate hp hc s hs => ?_,
    fun hf hP c A hC hA choice s hs lent => ?_⟩
  · exact members_asked_for_in_any_order hw distinct perm unsolved choice depth mode asObject hp hc hs
  · exact linear_protocol_in_any_order hw hf hP hC hA distinct perm choice hs lent

namespace Sample

/-- A protocol and a class, each with two methods that yield further values of it. -/
def walkerDecls : List ClassDecl :=
  [object,
    protocolOf "P" [method "next" none [] (instanceOf 1), method "back" none [] (instanceOf 1)],
    classOf "C" [method "next" none [] (instanceOf 2), method "back" none [] (instanceOf 2)]]

def walkers : World := ofDecls walkerDecls

private theorem simple_walkers : ∀ d ∈ walkerDecls, Simple d := by
  simp only [walkerDecls, List.forall_mem_cons]
  exact ⟨simple_object, simple_protocolOf _ _, simple_classOf _ _, fun _ h => nomatch h⟩

private theorem covers_walkers : plainTypes.Covers walkers := by
  refine covers_ofDecls simple_walkers fun id d hd e he => .inl ?_
  match id with
  | 0 =>
    cases hd
    cases he
  | 1 | 2 =>
    cases hd
    rcases List.mem_cons.1 he with rfl | he
    · exact hasMember_method _ _
    · rw [List.mem_singleton.1 he]
      exact hasMember_method _ _
  | n + 3 => cases hd

/-- The methods of the protocol in the other order. -/
def turned : MemberTable :=
  ⟨[method "back" none [] (instanceOf 1), method "next" none [] (instanceOf 1)]⟩

/-- The methods of the generic protocol in the other order. -/
def takenFirst : MemberTable :=
  ⟨[method "take" none [some (.var taken), some (instanceOf 1)] .noneObject,
    method "make" none [] (.var made)]⟩

end Sample

/-- A class has the two methods of a protocol in whichever order they are asked for, and so has it those of
a generic one. -/
theorem verdict_in_any_order_of_samples :
    (∃ t t', (Sample.compare 1 2).alone Sample.walkers .start = (.ok true, t) ∧
      (Sample.compare 1 2).alone (Sample.walkers.withMembers 1 Sample.turned) .start =
        (.ok true, t')) ∧
    (exec (conformsFrom (Sample.makers.withMembers 2 Sample.takenFirst) .own 0 .default false
      Sample.maker (.ofId 3)) (Sample.idle .start)).1.toOption = some true := by
  constructor
  · have accepted : ((Sample.compare 1 2).alone Sample.walkers .start).1.toOption = some true := by
      decide +kernel
    have distinct : (Sample.walkers.classes.decl 1).members.names.Nodup := by decide +kernel
    have perm : Sample.turned.entries.Perm (Sample.walkers.classes.decl 1).members.entries :=
      .swap _ _ []
    have start : Sample.plainTypes.Start ⟨.start, #[], [], [], none, none, []⟩ :=
      ⟨rfl, Fragment.solving_none⟩
    have unsolved : ∀ protocol : ClassTy, Sample.plainTypes.Unsolved Sample.walkers protocol.id :=
      fun protocol => ⟨(Sample.simple_decl Sample.simple_walkers protocol.id).params,
        fun _ none_here => none_here.elim⟩
    obtain ⟨b, t, t', h, h'⟩ := (verdict_in_any_order Sample.covers_walkers distinct perm).1
      (fun protocol _ _ => unsolved protocol) .own 0 .default false (Sample.hasClass_ofId 1)
      (Sample.hasClass_ofId 2) start
    have same : (Sample.compare 1 2).alone Sample.walkers .start = (.ok b, t) := h
    rw [same] at accepted
    cases accepted
    exact ⟨t, t', same, h'⟩
  · have distinct : (Sample.makers.classes.decl 2).members.names.Nodup := by decide +kernel
    have perm : Sample.takenFirst.entries.Perm (Sample.makers.classes.decl 2).members.entries :=
      .swap _ _ []
    obtain ⟨b, b', t, t', h, h', same⟩ := (verdict_in_any_order Sample.covers_makers distinct perm).2
      trivial Sample.linearProtocol_makers Sample.supplies_makers Sample.arguments_makers .own
      (s := Sample.idle .start) ⟨rfl, rfl, rfl⟩ rfl
    have facts : let run := exec (conformsFrom Sample.makers .own 0 .default false Sample.maker
          (.ofId 3)) (Sample.idle .start)
        run.1.toOption = some true ∧ Event.allUncut run.2.history = true := by
      decide +kernel
    have uncut' : Event.allUncut (exec (conformsFrom (Sample.makers.withMembers 2 Sample.takenFirst)
        .own 0 .default false Sample.maker (.ofId 3)) (Sample.idle .start)).2.history = true := by
      decide +kernel
    rw [show exec (conformsFrom Sample.makers .own 0 .default false Sample.maker (.ofId 3))
      (Sample.idle .start) = (.ok b, t) from h] at facts
    have ran' : exec (conformsFrom (Sample.makers.withMembers 2 Sample.takenFirst) .own 0 .default
      false Sample.maker (.ofId 3)) (Sample.idle .start) = (.ok b', t') := h'
    rw [ran'] at uncut' ⊢
    obtain ⟨answer, uncut⟩ := facts
    rw [same t.history t'.history (List.nil_append _).symm (List.nil_append _).symm uncut uncut']
    exact answer

end Conformance
