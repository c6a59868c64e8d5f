import Conformance.Proofs.Taken

/-!
# Members that are asked for

A comparison with a protocol succeeds if each member that the protocol asks for fits, one after
another and while the comparison itself is taken to hold. Where nothing is solved for, each of them
then fits alone: the member that is found may stand for the one that is asked for wherever the two
are compared.
-/

namespace Conformance

open Check

/-! ## Runs within runs -/

namespace Link

variable {F : Fragment} {L : Link F} {ρ : Regime} {α β : Type} {R : α → Prop} {Q : β → Prop}

def Yields (L : Link F) (act : Check α) (a : α) : Prop :=
  ∃ s t, F.Start s ∧ exec act s = (.ok a, t) ∧ L.CleanAfter s t

/-- A run of a sequence is a run of the first part and one of what goes on with its answer. -/
theorem Calm.yields {act : Check α} {k : α → Check β} (h : L.Calm R act)
    (hk : ∀ a, R a → L.Calm Q (k a)) {b : β} (hy : L.Yields (act >>= k) b) :
    ∃ a, R a ∧ L.Yields act a ∧ L.Yields (k a) b := by
  obtain ⟨s, t, hs, he, hc⟩ := hy
  obtain ⟨a, u, hu, ha, kept⟩ := h s hs
  rw [exec_bind_of_ok hu] at he
  have rest := ((hk a ha).elim kept.start he).2
  obtain ⟨before, after⟩ := hc.of_trans kept rest
  exact ⟨a, ha, ⟨s, u, hs, hu, before⟩, u, t, kept.start, he, after⟩

theorem Yields.pure {a b : α} (h : L.Yields (Pure.pure a) b) : b = a := by
  obtain ⟨s, t, -, he, -⟩ := h
  exact (Except.ok.inj (congrArg Prod.fst he)).symm

/-- Where two checks both have to answer yes, each of them does. -/
theorem Yields.both {first first' second second' : Check Bool} (h : L.Agrees ρ first first')
    (h' : L.Agrees ρ second second')
    (hy : L.Yields (do
      let a ← first
      let b ← second
      Pure.pure (a && b)) true) : L.Yields first true ∧ L.Yields second true := by
  have answer : ∀ b : Bool, L.Calm (fun _ => True) (Pure.pure b) := fun b => .pure trivial
  obtain ⟨a, -, hfirst, hy⟩ := h.left.yields (fun _ _ => h'.left.bind fun _ _ => answer _) hy
  obtain ⟨b, -, hsecond, hy⟩ := h'.left.yields (fun _ _ => answer _) hy
  have yes := hy.pure.symm
  rw [Bool.and_eq_true] at yes
  obtain ⟨rfl, rfl⟩ := yes
  exact ⟨hfirst, hsecond⟩

/-- Where all elements are answered yes, each of them is. -/
theorem Yields.of_mem {f g : α → Check Bool} {as : List α}
    (h : ∀ a ∈ as, L.Agrees ρ (f a) (g a)) (hy : L.Yields (Check.allOf f as) true) {a : α}
    (ha : a ∈ as) : L.Yields (f a) true := by
  induction as with
  | nil => cases ha
  | cons b bs ih =>
    have others := fun c hc => h c (List.mem_cons_of_mem b hc)
    obtain ⟨first, rest⟩ := Yields.both (h b List.mem_cons_self) (Agrees.allOf others) hy
    rcases List.mem_cons.1 ha with rfl | ha
    · exact first
    · exact ih others rest ha

private theorem Yields.of_explained {act : Check Bool} {messages : Check Unit}
    (hy : L.Yields (explained act messages) true) : L.Yields act true := by
  obtain ⟨s, t, hs, he, hc⟩ := hy
  unfold explained at he
  rcases h : exec act s with ⟨_ | b, u⟩
  · rw [exec_bind_of_error h] at he
    cases he
  · rw [exec_bind_of_ok h] at he
    cases b with
    | true =>
      cases he
      exact ⟨s, t, hs, h, hc⟩
    | false =>
      simp only [Bool.false_eq_true, if_false, exec_bind] at he
      split at he <;> cases he

private theorem Yields.of_child {act : Check α} {a : α} (hy : L.Yields (child act) a) :
    L.Yields act a := by
  obtain ⟨s, t, hs, he, hc⟩ := hy
  obtain ⟨v, hv, rfl⟩ := exec_within_notes he
  exact ⟨_, v, Start.notes hs _, hv, hc⟩

/-- Within a narrow fragment, what follows a run does so from every state. -/
theorem Sim.follows_yields {w : World} {X : Comparison → Prop} (hf : ¬ F.wide)
    {E : α → α → Prop} {act act' : Check α} (h : (F.within w X).Sim .idle R E act act') {a : α}
    (hy : (F.within w X).Yields act a) {s : CheckState} (hs : F.Start s) :
    ∃ a' t, exec act' s = (.ok a', t) ∧ F.Start t ∧ E a a' := by
  obtain ⟨s₀, t₀, hs₀, he, hc⟩ := hy
  obtain ⟨a', t, he', -, kept⟩ := h.right s hs
  have related : (F.within w X).Related .idle s₀ s :=
    ⟨hs₀, hs, trivial, Fragment.idle_of_start hf hs₀, Fragment.idle_of_start hf hs⟩
  exact ⟨a', t, he', kept.start, (h.link related he he' hc).1⟩

end Link

/-! ## The types that are compared -/

namespace Match

/-- The types that are compared for a requirement of a declared type and a member that was found. -/
def typesOf (w : World) (j : Judge) (m : Match) (r : Requirement) (t : Ty) (found : FoundMember)
    (fromMetaclass : Bool) : Check (Ty × Ty) := do
  let dest ← r.seenFrom w m.protocol t
  let source ← m.foundType w found
  m.comparedTypes w j found fromMetaclass dest source

/-- The types that are compared for a requirement of a declared type, if there is a member of its
name. -/
def typesFor (w : World) (j : Judge) (m : Match) (r : Requirement) (t : Ty) :
    Check (Option (Ty × Ty)) := do
  match ← m.find w r.name with
  | none => pure none
  | some (found, fromMetaclass) => some <$> m.typesOf w j r t found fromMetaclass

theorem exec_typesFor {w : World} {j : Judge} {m : Match} {r : Requirement} {t : Ty}
    {found : FoundMember × Bool} {types : Ty × Ty} {s u v : CheckState}
    (hf : exec (m.find w r.name) s = (.ok (some found), u))
    (ht : exec (m.typesOf w j r t found.1 found.2) u = (.ok types, v)) :
    exec (m.typesFor w j r t) s = (.ok (some types), v) := by
  unfold typesFor
  rw [exec_bind_of_ok hf]
  dsimp only
  rw [map_eq_pure_bind, exec_bind_of_ok ht]
  rfl

theorem matchType_eq (w : World) (j : Judge) (m : Match) {r : Requirement} {t : Ty}
    (ht : r.member.declaredType = some t) (found : FoundMember) (fromMetaclass : Bool) :
    m.matchType w j r found fromMetaclass = (do
      let types ← m.typesOf w j r t found fromMetaclass
      child do
        let fits ← m.assignMember w j r types.1 types.2
        let agree ← agreeOnFinal r found
        pure (fits && agree)) := by
  unfold matchType typesOf
  rw [ht]
  simp only [bind_assoc]

end Match

namespace Link

variable {F : Fragment} {L : Link F} {ρ : Regime} {w : World} (hw : F.Covers w) {j j' : Judge}
  (hj : L.Judges j j') {m : Match} (hm : HasMatch F m) {r : Requirement}
  (hr : HasRequirement F w r) {t : Ty} (ht : r.member.declaredType = some t)
include hw hj hm hr ht

private theorem sim_typesOf {found : FoundMember} (hf : F.FoundIn w r.name found)
    (fromMetaclass : Bool) :
    L.Sim ρ (fun types => F.Has types.1 ∧ F.Has types.2) (· = ·)
      (m.typesOf w j r t found fromMetaclass) (m.typesOf w j' r t found fromMetaclass) := by
  have member := hw.required hr.owner.ids hr.protocol hr.declared ht
  refine (sim_seenFrom hw hr m.protocol member).bind fun dest hd => ?_
  refine (sim_foundType hw hm hf).bind fun source hs => ?_
  exact sim_comparedTypes hw hj hm (fun c hc => (hf c hc).1) hd hs

omit hw hj hm hr ht in
private theorem Yields.of_assignMember {dest source : Ty} (hp : Match.property? w dest = none)
    (hy : L.Yields (m.assignMember w j r dest source) true) :
    L.Yields (j.assign { m.mode with invariant := r.member.isMutableVariable } (some dest)
      (some source)) true := by
  unfold Match.assignMember at hy
  rw [hp] at hy
  exact hy.of_explained.of_child

private theorem Yields.of_matchType {found : FoundMember} (hf : F.FoundIn w r.name found)
    {fromMetaclass : Bool} (hy : L.Yields (m.matchType w j r found fromMetaclass) true) :
    ∃ types, (F.Has types.1 ∧ F.Has types.2) ∧
      L.Yields (m.typesOf w j r t found fromMetaclass) types ∧
      L.Yields (m.assignMember w j r types.1 types.2) true := by
  have typed := sim_typesOf (ρ := .same) hw hj hm hr ht hf fromMetaclass
  have sees := hr.owner.sees hw.toScopes
  have assigned := fun (types : Ty × Ty) (has : F.Has types.1 ∧ F.Has types.2) =>
    agrees_assignMember (ρ := .same) hw hj hm sees has.1 has.2
  have agreed := agrees_agreeOnFinal (L := L) (ρ := .same) r (rfl : found.member.isFinal = _)
  rw [Match.matchType_eq w j m ht] at hy
  obtain ⟨types, has, typing, hy⟩ :=
    typed.left.yields (fun types has => ((assigned types has).both agreed).child.left) hy
  exact ⟨types, has, typing, (Yields.both (assigned types has) agreed hy.of_child).1⟩

private theorem Yields.of_matchMember (hy : L.Yields (m.matchMember w j r) true) :
    ∃ found types, F.FoundIn w r.name found.1 ∧ L.Yields (m.find w r.name) (some found) ∧
      (F.Has types.1 ∧ F.Has types.2) ∧ L.Yields (m.typesOf w j r t found.1 found.2) types ∧
      L.Yields (m.assignMember w j r types.1 types.2) true := by
  have sought := (sim_find (L := L) (ρ := .same) hw hm r.name).left
  have looked := fun found (hf : F.FoundIn w r.name found) fromMetaclass =>
    agrees_matchType (ρ := .same) hw hj hm hr hf fromMetaclass
  have refused := fun wording values => Calm.refuse (L := L) wording values
  obtain ⟨found, hfound, ran, hy⟩ := sought.yields (Q := fun _ => True) (fun found hf => by
    cases found with
    | none => exact (refused _ _).imp fun _ _ => trivial
    | some f => exact ((looked f.1 (hf f rfl) f.2).both (agrees_agreeOnClassVar r rfl)).left) hy
  cases found with
  | none =>
    obtain ⟨s, t, hs, he, -⟩ := hy
    cases ((refused _ _).elim hs he).1
  | some found =>
    have declared := hfound found rfl
    have met := (Yields.both (looked found.1 declared found.2)
      (agrees_agreeOnClassVar r rfl) hy).1
    obtain ⟨types, has, typing, fits⟩ := met.of_matchType hw hj hm hr ht declared
    exact ⟨found, types, declared, ran, has, typing, fits⟩

end Link

/-! ## Comparisons and their requirements -/

def Comparison.requirements (c : Comparison) (w : World) : List Requirement :=
  Requirement.all w.classes c.asObject c.pair.protocol

def Comparison.toMatch (c : Comparison) (w : World) : Match :=
  Match.of w c.pair.protocol c.pair.candidate c.asObject

def CheckState.meeting (s : CheckState) (w : World) (c : Comparison) : CheckState :=
  { s with solving := some (.forScope (w.classes.decl c.pair.protocol.id).scope) }

/-- The run from one state to another did not pass the last level, and what was taken to hold
outside of rejected comparisons was in progress under the same view. -/
def CheckState.SoundUntil (inf : Inference) (s t : CheckState) : Prop :=
  ∃ new, t.history = s.history ++ new ∧ Event.allUncut new = true ∧
    ∀ p ∈ Event.allTaken [] new, p.1.isAmong inf p.2 = true

section

variable {F : Fragment} {w : World} (hw : F.Covers w)
include hw

theorem Fragment.start_meeting {c : Comparison} (hc : F.HasComparison c) {s : CheckState}
    (hs : s.inference = F.inf) : F.Start (s.meeting w c) :=
  ⟨hs, solving_forScope (hw.apart.imp id fun apart => apart hc.protocol.ids)⟩

theorem Fragment.HasComparison.toMatch {c : Comparison} (hc : F.HasComparison c) :
    Link.HasMatch F (c.toMatch w) :=
  Link.hasMatch_of hw hc.protocol hc.candidate c.asObject

theorem Fragment.HasComparison.requirement {c : Comparison} (hc : F.HasComparison c)
    {r : Requirement} (hr : r ∈ c.requirements w) : Link.HasRequirement F w r :=
  Link.hasRequirement_of_mem hw hc.protocol hr

variable (hf : ¬ F.wide)
include hf

/-- The parts of a comparison answer as its requirements do. -/
theorem exec_parts {j : Judge} {mode : Mode} (hm : mode.invariant = false) {c : Comparison}
    (hc : F.HasComparison c) (s : CheckState) :
    exec (c.parts w j mode) s =
      ((exec (allOf ((c.toMatch w).matchMember w j) (c.requirements w)) (s.meeting w c)).1,
        { (exec (allOf ((c.toMatch w).matchMember w j) (c.requirements w)) (s.meeting w c)).2 with
          solving := s.solving }) := by
  unfold Comparison.parts matchMembers
  rw [if_neg (by rw [hm]; exact Bool.false_ne_true)]
  exact exec_meetAll (hw.params_eq_nil hf hc.protocol.ids) s

/-- A comparison that succeeds in a sound run is supported by comparisons that are so themselves. -/
theorem supported_of_sound {choice : StackChoice} {mode : Mode} (hm : mode.invariant = false)
    {asObject : Bool} {protocol candidate : ClassTy} (hp : F.HasClass protocol)
    (hc : F.HasClass candidate) {s t : CheckState} (hs : s.inference = F.inf)
    (h : exec (conformsFrom w choice 0 mode asObject protocol candidate) s = (.ok true, t))
    (sound : s.SoundUntil F.inf t) :
    ∃ X : Comparison → Prop, (∀ c, X c → F.Supported w X c) ∧
      X (.of asObject protocol candidate) := by
  obtain ⟨new, hn, hu, ha⟩ := sound
  have asked := Fragment.hasComparison_of hp hc asObject
  obtain ⟨entered, u, n, inference, history, hrun, rfl⟩ := made_of_conformsFrom h hn ha
  have genuine := genuine_of_run hw hf hm asked (inference.trans hs) history hrun n
  generalize he : Event.made (.of asObject protocol candidate) n (some true) u.history = e
    at hu ha genuine
  obtain ⟨-, supported, -⟩ := Fragment.supported_of_genuine (X := (· ∈ e.held)) hf genuine []
    (fun d hd => nomatch hd) (Event.uncut_of_mem hu List.mem_cons_self)
    (fun d hd => ha d (Event.mem_allTaken List.mem_cons_self hd)) fun d hd => hd
  exact ⟨_, supported, he ▸ List.mem_cons_self⟩

/-- A run of a supported comparison in which its requirements were met, one after another. -/
theorem Fragment.Supported.met {X : Comparison → Prop} {c : Comparison} (h : F.Supported w X c) :
    F.HasComparison c ∧ ∃ k, (F.within w X).Yields
      (allOf ((c.toMatch w).matchMember w (judge w k)) (c.requirements w)) true := by
  obtain ⟨k, mode, s, t, hv, has, hs, hh, he, clean⟩ := h
  rcases hrun : exec (allOf ((c.toMatch w).matchMember w (judge w k)) (c.requirements w))
    (s.meeting w c) with ⟨r, u⟩
  rw [exec_parts hw hf hv has, hrun] at he
  cases he
  refine ⟨has, k, _, u, Fragment.start_meeting hw has hs.inference, hrun, fun new hn e he => ?_⟩
  have history : u.history = new := by
    rw [hn]
    exact congrArg (· ++ new) hh
  exact clean e (history ▸ he)

/-- What a supported comparison asks for fits at every number of levels, from every state of the
fragment. -/
theorem Fragment.Supported.fits {X : Comparison → Prop} (hX : ∀ c, X c → F.Supported w X c)
    {c : Comparison} (h : F.Supported w X c) {r : Requirement} (hr : r ∈ c.requirements w)
    {declared : Ty} (hd : r.member.declaredType = some declared) :
    ∃ types : Ty × Ty, ∀ l s, F.Start s →
      (∃ t, exec ((c.toMatch w).typesFor w (judge w l) r declared) s = (.ok (some types), t)) ∧
      (Match.property? w types.1 = none → ∃ t, exec ((judge w l).assign
        { (c.toMatch w).mode with invariant := r.member.isMutableVariable } (some types.1)
          (some types.2)) s = (.ok true, t)) := by
  obtain ⟨has, k, met⟩ := h.met hw hf
  have follows := fun l => Fragment.follows_within hw hf hX l k
  have hm := has.toMatch hw
  have hreq := has.requirement hw hr
  have each := fun r hr => Link.agrees_matchMember (ρ := .same) hw (follows k).assign hm
    (has.requirement hw (r := r) hr)
  -- in the run that is known, the member was found and its type fitted under that run's solution
  obtain ⟨found, types, declaredIn, ran, hast, typing, fits⟩ :=
    (met.of_mem each hr).of_matchMember hw (follows k).assign hm hreq hd
  refine ⟨types, fun l s hs => ⟨?_, fun hp => ?_⟩⟩
  · obtain ⟨_, u, found', hu, rfl⟩ := (Link.sim_find hw hm r.name).follows_yields hf ran hs
    obtain ⟨_, v, typed', -, rfl⟩ := (Link.sim_typesOf hw (follows l).assign hm hreq hd declaredIn
      found.2).follows_yields hf typing hu
    exact ⟨v, Match.exec_typesFor found' typed'⟩
  · have linked := (follows l).assign (Regime.modes_refl .idle
      { (c.toMatch w).mode with invariant := r.member.isMutableVariable })
        (Fragment.hasOption_some hast.1) (Fragment.hasOption_some hast.2)
    obtain ⟨_, u, he, -, same⟩ := linked.follows_yields hf (fits.of_assignMember hp) hs
    rw [same.1 rfl] at he
    exact ⟨u, he⟩

/-- Let a comparison within a narrow fragment succeed in a sound run. Then for each method or
attribute that the protocol declares, the candidate has one of that name, the two types to be
compared are the same in every state, and the one that is found may stand for the one that is asked
for, at every depth and whatever is in progress. -/
theorem required_members_fit {choice : StackChoice} {mode : Mode} (hm : mode.invariant = false)
    {asObject : Bool} {protocol candidate : ClassTy} (hp : F.HasClass protocol)
    (hc : F.HasClass candidate) {s t : CheckState} (hs : s.inference = F.inf)
    (h : exec (conformsFrom w choice 0 mode asObject protocol candidate) s = (.ok true, t))
    (sound : s.SoundUntil F.inf t) {r : Requirement}
    (hr : r ∈ (Comparison.of asObject protocol candidate).requirements w) {declared : Ty}
    (hd : r.member.declaredType = some declared) :
    let m := (Comparison.of asObject protocol candidate).toMatch w
    ∃ dest source, ∀ (depth : Int) (s' : CheckState), s'.inference = F.inf → s'.solving = none →
      (∃ t', exec (m.typesFor w (judgeAt w depth) r declared) s' =
        (.ok (some (dest, source)), t')) ∧
      (Match.property? w dest = none → ∃ t', exec ((judgeAt w depth).assign
        { m.mode with invariant := r.member.isMutableVariable } (some dest) (some source)) s' =
          (.ok true, t')) := by
  intro m
  obtain ⟨X, supported, holds⟩ := supported_of_sound hw hf hm hp hc hs h sound
  obtain ⟨types, fits⟩ := (supported _ holds).fits hw hf supported hr hd
  refine ⟨types.1, types.2, fun depth s' inference solving => ?_⟩
  have hs' : F.Start s' := ⟨inference, solving ▸ Fragment.solving_none⟩
  exact fits (levelsAt depth) s' hs'

end

/-! ## Comparisons that are started alone -/

/-- The comparison succeeds in a sound run when nothing is in progress. -/
def Comparison.SoundAlone (c : Comparison) (w : World) (inf : Inference) : Prop :=
  (c.alone w inf).1.toOption = some true ∧ Event.allUncut (c.alone w inf).2.history = true ∧
    ∀ p ∈ Event.allTaken [] (c.alone w inf).2.history, p.1.isAmong inf p.2 = true

instance (c : Comparison) (w : World) (inf : Inference) : Decidable (c.SoundAlone w inf) :=
  inferInstanceAs (Decidable (_ ∧ _ ∧ _))

theorem Comparison.SoundAlone.run {c : Comparison} {w : World} {inf : Inference}
    (h : c.SoundAlone w inf) :
    ∃ t, c.alone w inf = (.ok true, t) ∧
      CheckState.SoundUntil inf ⟨inf, #[], [], [], none, none, []⟩ t := by
  obtain ⟨answer, uncut, among⟩ := h
  rcases hrun : c.alone w inf with ⟨r, t⟩
  rw [hrun] at answer uncut among
  cases r with
  | error e => cases answer
  | ok b =>
    cases answer
    exact ⟨t, rfl, t.history, rfl, uncut, among⟩

end Conformance
