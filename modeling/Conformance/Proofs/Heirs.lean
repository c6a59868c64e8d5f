import Conformance.Proofs.Deeper
import Conformance.Proofs.Linearization
import Conformance.Proofs.Requirements

/-!
# Heirs without members

A protocol that extends another one and declares nothing itself asks for the same members. Where
nothing is solved for and nothing stands for the receiver's class, the same classes satisfy both:
what is asked of the one is asked of the other in the same way, and a comparison that succeeds by
what it found, not by a cut, shows that both hold.
-/

namespace Conformance

open Check

/-! ## Checks that run alike -/

namespace Fragment

def Alike {α : Type} (F : Fragment) (act act' : Check α) : Prop :=
  ∀ s, F.Start s → exec act s = exec act' s

variable {F : Fragment} {L : Link F} {α β : Type} {R : α → Prop}

namespace Alike

theorem refl (act : Check α) : F.Alike act act := fun _ _ => rfl

theorem symm {act act' : Check α} (h : F.Alike act act') : F.Alike act' act :=
  fun s hs => (h s hs).symm

theorem trans {act act' act'' : Check α} (h : F.Alike act act') (h' : F.Alike act' act'') :
    F.Alike act act'' :=
  fun s hs => (h s hs).trans (h' s hs)

/-- The two go on in the same way from every answer of the first. -/
theorem bind {act act' : Check α} {k k' : α → Check β} (h : F.Alike act act') (hc : L.Calm R act)
    (hk : ∀ a, R a → F.Alike (k a) (k' a)) : F.Alike (act >>= k) (act' >>= k') := by
  intro s hs
  obtain ⟨a, t, he, ha, kept⟩ := hc s hs
  rw [exec_bind_of_ok he, exec_bind_of_ok ((h s hs).symm.trans he)]
  exact hk a ha t kept.start

private theorem andThen {act act' : Check α} (h : F.Alike act act') (k : α → Check β) :
    F.Alike (act >>= k) (act' >>= k) := by
  intro s hs
  rw [exec_bind, exec_bind, h s hs]

theorem lift {m : StateM Inference α} {a : α} (h : F.Steady (· = a) m) :
    F.Alike (Check.lift m) (Pure.pure a) := by
  obtain ⟨b, hb, rfl⟩ := h
  exact fun s hs => exec_lift_of_eq (hs.inference ▸ hb)

theorem child {act act' : Check α} (h : F.Alike act act') :
    F.Alike (Check.child act) (Check.child act') := by
  intro s hs
  rw [Check.child, exec_within, Check.child, exec_within, h _ (Link.Start.notes hs _)]

theorem explained {act act' : Check Bool} (h : F.Alike act act') (messages : Check Unit) :
    F.Alike (Conformance.explained act messages) (Conformance.explained act' messages) :=
  h.andThen _

theorem allOf {f g : α → Check Bool} {as : List α} (h : ∀ a ∈ as, F.Alike (f a) (g a))
    (hc : ∀ a ∈ as, L.Calm (fun _ => True) (f a)) : F.Alike (allOf f as) (Check.allOf g as) := by
  induction as with
  | nil => exact refl _
  | cons a as ih =>
    have rest := ih (fun b hb => h b (List.mem_cons_of_mem a hb))
      fun b hb => hc b (List.mem_cons_of_mem a hb)
    exact (h a List.mem_cons_self).bind (hc a List.mem_cons_self) fun _ _ => rest.andThen _

end Alike

section

variable {w : World} (hw : F.Covers w) (hf : ¬ F.wide)
include hw hf

theorem alike_seenFrom {r : Requirement} (hr : Link.HasRequirement F w r) (protocol : ClassTy)
    {t : Ty} (ht : F.HasMember t) : F.Alike (r.seenFrom w protocol t) (pure t) := by
  unfold Requirement.seenFrom
  split
  · exact .refl _
  · refine .lift ?_
    unfold Ty.specialize
    split
    · exact steady_substitute_eq hw.toScopes (hr.owner.sees hw.toScopes _ ‹_›) hf ht.has
    · exact steady_pure rfl

private theorem alike_substitute {σ τ : Solution} (hσ : F.HasSolution σ) (hτ : F.HasSolution τ)
    {t : Ty}
    (ht : F.Has t) :
    F.Alike (lift (t.substitute w.classes σ false)) (lift (t.substitute w.classes τ false)) :=
  (Alike.lift (steady_substitute_eq hw.toScopes hσ hf ht)).trans
    (Alike.lift (steady_substitute_eq hw.toScopes hτ hf ht)).symm

private theorem alike_required {p : PropertyPair} (hp : Link.HasPair F w p) {f : FunctionTy}
    (h : F.HasFunction f) :
    F.Alike (p.required w f) (lift (f.specialize w.classes p.destOwner)) := by
  intro s hs
  obtain ⟨d, hd, has, -⟩ := steady_specializeFunction hw.toScopes h hp.destOwner
  have ran : exec (lift (f.specialize w.classes p.destOwner)) s = (.ok d, s) :=
    exec_lift_of_eq (hs.inference ▸ hd)
  unfold PropertyPair.required
  rw [exec_bind_of_ok ran, ran]
  cases hσ : p.self with
  | none => rfl
  | some σ =>
    exact Alike.lift (steady_substituteFunction_eq hw.toScopes (hp.self σ hσ) hf has) s hs

variable {j : Judge} (hj : L.Judges j j)
include hj

section

variable {p : PropertyPair} (hp : Link.HasPair F w p) {σ : Option Solution}
  (hσ : ∀ τ, σ = some τ → F.HasSolution τ)
include hp hσ

omit hj in
private theorem alike_compare {dest source : FunctionTy} (hd : F.HasFunction dest)
    (hs : F.HasFunction source) :
    F.Alike (p.compare w j dest source) ({ p with self := σ }.compare w j dest source) := by
  have hp' : Link.HasPair F w { p with self := σ } :=
    ⟨hp.dest, hp.source, hp.destOwner, hp.sourceOwner, hσ⟩
  have sourced : F.deeper.Calm (fun _ => True) (lift (source.specialize w.classes p.sourceOwner)) :=
    (Link.Sim.lift (ρ := .same) (steady_imp (steady_specializeFunction hw.toScopes hs
      (hp.sourceOwner.sees hw.toScopes)) fun _ _ => trivial)).left
  refine (Alike.refl _).bind (Link.Calm.demand (L := F.deeper) hs.settled) fun _ _ => ?_
  refine (Alike.refl _).bind sourced fun s _ => ?_
  exact ((alike_required hw hf hp hd).trans (alike_required hw hf hp' hd).symm).andThen _

private theorem alike_assignProperty :
    F.Alike (assignProperty w j p) (assignProperty w j { p with self := σ }) := by
  refine Alike.allOf (fun accessor _ => ?_) fun accessor _ =>
    (Link.agrees_assignAccessor (ρ := .same) hw hj hp accessor).left
  unfold PropertyPair.assignAccessor
  dsimp only
  cases hd : accessor.of (w.classes.decl p.dest.id) with
  | none => exact .refl _
  | some dest =>
    cases hs : accessor.of (w.classes.decl p.source.id) with
    | none => exact .refl _
    | some source =>
      exact (alike_compare hw hf hp hσ (hw.accessors hp.dest.ids accessor dest hd).1
        (hw.accessors hp.source.ids accessor source hs).1).explained _

end

section

variable {m : Match} (hm : Link.HasMatch F m) {protocol : ClassTy} {σ : Solution}
  (hσ : F.HasSolution σ)
include hm hσ

omit hj in
private theorem alike_comparedTypes {found : FoundMember} {fromMetaclass : Bool} {dest : Ty}
    (hd : F.Has dest) (source : Ty) :
    F.Alike (m.comparedTypes w j found fromMetaclass dest source)
      ({ m with protocol := protocol, self := σ }.comparedTypes w j found fromMetaclass dest
        source) := by
  have substituted := alike_substitute hw hf hm.self hσ hd
  unfold Match.comparedTypes
  split
  · exact substituted.andThen _
  · split
    · exact .refl _
    · exact substituted.andThen _

private theorem alike_assignMember {r : Requirement} (hr : F.Sees w r.owner) {dest source : Ty}
    (hd : F.Has dest) (hs : F.Has source) :
    F.Alike (m.assignMember w j r dest source)
      ({ m with protocol := protocol, self := σ }.assignMember w j r dest source) := by
  unfold Match.assignMember
  cases hp : Match.property? w dest with
  | none => exact .refl _
  | some property =>
    refine Alike.explained ?_ _
    unfold Match.assignToProperty
    cases hq : Match.property? w source with
    | none => exact .refl _
    | some sourceProperty =>
      cases ha : m.asObject with
      | true => exact .refl _
      | false =>
        have given : ∀ (τ : Solution), F.HasSolution τ →
            ∀ υ, some τ = some υ → F.HasSolution υ := by
          rintro τ h _ ⟨⟩
          exact h
        refine Alike.child (alike_assignProperty hw hf hj (p := ⟨property, sourceProperty, r.owner,
          m.candidate, some m.self⟩) ⟨Link.has_of_property? hd hp, Link.has_of_property? hs hq, hr,
          hm.candidate, given _ hm.self⟩ (given _ hσ))

private theorem alike_matchType {r : Requirement} (hr : Link.HasRequirement F w r)
    {found : FoundMember}
    (hfound : F.FoundIn w r.name found) (fromMetaclass : Bool) :
    F.Alike (m.matchType w j r found fromMetaclass)
      ({ m with protocol := protocol, self := σ }.matchType w j r found fromMetaclass) := by
  unfold Match.matchType
  cases ht : r.member.declaredType with
  | none => exact .refl _
  | some t =>
    have member := hw.required hr.owner.ids hr.protocol hr.declared ht
    have seen := (alike_seenFrom hw hf hr m.protocol member).trans
      (alike_seenFrom hw hf hr protocol member).symm
    have seenCalm := (Link.sim_seenFrom (L := L) (ρ := .same) hw hr m.protocol member).left
    refine seen.bind seenCalm fun dest hd => ?_
    have typed := (Link.sim_foundType (L := L) (ρ := .same) hw hm hfound).left
    refine (Alike.refl _).bind typed fun source hs => ?_
    have compared : L.Calm (fun types => F.Has types.1 ∧ F.Has types.2)
        (m.comparedTypes w j found fromMetaclass dest source) :=
      (Link.sim_comparedTypes (ρ := .same) hw hj hm (fun c hc => (hfound c hc).1) hd hs).left
    refine (alike_comparedTypes hw hf hm hσ hd.has source).bind compared fun types has => ?_
    exact Alike.child ((alike_assignMember hw hf hj hm hσ (hr.owner.sees hw.toScopes) has.1
      has.2).andThen _)

private theorem alike_matchMember {r : Requirement} (hr : Link.HasRequirement F w r) :
    F.Alike (m.matchMember w j r)
      ({ m with protocol := protocol, self := σ }.matchMember w j r) := by
  have sought := (Link.sim_find (L := L) (ρ := .same) hw hm r.name).left
  refine (Alike.refl _).bind sought fun found hfound => ?_
  cases found with
  | none => exact .refl _
  | some found => exact (alike_matchType hw hf hj hm hσ hr (hfound found rfl) found.2).andThen _

end

end

end Fragment

/-! ## Comparisons that ask for the same -/

/-- One class is looked at in one way for the same members. -/
structure Comparison.AsksAlike (c : Comparison) (w : World) (c' : Comparison) : Prop where
  candidate : c'.pair.candidate = c.pair.candidate
  asObject : c'.asObject = c.asObject
  requirements : c'.requirements w = c.requirements w

namespace Fragment

section

variable {F : Fragment} {w : World} (hw : F.Covers w) (hf : ¬ F.wide) {X : Comparison → Prop}
include hw hf

private theorem alike_matchMember_of_asksAlike {L : Link F} {j : Judge} (hj : L.Judges j j)
    {c c' : Comparison} (h : c.AsksAlike w c') (hc : F.HasComparison c)
    (hc' : F.HasComparison c') {r : Requirement} (hr : r ∈ c.requirements w) :
    F.Alike ((c.toMatch w).matchMember w j r) ((c'.toMatch w).matchMember w j r) := by
  have twin : c'.toMatch w =
      { c.toMatch w with protocol := c'.pair.protocol, self := (c'.toMatch w).self } := by
    unfold Comparison.toMatch
    rw [h.candidate, h.asObject]
    rfl
  rw [twin]
  exact alike_matchMember hw hf hj (hc.toMatch hw) (hc'.toMatch hw).self (hc.requirement hw hr)

private theorem succeeds_of_alike {l : Nat}
    (h : ∀ k, (F.within w X).Follows (judge w k) (judge w l))
    {c c' : Comparison} (alike : c.AsksAlike w c') (hc : F.Supported w X c)
    (hc' : F.HasComparison c') : F.Succeeds w l c' := by
  obtain ⟨has, k, s, u, start, ran, clean⟩ := hc.met hw hf
  intro m' s' hv' hs'
  have same : (F.within w X).Yields
      (allOf ((c'.toMatch w).matchMember w (judge w k)) (c'.requirements w)) true := by
    have follows := follows_same hw k
    refine ⟨s, u, start, ?_, clean⟩
    rw [alike.requirements, ← ran]
    refine (Alike.allOf (L := F.deeper) (fun r hr => ?_) (fun r hr => ?_) _ start).symm
    · exact alike_matchMember_of_asksAlike hw hf follows.assign alike has hc' hr
    · exact (Link.agrees_matchMember (ρ := .same) hw follows.assign (has.toMatch hw)
        (has.requirement hw hr)).left
  have linked : (F.within w X).Agrees .idle
      (allOf ((c'.toMatch w).matchMember w (judge w k)) (c'.requirements w))
      (allOf ((c'.toMatch w).matchMember w (judge w l)) (c'.requirements w)) :=
    Link.Agrees.allOf fun r hr =>
      Link.agrees_matchMember hw (h k).assign (hc'.toMatch hw) (hc'.requirement hw hr)
  obtain ⟨b, u', he', -, answers⟩ :=
    linked.follows_yields hf same (start_meeting hw hc' hs'.inference)
  cases answers.1 rfl
  exact ⟨_, by rw [exec_parts hw hf hv' hc', he']⟩

end

end Fragment

/-! ## Heirs and the protocols that they extend -/

theorem Fragment.hasClass_ofId {F : Fragment} {id : ClassId} (h : F.ids id) :
    F.HasClass (.ofId id) :=
  .cls h (.inr ⟨rfl, rfl⟩) fun _ ht => nomatch ht

section

variable {F : Fragment} {w : World} (hw : F.Covers w) (hf : ¬ F.wide)
include hw hf

private theorem answers_conformsFrom (choice : StackChoice) (mode : Mode) (asObject : Bool)
    {protocol candidate : ClassTy} (hp : F.HasClass protocol) (hc : F.HasClass candidate)
    {s : CheckState} (hs : s.inference = F.inf) :
    ∃ b t, exec (conformsFrom w choice 0 mode asObject protocol candidate) s = (.ok b, t) := by
  rcases exec_conformsFrom_cases (w := w) choice mode asObject protocol candidate s
    with held | ⟨entered, n, inference, -, ran⟩
  · exact ⟨true, _, held⟩
  · have asked := Fragment.hasComparison_of hp hc asObject
    have calm := (Link.agrees_parts hw (Fragment.follows_same hw 14).assign
      (Regime.modes_refl .same mode) asked).left
    obtain ⟨b, u, hu, -, -⟩ := calm _ (start_of_inference (inference.trans hs))
    rw [exec_parts_solving hw hf asked] at hu
    obtain ⟨t, ht, -⟩ := ran _ _ rfl
    have answer : (exec ((Comparison.of asObject protocol candidate).parts w (judge w 14) mode)
        entered).1 = .ok b := congrArg Prod.fst hu
    exact ⟨b, t, answer ▸ ht⟩

private theorem succeeds_of_requirements {choice : StackChoice} {mode : Mode}
    (hm : mode.invariant = false)
    {asObject : Bool} {p q : ClassId} (hp : F.ids p) (hq : F.ids q)
    (same : Requirement.all w.classes asObject (.ofId q) =
      Requirement.all w.classes asObject (.ofId p))
    {candidate : ClassTy} (hc : F.HasClass candidate) {s t : CheckState} (hs : s.inference = F.inf)
    (h : exec (conformsFrom w choice 0 mode asObject (.ofId p) candidate) s = (.ok true, t))
    (sound : s.SoundUntil F.inf t) (choice' : StackChoice) {mode' : Mode}
    (hm' : mode'.invariant = false) {s' : CheckState} (hs' : s'.inference = F.inf) :
    ∃ t', exec (conformsFrom w choice' 0 mode' asObject (.ofId q) candidate) s' =
      (.ok true, t') := by
  have asked' := Fragment.hasComparison_of (Fragment.hasClass_ofId hq) hc asObject
  obtain ⟨X, supported, holds⟩ :=
    supported_of_sound hw hf hm (Fragment.hasClass_ofId hp) hc hs h sound
  have alike : (Comparison.of asObject (.ofId p) candidate).AsksAlike w
      (.of asObject (.ofId q) candidate) := ⟨rfl, rfl, same⟩
  have follows := Fragment.follows_within hw hf supported 14
  exact succeeds_conformsFrom hw hf asked'
    (Fragment.succeeds_of_alike hw hf follows alike (supported _ holds) asked') choice' hm' hs'

/-- An heir without members and the protocol that it extends are satisfied by the same classes: both
comparisons answer, and if one of them succeeds, without passing the last level and with nothing
taken to hold but what was in progress under the same view, then so does the other. -/
theorem heir_satisfied_alike {p q : ClassId} (hp : F.ids p) (hq : F.ids q)
    (heir : w.classes.Heir q p) {candidate : ClassTy} (hc : F.HasClass candidate) (asObject : Bool)
    (choice choice' : StackChoice) {mode mode' : Mode} (hm : mode.invariant = false)
    (hm' : mode'.invariant = false) {s s' : CheckState} (hs : s.inference = F.inf)
    (hs' : s'.inference = F.inf) :
    ∃ b b' t t', exec (conformsFrom w choice 0 mode asObject (.ofId p) candidate) s = (.ok b, t) ∧
      exec (conformsFrom w choice' 0 mode' asObject (.ofId q) candidate) s' = (.ok b', t') ∧
      (s.SoundUntil F.inf t → b = true → b' = true) ∧
      (s'.SoundUntil F.inf t' → b' = true → b = true) := by
  obtain ⟨b, t, h⟩ := answers_conformsFrom hw hf choice mode asObject
    (Fragment.hasClass_ofId hp) hc hs
  obtain ⟨b', t', h'⟩ := answers_conformsFrom hw hf choice' mode' asObject
    (Fragment.hasClass_ofId hq) hc hs'
  have same := Requirement.all_heir heir asObject
  refine ⟨b, b', t, t', h, h', fun sound hb => ?_, fun sound hb => ?_⟩
  · subst hb
    obtain ⟨u, hu⟩ := succeeds_of_requirements hw hf hm hp hq same hc hs h sound choice' hm' hs'
    rw [h'] at hu
    cases hu
    rfl
  · subst hb
    obtain ⟨u, hu⟩ := succeeds_of_requirements hw hf hm' hq hp same.symm hc hs' h' sound choice hm
      hs
    rw [h] at hu
    cases hu
    rfl

end

end Conformance
