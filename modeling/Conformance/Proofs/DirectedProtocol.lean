import Conformance.Proofs.Exactness
import Conformance.Proofs.Gathered
import Conformance.Proofs.Requirements

/-!
# Directed protocols

In a directed protocol a type parameter stands as a whole where its variance allows: a covariant one
where values are yielded or read, a contravariant one where they are taken, and one that is neither
where they are both read and written. It may stand at any number of positions. If a class satisfies a
specialization of the protocol, each member that is asked for fits with the type arguments in it,
although the comparison solved for the parameters one position after another and compared with the
arguments only what it had come to in the end.
-/

namespace Conformance

open Check

/-- Where the type of a member stands: that of a variable that may be assigned again is read and
written. -/
def Member.position (m : Member) : Variance := if m.isMutableVariable then .invariant else .covariant

/-- The types of two members as they are compared: methods without their receivers. -/
def Ty.boundPair : Ty → Ty → Ty × Ty
  | .function f, .function g => (.function f.withoutReceiver, .function g.withoutReceiver)
  | t, s => (t, s)

/-- What is found where the types of two members are compared. -/
def Ty.memberFindings (inf : Inference) : Ty → Ty → List (TypeVar × Ty)
  | .function f, .function g => f.withoutReceiver.findings inf g.withoutReceiver
  | t, s => t.findings s

/-- What a class has for a requirement of a declared type may stand where that is declared, with the
arguments of the specialization in it. -/
def Match.fitsGiven (w : World) (j : Judge) (m : Match) (r : Requirement) (t : Ty) : Check Bool := do
  match ← m.typesFor w j r t with
  | none => pure false
  | some (dest, source) =>
    let dest ← lift (dest.specialize w.classes m.protocol none)
    j.assign { m.mode with invariant := r.member.isMutableVariable } (some dest) (some source)

namespace Fragment

section

variable (F : Fragment) (w : World)

/-- A member that is asked for and one that a class has: two methods, or two attributes. Type
parameters stand in the first where their variance allows, and the second has a closed type. -/
inductive MemberPair (params : List TypeVar) (asked found : Member) : Ty → Ty → Prop
  | methods {f g : FunctionTy} (isMethod : asked.IsMethod f) (unannotated : f.Unannotated)
    (linear : F.Linear w params f) (isMethod' : found.IsMethod g) (closed : F.ClosedMethod w g) :
    MemberPair params asked found (.function f) (.function g)
  | attributes {t s : Ty} (place : F.Place w params asked.position t)
    (noProperty : Match.property? w t = none) (type : found.effectiveType F.inf = s)
    (has : F.Has s) (closed : s.Closed w.classes) (notCalled : s.isCallable = false) :
    MemberPair params asked found t s

/-- What is found by comparing the members for a requirement. -/
def gatheredFor (c : ClassId) (r : Requirement) : List (TypeVar × Ty) :=
  match r.member.declaredType, w.classes.memberOf c r.name with
  | some t, some found => t.memberFindings F.inf (found.member.effectiveType F.inf)
  | _, _ => []

def allGathered (p c : ClassId) : List (TypeVar × Ty) :=
  (Requirement.all w.classes false (.ofId p)).flatMap (F.gatheredFor w c)

/-- A class is compared with a directed protocol: what it has of the members that are asked for is
declared elsewhere. Where two types are found for one type parameter, they and its argument are
ranked. -/
structure Directed (C : ClassTy → Prop) (p c : ClassId) (A : List Ty) : Prop where
  ordinary : w.classes.isTypedDict (.ofId c) = false
  members : ∀ r ∈ Requirement.all w.classes false (.ofId p), ∀ t, r.member.declaredType = some t →
    ∀ found, w.classes.memberOf c r.name = some found → ∃ owner s, found.owner = some owner ∧
      owner.id ≠ p ∧ F.MemberPair w (w.classes.decl p).params r.member found.member t s
  together : (F.allGathered w p c).Pairwise fun x y => x.1.key = y.1.key →
    F.Ranked C (Substitution.ofVar (w.given p A) false x.1) ∧ F.Ranked C x.2 ∧ F.Ranked C y.2

end

variable {F : Fragment} {w : World} {C : ClassTy → Prop} {P : TypeVar → Prop} {p c : ClassId}
  {A : List Ty} {r : Requirement} {asked : Member} {found : FoundMember} {owner : ClassTy}
  {params : List TypeVar} {k n : Nat} {l : List Pending} {known : List (TypeVar × Ty)} {t s : Ty}

/-- How the types of two members fit, apart from the variables. -/
def memberMeets (F : Fragment) (w : World) (n : Nat) (u : Variance) : Ty → Ty → Prop
  | .function f, .function g => F.Joined w (F.FitsApart w n) f.withoutReceiver g.withoutReceiver
  | t, s => t.whole = [] → F.FitsAs w (n + 1) u t s

/-! ## The types of two members -/

theorem MemberPair.effectiveType (h : F.MemberPair w params asked found.member t s) :
    found.member.effectiveType F.inf = s := by
  cases h with
  | methods _ _ _ isMethod' => exact isMethod'.effectiveType F.inf
  | attributes _ _ type => exact type

section

variable (notCalled : s.isCallable = false)
include notCalled

private theorem boundPair_attribute : t.boundPair s = (t, s) := by
  cases s with
  | function => cases notCalled
  | _ => cases t <;> rfl

private theorem memberFindings_attribute (inf : Inference) :
    t.memberFindings inf s = t.findings s := by
  cases s with
  | function => cases notCalled
  | _ => cases t <;> rfl

private theorem memberMeets_attribute {u : Variance} :
    F.memberMeets w n u t s ↔ (t.whole = [] → F.FitsAs w (n + 1) u t s) := by
  cases s with
  | function => cases notCalled
  | _ => cases t <;> rfl

end

private theorem exec_typesOf (hP : F.GenericProtocol w p) (declared : found.owner = some owner)
    (other : owner.id ≠ p) (present : w.classes.memberOf c r.name = some found)
    (h : F.MemberPair w (w.classes.decl p).params r.member found.member t s) (j : Judge)
    {x : CheckState} (hx : x.inference = F.inf) :
    exec ((plainMatch w p c A).typesOf w j r t found false) x = (.ok (t.boundPair s), x) := by
  unfold Match.typesOf
  cases h with
  | methods isMethod unannotated linear isMethod' closed =>
    have answered := Answered.mk present declared other isMethod unannotated linear isMethod' closed
    refine (exec_bind_of_ok (exec_seenFrom hx hP linear)).trans ?_
    rw [exec_bind_of_ok (exec_foundType hx declared isMethod' closed.has.settled fun σ =>
      (closed.fixesSignature σ).fixes)]
    exact exec_comparedTypes hx hP answered j
  | attributes place _ type has closed notCalled =>
    have plain : Match.demandPlain s = pure () := by
      cases s with
      | function => cases notCalled
      | _ => rfl
    have seen : exec ((plainMatch w p c A).foundType w found) x = (.ok s, x) := by
      unfold Match.foundType
      rw [declared]
      dsimp only
      rw [exec_bind_of_ok (exec_inference x), hx, type, plain, exec_bind_of_ok (exec_pure () x)]
      exact exec_lift_of_steady (steady_specialize_eq fun σ _ => fixes_closed closed has σ) hx
    have dest : exec (lift (t.substitute w.classes (plainMatch w p c A).self false)) x =
        (.ok t, x) :=
      exec_lift_of_steady (place.fixes (hP.keeps_self _)).substitute hx
    refine (exec_bind_of_ok (exec_seenFrom_of_fixes hx fun other _ hσ =>
      place.fixes (hP.keeps_other other hσ))).trans ?_
    unfold Match.comparedTypes
    rw [exec_bind_of_ok seen, notCalled, Bool.not_false, if_pos rfl, exec_bind_of_ok dest,
      boundPair_attribute notCalled]
    rfl

/-! ## One requirement -/

/-- What a requirement comes to, apart from the variables: if it declares a type, there is a member
whose type fits. -/
def Matched (F : Fragment) (w : World) (n : Nat) (c : ClassId) (r : Requirement) : Prop :=
  ∀ t, r.member.declaredType = some t → ∃ found, w.classes.memberOf c r.name = some found ∧
    F.memberMeets w n r.member.position t (found.member.effectiveType F.inf)

private theorem gatheredFor_eq (declared : r.member.declaredType = some t)
    (present : w.classes.memberOf c r.name = some found) :
    F.gatheredFor w c r = t.memberFindings F.inf (found.member.effectiveType F.inf) := by
  rw [gatheredFor, declared, present]

theorem MemberPair.noProperty (h : F.MemberPair w params asked found.member t s) :
    Match.property? w (t.boundPair s).1 = none := by
  cases h with
  | methods => rfl
  | attributes _ noProperty _ _ _ notCalled =>
    rw [boundPair_attribute notCalled]
    exact noProperty

private theorem grants_agreeOnFinal {clean : Event → Prop} {I : Stage} (r : Requirement)
    (found : FoundMember) : Grants clean I I True (Match.agreeOnFinal r found) := by
  unfold Match.agreeOnFinal
  split
  · exact .yes trivial
  · exact .of_declines (declines_refuse _ _)

private theorem grants_agreeOnClassVar {clean : Event → Prop} {I : Stage} (r : Requirement)
    (found : FoundMember) : Grants clean I I True (Match.agreeOnClassVar r found) := by
  unfold Match.agreeOnClassVar
  split
  · exact .of_declines (declines_refuse _ _)
  · exact .yes trivial

section

variable (hw : F.Covers w) (hf : F.wide) (hR : F.Ranks w C) (hP : F.GenericProtocol w p)
  (base : F.deeper.base l []) (hk : 3 ≤ k) (hn : k + 1 ≤ n)
include hw hf hR hP base hk hn

private theorem grants_assignMember
    (h : F.MemberPair w (w.classes.decl p).params r.member found.member t s)
    (together : (known ++ t.memberFindings F.inf s).Pairwise (F.Together C P)) :
    Grants F.deeper.clean (F.gathering w C P (.forScope (w.classes.decl p).scope) l known)
      (F.gathering w C P (.forScope (w.classes.decl p).scope) l
        (known ++ t.memberFindings F.inf s))
      (F.memberMeets w n r.member.position t s)
      ((plainMatch w p c A).assignMember w (judge w (k + 2)) r (t.boundPair s).1
        (t.boundPair s).2) := by
  unfold Match.assignMember
  rw [h.noProperty]
  refine Grants.explained (Grants.child ?_)
  cases h with
  | methods isMethod _ linear _ closed =>
    have linear := linear.withoutReceiver
    have loose : ({ (plainMatch w p c A).mode with
        invariant := r.member.isMutableVariable } : Mode).invariant = false :=
      isMethod.isMutableVariable
    have granted := grants_assignFunction
      (m := { (plainMatch w p c A).mode with invariant := r.member.isMutableVariable }) hw hf hP.apart
      base hR hk hP.solvable hn rfl linear closed.settled closed.takes closed.returnType together
    refine (run_shared (Grants.rules _) (fun one => ?_) granted).congr fun x _ =>
      exec_assign_function (k + 1) loose _ _ x
    rw [one]
    exact closed.findings_eq_nil _
  | attributes place _ _ has closed notCalled =>
    rw [memberFindings_attribute notCalled] at together ⊢
    rw [boundPair_attribute notCalled]
    have compared := grants_place
      (m := { (plainMatch w p c A).mode with invariant := r.member.isMutableVariable }) hw hf hP.apart
      base hR (Nat.le_succ_of_le hk) hP.solvable (Nat.succ_le_succ hn) (fun _ => rfl) place has closed
      together
    rw [compare_ahead _ rfl] at compared
    exact compared.imp (memberMeets_attribute notCalled).2

private theorem grants_matchType (hD : F.Directed w C p c A)
    (hr : r ∈ Requirement.all w.classes false (.ofId p))
    (present : w.classes.memberOf c r.name = some found)
    (together : (known ++ F.gatheredFor w c r).Pairwise (F.Together C P)) :
    Grants F.deeper.clean (F.gathering w C P (.forScope (w.classes.decl p).scope) l known)
      (F.gathering w C P (.forScope (w.classes.decl p).scope) l (known ++ F.gatheredFor w c r))
      (F.Matched w n c r) ((plainMatch w p c A).matchType w (judge w (k + 2)) r found false) := by
  cases declared : r.member.declaredType with
  | none =>
    have matched : F.Matched w n c r := fun t h => by
      rw [declared] at h
      cases h
    rw [gatheredFor, declared, List.append_nil]
    unfold Match.matchType
    rw [declared]
    exact .yes matched
  | some t =>
    obtain ⟨owner, s, howner, other, pair⟩ := hD.members r hr t declared found present
    rw [gatheredFor_eq declared present, pair.effectiveType] at together ⊢
    rw [Match.matchType_eq w _ _ declared]
    have typed (x : CheckState)
        (hx : (F.gathering w C P (.forScope (w.classes.decl p).scope) l known).Is x) :
        exec ((plainMatch w p c A).typesOf w (judge w (k + 2)) r t found false) x =
          (.ok (t.boundPair s), x) := by
      obtain ⟨τ, seeks, -⟩ := hx
      exact exec_typesOf hP howner other present pair _ seeks.inference
    refine Grants.after typed (Grants.child ?_)
    refine ((grants_assignMember hw hf hR hP base hk hn pair together).both
      (grants_agreeOnFinal r found)).imp ?_
    rintro ⟨meets, -⟩ t' ht'
    cases declared.symm.trans ht'
    exact ⟨found, present, pair.effectiveType.symm ▸ meets⟩

private theorem grants_matchMember (hD : F.Directed w C p c A)
    (hr : r ∈ Requirement.all w.classes false (.ofId p))
    (together : (known ++ F.gatheredFor w c r).Pairwise (F.Together C P)) :
    Grants F.deeper.clean (F.gathering w C P (.forScope (w.classes.decl p).scope) l known)
      (F.gathering w C P (.forScope (w.classes.decl p).scope) l (known ++ F.gatheredFor w c r))
      (F.Matched w n c r) ((plainMatch w p c A).matchMember w (judge w (k + 2)) r) := by
  unfold Match.matchMember
  refine Grants.after (fun x _ => exec_find rfl rfl r.name x) ?_
  cases present : w.classes.memberOf c r.name with
  | none => exact .of_declines (declines_refuse _ _)
  | some found =>
    have typed := grants_matchType (A := A) hw hf hR hP base hk hn hD hr present together
    exact (typed.both (grants_agreeOnClassVar r found)).imp And.left

end

/-! ## All requirements -/

private theorem exec_allOf_of_meetAll {j : Judge} {mode : Mode} {protocol : ClassTy}
    {rs : List Requirement}
    {meets : Requirement → Check Bool} {x y : CheckState}
    (he : exec (meetAll w j mode protocol rs meets) x = (.ok true, y)) :
    ∃ u, exec (allOf meets rs)
      { x with solving := some (.forScope (w.classes.decl protocol.id).scope) } = (.ok true, u) := by
  unfold meetAll at he
  dsimp only at he
  rcases met : exec (allOf meets rs)
    { x with solving := some (.forScope (w.classes.decl protocol.id).scope) } with ⟨_ | b, u⟩
  · rw [exec_bind_of_error (by rw [exec_solvingFor, exec_bind_of_error met])] at he
    cases he
  · rw [exec_bind_of_ok (by rw [exec_solvingFor, exec_bind_of_ok met]; rfl)] at he
    cases b with
    | true => exact ⟨u, rfl⟩
    | false => cases he

private theorem Directed.param_of_gathered (hD : F.Directed w C p c A) :
    ∀ x ∈ F.allGathered w p c, x.1 ∈ (w.classes.decl p).params := by
  intro x hx
  obtain ⟨r, hr, hx⟩ := List.mem_flatMap.1 hx
  cases declared : r.member.declaredType with
  | none =>
    rw [gatheredFor, declared] at hx
    cases hx
  | some t =>
    cases present : w.classes.memberOf c r.name with
    | none =>
      rw [gatheredFor, declared, present] at hx
      cases hx
    | some found =>
      obtain ⟨owner, s, -, -, pair⟩ := hD.members r hr t declared found present
      rw [gatheredFor_eq declared present, pair.effectiveType] at hx
      cases pair with
      | methods _ _ linear _ closed =>
        exact (linear.withoutReceiver.of_findings (Q := fun t => F.Has t ∧ t.Closed w.classes)
          closed.takes closed.returnType x hx).1
      | attributes place _ _ _ _ notCalled =>
        rw [memberFindings_attribute notCalled] at hx
        cases place with
        | closed _ closed =>
          rw [Ty.findings, whole_of_closed closed] at hx
          cases hx
        | var param =>
          rw [List.mem_singleton.1 hx]
          exact param

private theorem Directed.pairwise_together (hP : F.GenericProtocol w p)
    (hD : F.Directed w C p c A) :
    (F.allGathered w p c).Pairwise
      (F.Together C fun v => F.Ranked C (Substitution.ofVar (w.given p A) false v)) :=
  hD.together.imp_of_mem fun {x y} hx hy ranked key =>
    ⟨List.inj_on_of_nodup_map hP.distinct (hD.param_of_gathered x hx) (hD.param_of_gathered y hy) key,
      ranked key⟩

/-- What is found for the type parameters fits the arguments, as their variances demand. -/
def AllSuited (F : Fragment) (w : World) (n : Nat) (p c : ClassId) (A : List Ty) : Prop :=
  ∀ x ∈ F.allGathered w p c,
    F.FitsAs w n x.1.variance (Substitution.ofVar (w.given p A) false x.1) x.2

private theorem grants_meetAll (hw : F.Covers w) (hf : F.wide) (hR : F.Ranks w C)
    (hP : F.GenericProtocol w p) (hA : F.Arguments w p A) (hD : F.Directed w C p c A)
    (base : F.deeper.base l []) (hk : 3 ≤ k) (hn : k + 2 ≤ n) :
    Grants F.deeper.clean (F.resting l) (F.resting l)
      ((∀ r ∈ Requirement.all w.classes false (.ofId p), F.Matched w n c r) ∧
        F.AllSuited w n p c A ∧ F.AllSuited w (n + 1) p c A)
      (meetAll w (judge w (k + 2)) .default ((ClassTy.ofId p).given A)
        (Requirement.all w.classes false (.ofId p))
        ((plainMatch w p c A).matchMember w (judge w (k + 2)))) := by
  intro x y hx he
  obtain ⟨u, met⟩ := exec_allOf_of_meetAll he
  let P (v : TypeVar) : Prop := F.Ranked C (Substitution.ofVar (w.given p A) false v)
  have entered : (F.gathering w C P (.forScope (w.classes.decl p).scope) l []).Is
      { x with solving := some (.forScope (w.classes.decl p).scope) } := by
    refine ⟨_, ⟨hx.inference, hx.pending, rfl, rfl, hasSolution_forScope _⟩, .nil fun v => ?_⟩
    rw [Solution.get?, Solution.forScope, entries_addScope]
    rfl
  have members := (Grants.rules _).allOf (Requirement.all w.classes false (.ofId p)) []
    (hD.pairwise_together hP) fun r hr known together =>
      grants_matchMember (A := A) (n := n) hw hf hR hP base hk (Nat.le_of_succ_le hn) hD hr together
  obtain ⟨⟨τ, seeks, gathered⟩, new, hn', matched⟩ := members _ u entered met
  have left : F.Rests l { u with solving := x.solving } :=
    ⟨seeks.inference, seeks.pending, hx.solving⟩
  have compared {n : Nat} (hn : k + 2 ≤ n) :=
    (weighs_assignArguments (n := n) hf hP hA base (follows_deeper hw hn).assign seeks.scopes
      fun v _ t ht => seeks.has.get? ht).grants
  rw [exec_meetAll_given hP.generic met seeks.solving
    ((solves_eq seeks.scopes _).trans hP.solves), if_pos rfl] at he
  obtain ⟨rests, more, hm, fits⟩ :=
    ((compared hn).and (compared (Nat.le_succ_of_le hn))) _ y left he
  refine ⟨rests, new ++ more, by rw [hm, hn', List.append_assoc], fun clean => ?_⟩
  have fits := fits fun e he => clean e (List.mem_append_right _ he)
  have suited {n : Nat} (hn : 3 ≤ n) (fits : ∀ v ∈ (w.classes.decl p).params, ∀ t,
      τ.get? v = some t →
        F.FitsAs w n v.variance (Substitution.ofVar (w.given p A) false v) t) :
      F.AllSuited w n p c A := by
    intro z hz
    obtain ⟨t, known, stands⟩ := gathered.covered z hz
    exact stands.fitsAs hw hR hn id (fits z.1 (hD.param_of_gathered z hz) t known)
  have enough : 3 ≤ n := by omega
  exact ⟨matched fun e he => clean e (List.mem_append_left _ he), suited enough fits.1,
    suited (Nat.le_succ_of_le enough) fits.2⟩

/-! ## Arguments in the members -/

private theorem Place.fits_given {ρ : Solution} {u : Variance} {d : Ty} (h : F.Place w params u d)
    (given : ∀ v ∈ params, F.Has (Substitution.ofVar ρ false v))
    (fits : d.whole = [] → F.FitsAs w n u d s)
    (suited : ∀ x ∈ d.findings s,
      F.FitsAs w n x.1.variance (Substitution.ofVar ρ false x.1) x.2) :
    ∃ d', F.Steady (· = d') (Substitution.ofTyAt w.classes ρ false (k + 1) d) ∧ F.Has d' ∧
      F.FitsAs w n u d' s := by
  cases h with
  | closed has closed =>
    exact ⟨d, fixes_closed closed has ρ (k + 1), has, fits (whole_of_closed closed)⟩
  | @var v param variance =>
    refine ⟨_, steady_pure rfl, given v param, ?_⟩
    have own := suited (v, s) (List.mem_singleton_self _)
    rw [variance] at own
    exact own

section

variable (hw : F.Covers w) (hf : F.wide) (hP : F.GenericProtocol w p) (hA : F.Arguments w p A)
include hw hf hP hA

/-- The types of two members, with the arguments in the first, if what was found for the parameters
fits them. -/
theorem MemberPair.given (h : F.MemberPair w (w.classes.decl p).params asked found.member t s)
    (meets : F.memberMeets w 14 asked.position t s)
    (suited : ∀ x ∈ t.memberFindings F.inf s,
      F.FitsAs w 14 x.1.variance (Substitution.ofVar (w.given p A) false x.1) x.2 ∧
        F.FitsAs w 15 x.1.variance (Substitution.ofVar (w.given p A) false x.1) x.2)
    {m : Mode} (forward : m.reverse = false) (strict : m.invariant = asked.isMutableVariable)
    {x : CheckState} (hx : F.Rests [] x) :
    ∃ d, F.Steady (· = d) (Substitution.ofTyAt w.classes (w.given p A) false Ty.levels
        (t.boundPair s).1) ∧
      ∃ y, exec ((judgeAt w 0).assign m (some d) (some (t.boundPair s).2)) x = (.ok true, y) := by
  have rests : F.Suits F.beside (F.resting []) := suits_resting fun _ _ => rfl
  have follows (n : Nat) : F.beside.Judges (judge w n) (judge w n) := (follows_itself hw n).assign
  cases h with
  | @methods f g isMethod unannotated linear _ closed =>
    have bound := (closed_required hP hA unannotated linear).has.withoutReceiver
    have linear := linear.withoutReceiver
    rw [withoutReceiver_fillFunction] at bound
    rcases meets with shared | meets
    · have plain : (Ty.function f.withoutReceiver).Closed w.classes ∧
          F.Has (.function f.withoutReceiver) := by
        rw [w.eq_of_shares shared]
        exact ⟨closed.bound, closed.has.withoutReceiver⟩
      refine ⟨.function f.withoutReceiver, fixes_closed plain.1 plain.2 _ _, x, ?_⟩
      refine (exec_assign_function 14 (strict.trans isMethod.isMutableVariable) _ _ x).trans ?_
      exact congrArg (fun act => exec act x) (if_pos shared)
    have found := linear.of_findings (Q := fun t => F.Has t ∧ t.Closed w.classes) closed.takes
      closed.returnType
    have fits := (linear.meets_fill (ρ := w.given p A) 13).2
      ⟨meets, fun x hx => (fitsAs_iff_fits (found x hx).2.1).1 (suited x hx).1⟩
    obtain ⟨b, y, new, he, -, -, weighed⟩ :=
      weighs_functions rests hf (follows 14) forward bound closed.has.withoutReceiver x hx
    rw [(weighed fun _ _ => trivial).2 fits] at he
    obtain ⟨y, accepted⟩ := exec_assign_function_of_yes (strict.trans isMethod.isMutableVariable) he
    exact ⟨_, linear.steady_fill _ 14, y, accepted⟩
  | attributes place _ _ has closed notCalled =>
    rw [boundPair_attribute notCalled]
    rw [memberFindings_attribute notCalled] at suited
    have params : ∀ v ∈ (w.classes.decl p).params,
        F.Has (Substitution.ofVar (w.given p A) false v) := by
      intro v param
      obtain ⟨i, hi⟩ := List.mem_iff_getElem?.1 param
      exact hA.has _ (List.mem_of_getElem? (ofVar_argument hP hA hi).symm)
    have demand : m.demand = asked.position := by
      rw [Mode.demand, Mode.variance, forward, strict, Member.position]
      rfl
    obtain ⟨d, steady, hd, fits⟩ := place.fits_given (k := 14) params
      ((memberMeets_attribute notCalled).1 meets) fun x hx => (suited x hx).2
    obtain ⟨b, y, new, he, -, -, weighed⟩ :=
      weighs_fitsAs rests hf (follows 15) (fun _ => forward) hd has x hx
    rw [(weighed fun _ _ => trivial).2 (demand ▸ fits), compare_ahead _ forward] at he
    exact ⟨d, steady, y, he⟩

private theorem exec_fitsGiven (declared : found.owner = some owner) (other : owner.id ≠ p)
    (present : w.classes.memberOf c r.name = some found)
    (h : F.MemberPair w (w.classes.decl p).params r.member found.member t s)
    (meets : F.memberMeets w 14 r.member.position t s)
    (suited : ∀ x ∈ t.memberFindings F.inf s,
      F.FitsAs w 14 x.1.variance (Substitution.ofVar (w.given p A) false x.1) x.2 ∧
        F.FitsAs w 15 x.1.variance (Substitution.ofVar (w.given p A) false x.1) x.2)
    {x : CheckState} (hx : F.Rests [] x) :
    ∃ y, exec ((plainMatch w p c A).fitsGiven w (judgeAt w 0) r t) x = (.ok true, y) := by
  obtain ⟨d, steady, y, fits⟩ := h.given hw hf hP hA meets suited
    (m := { (plainMatch w p c A).mode with invariant := r.member.isMutableVariable }) rfl rfl hx
  have sought : exec ((plainMatch w p c A).find w r.name) x = (.ok (some (found, false)), x) := by
    rw [exec_find rfl rfl, present]
    rfl
  have typed := Match.exec_typesFor sought
    (exec_typesOf (A := A) hP declared other present h (judgeAt w 0) hx.inference)
  have specialized : exec (lift ((t.boundPair s).1.specialize w.classes ((ClassTy.ofId p).given A)
      none)) x = (.ok d, x) := by
    rw [specialize_given hP.generic]
    exact exec_lift_of_steady steady hx.inference
  unfold Match.fitsGiven
  rw [exec_bind_of_ok typed]
  exact ⟨y, (exec_bind_of_ok specialized).trans fits⟩

end

end Fragment

/-- If a class satisfies a specialization of a directed protocol, each member of a declared type that
the protocol asks for, with the type arguments in it, accepts what the class has under its name. -/
theorem directed_members_fit {F : Fragment} {w : World} {C : ClassTy → Prop} {p c : ClassId}
    {A : List Ty} (hw : F.Covers w) (hf : F.wide) (hR : F.Ranks w C) (hP : F.GenericProtocol w p)
    (hA : F.Arguments w p A) (hD : F.Directed w C p c A) (choice : StackChoice) {s t : CheckState}
    (hs : F.Rests [] s) (lent : s.lent = [])
    (h : exec (conformsFrom w choice 0 .default false ((ClassTy.ofId p).given A) (.ofId c)) s =
      (.ok true, t))
    {new : List Event} (hn : t.history = s.history ++ new) (uncut : Event.allUncut new = true)
    {r : Requirement} (hr : r ∈ Requirement.all w.classes false (.ofId p)) {declared : Ty}
    (hd : r.member.declaredType = some declared) {s' : CheckState} (hs' : F.Rests [] s') :
    ∃ t', exec ((Match.of w ((ClassTy.ofId p).given A) (.ofId c) false).fitsGiven w (judgeAt w 0) r
      declared) s' = (.ok true, t') := by
  obtain ⟨l, s₀, base, rests, started, answers⟩ :=
    Fragment.exec_conformsFrom_meetAll (A := A) hP.outside hD.ordinary choice hs lent
  rcases ran : exec (meetAll w (judge w 14) .default ((ClassTy.ofId p).given A)
    (Requirement.all w.classes false (.ofId p))
    ((Fragment.plainMatch w p c A).matchMember w (judge w 14))) s₀ with ⟨answer, t₀⟩
  obtain ⟨u, comparison, n, he, history⟩ := answers ran
  cases h.symm.trans he
  obtain ⟨-, more, hm, granted⟩ := Fragment.grants_meetAll (k := 12) (n := 14) hw hf hR hP hA hD
    base (by decide) (Nat.le_refl 14) s₀ t₀ rests ran
  have clean : ∀ e ∈ more, F.deeper.clean e := by
    rw [List.append_cancel_left (hn.symm.trans history)] at uncut
    rw [started, List.nil_append] at hm
    exact fun e he => Fragment.allUncut_iff.1
      (Fragment.allUncut_iff.1 uncut _ List.mem_cons_self) e (hm ▸ he)
  obtain ⟨matched, suited, suited'⟩ := granted clean
  obtain ⟨found, present, meets⟩ := matched r hr declared hd
  obtain ⟨owner, source, howner, other, pair⟩ := hD.members r hr declared hd found present
  rw [pair.effectiveType] at meets
  rw [Fragment.match_of hD.ordinary]
  refine Fragment.exec_fitsGiven hw hf hP hA howner other present pair meets (fun x hx => ?_) hs'
  have mem : x ∈ F.allGathered w p c :=
    List.mem_flatMap.2 ⟨r, hr, by rwa [Fragment.gatheredFor_eq hd present, pair.effectiveType]⟩
  exact ⟨suited x mem, suited' x mem⟩

namespace Sample

def yielded : TypeVar := .make "T" "Home" .covariant none

def admitted : TypeVar := .make "S" "Home" .contravariant none

def kept : TypeVar := .make "U" "Home" .invariant none

def animal (name : String) (ancestors : List ClassId) : ClassDecl :=
  { classOf name [] with mro := ancestors.map fun id => .resolved (.ofId id) }

/-- A protocol of three type parameters, each at two positions, and a class that yields two kinds of
animals, takes in any animal at one of its doors, and keeps cats. -/
def homes : World :=
  ofDecls [object, animal "Animal" [0],
    { protocolOf "Home" [method "first" none [] (.var yielded), method "second" none [] (.var yielded),
      method "admit" none [some (.var admitted)] .noneObject,
      method "welcome" none [some (.var admitted)] .noneObject,
      field "pet" (.var kept), field "guest" (.var kept)] with
        params := [yielded, admitted, kept] },
    animal "Cat" [1, 0], animal "Dog" [1, 0],
    classOf "Farm" [method "first" none [] (instanceOf 3), method "second" none [] (instanceOf 4),
      method "admit" none [some (instanceOf 1)] .noneObject,
      method "welcome" none [some (instanceOf 3)] .noneObject,
      field "pet" (instanceOf 3), field "guest" (instanceOf 3)]]

private theorem requirements_homes : Requirement.all homes.classes false (.ofId 2) =
    [⟨.ofId 2, "first", (method "first" none [] (.var yielded)).2⟩,
      ⟨.ofId 2, "second", (method "second" none [] (.var yielded)).2⟩,
      ⟨.ofId 2, "admit", (method "admit" none [some (.var admitted)] .noneObject).2⟩,
      ⟨.ofId 2, "welcome", (method "welcome" none [some (.var admitted)] .noneObject).2⟩,
      ⟨.ofId 2, "pet", (field "pet" (.var kept)).2⟩,
      ⟨.ofId 2, "guest", (field "guest" (.var kept)).2⟩] := rfl

private theorem gathered_homes : otherTypes.allGathered homes 2 5 =
    [(yielded, instanceOf 3), (yielded, instanceOf 4), (admitted, instanceOf 1),
      (admitted, instanceOf 3), (kept, instanceOf 3), (kept, instanceOf 3)] := by
  with_unfolding_all rfl

def animals : List ClassTy := [1, 3, 4].map fun id => (ClassTy.ofId id).toInstance

private theorem of_mem_animals {c : ClassTy} (h : c ∈ animals) :
    ∃ id, id ≠ 2 ∧ (homes.classes.decl id).params = [] ∧ c = (ClassTy.ofId id).toInstance := by
  obtain ⟨id, hid, rfl⟩ := List.mem_map.1 h
  have each : ∀ id ∈ [1, 3, 4], id ≠ 2 ∧ (homes.classes.decl id).params.isEmpty = true := by decide
  exact ⟨id, (each id hid).1, List.isEmpty_iff.1 (each id hid).2, rfl⟩

private theorem ranks_animals : otherTypes.Ranks homes (· ∈ animals) where
  nominal {c} h := by
    have each : ∀ c ∈ animals, homes.classes.Nominal c := by decide +kernel
    exact each c h
  has {c} h := by
    obtain ⟨id, other, -, rfl⟩ := of_mem_animals h
    exact .cls other (.inl trivial) fun _ h => nomatch h
  closed {c} h := by
    obtain ⟨id, -, plain, rfl⟩ := of_mem_animals h
    exact closed_instanceOf plain
  trans {a b c} ha hb hc upper lower := by
    have each : ∀ a ∈ animals, ∀ b ∈ animals, ∀ c ∈ animals, homes.takes a b = true →
        homes.takes b c = true → homes.takes a c = true := by decide +kernel
    exact each a ha b hb c hc upper lower

private theorem ranked_instanceOf {id : ClassId} (h : (ClassTy.ofId id).toInstance ∈ animals) :
    otherTypes.Ranked (· ∈ animals) (instanceOf id) :=
  .ofClass ranks_animals h

private theorem plain_instanceOf {id : ClassId} (h : (ClassTy.ofId id).toInstance ∈ animals) :
    otherTypes.Has (instanceOf id) ∧ (instanceOf id).Closed homes.classes :=
  ⟨(ranked_instanceOf h).has, ranks_animals.closed h⟩

private theorem closed_yields {id : ClassId} (h : (ClassTy.ofId id).toInstance ∈ animals) :
    otherTypes.ClosedMethod homes (function none [] (.declared (instanceOf id))) :=
  closedMethod_function (fun _ h => nomatch h) (plain_instanceOf h)

private theorem closed_admits {id : ClassId} (h : (ClassTy.ofId id).toInstance ∈ animals) :
    otherTypes.ClosedMethod homes
      (function none [some (instanceOf id)] (.declared .noneObject)) := by
  refine closedMethod_function (fun t ht => ?_) ⟨.noneObject, .noneObject⟩
  cases List.mem_singleton.1 ht
  exact plain_instanceOf h

private theorem mem_animals : (ClassTy.ofId 1).toInstance ∈ animals ∧
    (ClassTy.ofId 3).toInstance ∈ animals ∧ (ClassTy.ofId 4).toInstance ∈ animals := by
  simp [animals]

private theorem decl_homes {id : ClassId} (h : id ≠ 2) : Simple (homes.classes.decl id) ∧
    (∀ c, Ancestor.resolved c ∈ (homes.classes.decl id).mro → c.id ≠ 2) ∧
      ∀ e ∈ (homes.classes.decl id).members.entries, otherTypes.Has (e.2.effectiveType .start) := by
  obtain ⟨any, cat, dog⟩ := mem_animals
  rw [homes, decl_ofDecls]
  match id with
  | 0 => exact ⟨simple_object, fun _ h => (nomatch h), fun _ h => nomatch h⟩
  | 1 => exact ⟨(simple_classOf _ _).derived _ [0], by simp [animal, ClassTy.ofId], fun _ h => nomatch h⟩
  | 3 | 4 => exact ⟨(simple_classOf _ _).derived _ [1, 0], by simp [animal, ClassTy.ofId], fun _ h => nomatch h⟩
  | 5 =>
    refine ⟨simple_classOf _ _, fun _ h => (nomatch h), ?_⟩
    rintro e (_ | ⟨_, _ | ⟨_, _ | ⟨_, _ | ⟨_, _ | ⟨_, _ | ⟨_, h⟩⟩⟩⟩⟩⟩)
    · exact (closed_yields cat).has
    · exact (closed_yields dog).has
    · exact (closed_admits any).has
    · exact (closed_admits cat).has
    · exact (plain_instanceOf cat).1
    · exact (plain_instanceOf cat).1
    · cases h
  | n + 6 =>
    exact ⟨⟨rfl, rfl, fun a => by cases a <;> rfl, fun _ h => nomatch h⟩, fun _ h => (nomatch h),
      fun _ h => nomatch h⟩

private theorem covers_homes : otherTypes.Covers homes :=
  covers_other (fun _ h => decl_homes h) rfl fun _ _ he => nomatch he

private theorem forall_params_homes {Q : TypeVar → Prop} (one : Q yielded) (two : Q admitted)
    (three : Q kept) : ∀ v ∈ (homes.classes.decl 2).params, Q v := by
  rintro v (_ | ⟨_, _ | ⟨_, _ | ⟨_, h⟩⟩⟩)
  · exact one
  · exact two
  · exact three
  · cases h

private theorem genericProtocol_homes : otherTypes.GenericProtocol homes 2 where
  outside h := h rfl
  apart := ⟨fun _ h => h.elim, fun _ _ _ h => h.elim, fun hi => .inl (decl_homes hi).1.params⟩
  scope := by decide
  own id h := by
    rw [homes, decl_ofDecls, decl_ofDecls] at h
    match id with
    | 2 => rfl
    | 0 | 1 | 3 | 4 | 5 => exact absurd h (by decide)
    | n + 6 =>
      have h : "" = "Home" := h
      exact absurd h (by decide)
  generic := List.cons_ne_nil _ _
  params := forall_params_homes ⟨rfl, rfl, rfl, by decide⟩ ⟨rfl, rfl, rfl, by decide⟩
    ⟨rfl, rfl, rfl, by decide⟩
  distinct := by decide +kernel

/-- Any animals are yielded, and cats are admitted and kept. -/
def desired : List Ty := [instanceOf 1, instanceOf 3, instanceOf 3]

private theorem arguments_homes : otherTypes.Arguments homes 2 desired := by
  obtain ⟨any, cat, -⟩ := mem_animals
  have each : ∀ t ∈ desired, otherTypes.Has t ∧ t.Closed homes.classes := by
    rintro t (_ | ⟨_, _ | ⟨_, _ | ⟨_, h⟩⟩⟩)
    · exact plain_instanceOf any
    · exact plain_instanceOf cat
    · exact plain_instanceOf cat
    · cases h
  exact ⟨rfl, fun t ht => (each t ht).1, fun t ht => (each t ht).2⟩

section

variable {id : ClassId} (h : (ClassTy.ofId id).toInstance ∈ animals) (name : String)
include h

private theorem pair_yields : otherTypes.MemberPair homes (homes.classes.decl 2).params
    (method name none [] (.var yielded)).2 (method name none [] (instanceOf id)).2
      (.function (function none [] (.declared (.var yielded))))
      (.function (function none [] (.declared (instanceOf id)))) :=
  .methods (isMethod_method name) unannotated_function
    (linear_function (fun _ h => nomatch h) (.var List.mem_cons_self rfl)) (isMethod_method name)
    (closed_yields h)

private theorem pair_admits : otherTypes.MemberPair homes (homes.classes.decl 2).params
    (method name none [some (.var admitted)] .noneObject).2
    (method name none [some (instanceOf id)] .noneObject).2
      (.function (function none [some (.var admitted)] (.declared .noneObject)))
      (.function (function none [some (instanceOf id)] (.declared .noneObject))) := by
  refine .methods (isMethod_method name) unannotated_function (linear_function (fun t ht => ?_)
    (.closed .noneObject .noneObject)) (isMethod_method name) (closed_admits h)
  cases List.mem_singleton.1 ht
  exact .var (List.mem_cons_of_mem _ List.mem_cons_self) rfl

private theorem pair_keeps : otherTypes.MemberPair homes (homes.classes.decl 2).params
    (field name (.var kept)).2 (field name (instanceOf id)).2 (.var kept) (instanceOf id) :=
  .attributes (.var (List.mem_cons_of_mem _ (List.mem_cons_of_mem _ List.mem_cons_self)) rfl) rfl rfl
    (plain_instanceOf h).1 (plain_instanceOf h).2 rfl

end

private theorem directed_homes : otherTypes.Directed homes (· ∈ animals) 2 5 desired where
  ordinary := rfl
  members r hr t ht found present := by
    obtain ⟨any, cat, dog⟩ := mem_animals
    have other : (5 : ClassId) ≠ 2 := by decide
    rw [requirements_homes] at hr
    obtain _ | ⟨_, _ | ⟨_, _ | ⟨_, _ | ⟨_, _ | ⟨_, _ | ⟨_, h⟩⟩⟩⟩⟩⟩ := hr
    · cases ht
      cases present
      exact ⟨_, _, rfl, other, pair_yields cat "first"⟩
    · cases ht
      cases present
      exact ⟨_, _, rfl, other, pair_yields dog "second"⟩
    · cases ht
      cases present
      exact ⟨_, _, rfl, other, pair_admits any "admit"⟩
    · cases ht
      cases present
      exact ⟨_, _, rfl, other, pair_admits cat "welcome"⟩
    · cases ht
      cases present
      exact ⟨_, _, rfl, other, pair_keeps cat "pet"⟩
    · cases ht
      cases present
      exact ⟨_, _, rfl, other, pair_keeps cat "guest"⟩
    · cases h
  together := by
    obtain ⟨any, cat, dog⟩ := mem_animals
    have ranked : ∀ x ∈ otherTypes.allGathered homes 2 5, otherTypes.Ranked (· ∈ animals)
        (Substitution.ofVar (homes.given 2 desired) false x.1) ∧
          otherTypes.Ranked (· ∈ animals) x.2 := by
      rw [gathered_homes]
      rintro x (_ | ⟨_, _ | ⟨_, _ | ⟨_, _ | ⟨_, _ | ⟨_, _ | ⟨_, h⟩⟩⟩⟩⟩⟩)
      · exact ⟨ranked_instanceOf any, ranked_instanceOf cat⟩
      · exact ⟨ranked_instanceOf any, ranked_instanceOf dog⟩
      · exact ⟨ranked_instanceOf cat, ranked_instanceOf any⟩
      · exact ⟨ranked_instanceOf cat, ranked_instanceOf cat⟩
      · exact ⟨ranked_instanceOf cat, ranked_instanceOf cat⟩
      · exact ⟨ranked_instanceOf cat, ranked_instanceOf cat⟩
      · cases h
    exact List.pairwise_of_forall_mem_list fun x hx y hy _ =>
      ⟨(ranked x hx).1, (ranked x hx).2, (ranked y hy).2⟩

end Sample

/-- A class that yields cats at one method and dogs at another where animals are asked for. -/
theorem members_of_farm_fit :
    (Requirement.all Sample.homes.classes false (.ofId 2)).map Requirement.name =
        ["first", "second", "admit", "welcome", "pet", "guest"] ∧
      ∀ r ∈ Requirement.all Sample.homes.classes false (.ofId 2), ∀ t,
        r.member.declaredType = some t → ∃ u,
          exec ((Match.of Sample.homes ((ClassTy.ofId 2).given Sample.desired) (.ofId 5)
            false).fitsGiven Sample.homes (judgeAt Sample.homes 0) r t) (Sample.idle .start) =
              (.ok true, u) := by
  have rests : Sample.otherTypes.Rests [] (Sample.idle .start) := ⟨rfl, rfl, rfl⟩
  have facts : let run := exec (conformsFrom Sample.homes .own 0 .default false
        ((ClassTy.ofId 2).given Sample.desired) (.ofId 5)) (Sample.idle .start)
      run.1.toOption = some true ∧ Event.allUncut run.2.history = true := by
    decide +kernel
  rcases run : exec (conformsFrom Sample.homes .own 0 .default false
    ((ClassTy.ofId 2).given Sample.desired) (.ofId 5)) (Sample.idle .start) with ⟨_ | b, t⟩
  · rw [run] at facts
    cases facts.1
  · rw [run] at facts
    obtain ⟨answer, uncut⟩ := facts
    cases Option.some.inj answer
    refine ⟨by rw [Sample.requirements_homes]; rfl, fun r hr declared hd => ?_⟩
    exact directed_members_fit Sample.covers_homes trivial Sample.ranks_animals
      Sample.genericProtocol_homes Sample.arguments_homes Sample.directed_homes .own rests rfl run
      (List.nil_append _).symm uncut hr hd rests

namespace Sample

/-- A protocol whose type parameter is taken by one method and yielded by another, and a class that
takes one type and yields another. -/
def trade (yieldsFirst : Bool) (taken yielded : Ty) : World :=
  let members (taken yielded : Ty) : List (String × Member) :=
    let write := method "write" none [some taken] .noneObject
    let read := method "read" none [] yielded
    if yieldsFirst then [read, write] else [write, read]
  let param := parameter .invariant "P"
  ofDecls [object, classOf "A" [],
    generic .invariant (protocolOf "P" (members (.var param) (.var param))),
    classOf "C" (members taken yielded)]

end Sample

/-- A type parameter that is both taken and yielded is widened after it was taken, and narrowed after
it was yielded. Then a class may satisfy a specialization although one of its methods does not fit. -/
example :
    Sample.bothWays (Sample.trade false (Sample.instanceOf 1) (Sample.instanceOf 0)) .start
        (Sample.viewOf 2 (Sample.instanceOf 0)) 3 = (some true, false) ∧
      Sample.bothWays (Sample.trade true (Sample.instanceOf 1) (Sample.instanceOf 0)) .start
        (Sample.viewOf 2 (Sample.instanceOf 1)) 3 = (some true, false) := by
  decide +kernel

end Conformance
