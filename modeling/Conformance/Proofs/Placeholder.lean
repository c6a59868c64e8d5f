import Conformance.Proofs.Mirrors

/-!
# Typed dictionaries and the class that stands for them

A typed dictionary is compared with a protocol through the members of one class that stands for all
typed dictionaries. While that class is compared, what is in progress is the comparison of the typed
dictionary. Where no type mentions one of these classes or an ordinary double of the class that stands
for them, and nothing is solved for, the answer is that of the double: the only comparison that can
meet itself is one level deeper for the typed dictionary, and fewer levels accept as much.
-/

namespace Conformance

open Check

/-! ## Links in narrow fragments -/

namespace Link

variable {F : Fragment} {L : Link F} {ρ : Regime} {w : World} {j j' : Judge}

/-- In a narrow fragment a check follows another if it answers yes where that does. -/
theorem Agrees.of_answers (hf : ¬ F.wide) {act act' : Check Bool} (left : L.Calm (fun _ => True) act)
    (right : L.Calm (fun _ => True) act')
    (h : ∀ {s s' t t'} {b : Bool}, L.Related ρ s s' → exec act s = (.ok true, t) →
      exec act' s' = (.ok b, t') → b = true) : L.Agrees ρ act act' := by
  refine ⟨left, right, fun {s s' t t' b b'} hs run run' _ =>
    ⟨⟨fun accepted => ?_, fun wide => absurd wide hf⟩, ?_⟩⟩
  · subst accepted
    exact h hs run run'
  · have kept := (left.elim hs.left run).2.solving.narrow hf
    have kept' := (right.elim hs.right run').2.solving.narrow hf
    rw [kept, kept']
    exact hs.solving

end Link

/-! ## What is in progress -/

/-- What is in progress where the second of two classes is compared in the place of the first:
everything of the fragment, and of the first class what is in progress for the second or may be
spared. -/
structure Fragment.MirroredPending (F : Fragment) (a b : ClassId) (spare : ClassTy → Prop)
    (p p' : List Pending) : Prop where
  inside {c : Comparison} (hc : F.HasComparison c) (h : isPending F.inf p c.pair = true) :
    isPending F.inf p' c.pair = true
  doubles {q : ClassTy} (hq : F.HasClass q) (object : q.isInstance = false)
    (h : isPending F.inf p ⟨.ofId a, q⟩ = true) : isPending F.inf p' ⟨.ofId b, q⟩ = true ∨ spare q

def Fragment.mirror (F : Fragment) (a b : ClassId) (spare : ClassTy → Prop) : Link F :=
  { F.beside with base := F.MirroredPending a b spare }

namespace Fragment

variable {F : Fragment} {w : World} {a b : ClassId} {spare : ClassTy → Prop} {p p' : List Pending}

private theorem records_mirror : (F.mirror a b spare).Records w where
  cut := trivial
  assumed _ := trivial
  made _ _ _ _ _ _ _ := trivial

private theorem isPending_cons_iff {inf : Inference} {e c : Pending} {p : List Pending} :
    isPending inf (e :: p) c = true ↔
      ((Ty.cls e.candidate).same inf (.cls c.candidate) = true ∧
        (Ty.cls e.protocol).same inf (.cls c.protocol) = true) ∨ isPending inf p c = true := by
  unfold isPending
  rw [List.any_cons, Bool.or_eq_true, Bool.and_eq_true]

private theorem id_of_same {c d : ClassTy} {inf : Inference}
    (h : (Ty.cls c).same inf (.cls d) = true) : c.id = d.id := by
  change sameClassTy _ c d = true at h
  simp only [sameClassTy, Bool.and_eq_true, ClassTy.sameClass, beq_iff_eq] at h
  exact h.1.1.1

section

variable (h : F.MirroredPending a b spare p p') (left : ¬ F.ids a)
include h left

private theorem MirroredPending.cons_inside {c : Comparison} (hc : F.HasComparison c) :
    F.MirroredPending a b spare (c.pair :: p) (c.pair :: p') where
  inside hd pending := by
    rw [isPending_cons_iff] at pending ⊢
    exact pending.imp_right (h.inside hd)
  doubles hq object pending := by
    rw [isPending_cons_iff] at pending
    rcases pending with ⟨same, -⟩ | pending
    · have among : F.ids (ClassTy.ofId a).id := id_of_same same ▸ hc.candidate.ids
      exact absurd among left
    · exact (h.doubles hq object pending).imp_left fun h => isPending_cons_iff.2 (.inr h)

private theorem MirroredPending.cons_doubles (q : ClassTy) :
    F.MirroredPending a b spare (⟨.ofId a, q⟩ :: p) (⟨.ofId b, q⟩ :: p') where
  inside hd pending := by
    rw [isPending_cons_iff] at pending ⊢
    rcases pending with ⟨same, -⟩ | pending
    · have among : F.ids (ClassTy.ofId a).id := id_of_same same ▸ hd.candidate.ids
      exact absurd among left
    · exact .inr (h.inside hd pending)
  doubles hq object pending := by
    rw [isPending_cons_iff] at pending
    rcases pending with ⟨-, same⟩ | pending
    · exact .inl (isPending_cons_iff.2 (.inl ⟨(ClassTy.ViewOf.ofId b).same (.ofId b) _, same⟩))
    · exact (h.doubles hq object pending).imp_left fun h => isPending_cons_iff.2 (.inr h)

end

end Fragment

/-! ## One more level -/

namespace Link

section

variable {F : Fragment} {ρ : Regime} {w : World} {a b : ClassId} {spare : ClassTy → Prop}
  {j j' : Judge} {m m' : Mode}

private theorem calm_matchClass_mirror {asObject : Bool} {q c : ClassTy}
    (h : (F.mirror a b spare).Calm (fun _ => True) ((Comparison.of asObject q c).parts w j m)) :
    (F.mirror a b spare).Calm (fun _ => True) (matchClass w j .own m asObject q c) := by
  intro s hs
  rcases exec_matchClass_cases h hs with ⟨-, he⟩ | ⟨-, answer, t, -, kept, he⟩
  · exact ⟨true, _, he, trivial, ⟨hs.inference, hs.solving⟩, rfl, rfl, .refl _, [_], rfl,
      fun _ _ => trivial⟩
  · exact ⟨answer, _, he, trivial, kept.leaving trivial⟩

private theorem agrees_matchClass_mirror (hf : ¬ F.wide) {asObject : Bool} {q c c' : ClassTy}
    (parts : (F.mirror a b spare).Agrees ρ ((Comparison.of asObject q c).parts w j m)
      ((Comparison.of asObject q c').parts w j' m'))
    (entering : ∀ {p p'}, F.MirroredPending a b spare p p' → F.MirroredPending a b spare
      ((Comparison.of asObject q c).pair :: p) ((Comparison.of asObject q c').pair :: p'))
    (pending : ∀ {p p'}, F.MirroredPending a b spare p p' →
      isPending F.inf p (Comparison.of asObject q c).pair = true →
        isPending F.inf p' (Comparison.of asObject q c').pair = true ∨
          ∀ s, F.Start s → (exec (matchClass w j' .own m' asObject q c') s).1 = .ok true) :
    (F.mirror a b spare).Agrees ρ (matchClass w j .own m asObject q c)
      (matchClass w j' .own m' asObject q c') := by
  refine Agrees.of_answers hf (calm_matchClass_mirror parts.left)
    (calm_matchClass_mirror parts.right) fun {s s' t t' answer} related run run' => ?_
  rcases exec_matchClass_cases parts.right related.right with
    ⟨-, held⟩ | ⟨fresh, second, u', ran', -, he'⟩
  · rw [held] at run'
    cases run'
    rfl
  · rcases exec_matchClass_cases parts.left related.left with
      ⟨held, -⟩ | ⟨-, first, u, ran, -, he⟩
    · rcases pending related.pending held with held' | granted
      · rw [fresh] at held'
        cases held'
      · have accepted := granted s' related.right
        rw [run'] at accepted
        exact Except.ok.inj accepted
    · rw [he] at run
      rw [he'] at run'
      cases run
      cases run'
      have entered : (F.mirror a b spare).Related ρ (s.entering (.of asObject q c))
          (s'.entering (.of asObject q c')) :=
        ⟨related.left.entering _, related.right.entering _, entering related.pending,
          related.solving⟩
      exact (parts.link entered ran ran' fun _ _ _ _ => trivial).1.1 rfl

end

private theorem alike_object (w : World) :
    w.AlikeOn (fun _ => True) (w.withTypedDict Builtin.object) := w.alikeOn_withTypedDict _

section

variable {F : Fragment} {L : Link F} {ρ : Regime} {w : World} {a b : ClassId} {j j' : Judge}
  {m m' : Mode} {q : ClassTy} (hw : F.Covers (w.withTypedDict Builtin.object)) (hf : ¬ F.wide)
  (hab : (w.withTypedDict Builtin.object).Doubles F a b)
include hw hf hab

private theorem agrees_matchMembers_doubles (hj : L.Mirrors a b j j') (hm : ρ.Modes m m')
    (hv : m.invariant = false) (hq : F.HasClass q) {c c' : ClassId}
    (looked : (Match.of w q (.ofId c) false).candidate = .ofId a)
    (looked' : (Match.of w q (.ofId c') false).candidate = .ofId b) :
    L.Agrees ρ (matchMembers w j m false q (.ofId c)) (matchMembers w j' m' false q (.ofId c')) := by
  have apart := hw.apart.resolve_left hf hq.ids
  have untouched (self : ClassTy) := Fragment.untouched_withSelf hw.toScopes hf apart self
  have matches_ : Match.Doubles F (w.withTypedDict Builtin.object) a b
      (Match.of w q (.ofId c) false) (Match.of w q (.ofId c') false) :=
    ⟨rfl, rfl, rfl, looked, looked', untouched _, untouched _⟩
  unfold matchMembers
  rw [← hm.invariant, if_neg (Bool.eq_false_iff.1 hv), if_neg (Bool.eq_false_iff.1 hv)]
  dsimp only
  rw [← (alike_object w).meetAll_eq j m q _ fun r _ => (alike_object w).matchMember_eq j _ trivial,
    ← (alike_object w).meetAll_eq j' m' q _ fun r _ => (alike_object w).matchMember_eq j' _ trivial]
  exact agrees_meetAll hw hj.assign hm hq fun r hr =>
    agrees_matchMember_doubles hw hf hj hab matches_ (hasRequirement_of_mem hw hq hr)

variable {spare : ClassTy → Prop} {k l : Nat}
  (ordinary : ∀ id, F.ids id → w.classes.isTypedDict (.ofId id) = false)
include ordinary

theorem Mirrors.succ (h : (F.mirror a b spare).Mirrors a b (judge w k) (judge w l))
    (granted : ∀ q, spare q → ∀ m : Mode, m.invariant = false → ∀ s, F.Start s →
      (exec (matchClass w (judge w l) .own m false q (.ofId b)) s).1 = .ok true) :
    (F.mirror a b spare).Mirrors a b (judge w (k + 1)) (judge w (l + 1)) where
  assign hm hd hs := by
    have step := agrees_assignStep hw h.toFollows hm hd hs
    rwa [(alike_object w).assignStep_eq rfl, (alike_object w).assignStep_eq rfl] at step
  conforms {ρ m m'} hm hv asObject protocol candidate hp hc := by
    have asked := Fragment.hasComparison_of hp hc asObject
    have parts := agrees_matchMembers hw h.assign hm asObject asked.protocol asked.candidate
    have object : w.classes.isTypedDict (Comparison.of asObject protocol candidate).pair.candidate =
        false := ordinary _ hc.ids
    rw [(alike_object w).matchMembers_eq_of_asked _ _ (.inl object) rfl fun _ _ => trivial,
      (alike_object w).matchMembers_eq_of_asked _ _ (.inl object) rfl fun _ _ => trivial] at parts
    refine (Sim.trace _ _).bind fun _ _ => agrees_matchClass_mirror hf parts ?_ ?_
    · exact fun pending => pending.cons_inside hab.left.unmentioned asked
    · exact fun pending held => .inl (pending.inside asked held)
  modules {ρ m m'} hm protocol hp _ table := by
    have matched := agrees_matchModule hw h.assign hm hp table
    rw [(alike_object w).matchModule_eq_of_asked _ _ rfl, (alike_object w).matchModule_eq_of_asked _ _ rfl] at matched
    exact (Sim.trace _ _).bind fun _ _ => matched
  doubles {ρ m m'} hm dest t u hd ht := by
    have step := agrees_assignStep_doubles h hm hw hf hab hd ht
    rwa [(alike_object w).assignStep_eq rfl, (alike_object w).assignStep_eq rfl] at step
  satisfied {ρ m m'} hm hv protocol hp := by
    have looked {id : ClassId} (h : w.classes.isTypedDict (.ofId id) = false) :
        (Match.of w protocol.toClassObject (.ofId id) false).candidate = .ofId id := by
      unfold Match.of
      rw [h]
      rfl
    have parts := agrees_matchMembers_doubles hw hf hab h hm hv hp.toClassObject
      (looked hab.left.ordinary) (looked hab.right.ordinary)
    refine (Sim.trace _ _).bind fun _ _ => agrees_matchClass_mirror hf parts ?_ ?_
    · exact fun pending => pending.cons_doubles hab.left.unmentioned protocol.toClassObject
    · intro p p' pending held
      refine (pending.doubles hp.toClassObject rfl held).imp_right fun spared => ?_
      exact granted _ spared m' (hm.invariant ▸ hv)

/-! ## All levels -/

omit hw hab ordinary in
private theorem mirrors_cut : (F.mirror a b spare).Mirrors a b (accepting w) (accepting w) :=
  have accepts : (F.mirror a b spare).Calm (· = true) cutOff :=
    Calm.cutOff (w := w) Fragment.records_mirror
  { follows_accepting Fragment.records_mirror hf (calms_accepting Fragment.records_mirror) with
    doubles := fun _ _ _ _ _ _ => Agrees.of_yes hf (accepts.imp fun _ _ => trivial) accepts
    satisfied := fun _ _ _ _ =>
      Agrees.of_yes hf ((Calm.trace _).bind fun _ _ => accepts.imp fun _ _ => trivial)
        ((Calm.trace _).bind fun _ _ => accepts) }

omit hw hab ordinary in
/-- What is left of the levels below the last one follows anything. -/
theorem Mirrors.accepting (h : (F.mirror a b spare).Mirrors a b j j') :
    (F.mirror a b spare).Mirrors a b j (accepting w) :=
  have accepts : (F.mirror a b spare).Calm (· = true) cutOff :=
    Calm.cutOff (w := w) Fragment.records_mirror
  { follows_accepting Fragment.records_mirror hf h.toFollows.left with
    doubles := fun hm _ _ _ hd ht => Agrees.of_yes hf (h.doubles hm hd ht).left accepts
    satisfied := fun hm hv _ hp => Agrees.of_yes hf (h.satisfied hm hv hp).left
      ((Calm.trace _).bind fun _ _ => accepts) }

private theorem mirrors_judge {top : Nat} (granted : ∀ l < top, ∀ q, spare q → ∀ m : Mode,
      m.invariant = false → ∀ s, F.Start s →
        (exec (matchClass w (judge w l) .own m false q (.ofId b)) s).1 = .ok true)
    (fewer : l ≤ k) (below : k ≤ top) : (F.mirror a b spare).Mirrors a b (judge w k) (judge w l) := by
  induction k generalizing l with
  | zero =>
    cases Nat.le_zero.1 fewer
    exact mirrors_cut hf
  | succ k ih =>
    have step {l : Nat} (fewer : l ≤ k) := (ih fewer (Nat.le_of_succ_le below)).succ hw hf hab
      ordinary (granted l (Nat.lt_of_le_of_lt fewer below))
    cases l with
    | zero => exact (step (Nat.le_refl k)).accepting hf
    | succ l => exact step (Nat.le_of_succ_le_succ fewer)

end

end Link

/-! ## At the outermost level -/

private theorem Match.candidate_of_ordinary {w : World} {q : ClassTy} {id : ClassId}
    (h : w.classes.isTypedDict (.ofId id) = false) :
    (Match.of w q (.ofId id) false).candidate = .ofId id := by
  unfold Match.of
  rw [h]
  rfl

private theorem Match.candidate_of_typedDict {w : World} {q : ClassTy} {id placeholder : ClassId}
    (h : w.classes.isTypedDict (.ofId id) = true) (standsIn : w.typedDict = .ofId placeholder) :
    (Match.of w q (.ofId id) false).candidate = .ofId placeholder := by
  unfold Match.of
  rw [h, standsIn]
  rfl

private theorem answer_matchClass {w : World} (j : Judge) (choice : StackChoice) (m : Mode)
    (asObject : Bool)
    (q c : ClassTy) (s : CheckState) :
    (exec (matchClass w j choice m asObject q c) s).1 =
      if isPending s.inference (pendingOn choice s) (Comparison.of asObject q c).pair then .ok true
      else (exec ((Comparison.of asObject q c).parts w j m)
        (s.enteringOn choice (.of asObject q c))).1 := by
  rw [Link.exec_matchClass]
  dsimp only
  split <;> rfl

private theorem CheckState.Outermost.mirroredPending {F : Fragment} {a b c : ClassId}
    {spare : ClassTy → Prop} {q : ClassTy} {s : CheckState} {p' : List Pending}
    (outermost : s.Outermost) (choice : StackChoice) (apart : ¬ F.ids c)
    (met : c = a → ∀ {q' : ClassTy}, F.HasClass q' → q'.isInstance = false →
      (Ty.cls q.toClassObject).same F.inf (.cls q') = true →
        isPending F.inf p' ⟨.ofId b, q'⟩ = true ∨ spare q') :
    F.MirroredPending a b spare (s.enteringOn choice (.of false q (.ofId c))).pending p' := by
  have entered {e : Pending}
      (pending : isPending F.inf (s.enteringOn choice (.of false q (.ofId c))).pending e = true) :
      (Ty.cls (.ofId c)).same F.inf (.cls e.candidate) = true ∧
        (Ty.cls q.toClassObject).same F.inf (.cls e.protocol) = true := by
    have inside := CheckState.pendingOn_enteringOn choice .own (.of false q (.ofId c)) s
    rw [outermost.pendingOn_eq] at inside
    rw [show (s.enteringOn choice (.of false q (.ofId c))).pending = _ from inside] at pending
    split at pending
    · exact (Fragment.isPending_cons_iff.1 pending).resolve_right Bool.false_ne_true
    · cases pending
  refine ⟨fun hc pending => ?_, fun hq object pending => ?_⟩
  · have among : F.ids (ClassTy.ofId c).id :=
      Fragment.id_of_same (entered pending).1 ▸ hc.candidate.ids
    exact absurd among apart
  · obtain ⟨candidate, protocol⟩ := entered pending
    exact met (Fragment.id_of_same candidate) hq object protocol

section

variable {F : Fragment} {w : World} {a b c c' : ClassId} {spare : ClassTy → Prop} {q : ClassTy}
  {m m' : Mode} {s s' : CheckState} (hw : F.Covers (w.withTypedDict Builtin.object))
  (hf : ¬ F.wide) (hab : (w.withTypedDict Builtin.object).Doubles F a b)
  (hv : m.invariant = false) (hv' : m'.invariant = false) (hq : F.HasClass q)
include hw hf hab hv hv' hq

private theorem answers_parts_doubles {j j' : Judge}
    (mirrors : (F.mirror a b spare).Mirrors a b j j')
    (looked : (Match.of w q.toClassObject (.ofId c) false).candidate = .ofId a)
    (looked' : (Match.of w q.toClassObject (.ofId c') false).candidate = .ofId b)
    (hs : s.inference = F.inf) (hs' : s'.inference = F.inf)
    (pending : F.MirroredPending a b spare s.pending s'.pending) :
    ∃ x y, (exec ((Comparison.of false q (.ofId c)).parts w j m) s).1 = .ok x ∧
      (exec ((Comparison.of false q (.ofId c')).parts w j' m') s').1 = .ok y ∧
      (x = true → y = true) := by
  have linked : (F.mirror a b spare).Agrees .idle ((Comparison.of false q (.ofId c)).parts w j m)
      ((Comparison.of false q (.ofId c')).parts w j' m') :=
    Link.agrees_matchMembers_doubles (ρ := .idle) hw hf hab mirrors (hv.trans hv'.symm) hv
      hq.toClassObject looked looked'
  have start := start_of_inference (F := F) hs
  have start' := start_of_inference (F := F) hs'
  obtain ⟨x, t, hx, -⟩ := linked.left _ start
  obtain ⟨y, t', hy, -⟩ := linked.right _ start'
  have related : (F.mirror a b spare).Related .idle { s with solving := none }
      { s' with solving := none } :=
    ⟨start, start', pending, start.solving.idle.resolve_left hf, start'.solving.idle.resolve_left hf⟩
  have follows := (linked.link related hx hy fun _ _ _ _ => trivial).1.1
  -- what is solved for does not matter, as the protocol has no parameters
  have params : (w.classes.decl q.toClassObject.id).params = [] := hw.params_eq_nil hf hq.ids
  have answer (c : ClassId) (j : Judge) (m : Mode) (t : CheckState) :
      (exec ((Comparison.of false q (.ofId c)).parts w j m) t).1 =
        (exec ((Comparison.of false q (.ofId c)).parts w j m) { t with solving := none }).1 :=
    (congrArg Prod.fst (exec_parts_of_params params t none)).symm
  exact ⟨x, y, (answer c j m s).trans (congrArg Prod.fst hx),
    (answer c' j' m' s').trans (congrArg Prod.fst hy), follows⟩

variable (ordinary : ∀ id, F.ids id → w.classes.isTypedDict (.ofId id) = false) {n : Nat}
  (outermost : s.Outermost)
include ordinary outermost

omit hv' in
private theorem accepts_double_below (hs : s.inference = F.inf) {choice : StackChoice}
    (accepted : (exec ((Comparison.of false q (.ofId a)).parts w (judge w n) m)
      (s.enteringOn choice (.of false q (.ofId a)))).1 = .ok true) {l : Nat} (below : l ≤ n)
    (m' : Mode) (hv' : m'.invariant = false) (s' : CheckState) (hs' : F.Start s') :
    (exec (matchClass w (judge w l) .own m' false q (.ofId b)) s').1 = .ok true := by
  rw [answer_matchClass]
  split
  · rfl
  · have mirrors : (F.mirror a b fun _ => False).Mirrors a b (judge w n) (judge w l) :=
      Link.mirrors_judge hw hf hab ordinary (fun _ _ _ spared => spared.elim) below (Nat.le_refl n)
    have pending : F.MirroredPending a b (fun _ => False)
        (s.enteringOn choice (.of false q (.ofId a))).pending
        (s'.enteringOn .own (.of false q (.ofId b))).pending := by
      refine outermost.mirroredPending choice hab.left.unmentioned fun _ _ _ _ same => .inl ?_
      exact Fragment.isPending_cons_iff.2 (.inl ⟨(ClassTy.ViewOf.ofId b).same (.ofId b) _, same⟩)
    obtain ⟨x, y, hx, hy, follows⟩ := answers_parts_doubles hw hf hab hv hv' hq mirrors
      (Match.candidate_of_ordinary hab.left.ordinary)
      (Match.candidate_of_ordinary hab.right.ordinary)
      ((CheckState.inference_enteringOn ..).trans hs)
      ((CheckState.inference_enteringOn ..).trans hs'.inference) pending
    cases Except.ok.inj (hx.symm.trans accepted)
    rw [hy, follows rfl]

end

private theorem answer_parts_invariant {F : Fragment} {w : World} {j : Judge} {m : Mode}
    (hv : m.invariant = true) {q : ClassTy} (hq : F.HasClass q) {id : ClassId} (apart : ¬ F.ids id)
    (s : CheckState) : (exec ((Comparison.of false q (.ofId id)).parts w j m) s).1 = .ok false := by
  have unlike : (Ty.cls q.toClassObject).same s.inference (.cls (.ofId id)) = false :=
    Bool.eq_false_iff.2 fun same => by
      have among : F.ids (ClassTy.ofId id).id := Fragment.id_of_same same ▸ hq.toClassObject.ids
      exact apart among
  unfold Comparison.parts matchMembers
  rw [if_pos hv]
  exact congrArg Except.ok unlike

section

variable {F : Fragment} (hf : ¬ F.wide) {w : World}
  (hw : F.Covers (w.withTypedDict Builtin.object))
  (ordinary : ∀ id, F.ids id → w.classes.isTypedDict (.ofId id) = false)
  {placeholder double dict : ClassId} (standsIn : w.typedDict = .ofId placeholder)
  (doubles : w.Doubles F placeholder double) (typed : w.classes.isTypedDict (.ofId dict) = true)
  {protocol : ClassTy} (hp : F.HasClass protocol) (choice choice' : StackChoice)
  {s s' : CheckState} (hs : s.inference = F.inf) (outermost : s.Outermost)
  (hs' : s'.inference = F.inf) (outermost' : s'.Outermost)
include hf hw ordinary standsIn doubles typed hp hs outermost hs' outermost'

private theorem answer_parts_typedDict {mode mode' : Mode} (hm : mode.invariant = false)
    (hm' : mode'.invariant = false) {n : Nat} :
    let c := Comparison.of false protocol (.ofId dict)
    let d := Comparison.of false protocol (.ofId double)
    ∃ b, (exec (c.parts w (judge w n) mode) (s.enteringOn choice c)).1 = .ok b ∧
      (exec (d.parts w (judge w n) mode') (s'.enteringOn choice' d)).1 = .ok b := by
  intro c d
  have hab := doubles.withTypedDict Builtin.object
  have looked : (Match.of w protocol.toClassObject (.ofId dict) false).candidate = .ofId placeholder :=
    Match.candidate_of_typedDict typed standsIn
  have looked' : (Match.of w protocol.toClassObject (.ofId double) false).candidate = .ofId double :=
    Match.candidate_of_ordinary doubles.right.ordinary
  have unlike : dict ≠ placeholder := by
    rintro rfl
    exact absurd (typed.symm.trans doubles.left.ordinary) (by decide)
  have apart : ¬ F.ids dict := fun among =>
    absurd (typed.symm.trans (ordinary dict among)) (by decide)
  have entered := (CheckState.inference_enteringOn choice c s).trans hs
  have entered' := (CheckState.inference_enteringOn choice' d s').trans hs'
  -- the comparison of the typed dictionary may go one level deeper than that of the double
  have mirrors : (F.mirror placeholder double fun _ => False).Mirrors placeholder double (judge w n)
      (judge w n) :=
    Link.mirrors_judge hw hf hab ordinary (fun _ _ _ spared => spared.elim) (Nat.le_refl n)
      (Nat.le_refl n)
  obtain ⟨x, y, hx, hy, down⟩ := answers_parts_doubles hw hf hab hm hm' hp mirrors looked looked'
    entered entered' (outermost.mirroredPending choice apart fun same => absurd same unlike)
  refine ⟨x, hx, ?_⟩
  cases y with
  | false =>
    cases x with
    | false => exact hy
    | true => cases down rfl
  | true =>
    -- what the double has in progress itself holds for the class that stands in
    have granted (l : Nat) (below : l < n) (q : ClassTy) (spared : q = protocol.toClassObject)
        (m : Mode) (hv : m.invariant = false) (t : CheckState) (ht : F.Start t) :
        (exec (matchClass w (judge w l) .own m false q (.ofId placeholder)) t).1 = .ok true :=
      spared ▸ accepts_double_below hw hf hab.symm hm' hp ordinary outermost' hs' hy
        (Nat.le_of_lt below) m hv t ht
    have back := Link.mirrors_judge hw hf hab.symm ordinary granted (Nat.le_refl n) (Nat.le_refl n)
    obtain ⟨y', x', hy', hx', up⟩ := answers_parts_doubles hw hf hab.symm hm' hm hp back looked'
      looked entered' entered
      (outermost'.mirroredPending choice' doubles.right.unmentioned fun _ _ hq object same =>
        .inr (Fragment.eq_of_same hf hp.toClassObject hq same).symm)
    cases Except.ok.inj (hy'.symm.trans hy)
    cases Except.ok.inj (hx'.symm.trans hx)
    cases up rfl
    exact hy

/-- A class that stands for typed dictionaries, and a double of it, are not mentioned by the types that
are compared; the classes that are mentioned are no typed dictionaries, and nothing is solved for. Then
the comparison of a typed dictionary with a protocol answers as that of the double does, at every
depth. -/
theorem typedDict_judged_as_double (depth : Int) {mode mode' : Mode}
    (alike : mode.invariant = mode'.invariant) :
    ∃ b, (exec (conformsFrom w choice depth mode false protocol (ClassTy.ofId dict).toInstance) s).1 =
        .ok b ∧
      (exec (conformsFrom w choice' depth mode' false protocol (ClassTy.ofId double).toInstance)
        s').1 = .ok b := by
  have apart : ¬ F.ids dict := fun among =>
    absurd (typed.symm.trans (ordinary dict among)) (by decide)
  unfold conformsFrom
  cases levelsAt depth with
  | zero => exact ⟨true, rfl, rfl⟩
  | succ n =>
    dsimp only
    rw [matchClass_toInstance, matchClass_toInstance, answer_matchClass, answer_matchClass,
      outermost.isPending_eq, outermost'.isPending_eq]
    cases hm : mode.invariant with
    | true =>
      exact ⟨false, answer_parts_invariant hm hp apart _,
        answer_parts_invariant (alike.symm.trans hm) hp doubles.right.unmentioned _⟩
    | false =>
      exact answer_parts_typedDict hf hw ordinary standsIn doubles typed hp choice choice' hs
        outermost hs' outermost' hm (alike.symm.trans hm)

end

namespace Sample

def firstTypes : Fragment := { plainTypes with ids := fun id => id < 2 }

def copyOf (name : String) (id : ClassId) : String × Member :=
  method "copy" none [] (.var (.self name name (.ofId id)))

/-- A protocol that asks for a method, a typed dictionary with a key of the name of a method, and two
classes whose methods yield their receivers. The first of them stands for typed dictionaries. -/
def dictsFor (asked : String × Member) : World :=
  { ofDecls [object,
      protocolOf "P" [asked, method "keys" none [] (instanceOf 0)],
      { classOf "T" [field "copy" (instanceOf 3)] with
        flags := { ClassFlags.none with typedDict := true } },
      classOf "N" [],
      { classOf "D" [copyOf "D" 4, method "keys" none [] (instanceOf 0)] with
        mro := [.resolved Builtin.object] },
      { classOf "K" [copyOf "K" 5, method "keys" none [] (instanceOf 0)] with
        mro := [.resolved Builtin.object] }] with
    typedDict := .ofId 4 }

/-- The method that is asked for yields another value of the protocol. -/
def dicts : World := dictsFor (method "copy" none [] (instanceOf 1))

private theorem hasClass_first {id : ClassId} (h : id < 2) : firstTypes.HasClass (.ofId id) :=
  .cls h (.inr ⟨rfl, rfl⟩) fun _ h => nomatch h

private theorem params_first {ret : Return} :
    ∀ p ∈ (function none [] ret).params, firstTypes.HasOption p.type := by
  intro p hp
  rw [List.mem_singleton.1 hp]
  exact Fragment.hasOption_none

private theorem bindable_first {ret : Return} : firstTypes.Bindable (function none [] ret) :=
  .inr (.inr fun p hp => by
    cases hp
    rfl)

private theorem hasMember_first (name : String) {id : ClassId} (h : id < 2) :
    firstTypes.HasMember ((method name none [] (instanceOf id)).2.effectiveType .start) := by
  refine ⟨.function params_first ?_ (fun _ _ h => nomatch h), fun f hf => ?_, fun _ h => nomatch h⟩
  · rintro _ ⟨⟩
    exact (hasClass_first h).toInstance
  · cases hf
    exact bindable_first

private theorem eq_of_first {id : ClassId} (h : firstTypes.ids id) : id = 0 ∨ id = 1 :=
  Nat.le_one_iff_eq_zero_or_eq_one.1 (Nat.le_of_lt_succ h)

private theorem covers_dicts : firstTypes.Covers (dicts.withTypedDict Builtin.object) := by
  have simple {id : ClassId} (h : firstTypes.ids id) : Simple (dicts.classes.decl id) := by
    rcases eq_of_first h with rfl | rfl
    · exact simple_object
    · exact simple_protocolOf _ _
  have childless {id : ClassId} (h : firstTypes.ids id) : (dicts.classes.decl id).mro = [] := by
    rcases eq_of_first h with rfl | rfl <;> rfl
  refine ⟨⟨fun h v hv => ?_, .inr fun _ _ hv => hv.elim⟩, (by decide : 0 < 2),
    hasClass_first (by decide), fun h c hc => ?_, fun {c} h m hm => ?_, fun h a f hf => ?_,
    fun h e he => .inl ?_, fun table e he => ?_⟩
  · rw [World.classes_withTypedDict, (simple h).params] at hv
    cases hv
  · rw [World.classes_withTypedDict, childless h] at hc
    cases hc
  · rw [ClassTable.metaclass?, World.classes_withTypedDict, (simple h).metaclass] at hm
    cases hm
  · rw [World.classes_withTypedDict, (simple h).accessors a] at hf
    cases hf
  · rcases eq_of_first h with rfl | rfl
    · cases he
    · rcases List.mem_cons.1 he with rfl | he
      · exact hasMember_first "copy" (by decide)
      · rw [List.mem_singleton.1 he]
        exact hasMember_first "keys" (by decide)
  · cases he

private theorem doubles_dicts (asked : String × Member) :
    (dictsFor asked).Doubles firstTypes 4 5 := by
  have outside {id : ClassId} (h : id = 4 ∨ id = 5) : (dictsFor asked).Outside firstTypes id := by
    rcases h with rfl | rfl
    · exact ⟨(by decide : ¬ 4 < 2), fun _ hv => hv.elim, by decide, rfl, rfl⟩
    · exact ⟨(by decide : ¬ 5 < 2), fun _ hv => hv.elim, by decide, rfl, rfl⟩
  have returns {id : ClassId} (name : String) (named : name ≠ "") {v : TypeVar}
      (h : v = .self name name (.ofId id)) :
      firstTypes.ReturnsSelf v (function none [] (.declared (.var (.self name name (.ofId id))))) :=
    ⟨params_first, bindable_first, ⟨_, rfl, rfl, h ▸ rfl, h ▸ rfl⟩, h ▸ named⟩
  refine ⟨outside (.inl rfl), outside (.inr rfl), rfl, fun c hc => ?_, ?_, fun _ _ => rfl⟩
  · cases List.mem_singleton.1 hc
    exact ⟨hasClass_first (by decide), fun e he => nomatch he⟩
  · refine .cons ⟨rfl, rfl, rfl, ?_⟩ (.cons ⟨rfl, rfl, rfl, ?_⟩ .nil)
    · exact .receiver (by decide) (returns "D" (by decide) rfl) (returns "K" (by decide) rfl) rfl rfl
    · exact .same (hasMember_first "keys" (by decide))

end Sample

/-- A typed dictionary satisfies a protocol whose method yields another value of the protocol, as the
method of the class that stands for typed dictionaries yields its receiver. Its own keys are not looked
at. -/
theorem typedDict_judged_as_double_of_copy :
    (exec (conformsFrom Sample.dicts .own 0 .default false (.ofId 1) (ClassTy.ofId 2).toInstance)
        (Sample.idle .start)).1 = .ok true ∧
      (exec (conformsFrom Sample.dicts .own 0 .default false (.ofId 1) (ClassTy.ofId 5).toInstance)
        (Sample.idle .start)).1 = .ok true := by
  have ordinary : ∀ id, Sample.firstTypes.ids id →
      Sample.dicts.classes.isTypedDict (.ofId id) = false := by
    intro id h
    rcases Sample.eq_of_first h with rfl | rfl <;> rfl
  obtain ⟨b, dict, double⟩ := typedDict_judged_as_double (F := Sample.firstTypes) id
    Sample.covers_dicts ordinary rfl (Sample.doubles_dicts _)
    (rfl : Sample.dicts.classes.isTypedDict (.ofId 2) = true)
    (Sample.hasClass_first (by decide : 1 < 2)) .own .own
    (rfl : (Sample.idle .start).inference = _) ⟨rfl, rfl⟩
    (rfl : (Sample.idle .start).inference = _) ⟨rfl, rfl⟩ 0
    (rfl : Mode.default.invariant = Mode.default.invariant)
  have accepted : (exec (conformsFrom Sample.dicts .own 0 .default false (.ofId 1)
      (ClassTy.ofId 5).toInstance) (Sample.idle .start)).1 = .ok true := by
    decide +kernel
  refine ⟨?_, accepted⟩
  rw [dict, ← double, accepted]

/-- A protocol that asks for a method which yields its receiver is not satisfied by a typed dictionary,
though it is by a double of the class that stands for it: the receiver is the typed dictionary in what
is asked for, and the other class in what is found. -/
example :
    let w := Sample.dictsFor (Sample.copyOf "P" 1)
    (exec (conformsFrom w .own 0 .default false (.ofId 1) (ClassTy.ofId 2).toInstance)
        (Sample.idle .start)).1 = .ok false ∧
      (exec (conformsFrom w .own 0 .default false (.ofId 1) (ClassTy.ofId 5).toInstance)
        (Sample.idle .start)).1 = .ok true := by
  decide +kernel

end Conformance
