import Conformance.Proofs.Order
import Conformance.Proofs.Regular

/-!
# Types and themselves

Where nothing is solved for, a regular type accepts itself, whatever the mode and the number of
levels.
-/

namespace Conformance

open Check

namespace Fragment

/-- Nothing is solved for, and these comparisons are in progress. -/
structure Rests (F : Fragment) (l : List Pending) (s : CheckState) : Prop where
  inference : s.inference = F.inf
  pending : s.pending = l
  solving : s.solving = none

/-- The check answers yes where nothing is solved for. -/
def Accepts (F : Fragment) (l : List Pending) (act : Check Bool) : Prop :=
  ∀ s, F.Rests l s → ∃ t, exec act s = (.ok true, t) ∧ F.Rests l t

variable {F : Fragment} {l : List Pending} {α : Type}

theorem Rests.start {s : CheckState} (h : F.Rests l s) : F.Start s :=
  ⟨h.inference, h.solving ▸ solving_none⟩

theorem Rests.of_kept {L : Link F} {s t : CheckState} (h : F.Rests l s) (kept : L.Kept s t) :
    F.Rests l t := by
  refine ⟨kept.start.inference, kept.pending.trans h.pending, ?_⟩
  have scopes := kept.solving.scopes
  rw [h.solving] at scopes
  exact Option.map_eq_none_iff.1 scopes

namespace Accepts

theorem pure : F.Accepts l (pure true) := fun s hs => ⟨s, rfl, hs⟩

theorem cutOff : F.Accepts l cutOff :=
  fun _ hs => ⟨_, rfl, hs.inference, hs.pending, hs.solving⟩

theorem after {act : Check α} {k : α → Check Bool} {a : α}
    (h : ∀ s, F.Rests l s → exec act s = (.ok a, s)) (hk : F.Accepts l (k a)) :
    F.Accepts l (act >>= k) := by
  intro s hs
  obtain ⟨t, ht, rests⟩ := hk s hs
  exact ⟨t, by rw [exec_bind_of_ok (h s hs), ht], rests⟩

theorem bind {act : Check Bool} {k : Bool → Check Bool} (h : F.Accepts l act)
    (hk : F.Accepts l (k true)) : F.Accepts l (act >>= k) := by
  intro s hs
  obtain ⟨t, ht, rests⟩ := h s hs
  obtain ⟨u, hu, rests'⟩ := hk t rests
  exact ⟨u, by rw [exec_bind_of_ok ht, hu], rests'⟩

theorem inference {k : Inference → Check Bool} (hk : F.Accepts l (k F.inf)) :
    F.Accepts l (Check.inference >>= k) :=
  after (fun s hs => by rw [exec_inference, hs.inference]) hk

theorem solution {k : Option Solution → Check Bool} (hk : F.Accepts l (k none)) :
    F.Accepts l (Check.solution >>= k) :=
  after (fun s hs => by rw [exec_solution, hs.solving]) hk

theorem demand {f : FunctionTy} (h : F.HasFunction f) {k : Unit → Check Bool}
    (hk : F.Accepts l (k ())) : F.Accepts l (Check.demand f >>= k) :=
  after (fun s _ => by rw [exec_demand, demand_eq h.settled]) hk

theorem notes {n : CheckState → Option Explanation}
    {n' : CheckState → CheckState → Option Explanation} {act : Check Bool} (h : F.Accepts l act) :
    F.Accepts l (Check.within (fun s => { s with notes := n s })
      (fun before s => { s with notes := n' before s }) act) := by
  intro s hs
  obtain ⟨t, ht, rests⟩ := h { s with notes := n s } ⟨hs.inference, hs.pending, hs.solving⟩
  refine ⟨{ t with notes := n' s t }, ?_, rests.inference, rests.pending, rests.solving⟩
  rw [exec_within, ht]

theorem child {act : Check Bool} (h : F.Accepts l act) : F.Accepts l (child act) := h.notes

theorem silently {act : Check Bool} (h : F.Accepts l act) : F.Accepts l (silently act) := h.notes

theorem attempt {act : Check Bool} (h : F.Accepts l act) : F.Accepts l (attempt act) := by
  intro s hs
  obtain ⟨t, ht, rests⟩ := h s hs
  exact ⟨t, Link.exec_attempt_eq ht, rests⟩

theorem orElse {act no : Check Bool} (h : F.Accepts l act) :
    F.Accepts l (act >>= fun b => if b = true then Pure.pure true else no) := h.bind pure

theorem explained {act : Check Bool} {messages : Check Unit} (h : F.Accepts l act) :
    F.Accepts l (explained act messages) := h.orElse

theorem allOf {f : α → Check Bool} {as : List α} (h : ∀ a ∈ as, F.Accepts l (f a)) :
    F.Accepts l (allOf f as) := by
  induction as with
  | nil => exact pure
  | cons a as ih =>
    rw [Check.allOf]
    exact (h a List.mem_cons_self).bind ((ih fun b hb => h b (List.mem_cons_of_mem a hb)).bind pure)

/-- One of several checks that all answer is enough. -/
theorem anyOf {L : Link F} {f : α → Check Bool} {as : List α}
    (calm : ∀ a ∈ as, L.Calm (fun _ => True) (f a)) {a : α} (ha : a ∈ as)
    (h : F.Accepts l (f a)) : F.Accepts l (anyOf f as) := by
  induction as with
  | nil => cases ha
  | cons b as ih =>
    rw [Check.anyOf]
    intro s hs
    obtain ⟨c, t, ht, -, kept⟩ := calm b List.mem_cons_self s hs.start
    rw [exec_bind_of_ok ht]
    cases c with
    | true => exact ⟨t, rfl, hs.of_kept kept⟩
    | false =>
      rcases List.mem_cons.1 ha with rfl | ha
      · obtain ⟨u, hu, -⟩ := h s hs
        rw [ht] at hu
        cases hu
      · exact ih (fun c hc => calm c (List.mem_cons_of_mem b hc)) ha t (hs.of_kept kept)

end Accepts

/-! ## The parts of a comparison -/

section

variable {w : World} {j : Judge} {m : Mode} {dest source : Ty}

theorem reverseVar?_none (m : Mode) (source : Ty) : reverseVar? m none source = none := by
  unfold reverseVar?
  split
  · simp
  · rfl

theorem accepts_assignTy (hd : ∀ v, dest ≠ .var v)
    (h : dest.isAnyOrUnknown = false → source.isAnyOrUnknown = false →
      F.Accepts l (assignProper w j m dest source)) : F.Accepts l (assignTy w j m dest source) := by
  refine Accepts.solution ?_
  rw [reverseVar?_none]
  dsimp only
  split
  · exact absurd rfl (hd _)
  · split
    · exact Accepts.pure
    · rename_i proper
      rw [Bool.or_eq_true, not_or, Bool.not_eq_true, Bool.not_eq_true] at proper
      exact h proper.1 proper.2

/-- Types that are the same are accepted where the same are demanded, and by a variable. -/
theorem accepts_same (same : dest.same F.inf source = true)
    (h : m.invariant = true ∨ ∃ v, dest = .var v) : F.Accepts l (assignTy w j m dest source) := by
  by_cases hv : ∃ v, dest = .var v
  · obtain ⟨v, rfl⟩ := hv
    refine Accepts.solution ?_
    rw [reverseVar?_none]
    refine Accepts.inference (Accepts.solution ?_)
    rw [if_pos same]
    exact Accepts.pure
  · have invariant := h.resolve_right hv
    refine accepts_assignTy (fun v hd => hv ⟨v, hd⟩) fun _ _ => ?_
    unfold assignProper
    rw [if_pos invariant]
    refine Accepts.inference ?_
    rw [if_pos same]
    exact Accepts.pure

/-- Types that are one object are accepted, and all others if their comparison is. -/
theorem accepts_assign {n : Nat} (h : F.Accepts l (assignTy w (judge w n) m dest source)) :
    F.Accepts l ((judge w (n + 1)).assign m (some dest) (some source)) := by
  rcases assign_cases w n m dest source with ⟨-, identical⟩ | compared
  · exact identical ▸ Accepts.pure
  · exact compared ▸ h

private theorem mem_pairArguments_self {params : List TypeVar} {ts : List (Option Ty)}
    {p : ArgumentPair}
    (h : p ∈ pairArguments params ts ts) : p.dest = p.source ∧ p.source ∈ ts := by
  obtain ⟨i, hi, rfl⟩ := List.mem_mapIdx.1 h
  have place : min i (ts.length - 1) = i := by omega
  have some_given : ts.isEmpty = false := by
    cases ts with
    | nil => cases hi
    | cons => rfl
  simp [some_given, place, List.getElem?_eq_getElem hi]

private theorem accepts_class {c : ClassTy} {literal : Option String}
    (hl : literal = none ∨ literal = c.literal)
    (each : ∀ o ∈ c.argList, ∀ m, F.Accepts l (j.assign m o o)) :
    F.Accepts l (assignToClass w j m (c.withLiteral literal) (.cls c)) := by
  have arguments : F.Accepts l
      (assignArguments w j m (c.withLiteral literal) c.toClassObject) := by
    unfold assignArguments
    cases hc : c.args with
    | none =>
      simp only [ClassTy.toClassObject, hc]
      exact Accepts.pure
    | some ts =>
      have given : c.argList = ts := by rw [ClassTy.argList, hc, Option.getD_some]
      simp only [ClassTy.toClassObject, hc]
      refine Accepts.allOf fun p hp => ?_
      rw [show (c.withLiteral literal).argList = ts from given] at hp
      obtain ⟨same, mem⟩ := mem_pairArguments_self hp
      have itself := each p.source (given ▸ mem)
      unfold ArgumentPair.assign
      rw [same]
      refine (Accepts.explained (Accepts.child ?_)).child
      split
      · exact itself _
      · exact itself _
  unfold assignToClass
  split
  · exact Accepts.pure
  · simp only [ClassTy.withLiteral, beq_self_eq_true, if_true]
    unfold assignClassToClass
    split
    · rename_i kept
      have same : literal = c.literal := hl.resolve_left fun none => by simp [none] at kept
      simp only [ClassTy.sameClass, same, beq_self_eq_true, Bool.and_self, if_true]
      exact Accepts.pure
    · split
      · exact Accepts.pure
      · simp only [findAncestor, ClassTy.sameClass, ClassTy.toClassObject, beq_self_eq_true, if_true]
        split
        · exact Accepts.pure
        · unfold ancestorOf
          simp only [ClassTy.sameClass, beq_self_eq_true, if_true]
          exact Accepts.after (fun _ _ => rfl) arguments

private theorem accepts_function {f : FunctionTy} (hf : F.HasFunction f)
    (named : (ParamGroups.ofList f.params).Named)
    (each : ∀ p ∈ f.params,
      F.Accepts l (j.assign m.forParams (some p.typeOrUnknown) (some p.typeOrUnknown)))
    (ret : F.Accepts l
      (j.assign m.forReturn (some (F.inf.returnType f)) (some (F.inf.returnType f)))) :
    F.Accepts l (assignFunction w j m f f) := by
  refine Accepts.demand hf (Accepts.demand hf (Accepts.bind (Accepts.allOf fun step hs => ?_) ?_))
  · obtain ⟨i, p, rfl⟩ := ParamStep.plan_self named step hs
    have members := ParamGroups.all_ofList fun q (hq : q ∈ f.params) => hq
    have mentioned := ParamStep.mentions_plan members members _ hs
    exact (Accepts.explained (each p mentioned.1).child).child
  · refine Accepts.inference (Accepts.bind ?_ Accepts.pure)
    exact (Accepts.explained ret.child).child

end

/-! ## Judges -/

section

variable {w : World} {K : Kinds} (hw : F.Covers w)
include hw

theorem calm_assign (n : Nat) (m : Mode) {dest source : Ty} (hd : F.Has dest) (hs : F.Has source) :
    F.beside.Calm (fun _ => True) ((judge w n).assign m (some dest) (some source)) :=
  ((follows_itself hw n).assign (Regime.modes_refl .same m) (hasOption_some hd)
    (hasOption_some hs)).left

omit hw in
theorem accepts_absent (n : Nat) (m : Mode) (o : Option Ty) :
    F.Accepts l ((judge w n).assign m none o) := by
  cases n with
  | zero => exact Accepts.cutOff
  | succ n => exact Accepts.pure

omit hw in
private theorem accepts_option {n : Nat} {m : Mode} {o : Option Ty}
    (h : ∀ u, o = some u → F.Accepts l ((judge w n).assign m (some u) (some u))) :
    F.Accepts l ((judge w n).assign m o o) := by
  cases o with
  | none => exact accepts_absent n m none
  | some u => exact h u rfl

omit hw in
private theorem accepts_overloads {j : Judge} {m : Mode} {source : Ty} {fs : List FunctionTy}
    (h : ∀ f ∈ fs, F.Accepts l (assignToFunction w j m f source)) :
    F.Accepts l (assignToOverloads w j m source fs) := by
  induction fs with
  | nil => exact Accepts.pure
  | cons f fs ih =>
    exact Accepts.bind (h f List.mem_cons_self).child (ih fun g hg => h g (List.mem_cons_of_mem f hg))

/-- A regular type accepts itself. -/
theorem accepts_itself (n : Nat) (m : Mode) {t : Ty} (h : F.Has t) (hr : Regular w K t) :
    F.Accepts l ((judge w n).assign m (some t) (some t)) := by
  induction n using Nat.strongRecOn generalizing m t with
  | ind n ih =>
  match n with
  | 0 => exact Accepts.cutOff
  | n + 1 =>
    have same : t.same F.inf t = true := sameAt_self _ _ _
    have itself {f : FunctionTy} (hf : F.HasFunction f) (hr : Regular w K (.function f)) :
        F.Accepts l (assignFunction w (judge w n) m f f) :=
      accepts_function hf hr.named
        (fun p hp => ih n (Nat.lt_succ_self n) _ (.typeOrUnknown (hf.params p hp))
          (.typeOrUnknown (hr.params p hp)))
        (ih n (Nat.lt_succ_self n) _ (hf.returnType F.inf) (hr.returnType hf.settled F.inf))
    refine accepts_assign ?_
    cases hi : m.invariant with
    | true => exact accepts_same same (.inl hi)
    | false =>
      by_cases hv : ∃ v, t = .var v
      · exact accepts_same same (.inr hv)
      · refine accepts_assignTy (fun v hd => hv ⟨v, hd⟩) fun proper _ => ?_
        unfold assignProper
        rw [if_neg (by simp [hi])]
        cases hr with
        | unknown | any => cases proper
        | var => exact absurd ⟨_, rfl⟩ hv
        | noneObject | module =>
          refine Accepts.inference ?_
          rw [if_pos same]
          exact Accepts.pure
        | @cls c args _ _ =>
          have has := HasClass.args h
          have kept : c.withLiteral c.literal = c := by
            cases c
            rfl
          have accepted : F.Accepts l
              (assignToClass w (judge w n) m (c.withLiteral c.literal) (.cls c)) := by
            refine accepts_class (.inr rfl) fun o ho m => accepts_option fun u hu => ?_
            exact ih n (Nat.lt_succ_self n) m (has _ ho u hu) (args _ ho u hu)
          rw [kept] at accepted
          exact accepted
        | @function f params ret named =>
          exact Accepts.after (fun _ _ => rfl) (itself h (.function params ret named))
        | @overloaded fs branches each =>
          have has : ∀ f ∈ fs, F.HasFunction f := by
            cases h
            assumption
          refine Accepts.after (fun _ _ => rfl) (accepts_overloads fun f hf => Accepts.orElse ?_)
          refine (Accepts.anyOf (L := F.beside) (fun g hg => ?_) hf ?_).silently
          · have follows : F.beside.Judges (judge w n) (judge w n) := (follows_itself hw n).assign
            exact (Link.agrees_assignFunction follows (Regime.modes_refl .same m)
              (Link.Judges.itself follows) (has f hf) (HasFunction.exchanged (has g hg))).left.attempt
          · exact (itself (has f hf) (each f hf)).attempt
        | @union ts branches each plain =>
          have has : ∀ t ∈ ts, F.Has t := by
            cases h
            assumption
          refine Accepts.orElse (Accepts.allOf fun t ht => Accepts.child ?_)
          cases n with
          | zero => exact Accepts.cutOff
          | succ n =>
            refine accepts_assign (accepts_assignTy (fun _ h => nomatch h) fun _ _ => ?_)
            have single : ∀ us, t ≠ .union us := by
              cases h with
              | union _ built => exact built.not_union ht
            have chosen : assignProper w (judge w n) m (.union ts) t =
                assignToUnion w (judge w n) m ts t := by
              unfold assignProper
              rw [if_neg (by simp [hi])]
              cases t with
              | var v => exact absurd rfl (plain _ ht v)
              | union us => exact absurd rfl (single us)
              | _ => rfl
            rw [chosen]
            refine Accepts.orElse (Accepts.anyOf (L := F.beside) (fun u hu => ?_) ht ?_).silently
            · exact (calm_assign hw n m (has u hu) (has t ht)).attempt
            · exact (ih n (by omega) m (has t ht) (each t ht)).attempt

/-- An instance is accepted by its class, whatever literal value it is narrowed to. -/
theorem accepts_widened (n : Nat) {m : Mode} (hi : m.invariant = false) {c : ClassTy}
    (h : F.HasClass c) (hr : Regular w K (.cls c)) :
    F.Accepts l ((judge w n).assign m (some (.cls (c.withLiteral none))) (some (.cls c))) := by
  cases n with
  | zero => exact Accepts.cutOff
  | succ n =>
    refine accepts_assign (accepts_assignTy (fun _ h => nomatch h) fun _ _ => ?_)
    unfold assignProper
    rw [if_neg (by simp [hi])]
    refine accepts_class (.inl rfl) fun o ho m => accepts_option fun u hu => ?_
    exact accepts_itself hw n m (h.args _ ho u hu) (hr.args _ ho u hu)

end

end Fragment

end Conformance
