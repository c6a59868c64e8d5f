import Conformance.Proofs.Itself
import Conformance.Proofs.Learning
import Conformance.Proofs.ParamPlan
import Conformance.Proofs.Sameness

/-!
# Checks that do not answer no

What a comparison needs in order not to be refused, where nothing is solved for. It may still fail,
with the failure of the finder of a return type that is asked for on the way.
-/

namespace Conformance

open Check

variable {inf : Inference}

def Affirms (inf : Inference) (act : Check Bool) : Prop :=
  ∀ s : CheckState, s.solving = none → inf.Later s.inference → (exec act s).1 ≠ .ok false

namespace Affirms

variable {α : Type} {act : Check Bool}

theorem pure : Affirms inf (pure true) := fun _ _ _ h => nomatch h

theorem cutOff : Affirms inf cutOff := fun _ _ _ h => nomatch h

theorem after {act : Check α} {k : α → Check Bool} (h : Learns act) (hk : ∀ a, Affirms inf (k a)) :
    Affirms inf (act >>= k) := by
  intro s rest known
  have later := h.later s
  have resting := h.resting rest
  rcases run : exec act s with ⟨_ | a, t⟩
  · rw [exec_bind_of_error run]
    nofun
  · rw [run] at later resting
    rw [exec_bind_of_ok run]
    exact hk a t resting (known.trans later)

theorem yielding {act : Check α} {k : α → Check Bool} {a : α} (h : ∀ s, exec act s = (.ok a, s))
    (hk : Affirms inf (k a)) : Affirms inf (act >>= k) := by
  intro s rest known
  rw [exec_bind_of_ok (h s)]
  exact hk s rest known

theorem bind {k : Bool → Check Bool} (hl : Learns act) (h : Affirms inf act)
    (hk : Affirms inf (k true)) : Affirms inf (act >>= k) := by
  intro s rest known
  have later := hl.later s
  have resting := hl.resting rest
  have yes := h s rest known
  rcases run : exec act s with ⟨_ | _ | _, t⟩
  · rw [exec_bind_of_error run]
    nofun
  · rw [run] at yes
    exact absurd rfl yes
  · rw [run] at later resting
    rw [exec_bind_of_ok run]
    exact hk t resting (known.trans later)

theorem inference {k : Inference → Check Bool} (hk : ∀ now, inf.Later now → Affirms inf (k now)) :
    Affirms inf (Check.inference >>= k) := by
  intro s rest known
  rw [exec_bind_of_ok (exec_inference s)]
  exact hk s.inference known s rest known

theorem solution {k : Option Solution → Check Bool} (hk : Affirms inf (k none)) :
    Affirms inf (Check.solution >>= k) := by
  intro s rest known
  rw [exec_bind_of_ok (exec_solution s), rest]
  exact hk s rest known

theorem notes {n : CheckState → Option Explanation}
    {n' : CheckState → CheckState → Option Explanation} (h : Affirms inf act) :
    Affirms inf (Check.within (fun s => { s with notes := n s })
      (fun before s => { s with notes := n' before s }) act) :=
  fun s rest known => h { s with notes := n s } rest known

theorem child (h : Affirms inf act) : Affirms inf (child act) := h.notes

theorem silently (h : Affirms inf act) : Affirms inf (silently act) := h.notes

theorem attempt (h : Affirms inf act) : Affirms inf (attempt act) := by
  intro s rest known
  have yes := h s rest known
  rw [exec_attempt]
  rcases run : exec act s with ⟨_ | _ | _, t⟩ <;> rw [run] at yes
  · nofun
  · exact absurd rfl yes
  · nofun

theorem orElse {no : Check Bool} (hl : Learns act) (h : Affirms inf act) :
    Affirms inf (act >>= fun b => if b = true then Pure.pure true else no) := bind hl h pure

theorem explained {messages : Check Unit} (hl : Learns act) (h : Affirms inf act) :
    Affirms inf (explained act messages) := orElse hl h

theorem allOf {f : α → Check Bool} {as : List α} (hl : ∀ a ∈ as, Learns (f a))
    (h : ∀ a ∈ as, Affirms inf (f a)) : Affirms inf (allOf f as) := by
  induction as with
  | nil => exact pure
  | cons a as ih =>
    rw [List.forall_mem_cons] at hl h
    rw [Check.allOf]
    refine bind hl.1 h.1 (bind ?_ (ih hl.2 h.2) pure)
    exact Learns.compositional.holds_allOf hl.2

/-- One of several checks that does not answer no is enough. -/
theorem anyOf {f : α → Check Bool} {as : List α} (hl : ∀ a ∈ as, Learns (f a)) {a : α} (ha : a ∈ as)
    (h : Affirms inf (f a)) : Affirms inf (anyOf f as) := by
  induction as with
  | nil => cases ha
  | cons b as ih =>
    rw [List.forall_mem_cons] at hl
    rw [Check.anyOf]
    rcases List.mem_cons.1 ha with rfl | ha
    · exact orElse hl.1 h
    · refine after hl.1 fun b => ?_
      split
      · exact pure
      · exact ih hl.2 ha

end Affirms

section

variable {w : World} {j : Judge} {mode : Mode} (learns : Assigns (fun _ act => Learns act) j)
include learns

/-- A class accepts a view of it if each argument fits the one that it is compared with. -/
theorem affirms_assignToClass_of_pairs {c d : ClassTy} (view : sameView c d = true)
    (each : ∀ (dests sources : List (Option Ty)) (params : List TypeVar), c.args = some dests →
      d.args = some sources → ∀ p ∈ pairArguments params dests sources, ∀ mode : Mode,
        Affirms inf (j.assign mode p.dest p.source) ∧ Affirms inf (j.assign mode p.source p.dest)) :
    Affirms inf (assignToClass w j mode c (.cls d)) := by
  simp only [sameView, ClassTy.sameClass, Bool.and_eq_true, beq_iff_eq] at view
  obtain ⟨⟨id, instances⟩, literal⟩ := view
  have arguments (given : ¬ c.args.isNone = true) :
      Affirms inf (assignArguments w j mode c d.toClassObject) := by
    obtain ⟨dests, hdests⟩ : ∃ ts, c.args = some ts :=
      Option.ne_none_iff_exists'.1 (by simpa using given)
    unfold assignArguments
    cases hs : d.args with
    | none =>
      simp only [ClassTy.toClassObject, hs]
      exact .pure
    | some sources =>
      simp only [ClassTy.toClassObject, hs, ClassTy.argList, hdests, Option.getD_some]
      refine .allOf (fun p _ => ?_) fun p hp => ?_
      · exact Learns.compositional.holds_assignArgument learns mode p
      · have fits := each dests sources _ hdests hs p hp
        unfold ArgumentPair.assign
        refine .child (.explained (.child ?_) (.child ?_)) <;> split
        · exact learns _ _ _
        · exact learns _ _ _
        · exact (fits _).2
        · exact (fits _).1
  unfold assignToClass
  split
  · exact .pure
  · simp only [instances, beq_self_eq_true, if_true]
    unfold assignClassToClass
    split
    · simp only [ClassTy.sameClass, id, literal, beq_self_eq_true, Bool.and_self, if_true]
      exact .pure
    · split
      · exact .pure
      · simp only [findAncestor, ClassTy.sameClass, ClassTy.toClassObject, id, beq_self_eq_true,
          if_true]
        split
        · exact .pure
        · rename_i given
          unfold ancestorOf
          simp only [ClassTy.sameClass, beq_self_eq_true, if_true, pure_bind]
          exact arguments given

theorem affirms_assignFunction {f g : FunctionTy} {R : Param → Param → Prop}
    (matched : (ParamGroups.ofList f.params).Matched R (ParamGroups.ofList g.params))
    (name : ∀ p q, R p q → p.name = q.name) (named : (ParamGroups.ofList f.params).Named)
    (params : ∀ p q, R p q →
      Affirms inf (j.assign mode.forParams (some q.typeOrUnknown) (some p.typeOrUnknown)))
    (ret : ∀ now, inf.Later now → Affirms inf
      (j.assign mode.forReturn (some (now.returnType f)) (some (now.returnType g)))) :
    Affirms inf (assignFunction w j mode f g) := by
  refine .after (.demand f) fun _ => .after (.demand g) fun _ => ?_
  refine .bind ?_ (.allOf (fun step _ => ?_) fun step hs => ?_) ?_
  · exact Learns.compositional.holds_allOf fun step _ =>
      Learns.compositional.holds_paramStep learns mode step
  · exact Learns.compositional.holds_paramStep learns mode step
  · obtain ⟨i, p, q, rfl, here⟩ := ParamStep.plan_matched matched name named step hs
    exact .child (.explained (.child (learns _ _ _)) (.child (params p q here)))
  · refine .inference fun now known => .bind ?_ ?_ .pure
    · exact Learns.compositional.holds_assignReturn learns mode _ _
    · exact .child (.explained (.child (learns _ _ _)) (.child (ret now known)))

end

section

variable {w : World} {mode : Mode}

/-- The parameters of two functions that are the same correspond place by place. -/
theorem matched_of_same {R : Param → Param → Prop} {same : Ty → Ty → Bool} {ps qs : List Param}
    (h : allPairs (sameParam same) ps qs = true)
    (hR : ∀ p ∈ ps, ∀ q ∈ qs, p.name = q.name → same p.typeOrUnknown q.typeOrUnknown = true →
      R p q) : (ParamGroups.ofList ps).Matched R (ParamGroups.ofList qs) := by
  refine .ofList ?_
  induction ps generalizing qs with
  | nil =>
    cases qs with
    | nil => exact .nil
    | cons q qs => cases h
  | cons p ps ih =>
    cases qs with
    | nil => cases h
    | cons q qs =>
      simp only [allPairs, sameParam, Bool.and_eq_true, beq_iff_eq] at h
      obtain ⟨⟨⟨kind, name⟩, same⟩, others⟩ := h
      refine .cons ⟨kind, hR p List.mem_cons_self q List.mem_cons_self name same⟩ ?_
      exact ih others fun p hp q hq => hR p (List.mem_cons_of_mem _ hp) q (List.mem_cons_of_mem _ hq)

theorem learns_judge (w : World) (n : Nat) : Assigns (fun _ act => Learns act) (judge w n) :=
  (Learns.judge w n).1

/-- Types that are one object are accepted, and all others if their comparison is. -/
theorem affirms_assign {n : Nat} {t u : Ty} (h : Affirms inf (assignTy w (judge w n) mode t u)) :
    Affirms inf ((judge w (n + 1)).assign mode (some t) (some u)) := by
  rcases assign_cases w n mode t u with ⟨-, identical⟩ | compared
  · exact identical ▸ .pure
  · exact compared ▸ h

/-- Two types of which neither accepts everything are compared by their shapes, and a variable that
is not to be solved accepts itself. -/
theorem affirms_assignTy {j : Judge} {t u : Ty}
    (itself : ∀ v, t = .var v → ∀ now, inf.Later now → t.same now u = true)
    (proper : (∀ v, t ≠ .var v) → t.isAnyOrUnknown = false → u.isAnyOrUnknown = false →
      Affirms inf (assignProper w j mode t u)) : Affirms inf (assignTy w j mode t u) := by
  refine .solution ?_
  rw [Fragment.reverseVar?_none]
  dsimp only
  split
  · rename_i v
    refine .inference fun now known => .solution ?_
    rw [if_pos (itself v rfl now known)]
    exact .pure
  · rename_i fixed
    split
    · exact .pure
    · rename_i both
      rw [Bool.or_eq_true, not_or, Bool.not_eq_true, Bool.not_eq_true] at both
      exact proper fixed both.1 both.2

/-- One alternative of a union has to accept a type that is neither a union nor a variable. -/
theorem assignProper_union {j : Judge} {u : Ty} (hm : mode.invariant = false) {ts : List Ty}
    (var : ∀ v, u ≠ .var v) (flat : ∀ us, u ≠ .union us) :
    assignProper w j mode (.union ts) u = assignToUnion w j mode ts u := by
  unfold assignProper
  rw [if_neg (by simp [hm])]
  cases u with
  | var v => exact absurd rfl (var v)
  | union us => exact absurd rfl (flat us)
  | _ => rfl

theorem affirms_overloads {j : Judge} (learns : Assigns (fun _ act => Learns act) j) {source : Ty}
    {fs : List FunctionTy}
    (h : ∀ f ∈ fs, Affirms inf (assignToFunction w j mode f source)) :
    Affirms inf (assignToOverloads w j mode source fs) := by
  induction fs with
  | nil => exact .pure
  | cons f fs ih =>
    rw [List.forall_mem_cons] at h
    have step := Learns.compositional.holds_assignToFunction (w := w) learns mode f source
    exact .bind step.child h.1.child (ih h.2)

end

/-- The run answered yes, or a finder that it called failed. -/
def Granted (s : CheckState) (run : Except InferenceError Bool × CheckState) : Prop :=
  run.1 = .ok true ∨
    (∃ e, run.1 = .error e) ∧ s.inference.calls.length < run.2.inference.calls.length

theorem granted_of_affirms {s : CheckState} {act : Check Bool} (learns : Learns act)
    (h : Affirms s.inference act) (rest : s.solving = none) : Granted s (exec act s) := by
  have yes := h s rest (.refl _)
  have failing := fun e => learns.failing (s := s) (e := e)
  rcases run : exec act s with ⟨e | _ | _, t⟩ <;> rw [run] at yes failing
  · exact .inr ⟨⟨e, rfl⟩, failing e rfl⟩
  · exact absurd rfl yes
  · exact .inl rfl

end Conformance
