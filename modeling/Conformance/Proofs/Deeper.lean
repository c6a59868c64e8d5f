import Conformance.Proofs.Assumed

/-!
# More levels

A run that never passes its last level does not change with the number of levels, nor with what is
in progress outside of the fragment.
-/

namespace Conformance

open Check

/-- Both runs have the same comparisons in progress, and what is clean is so throughout. -/
structure Link.Parallel {F : Fragment} (L : Link F) : Prop where
  pending {l l' : List Pending} (h : L.base l l') {c : Comparison} (hc : F.HasComparison c) :
    isPending F.inf l c.pair = isPending F.inf l' c.pair
  entering {l l' : List Pending} (h : L.base l l') (e : Pending) : L.base (e :: l) (e :: l')
  inner {c : Comparison} {n : Nat} {answer : Option Bool} {es : List Event}
    (h : L.clean (.made c n answer es)) : ∀ e ∈ es, L.clean e

/-- Comparisons follow each other if their parts do. -/
theorem Link.Parallel.agrees_matchClass {F : Fragment} {L : Link F} (hL : L.Parallel)
    {u v : World} (hu : L.Records u) (hv : L.Records v) {k l : Nat} {ρ : Regime} {m m' : Mode}
    (hm : m.invariant = false) (hm' : m'.invariant = false) {asObject : Bool}
    {protocol candidate : ClassTy} (hp : F.HasClass protocol) (hc : F.HasClass candidate)
    (parts : L.Agrees ρ ((Comparison.of asObject protocol candidate).parts u (judge u k) m)
      ((Comparison.of asObject protocol candidate).parts v (judge v l) m')) :
    L.Agrees ρ (matchClass u (judge u k) .own m asObject protocol candidate)
      (matchClass v (judge v l) .own m' asObject protocol candidate) := by
  have asked := Fragment.hasComparison_of hp hc asObject
  have left := Link.Calm.matchClass hu hm hp hc parts.left
  have right := Link.Calm.matchClass hv hm' hp hc parts.right
  refine ⟨left, right, fun {s s' t t' b b'} hs he he' hclean => ?_⟩
  have pending := hL.pending hs.pending asked
  rcases Link.exec_matchClass_cases parts.left hs.left with
    ⟨hit, hrun⟩ | ⟨new, c, x, hparts, -, hrun⟩
  · rcases Link.exec_matchClass_cases parts.right hs.right with ⟨-, hrun'⟩ | ⟨new', -⟩
    · rw [he] at hrun
      rw [he'] at hrun'
      cases hrun
      cases hrun'
      exact ⟨F.agree_refl true, hs.solving⟩
    · rw [hit, new'] at pending
      cases pending
  · rcases Link.exec_matchClass_cases parts.right hs.right with
      ⟨hit', -⟩ | ⟨-, c', x', hparts', -, hrun'⟩
    · rw [new, hit'] at pending
      cases pending
    · rw [he] at hrun
      rw [he'] at hrun'
      cases hrun
      cases hrun'
      have entered : L.Related ρ (s.entering (.of asObject protocol candidate))
          (s'.entering (.of asObject protocol candidate)) :=
        ⟨hs.left.entering _, hs.right.entering _, hL.entering hs.pending _, hs.solving⟩
      have inner : L.CleanAfter (s.entering (.of asObject protocol candidate)) x := by
        intro es hes
        have made := hclean [_] rfl _ List.mem_cons_self
        have history : x.history = es := hes
        exact hL.inner (history ▸ made)
      have linked := parts.link entered hparts hparts' inner
      exact linked

namespace Link

variable {F : Fragment} {L : Link F} {w : World} {k l : Nat}

/-- Runs without levels are cut off alike. -/
theorem follows_accepting_self (hr : L.Records w) : L.Follows (accepting w) (accepting w) := by
  have cut {ρ : Regime} : L.Agrees ρ cutOff cutOff := by
    have calm := (Calm.cutOff hr).imp fun _ _ => trivial
    refine ⟨calm, calm, fun hs h h' _ => ?_⟩
    cases h
    cases h'
    exact ⟨F.agree_refl true, hs.solving⟩
  exact ⟨fun _ _ _ => cut, fun _ _ _ _ _ _ _ => (Sim.trace _ _).bind fun _ _ => cut,
    fun _ _ _ _ _ => (Sim.trace _ _).bind fun _ _ => cut⟩

section

variable (hL : L.Parallel) (hr : L.Records w) (hw : F.Covers w)
include hL hr hw

private theorem Parallel.agrees_matchClass_of_follows (h : L.Follows (judge w k) (judge w l))
    {ρ : Regime}
    {m m' : Mode} (hm : ρ.Modes m m') (hv : m.invariant = false) (asObject : Bool)
    {protocol candidate : ClassTy} (hp : F.HasClass protocol) (hc : F.HasClass candidate) :
    L.Agrees ρ (matchClass w (judge w k) .own m asObject protocol candidate)
      (matchClass w (judge w l) .own m' asObject protocol candidate) :=
  hL.agrees_matchClass hr hr hv (hm.invariant ▸ hv) hp hc
    (agrees_parts hw h.assign hm (Fragment.hasComparison_of hp hc asObject))

/-- Where the same comparisons are in progress, a judge follows itself. -/
theorem Parallel.follows_itself (k : Nat) : L.Follows (judge w k) (judge w k) := by
  induction k with
  | zero => exact follows_accepting_self hr
  | succ k ih =>
    exact Follows.succ hw ih fun hm hv asObject _ _ hp hc =>
      hL.agrees_matchClass_of_follows hr hw ih hm hv asObject hp hc

end

end Link

namespace Fragment

variable {F : Fragment} {w : World}

/-- Follows runs that do not pass the last level, where the same comparisons of the fragment are in
progress. -/
def deeper (F : Fragment) : Link F where
  clean e := e.uncut = true
  known _ := True
  base l l' := ∀ c, F.HasComparison c → isPending F.inf l c.pair = isPending F.inf l' c.pair

private theorem records_deeper : F.deeper.Records w where
  cut := trivial
  assumed _ := trivial
  made _ _ _ _ _ _ _ := trivial

private theorem isPending_cons (inf : Inference) (e : Pending) (l : List Pending)
    (entry : Pending) :
    isPending inf (e :: l) entry = (isPending inf [e] entry || isPending inf l entry) := by
  simp [isPending]

theorem allUncut_iff {es : List Event} : Event.allUncut es = true ↔ ∀ e ∈ es, e.uncut = true := by
  induction es with
  | nil => simp [Event.allUncut]
  | cons e es ih => simp [Event.allUncut, ih]

theorem parallel_deeper : F.deeper.Parallel where
  pending h _ hc := h _ hc
  entering {l l'} h e c hc := by
    rw [isPending_cons, isPending_cons _ e l', h c hc]
  inner h := allUncut_iff.1 h

section

variable (hw : F.Covers w) {k l : Nat}
include hw

theorem follows_same (k : Nat) : F.deeper.Follows (judge w k) (judge w k) :=
  parallel_deeper.follows_itself records_deeper hw k

private theorem calms_judge (k : Nat) : F.deeper.Calms (judge w k) := (follows_same hw k).left

/-- The judge of more levels follows that of fewer. -/
theorem follows_deeper (h : k ≤ l) : F.deeper.Follows (judge w k) (judge w l) := by
  induction k generalizing l with
  | zero => exact Link.follows_of_cut records_deeper Bool.false_ne_true (calms_judge hw l)
  | succ k ih =>
    obtain ⟨l, rfl⟩ : ∃ n, l = n + 1 := ⟨l - 1, by omega⟩
    have below := ih (Nat.le_of_succ_le_succ h)
    exact Link.Follows.succ hw below fun hm hv asObject _ _ hp hc =>
      parallel_deeper.agrees_matchClass_of_follows records_deeper hw below hm hv asObject hp hc

end

end Fragment

end Conformance
