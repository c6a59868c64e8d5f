import Conformance.Proofs.Assumed
import Conformance.Proofs.Sample

/-!
# Answers that are taken

Within a narrow fragment, where nothing is solved for and no return type is found out, answers that
are taken from the comparisons in progress are right. Elsewhere they may be wrong.
-/

namespace Conformance

open Check

section

variable {F : Fragment} {w : World}

/-! ## What is being solved for does not matter -/

theorem exec_parts_of_params {j : Judge} {mode : Mode} {c : Comparison}
    (params : (w.classes.decl c.pair.protocol.id).params = []) (s : CheckState)
    (σ : Option Solution) :
    exec (c.parts w j mode) { s with solving := σ } =
      ((exec (c.parts w j mode) s).1, { (exec (c.parts w j mode) s).2 with solving := σ }) := by
  unfold Comparison.parts matchMembers
  split
  · rfl
  · rw [exec_meetAll params, exec_meetAll params]

variable (hw : F.Covers w) (hf : ¬ F.wide)
include hw hf

theorem exec_parts_solving {j : Judge} {mode : Mode} {c : Comparison} (hc : F.HasComparison c)
    (s : CheckState) (σ : Option Solution) :
    exec (c.parts w j mode) { s with solving := σ } =
      ((exec (c.parts w j mode) s).1, { (exec (c.parts w j mode) s).2 with solving := σ }) :=
  exec_parts_of_params (hw.params_eq_nil hf hc.protocol.ids) s σ

/-! ## Answers that are taken -/

omit hw hf in
theorem start_of_inference {s : CheckState} (h : s.inference = F.inf) :
    F.Start { s with solving := none } :=
  ⟨h, Fragment.solving_none⟩

omit hw hf in
/-- A comparison that is started by itself is taken to hold, or its parts are compared in a state
whose history begins anew. -/
theorem exec_conformsFrom_cases (choice : StackChoice) (mode : Mode) (asObject : Bool)
    (protocol candidate : ClassTy) (s : CheckState) :
    let c := Comparison.of asObject protocol candidate
    exec (conformsFrom w choice 0 mode asObject protocol candidate) s =
        (.ok true, { s with history := s.history ++ [.assumed c] }) ∨
      ∃ entered n, entered.inference = s.inference ∧ entered.history = [] ∧
        ∀ r u, exec (c.parts w (judge w 14) mode) entered = (r, u) → ∃ t,
          exec (conformsFrom w choice 0 mode asObject protocol candidate) s = (r, t) ∧
            t.history = s.history ++ [.made c n r.toOption u.history] := by
  intro c
  have unfolded : exec (conformsFrom w choice 0 mode asObject protocol candidate) s =
      exec (matchClass w (judge w 14) choice mode asObject protocol candidate) s := rfl
  rw [unfolded, Link.exec_matchClass]
  dsimp only
  split
  · exact .inl rfl
  · refine .inr ⟨setPendingOn choice { s with history := [] } (c.pair :: pendingOn choice s),
      (setPendingOn choice { s with history := [] } (c.pair :: pendingOn choice s)).pending.length,
      ?_, ?_, fun r u hrun => ?_⟩
    · cases choice <;> rfl
    · cases choice <;> rfl
    · rw [exec_whilePending]
      dsimp only
      rw [hrun]
      exact ⟨_, rfl, rfl⟩

theorem succeeds_conformsFrom {c : Comparison} (hc : F.HasComparison c) (h : F.Succeeds w 14 c)
    (choice : StackChoice) {mode : Mode} (hm : mode.invariant = false) {s : CheckState}
    (hs : s.inference = F.inf) :
    ∃ t, exec (conformsFrom w choice 0 mode c.asObject c.pair.protocol c.pair.candidate) s =
      (.ok true, t) := by
  have same : Comparison.of c.asObject c.pair.protocol c.pair.candidate = c := by
    obtain ⟨protocol, candidate⟩ := hc.objects
    obtain ⟨⟨⟨_, _, _, _, _⟩, ⟨_, _, _, _, _⟩⟩, _⟩ := c
    cases protocol
    cases candidate
    rfl
  rcases exec_conformsFrom_cases (w := w) choice mode c.asObject c.pair.protocol c.pair.candidate s
    with held | ⟨entered, n, inference, -, ran⟩
  · exact ⟨_, held⟩
  · rw [same] at ran
    obtain ⟨t, ht⟩ := h mode _ hm (start_of_inference (inference.trans hs))
    rw [exec_parts_solving hw hf hc] at ht
    have answer : (exec (c.parts w (judge w 14) mode) entered).1 = .ok true :=
      congrArg Prod.fst ht
    obtain ⟨u, hu, -⟩ := ran _ _ rfl
    exact ⟨u, answer ▸ hu⟩

omit hw hf in
private theorem history_parts_of_invariant {j : Judge} {mode : Mode} (hm : mode.invariant = true)
    (c : Comparison) (s : CheckState) : (exec (c.parts w j mode) s).2.history = s.history := by
  unfold Comparison.parts matchMembers
  rw [if_pos hm]
  rfl

theorem genuine_of_run {levels : Nat} {mode : Mode} (hm : mode.invariant = false)
    {c : Comparison} (hc : F.HasComparison c) {s t : CheckState}
    (hs : s.inference = F.inf) (hh : s.history = []) {b : Bool}
    (he : exec (c.parts w (judge w levels) mode) s = (.ok b, t)) (pending : Nat) :
    F.Genuine w (.made c pending (some b) t.history) := by
  have start := start_of_inference hs
  have run : exec (c.parts w (judge w levels) mode) { s with solving := none } =
      (.ok b, { t with solving := none }) := by
    rw [exec_parts_solving hw hf hc, he]
  have follows := Fragment.follows_accepting_all (X := fun _ => False) hw hf levels
  have calm := (Link.agrees_parts hw (l := 0) follows.assign (Regime.modes_refl .same mode)
    hc).left
  obtain ⟨new, hn, known⟩ := (calm.elim start run).2.history
  have inner : t.history = new := by
    rw [show ({ t with solving := none } : CheckState).history = t.history from rfl] at hn
    rw [hn]
    exact congrArg (· ++ new) hh
  exact .made hm hc start hh run (inner ▸ known) pending

omit hw hf in
/-- A comparison that succeeds is an event of its own, unless it was taken to hold itself. -/
theorem made_of_conformsFrom {choice : StackChoice} {mode : Mode} {asObject : Bool}
    {protocol candidate : ClassTy} {s t : CheckState}
    (h : exec (conformsFrom w choice 0 mode asObject protocol candidate) s = (.ok true, t))
    {new : List Event} (hn : t.history = s.history ++ new)
    (ha : ∀ p ∈ Event.allTaken [] new, p.1.isAmong F.inf p.2 = true) :
    let c := Comparison.of asObject protocol candidate
    ∃ entered u n, entered.inference = s.inference ∧ entered.history = [] ∧
      exec (c.parts w (judge w 14) mode) entered = (.ok true, u) ∧
      new = [.made c n (some true) u.history] := by
  intro c
  rcases exec_conformsFrom_cases (w := w) choice mode asObject protocol candidate s
    with held | ⟨entered, n, inference, history, ran⟩
  · rw [h] at held
    cases held
    have taken := List.append_cancel_left hn
    subst taken
    cases ha _ List.mem_cons_self
  · rcases hrun : exec (c.parts w (judge w 14) mode) entered with ⟨r, u⟩
    obtain ⟨t', ht, made⟩ := ran r u hrun
    rw [h] at ht
    cases ht
    exact ⟨entered, u, n, inference, history, hrun, List.append_cancel_left (hn.symm.trans made)⟩

/-- Let a comparison within a narrow fragment succeed without passing the last level, and let each
comparison that was taken to hold, outside of rejected ones, be in progress under the same view.
Then each of them succeeds when it is started on its own. -/
theorem taken_comparisons_succeed {choice : StackChoice} {mode : Mode}
    {asObject : Bool} {protocol candidate : ClassTy} (hp : F.HasClass protocol)
    (hc : F.HasClass candidate) {s t : CheckState} (hs : s.inference = F.inf)
    (h : exec (conformsFrom w choice 0 mode asObject protocol candidate) s = (.ok true, t))
    {new : List Event} (hn : t.history = s.history ++ new) (hu : Event.allUncut new = true)
    (ha : ∀ p ∈ Event.allTaken [] new, p.1.isAmong F.inf p.2 = true) :
    ∀ p ∈ Event.allTaken [] new, ∀ (choice' : StackChoice) (mode' : Mode) (s' : CheckState),
      mode'.invariant = false → s'.inference = F.inf →
        ∃ t', exec (conformsFrom w choice' 0 mode' p.1.asObject p.1.pair.protocol
          p.1.pair.candidate) s' = (.ok true, t') := by
  have asked := Fragment.hasComparison_of hp hc asObject
  obtain ⟨entered, u, n, inference, history, hrun, made⟩ := made_of_conformsFrom h hn ha
  generalize Comparison.of asObject protocol candidate = c at asked hrun made
  cases hv : mode.invariant with
  | true =>
    have nothing := history_parts_of_invariant (w := w) (j := judge w 14) hv c entered
    rw [hrun, history] at nothing
    have nothing : u.history = [] := nothing
    rw [made, nothing]
    exact fun p hmem => nomatch hmem
  | false =>
    have genuine := genuine_of_run hw hf hv asked (inference.trans hs) history hrun n
    generalize Event.made c n (some true) u.history = e at made genuine
    subst made
    obtain ⟨-, supported, taken⟩ := Fragment.supported_of_genuine (X := (· ∈ e.held)) hf genuine []
      (fun d hd => nomatch hd) (Event.uncut_of_mem hu List.mem_cons_self)
      (fun p hmem => ha p (Event.mem_allTaken List.mem_cons_self hmem)) fun d hd => hd
    intro p hmem choice' mode' s' hm' hs'
    obtain ⟨e', he', hmem⟩ := Event.exists_of_mem_allTaken hmem
    rw [List.mem_singleton.1 he'] at hmem
    have holds := supported p.1 (taken p hmem)
    have follows := Fragment.follows_within hw hf supported 14
    obtain ⟨_, _, _, _, _, has, _⟩ := id holds
    exact succeeds_conformsFrom hw hf has
      (Fragment.succeeds_of_supported hw hf follows holds) choice' hm' hs'

end

namespace Sample

/-- A protocol whose method yields another value of the protocol, and a class whose method yields
its receiver. -/
def cycle : World :=
  ofDecls [object, protocolOf "P" [method "next" none [] (instanceOf 1)],
    classOf "C" [method "next" none [] (.var (.self "C" "C" (.ofId 2)))]]

private theorem covers_cycle : plainTypes.Covers cycle := by
  refine covers_ofDecls ?_ fun id d hd e he => ?_
  · simp only [List.forall_mem_cons]
    exact ⟨simple_object, simple_protocolOf _ _, simple_classOf _ _, fun _ h => nomatch h⟩
  · match id with
    | 0 =>
      cases hd
      cases he
    | 1 =>
      cases hd
      rw [List.mem_singleton.1 he]
      exact .inl (hasMember_method _ 1)
    | 2 =>
      cases hd
      rw [List.mem_singleton.1 he]
      exact .inr ⟨rfl, by decide, _, rfl, params_method, bindable_method, ⟨_, rfl, rfl, rfl, rfl⟩,
        by decide⟩
    | n + 3 => cases hd

end Sample

/-- On the way to a class whose method yields its receiver, the protocol whose method yields a value
of the protocol is taken to hold for that class once, and holds. -/
theorem taken_comparison_of_cycle :
    ∃ t, (Sample.compare 1 2).alone Sample.cycle .start = (.ok true, t) ∧
      (Event.allTaken [] t.history).length = 1 ∧
      ∀ p ∈ Event.allTaken [] t.history, ∀ (choice : StackChoice),
        ∃ t', exec (conformsFrom Sample.cycle choice 0 .default p.1.asObject p.1.pair.protocol
          p.1.pair.candidate) ⟨.start, #[], [], [], none, none, []⟩ = (.ok true, t') := by
  have facts :
      let events := ((Sample.compare 1 2).alone Sample.cycle .start).2.history
      ((Sample.compare 1 2).alone Sample.cycle .start).1.toOption = some true ∧
        (Event.allTaken [] events).length = 1 ∧ Event.allUncut events = true ∧
        ∀ p ∈ Event.allTaken [] events, p.1.isAmong .start p.2 = true := by
    decide +kernel
  dsimp only at facts
  rcases hrun : (Sample.compare 1 2).alone Sample.cycle .start with ⟨r, t⟩
  rw [hrun] at facts
  obtain ⟨answer, once, uncut, among⟩ := facts
  have yes : r = .ok true := by
    cases r with
    | error e => cases answer
    | ok b =>
      cases answer
      rfl
  subst yes
  refine ⟨t, rfl, once, fun p hp choice => ?_⟩
  exact taken_comparisons_succeed Sample.covers_cycle id (Sample.hasClass_ofId 1)
    (Sample.hasClass_ofId 2) rfl hrun (List.nil_append t.history).symm uncut among p hp choice
    .default _ rfl rfl

/-! ## Answers that are wrong -/

mutual

/-- The comparisons that were taken to hold, within rejected ones as well. -/
def Event.assumptions : Event → List Comparison
  | .cut => []
  | .assumed c => [c]
  | .made _ _ _ inner => allAssumptions inner

def Event.allAssumptions : List Event → List Comparison
  | [] => []
  | e :: es => e.assumptions ++ allAssumptions es

end

/-- The comparison succeeds without passing the last level, and another that was taken to hold on
the way fails when it is started on its own afterwards. -/
def Comparison.isMisled (c : Comparison) (w : World) (inf : Inference) : Bool :=
  let (r, t) := c.alone w inf
  r.toOption == some true && Event.allUncut t.history &&
    (Event.allAssumptions t.history).any fun d =>
      (d.alone w t.inference).1.toOption == some false

namespace Sample

def views : World :=
  ofDecls [object, protocolOf "P" [final "f" (instanceOf 1)], classOf "M" [final "f" (instanceOf 3)],
    { classOf "C" [] with metaclass := some (.cls (.ofId 2)) },
    protocolOf "R" [final "u" (instanceOf 1)], classOf "D" [final "u" (.cls (.ofId 3))]]

end Sample

/-- The class object of a class has another member than its instances, and is compared with the protocol
while they are. -/
example : (Sample.compare 4 5).isMisled Sample.views .start = true := by decide +kernel

namespace Sample

def boxes : World :=
  ofDecls [object, protocolOf "P" [final "value" (instanceOf 3), final "holder" (instanceOf 2)],
    protocolOf "Q" [final "content" (instanceOf 1)], classOf "A" [],
    generic .covariant (classOf "Box"
      [final "value" (.var (parameter .covariant "Box")), final "holder" (instanceOf 5)]),
    classOf "H" [final "content" (instanceOf 4)], protocolOf "R" [final "u" (instanceOf 1)],
    classOf "D" [final "u" (.cls (viewOf 4 .unknown).toInstance)]]

end Sample

/-- A class without type arguments counts as the same as with an unknown one, but its members are not
of unknown types. -/
example : (Sample.compare 6 7).isMisled Sample.boxes .start = true := by decide +kernel

end Conformance
