import Conformance.Proofs.Replay

/-!
# Levels of linked runs

What becomes of one comparison with a protocol, and how the judges of two numbers of levels follow
each other, one level at a time.
-/

namespace Conformance

open Check

/-- A comparison as it is counted, whatever views of the two classes are asked about. -/
def Comparison.of (asObject : Bool) (protocol candidate : ClassTy) : Comparison :=
  ⟨⟨candidate.toClassObject, protocol.toClassObject⟩, asObject⟩

/-- The state in which the parts of a comparison are compared. -/
def CheckState.entering (s : CheckState) (c : Comparison) : CheckState :=
  { s with pending := c.pair :: s.pending, history := [] }

/-- The state after a comparison that was entered from a state. -/
def CheckState.leaving (s : CheckState) (c : Comparison) (b : Bool) (t : CheckState) : CheckState :=
  { t with
    pending := s.pending
    history := s.history ++ [.made c (s.pending.length + 1) (some b) t.history] }

/-- Without type parameters the answer is whether all requirements are met. -/
theorem exec_meetAll {w : World} {j : Judge} {mode : Mode} {protocol : ClassTy}
    {rs : List Requirement} {meets : Requirement → Check Bool} (h : (w.classes.decl protocol.id).params = [])
    (s : CheckState) :
    let run := exec (allOf meets rs)
      { s with solving := some (.forScope (w.classes.decl protocol.id).scope) }
    exec (meetAll w j mode protocol rs meets) s = (run.1, { run.2 with solving := s.solving }) := by
  unfold meetAll
  dsimp only
  rw [exec_bind, exec_solvingFor, exec_bind]
  generalize exec (allOf meets rs) { s with solving := some _ } = run
  obtain ⟨r, t⟩ := run
  cases r with
  | error e => rfl
  | ok met =>
    simp only [h, List.isEmpty_nil, Bool.not_true, Bool.and_false, Bool.false_and,
      Bool.false_eq_true, if_false]
    rfl

def Comparison.parts (c : Comparison) (w : World) (j : Judge) (mode : Mode) : Check Bool :=
  matchMembers w j mode c.asObject c.pair.protocol c.pair.candidate

namespace Fragment

/-- The classes of a comparison belong to the fragment. -/
structure HasComparison (F : Fragment) (c : Comparison) : Prop where
  protocol : F.HasClass c.pair.protocol
  candidate : F.HasClass c.pair.candidate
  objects : c.pair.protocol.isInstance = false ∧ c.pair.candidate.isInstance = false

variable {F : Fragment}

theorem hasComparison_of {protocol candidate : ClassTy} (hp : F.HasClass protocol)
    (hc : F.HasClass candidate) (asObject : Bool) :
    F.HasComparison (.of asObject protocol candidate) :=
  ⟨hp.toClassObject, hc.toClassObject, rfl, rfl⟩

theorem Start.entering {s : CheckState} (h : F.Start s) (c : Comparison) :
    F.Start (s.entering c) := ⟨h.inference, h.solving⟩

end Fragment

namespace Link

variable {F : Fragment} {L : Link F} {ρ : Regime} {w : World} {j j' : Judge}

/-! ## One comparison -/

theorem exec_matchClass (w : World) (j : Judge) (choice : StackChoice) (mode : Mode)
    (asObject : Bool) (protocol candidate : ClassTy) (s : CheckState) :
    exec (matchClass w j choice mode asObject protocol candidate) s =
      let c := Comparison.of asObject protocol candidate
      if isPending s.inference (pendingOn choice s) c.pair then
        (.ok true, { s with history := s.history ++ [.assumed c] })
      else exec (whilePending choice c (c.parts w j mode)) s := by
  unfold matchClass
  rw [exec_bind_of_ok (exec_get s)]
  dsimp only
  by_cases hp : isPending s.inference (pendingOn choice s)
      (Comparison.of asObject protocol candidate).pair = true
  · rw [if_pos hp]
    exact congrArg (exec · s) (if_pos hp)
  · rw [if_neg hp]
    exact congrArg (exec · s) (if_neg hp)

private theorem exec_whilePending_own {c : Comparison} {act : Check Bool} {s t : CheckState}
    {b : Bool}
    (h : exec act (s.entering c) = (.ok b, t)) :
    exec (whilePending .own c act) s = (.ok b, { t with
      pending := t.pending.tail
      history := s.history ++ [.made c (s.pending.length + 1) (some b) t.history] }) := by
  have entered : setPendingOn .own { s with history := [] } (c.pair :: pendingOn .own s) =
      s.entering c := rfl
  rw [exec_whilePending, entered]
  dsimp only
  rw [h]
  rfl

/-- A comparison is taken to hold if it is pending; else its parts are compared. -/
theorem exec_matchClass_cases {mode : Mode} {asObject : Bool} {protocol candidate : ClassTy}
    (h : L.Calm (fun _ => True) ((Comparison.of asObject protocol candidate).parts w j mode))
    {s : CheckState} (hs : F.Start s) :
    let c := Comparison.of asObject protocol candidate
    (isPending F.inf s.pending c.pair = true ∧
      exec (matchClass w j .own mode asObject protocol candidate) s =
        (.ok true, { s with history := s.history ++ [.assumed c] })) ∨
    (isPending F.inf s.pending c.pair = false ∧ ∃ b t,
      exec (c.parts w j mode) (s.entering c) = (.ok b, t) ∧ L.Kept (s.entering c) t ∧
      exec (matchClass w j .own mode asObject protocol candidate) s =
        (.ok b, s.leaving c b t)) := by
  intro c
  rw [exec_matchClass]
  dsimp only [pendingOn]
  by_cases hp : isPending s.inference s.pending c.pair = true
  · exact .inl ⟨hs.inference ▸ hp, if_pos hp⟩
  · obtain ⟨b, t, he, -, kept⟩ := h _ (hs.entering c)
    refine .inr ⟨hs.inference ▸ Bool.eq_false_iff.2 hp, b, t, he, kept, (if_neg hp).trans ?_⟩
    have tail : t.pending.tail = s.pending := congrArg List.tail kept.pending
    rw [exec_whilePending_own he, tail]
    rfl

theorem Kept.leaving {c : Comparison} {s t : CheckState} (h : L.Kept (s.entering c) t) {b : Bool}
    (hk : L.known (.made c (s.pending.length + 1) (some b) t.history)) :
    L.Kept s (s.leaving c b t) :=
  ⟨⟨h.start.inference, h.start.solving⟩, rfl, h.lent, h.solving, [_], rfl,
    fun _ he => List.mem_singleton.1 he ▸ hk⟩

/-- What is known of the events of a judge is known of those of the next level. -/
structure Records (L : Link F) (w : World) : Prop where
  cut : L.known .cut
  assumed {c : Comparison} (hc : F.HasComparison c) : L.known (.assumed c)
  made {levels : Nat} {mode : Mode} {c : Comparison} {s t : CheckState} {b : Bool}
    (hm : mode.invariant = false) (hc : F.HasComparison c) (hs : F.Start s) (hh : s.history = [])
    (he : exec (c.parts w (judge w levels) mode) s = (.ok b, t))
    (hk : ∀ e ∈ t.history, L.known e) (pending : Nat) : L.known (.made c pending (some b) t.history)

section

variable (hr : L.Records w) {levels : Nat} {mode : Mode} (hv : mode.invariant = false)
  {protocol candidate : ClassTy} (hp : F.HasClass protocol) (hc : F.HasClass candidate)
include hr hv hp hc

private theorem Records.made_leaving {asObject : Bool} {s t : CheckState} {b : Bool}
    (hs : F.Start s)
    (he : exec ((Comparison.of asObject protocol candidate).parts w (judge w levels) mode)
      (s.entering (.of asObject protocol candidate)) = (.ok b, t))
    (kept : L.Kept (s.entering (.of asObject protocol candidate)) t) (pending : Nat) :
    L.known (.made (.of asObject protocol candidate) pending (some b) t.history) := by
  refine hr.made hv (Fragment.hasComparison_of hp hc asObject) (hs.entering _) rfl he ?_ pending
  obtain ⟨new, hn, hk⟩ := kept.history
  rw [hn]
  exact hk

theorem Calm.matchClass {asObject : Bool}
    (h : L.Calm (fun _ => True)
      ((Comparison.of asObject protocol candidate).parts w (judge w levels) mode)) :
    L.Calm (fun _ => True)
      (matchClass w (judge w levels) .own mode asObject protocol candidate) := by
  intro s hs
  rcases exec_matchClass_cases h hs with ⟨-, he⟩ | ⟨-, b, t, ht, kept, he⟩
  · refine ⟨true, _, he, trivial, ⟨hs.inference, hs.solving⟩, rfl, rfl, .refl _, [_], rfl, ?_⟩
    intro e hmem
    rw [List.mem_singleton.1 hmem]
    exact hr.assumed (Fragment.hasComparison_of hp hc asObject)
  · exact ⟨b, _, he, trivial,
      kept.leaving (hr.made_leaving hv hp hc hs ht kept (s.pending.length + 1))⟩

end

/-! ## Judges -/

theorem Calm.trace (line : CheckState → TraceLine) :
    L.Calm (fun _ => True) (Check.trace w line) := by
  intro s hs
  refine ⟨(), _, exec_trace w line s, trivial, ?_⟩
  split
  · exact ⟨⟨hs.inference, hs.solving⟩, rfl, rfl, .refl _, [], (List.append_nil _).symm,
      fun _ he => nomatch he⟩
  · exact .refl hs

theorem Sim.trace (line line' : CheckState → TraceLine) :
    L.Sim ρ (fun _ => True) (· = ·) (trace w line) (trace w line') := by
  have solving : ∀ (line : CheckState → TraceLine) (s t : CheckState) (a : Unit),
      exec (Check.trace w line) s = (.ok a, t) → t.solving = s.solving := by
    intro line s t a h
    rw [exec_trace] at h
    cases h
    split <;> rfl
  refine ⟨.trace line, .trace line', fun {s s' t t' a a'} hs h h' _ => ⟨rfl, ?_⟩⟩
  rw [solving line s t a h, solving line' s' t' a' h']
  exact hs.solving

/-- The judge answers, and keeps what it finds. -/
structure Calms (L : Link F) (j : Judge) : Prop where
  assign (m : Mode) {dest source : Option Ty} (hd : F.HasOption dest) (hs : F.HasOption source) :
    L.Calm (fun _ => True) (j.assign m dest source)
  conforms {m : Mode} (hv : m.invariant = false) (asObject : Bool) {protocol candidate : ClassTy}
    (hp : F.HasClass protocol) (hc : F.HasClass candidate) :
    L.Calm (fun _ => True) (j.conforms m asObject protocol candidate)
  modules (m : Mode) {protocol : ClassTy} (hp : F.HasClass protocol) (name : String)
    (table : TableId) : L.Calm (fun _ => True) (j.moduleConforms m protocol name table)

theorem Calm.cutOff (hr : L.Records w) : L.Calm (· = true) cutOff := by
  intro s hs
  refine ⟨true, _, exec_cutOff s, rfl, ⟨hs.inference, hs.solving⟩, rfl, rfl, .refl _, [_], rfl,
    ?_⟩
  intro e he
  rw [List.mem_singleton.1 he]
  exact hr.cut

private theorem Agrees.of_unclean {act act' : Check Bool} (h : L.Calm (fun _ => True) act)
    (h' : L.Calm (fun _ => True) act')
    (hu : ∀ s t b, exec act s = (.ok b, t) → ∃ e, ¬ L.clean e ∧ t.history = s.history ++ [e]) :
    L.Agrees ρ act act' := by
  refine ⟨h, h', fun {s s' t t' b b'} _ he _ hc => ?_⟩
  obtain ⟨e, unclean, hn⟩ := hu s t b he
  exact absurd (hc [e] hn e List.mem_cons_self) unclean

private theorem history_trace_cutOff {line : CheckState → TraceLine} {s t : CheckState} {b : Bool}
    (h : exec (trace w line >>= fun _ => cutOff) s = (.ok b, t)) :
    t.history = s.history ++ [.cut] := by
  rw [exec_bind_of_ok (exec_trace w line s), exec_cutOff] at h
  cases h
  dsimp only
  split <;> rfl

theorem calms_accepting (hr : L.Records w) : L.Calms (accepting w) where
  assign _ _ _ _ _ := (Calm.cutOff hr).imp fun _ _ => trivial
  conforms _ _ _ _ _ _ :=
    (Calm.trace _).bind fun _ _ => (Calm.cutOff hr).imp fun _ _ => trivial
  modules _ _ _ _ _ :=
    (Calm.trace _).bind fun _ _ => (Calm.cutOff hr).imp fun _ _ => trivial

theorem Follows.left (h : L.Follows j j') : L.Calms j where
  assign _ _ _ hd hs := (h.assign (Regime.modes_refl .same _) hd hs).left
  conforms hv asObject _ _ hp hc := (h.conforms (Regime.modes_refl .same _) hv asObject hp hc).left
  modules _ _ hp name table := (h.modules (Regime.modes_refl .same _) hp name table).left

/-- Where the first judge has no levels left, any answer follows. -/
theorem follows_of_cut (hr : L.Records w) (hu : ¬ L.clean .cut) (h : L.Calms j) :
    L.Follows (accepting w) j where
  assign {ρ m m' dest source} _ hd hs := by
    refine Agrees.of_unclean ((calms_accepting hr).assign m hd hs) (h.assign m' hd hs) ?_
    intro s t b he
    cases he
    exact ⟨.cut, hu, rfl⟩
  conforms hm hv asObject _ _ hp hc :=
    Agrees.of_unclean ((calms_accepting hr).conforms hv asObject hp hc)
      (h.conforms (hm.invariant ▸ hv) asObject hp hc)
      fun _ _ _ he => ⟨.cut, hu, history_trace_cutOff he⟩
  modules {ρ m m'} _ _ hp name table :=
    Agrees.of_unclean ((calms_accepting hr).modules m hp name table) (h.modules m' hp name table)
      fun _ _ _ he => ⟨.cut, hu, history_trace_cutOff he⟩

/-- In a narrow fragment the judge without levels follows any other. -/
theorem follows_accepting (hr : L.Records w) (hf : ¬ F.wide) (h : L.Calms j) :
    L.Follows j (accepting w) where
  assign _ hd hs := Agrees.of_yes hf (h.assign _ hd hs) (Calm.cutOff hr)
  conforms _ hv asObject _ _ hp hc :=
    Agrees.of_yes hf (h.conforms hv asObject hp hc)
      ((Calm.trace _).bind fun _ _ => Calm.cutOff hr)
  modules _ _ hp name table :=
    Agrees.of_yes hf (h.modules _ hp name table) ((Calm.trace _).bind fun _ _ => Calm.cutOff hr)

section

variable (hw : F.Covers w) {k l : Nat}
include hw

theorem agrees_parts (h : L.Judges (judge w k) (judge w l)) {m m' : Mode} (hm : ρ.Modes m m')
    {c : Comparison} (hc : F.HasComparison c) :
    L.Agrees ρ (c.parts w (judge w k) m) (c.parts w (judge w l) m') :=
  agrees_matchMembers hw h hm c.asObject hc.protocol hc.candidate

/-- One more level, if the comparisons with protocols follow each other there. -/
theorem Follows.succ (h : L.Follows (judge w k) (judge w l))
    (hc : ∀ {ρ : Regime} {m m' : Mode}, ρ.Modes m m' → m.invariant = false →
      ∀ (asObject : Bool) {protocol candidate : ClassTy}, F.HasClass protocol →
        F.HasClass candidate →
        L.Agrees ρ (matchClass w (judge w k) .own m asObject protocol candidate)
          (matchClass w (judge w l) .own m' asObject protocol candidate)) :
    L.Follows (judge w (k + 1)) (judge w (l + 1)) where
  assign hm hd hs := agrees_assignStep hw h hm hd hs
  conforms hm hv asObject _ _ hp hcand :=
    (Sim.trace _ _).bind fun _ _ => hc hm hv asObject hp hcand
  modules hm _ hp _ table :=
    (Sim.trace _ _).bind fun _ _ => agrees_matchModule hw h.assign hm hp table

theorem calms_succ (hr : L.Records w) (h : L.Follows (judge w k) j) :
    L.Calms (judge w (k + 1)) where
  assign m _ _ hd hs := (agrees_assignStep hw h (Regime.modes_refl .same m) hd hs).left
  conforms {m} hv asObject _ _ hp hc := by
    have parts := agrees_matchMembers hw h.assign (Regime.modes_refl .same m) asObject
      hp.toClassObject hc.toClassObject
    exact (Calm.trace _).bind fun _ _ => Calm.matchClass hr hv hp hc parts.left
  modules m _ hp _ table :=
    (Calm.trace _).bind fun _ _ =>
      (agrees_matchModule hw h.assign (Regime.modes_refl .same m) hp table).left

end

end Link

end Conformance
