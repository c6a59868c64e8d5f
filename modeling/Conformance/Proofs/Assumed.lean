import Conformance.Proofs.Levels

/-!
# Comparisons that are taken to hold

A comparison that is in progress is taken to hold when it is asked for again. Where nothing is
solved for and no return type is found out, this is right: let a comparison succeed, and everything
that was taken to hold on the way, outside of comparisons that were rejected, be in progress under
the same view. Then each of these also succeeds on its own, at every number of levels: its parts are
compared anew, and each answer follows the one that was given the first time.
-/

namespace Conformance

open Check

/-! ## Histories -/

mutual

/-- The last level was never passed. -/
def Event.uncut : Event → Bool
  | .cut => false
  | .assumed _ => true
  | .made _ _ _ inner => allUncut inner

def Event.allUncut : List Event → Bool
  | [] => true
  | e :: es => e.uncut && allUncut es

end

mutual

/-- The comparisons that were taken to hold, outside of rejected ones, each with those that were in
progress around it. -/
def Event.taken (around : List Comparison) : Event → List (Comparison × List Comparison)
  | .cut => []
  | .assumed c => [(c, around)]
  | .made c _ answer inner => if answer = some true then allTaken (c :: around) inner else []

def Event.allTaken (around : List Comparison) : List Event → List (Comparison × List Comparison)
  | [] => []
  | e :: es => e.taken around ++ allTaken around es

end

mutual

/-- The comparisons that were made and succeeded, outside of rejected ones. -/
def Event.held : Event → List Comparison
  | .cut | .assumed _ => []
  | .made c _ answer inner => if answer = some true then c :: allHeld inner else []

def Event.allHeld : List Event → List Comparison
  | [] => []
  | e :: es => e.held ++ allHeld es

end

/-- The comparison is among those in progress, under the same view. -/
def Comparison.isAmong (inf : Inference) (around : List Comparison) (c : Comparison) : Bool :=
  around.any fun d => d.asObject == c.asObject && isPending inf [d.pair] c.pair

namespace Event

theorem uncut_of_mem {es : List Event} (h : allUncut es = true) {e : Event} (he : e ∈ es) :
    e.uncut = true := by
  induction es with
  | nil => cases he
  | cons e' es ih =>
    rw [allUncut, Bool.and_eq_true] at h
    rcases List.mem_cons.1 he with rfl | he
    · exact h.1
    · exact ih h.2 he

theorem mem_allTaken {around : List Comparison} {es : List Event} {e : Event} (he : e ∈ es)
    {p : Comparison × List Comparison} (hp : p ∈ e.taken around) : p ∈ allTaken around es := by
  induction es with
  | nil => cases he
  | cons e' es ih =>
    rw [allTaken, List.mem_append]
    rcases List.mem_cons.1 he with rfl | he
    · exact .inl hp
    · exact .inr (ih he)

theorem exists_of_mem_allTaken {around : List Comparison} {es : List Event}
    {p : Comparison × List Comparison} (hp : p ∈ allTaken around es) :
    ∃ e ∈ es, p ∈ e.taken around := by
  induction es with
  | nil => cases hp
  | cons e es ih =>
    rw [allTaken, List.mem_append] at hp
    rcases hp with hp | hp
    · exact ⟨e, List.mem_cons_self, hp⟩
    · obtain ⟨e', he', hp⟩ := ih hp
      exact ⟨e', List.mem_cons_of_mem e he', hp⟩

private theorem mem_allHeld {es : List Event} {e : Event} (he : e ∈ es) {c : Comparison}
    (hc : c ∈ e.held) : c ∈ allHeld es := by
  induction es with
  | nil => cases he
  | cons e' es ih =>
    rw [allHeld, List.mem_append]
    rcases List.mem_cons.1 he with rfl | he
    · exact .inl hc
    · exact .inr (ih he)

private theorem exists_of_mem_allHeld {es : List Event} {c : Comparison} (hc : c ∈ allHeld es) :
    ∃ e ∈ es, c ∈ e.held := by
  induction es with
  | nil => cases hc
  | cons e es ih =>
    rw [allHeld, List.mem_append] at hc
    rcases hc with hc | hc
    · exact ⟨e, List.mem_cons_self, hc⟩
    · obtain ⟨e', he', hc⟩ := ih hc
      exact ⟨e', List.mem_cons_of_mem e he', hc⟩

end Event

/-! ## Runs of comparisons -/

namespace Fragment

/-- The event is that of a comparison that was run, at some number of levels, and so are those
within it. -/
inductive Genuine (F : Fragment) (w : World) : Event → Prop
  | cut : Genuine F w .cut
  | assumed {c : Comparison} (hc : F.HasComparison c) : Genuine F w (.assumed c)
  | made {levels : Nat} {mode : Mode} {c : Comparison} {s t : CheckState} {b : Bool}
    (hm : mode.invariant = false) (hc : F.HasComparison c) (hs : F.Start s) (hh : s.history = [])
    (he : exec (c.parts w (judge w levels) mode) s = (.ok b, t))
    (inner : ∀ e ∈ t.history, Genuine F w e) (pending : Nat) :
    Genuine F w (.made c pending (some b) t.history)

/-- The events after which another run still follows: what was taken to hold or succeeded is among
the given comparisons. -/
def Within (X : Comparison → Prop) : Event → Prop
  | .cut => False
  | .assumed c => X c
  | .made c _ answer _ => answer = some true → X c

/-- Follows runs in which only the given comparisons were taken to hold or succeeded. -/
def within (F : Fragment) (w : World) (X : Comparison → Prop) : Link F where
  clean := Within X
  known := F.Genuine w
  base _ _ := True

/-- The comparison succeeded in a run in which only the given comparisons were taken to hold or
succeeded. -/
def Supported (F : Fragment) (w : World) (X : Comparison → Prop) (c : Comparison) : Prop :=
  ∃ levels mode s t, mode.invariant = false ∧ F.HasComparison c ∧ F.Start s ∧ s.history = [] ∧
    exec (c.parts w (judge w levels) mode) s = (.ok true, t) ∧ ∀ e ∈ t.history, Within X e

/-- The comparison succeeds wherever it is started. -/
def Succeeds (F : Fragment) (w : World) (levels : Nat) (c : Comparison) : Prop :=
  ∀ mode s, mode.invariant = false → F.Start s →
    ∃ t, exec (c.parts w (judge w levels) mode) s = (.ok true, t)

variable {F : Fragment} {w : World} {X : Comparison → Prop}

private theorem records_within : (F.within w X).Records w where
  cut := .cut
  assumed hc := .assumed hc
  made hm hc hs hh he hk pending := .made hm hc hs hh he hk pending

theorem idle_of_start (hf : ¬ F.wide) {s : CheckState} (h : F.Start s) : F.Idle s.solving :=
  h.solving.idle.resolve_left hf

section

variable (hw : F.Covers w) (hf : ¬ F.wide)
include hw hf

theorem follows_accepting_all (k : Nat) :
    (F.within w X).Follows (judge w k) (accepting w) := by
  induction k with
  | zero => exact Link.follows_of_cut records_within id (Link.calms_accepting records_within)
  | succ k ih =>
    exact Link.follows_accepting records_within hf (Link.calms_succ hw records_within ih)

/-- A comparison whose parts were compared in a supported run succeeds on its own. -/
theorem succeeds_of_supported {l : Nat}
    (h : ∀ k, (F.within w X).Follows (judge w k) (judge w l)) {c : Comparison}
    (hc : F.Supported w X c) : F.Succeeds w l c := by
  obtain ⟨k, m, s, t, hv, has, hs, hh, he, hclean⟩ := hc
  intro m' s' hv' hs'
  have modes : Regime.idle.Modes m m' := hv.trans hv'.symm
  have linked := Link.agrees_parts hw (h k).assign modes has
  obtain ⟨b, t', he', -, -⟩ := linked.right s' hs'
  have related : (F.within w X).Related .idle s s' :=
    ⟨hs, hs', trivial, idle_of_start hf hs, idle_of_start hf hs'⟩
  have clean : (F.within w X).CleanAfter s t := by
    intro new hn e hmem
    rw [hh, List.nil_append] at hn
    exact hclean e (hn ▸ hmem)
  have answers := (linked.link related he he' clean).1.1 rfl
  exact ⟨t', answers ▸ he'⟩

theorem agrees_matchClass {k l : Nat} {ρ : Regime} {m m' : Mode} (hm : ρ.Modes m m')
    (hv : m.invariant = false) (h : (F.within w X).Follows (judge w k) (judge w l))
    (hX : ∀ c, X c → F.Succeeds w l c) (asObject : Bool) {protocol candidate : ClassTy}
    (hp : F.HasClass protocol) (hc : F.HasClass candidate) :
    (F.within w X).Agrees ρ (matchClass w (judge w k) .own m asObject protocol candidate)
      (matchClass w (judge w l) .own m' asObject protocol candidate) := by
  have hv' : m'.invariant = false := hm.invariant ▸ hv
  have parts := Link.agrees_parts hw h.assign hm (hasComparison_of hp hc asObject)
  have left := Link.Calm.matchClass records_within hv hp hc parts.left
  have right := Link.Calm.matchClass records_within hv' hp hc parts.right
  refine ⟨left, right, fun {s s' t t' b b'} hs he he' hclean =>
    ⟨⟨fun hb => ?_, fun h => absurd h hf⟩, ?_⟩⟩
  · subst hb
    have holds : X (.of asObject protocol candidate) := by
      rcases Link.exec_matchClass_cases parts.left hs.left with ⟨-, hrun⟩ | ⟨-, b, u, -, -, hrun⟩
      · rw [he] at hrun
        cases hrun
        exact hclean [_] rfl _ List.mem_cons_self
      · rw [he] at hrun
        cases hrun
        exact hclean [_] rfl _ List.mem_cons_self rfl
    rcases Link.exec_matchClass_cases parts.right hs.right with
      ⟨-, hrun⟩ | ⟨-, b, u, hparts, -, hrun⟩
    · rw [he'] at hrun
      cases hrun
      rfl
    · obtain ⟨u', hu'⟩ := hX _ holds m' _ hv' (hs.right.entering _)
      rw [hu'] at hparts
      cases hparts
      rw [he'] at hrun
      cases hrun
      rfl
  · rw [(left.elim hs.left he).2.solving.narrow hf, (right.elim hs.right he').2.solving.narrow hf]
    exact hs.solving

/-- What is supported by comparisons that are supported themselves succeeds at every number of
levels. -/
theorem follows_within (hX : ∀ c, X c → F.Supported w X c) (l k : Nat) :
    (F.within w X).Follows (judge w k) (judge w l) := by
  induction l generalizing k with
  | zero => exact follows_accepting_all hw hf k
  | succ l ih =>
    have succeeds : ∀ c, X c → F.Succeeds w l c := fun c hc =>
      succeeds_of_supported hw hf ih (hX c hc)
    cases k with
    | zero =>
      exact Link.follows_of_cut records_within id
        (Link.calms_succ hw records_within (ih l))
    | succ k =>
      exact Link.Follows.succ hw (ih k) fun hm hv asObject _ _ hp hc =>
        agrees_matchClass hw hf hm hv (ih k) succeeds asObject hp hc

end

/-! ## From histories to comparisons that succeed -/

/-- In a narrow fragment, views of classes that are the same are equal. -/
theorem eq_of_same (hf : ¬ F.wide) {c d : ClassTy} (hc : F.HasClass c) (hd : F.HasClass d)
    {inf : Inference} (h : (Ty.cls c).same inf (.cls d) = true) : c = d := by
  obtain ⟨cargs, cexplicit⟩ := hc.narrow.resolve_left hf
  obtain ⟨dargs, dexplicit⟩ := hd.narrow.resolve_left hf
  obtain ⟨id, isInstance, args, explicit, literal⟩ := c
  obtain ⟨id', isInstance', args', explicit', literal'⟩ := d
  cases cargs
  cases cexplicit
  cases dargs
  cases dexplicit
  change sameClassTy (sameAt inf 14) _ _ = true at h
  simp only [sameClassTy, ClassTy.sameClass, Bool.and_eq_true, beq_iff_eq] at h
  obtain ⟨⟨⟨rfl, rfl⟩, rfl⟩, -⟩ := h
  rfl

private theorem mem_of_isAmong (hf : ¬ F.wide) {around : List Comparison} {c : Comparison}
    (hc : F.HasComparison c) (ha : ∀ d ∈ around, F.HasComparison d)
    (h : c.isAmong F.inf around = true) : c ∈ around := by
  obtain ⟨d, hd, same⟩ := List.any_eq_true.1 h
  have has := ha d hd
  rw [Bool.and_eq_true, beq_iff_eq] at same
  obtain ⟨view, pair⟩ := same
  unfold isPending at pair
  rw [List.any_cons, List.any_nil, Bool.or_false, Bool.and_eq_true] at pair
  have candidates := eq_of_same hf has.candidate hc.candidate pair.1
  have protocols := eq_of_same hf has.protocol hc.protocol pair.2
  obtain ⟨⟨candidate, protocol⟩, asObject⟩ := c
  obtain ⟨⟨candidate', protocol'⟩, asObject'⟩ := d
  cases view
  cases candidates
  cases protocols
  exact hd

def Around (F : Fragment) (X : Comparison → Prop) (around : List Comparison) : Prop :=
  ∀ d ∈ around, F.HasComparison d ∧ X d

theorem supported_of_genuine (hf : ¬ F.wide) {e : Event} (h : F.Genuine w e) :
    ∀ around, F.Around X around → e.uncut = true →
      (∀ p ∈ e.taken around, p.1.isAmong F.inf p.2 = true) → (∀ c ∈ e.held, X c) →
      Within X e ∧ (∀ c ∈ e.held, F.Supported w X c) ∧ ∀ p ∈ e.taken around, X p.1 := by
  induction h with
  | cut =>
    intro around _ hu
    cases hu
  | @assumed c hc =>
    intro around ha _ ht _
    have among := ht (c, around) List.mem_cons_self
    have holds := (ha c (mem_of_isAmong hf hc (fun d hd => (ha d hd).1) among)).2
    refine ⟨holds, fun _ hn => (nomatch hn), fun p hp => ?_⟩
    rw [List.mem_singleton.1 hp]
    exact holds
  | @made levels mode c s t b hm hc hs hh he _ pending ih =>
    intro around ha hu ht hheld
    cases b with
    | false => exact ⟨fun h => (nomatch h), fun _ hn => (nomatch hn), fun _ hn => (nomatch hn)⟩
    | true =>
      have holds : X c := hheld c List.mem_cons_self
      have around' : F.Around X (c :: around) := by
        intro d hd
        rcases List.mem_cons.1 hd with rfl | hd
        · exact ⟨hc, holds⟩
        · exact ha d hd
      have each : ∀ e ∈ t.history, Within X e ∧ (∀ c ∈ e.held, F.Supported w X c) ∧
          ∀ p ∈ e.taken (c :: around), X p.1 := by
        intro e hmem
        refine ih e hmem (c :: around) around' (Event.uncut_of_mem hu hmem) ?_ ?_
        · exact fun p hp => ht p (Event.mem_allTaken hmem hp)
        · exact fun d hd => hheld d (List.mem_cons_of_mem c (Event.mem_allHeld hmem hd))
      refine ⟨fun _ => holds, fun d hd => ?_, fun p hp => ?_⟩
      · rcases List.mem_cons.1 hd with rfl | hd
        · exact ⟨levels, mode, s, t, hm, hc, hs, hh, he, fun e hmem => (each e hmem).1⟩
        · obtain ⟨e, hmem, hd⟩ := Event.exists_of_mem_allHeld hd
          exact (each e hmem).2.1 d hd
      · obtain ⟨e, hmem, hp⟩ := Event.exists_of_mem_allTaken hp
        exact (each e hmem).2.2 p hp

end Fragment

end Conformance
