import Conformance.Proofs.Operation

/-!
# Termination

The recursion of comparisons ends on every input. Unfolded often enough it no longer matters what
stands below: the depth grows with each nested comparison until the last level is passed, and
where it does not grow the comparison moves from a class to one of its bases, which were declared
before it.
-/

namespace Conformance

open Check

theorem Check.ext {α : Type} {act act' : Check α} (h : ∀ s, exec act s = exec act' s) :
    act = act' :=
  funext h

private theorem Check.lift_bind_congr {α β : Type} {m : StateM Inference α} {k k' : α → Check β}
    (h : ∀ inf, k (m inf).1 = k' (m inf).1) : lift m >>= k = lift m >>= k' := by
  refine Check.ext fun s => ?_
  rw [exec_bind_of_ok (exec_lift m s), exec_bind_of_ok (exec_lift m s), h]

private theorem Check.allOf_congr {α : Type} {f g : α → Check Bool} {as : List α}
    (h : ∀ a ∈ as, f a = g a) : allOf f as = allOf g as := by
  induction as with
  | nil => rfl
  | cons a as ih =>
    rw [allOf, allOf, h a List.mem_cons_self, ih fun b hb => h b (List.mem_cons_of_mem a hb)]

/-- Each class that is a base of another was declared before it. -/
def ClassTable.BasesFirst (classes : ClassTable) : Prop :=
  ∀ (id : ClassId) (base : ClassTy), Ancestor.resolved base ∈ (classes.decl id).bases → base.id < id

private theorem ClassTable.basesFirst_iff (classes : ClassTable) :
    (∀ id < classes.size, ∀ a ∈ (classes.decl id).bases, ∀ base ∈ a.class?, base.id < id) ↔
      classes.BasesFirst := by
  constructor
  · intro h id base hb
    rcases Nat.lt_or_ge id classes.size with hlt | hge
    · exact h id hlt _ hb base rfl
    · rw [decl_of_size_le hge] at hb
      cases hb
  · intro h id _ a ha base hb
    cases a with
    | resolved c =>
      cases hb
      exact h id _ ha
    | unresolved t mark => cases hb

instance (classes : ClassTable) : Decidable classes.BasesFirst :=
  decidable_of_iff _ classes.basesFirst_iff

def ClassTable.rank (classes : ClassTable) (c : ClassTy) : Nat :=
  if c.id < classes.size then c.id + 1 else 0

private theorem ClassTable.rank_le (classes : ClassTable) (c : ClassTy) :
    classes.rank c ≤ classes.size := by
  unfold rank
  split
  · assumption
  · exact Nat.zero_le _

section

variable {w : World} {j : Judge}

private theorem compareBase_congr {fits fits' : ClassTy → ClassTy → Check Bool}
    {dest source base : ClassTy}
    (h : ∀ d s : ClassTy, d.id = base.id → fits d s = fits' d s) :
    compareBase w fits dest source base = compareBase w fits' dest source base := by
  refine lift_bind_congr fun inf => lift_bind_congr fun _ => h _ _ ?_
  unfold ClassTy.specializeBase
  split
  · exact ClassTy.id_substitute _ _ _ _ _
  · rfl

private theorem specializationStep_congr {fits fits' : ClassTy → ClassTy → Check Bool}
    {dest source : ClassTy}
    (h : ∀ base ∈ protocolBases w dest, ∀ d s : ClassTy, d.id = base.id → fits d s = fits' d s) :
    specializationStep w j fits dest source = specializationStep w j fits' dest source := by
  unfold specializationStep
  rw [allOf_congr fun base hb => compareBase_congr (h base hb)]

private theorem specializationStep_of_undeclared (fits : ClassTy → ClassTy → Check Bool)
    {dest : ClassTy} (h : w.classes.size ≤ dest.id) (source : ClassTy) :
    specializationStep w j fits dest source = pure true := by
  unfold specializationStep protocolBases
  rw [ClassTable.decl_of_size_le h]
  rfl

private theorem rank_lt_of_mem_protocolBases (hw : w.classes.BasesFirst) {dest base d : ClassTy}
    (hb : base ∈ protocolBases w dest) (hd : d.id = base.id) :
    w.classes.rank d < w.classes.rank dest := by
  simp only [protocolBases, List.mem_filter, List.mem_filterMap] at hb
  obtain ⟨⟨ancestor, hmem, hclass⟩, -⟩ := hb
  cases ancestor with
  | unresolved t mark => cases hclass
  | resolved c =>
    cases hclass
    have hlt := hw dest.id base hmem
    rcases Nat.lt_or_ge dest.id w.classes.size with hlt' | hge
    · unfold ClassTable.rank
      rw [hd, if_pos (Nat.lt_trans hlt hlt'), if_pos hlt']
      exact Nat.succ_lt_succ hlt
    · rw [ClassTable.decl_of_size_le hge] at hmem
      cases hmem

private theorem compareSpecializations_succ (hw : w.classes.BasesFirst) {height : Nat}
    {dest : ClassTy}
    (h : w.classes.rank dest ≤ height) (source : ClassTy) :
    compareSpecializations w j (height + 1) dest source =
      compareSpecializations w j height dest source := by
  induction height generalizing dest source with
  | zero =>
    rcases Nat.lt_or_ge dest.id w.classes.size with hlt | hge
    · unfold ClassTable.rank at h
      rw [if_pos hlt] at h
      omega
    · exact specializationStep_of_undeclared _ hge source
  | succ height ih =>
    refine specializationStep_congr fun base hb d s hd => ih ?_ s
    have := rank_lt_of_mem_protocolBases hw hb hd
    omega

private theorem fitsItself_eq (hw : w.classes.BasesFirst) (dest source : ClassTy) :
    fitsItself w j dest source = specializationStep w j (fitsItself w j) dest source :=
  (compareSpecializations_succ hw (w.classes.rank_le dest) source).symm

end

namespace Calls

variable {w : World}

private theorem judge_unfold {turns : Nat} {depth : Int} (h : levelsAt depth < turns)
    (below : Calls) :
    (unfold w turns below).judge depth = judgeAt w depth := by
  induction turns generalizing depth with
  | zero => omega
  | succ turns ih =>
    rw [judgeAt_eq, unfold, step]
    dsimp only
    split
    · rfl
    · rename_i hd
      rw [levelsAt_eq_succ hd] at h
      rw [ih (by omega)]

private theorem fits_unfold (hw : w.classes.BasesFirst) {turns : Nat} {depth : Int} {dest : ClassTy}
    (h : levelsAt depth + w.classes.rank dest + 1 < turns) (below : Calls) (source : ClassTy) :
    (unfold w turns below).fits depth dest source =
      fitsItself w (judgeAt w depth) dest source := by
  induction turns generalizing dest source with
  | zero => omega
  | succ turns ih =>
    rw [fitsItself_eq hw, unfold, step]
    dsimp only
    rw [judge_unfold (by omega)]
    refine specializationStep_congr fun base hb d s hd => ih ?_ s
    have := rank_lt_of_mem_protocolBases hw hb hd
    omega

/-- How many turns the calls from depth zero on take at most. -/
def turnsFor (classes : ClassTable) : Nat := Ty.levels + classes.size + 2

private theorem judge_unfold_turnsFor {turns : Nat} {depth : Int} (hd : 0 ≤ depth)
    (ht : turnsFor w.classes ≤ turns) (below : Calls) :
    (unfold w turns below).judge depth = judgeAt w depth := by
  have := levelsAt_le hd
  unfold turnsFor at ht
  exact judge_unfold (by omega) below

private theorem fits_unfold_turnsFor (hw : w.classes.BasesFirst) {turns : Nat} {depth : Int}
    (hd : 0 ≤ depth) (ht : turnsFor w.classes ≤ turns) (below : Calls) :
    (unfold w turns below).fits depth = fitsItself w (judgeAt w depth) := by
  have := levelsAt_le hd
  funext dest source
  have := w.classes.rank_le dest
  unfold turnsFor at ht
  exact fits_unfold hw (by omega) below source

end Calls

/-- An operation at a depth of zero or more takes boundedly many turns of the recursion: what
stands below them is never asked. -/
theorem Operation.checkBy_unfold {α : Type} {w : World} (hw : w.classes.BasesFirst)
    (op : Operation α) (hd : 0 ≤ op.depth) {turns : Nat} (ht : Calls.turnsFor w.classes ≤ turns)
    (below : Calls) : op.checkBy w (Calls.unfold w turns below) = op.check w := by
  rw [← checkBy_answered]
  have judges : ∀ depth : Int, 0 ≤ depth →
      (Calls.unfold w turns below).judge depth = (Calls.answered w).judge depth :=
    fun depth h => Calls.judge_unfold_turnsFor h ht below
  have fits : ∀ depth : Int, 0 ≤ depth →
      (Calls.unfold w turns below).fits depth = (Calls.answered w).fits depth :=
    fun depth h => Calls.fits_unfold_turnsFor hw h ht below
  cases op with
  | assign depth | assignProperty depth | assignArguments depth | bind depth =>
    simp only [checkBy, judges depth hd]
  | conforms choice depth | moduleConforms depth =>
    have hd : 0 ≤ depth := hd
    simp only [checkBy, judges (depth + 1) (by omega)]
  | fitsItself depth => simp only [checkBy, fits depth hd]
  | variance => simp only [checkBy, fits 0 (Int.le_refl 0)]

/-! ## The placeholder of a variance check -/

/-- Ordering the ancestors of a class changes its linearization alone. -/
theorem ClassTable.linearize_eq (classes : ClassTable) (id : ClassId) (inf : Inference) :
    ∃ order, (classes.linearize id inf).1.1 =
      (classes.modify id fun d => { d with mro := [] }).modify id
        fun d => { d with mro := order } :=
  ⟨_, rfl⟩

private theorem Catalog.bases_setBases (cat : Catalog) (c : ClassTy) (bases : List (Option Ty))
    (inf : Inference) :
    (cat.setBases c bases inf).1.1.classes.size = cat.classes.size ∧
      ∀ id, ((cat.setBases c bases inf).1.1.classes.decl id).bases =
        if c.id = id ∧ id < cat.classes.size then markBases cat.nextMark bases
        else (cat.classes.decl id).bases := by
  obtain ⟨order, h⟩ := ClassTable.linearize_eq
    (cat.modify c fun d => { d with bases := markBases cat.nextMark bases }).classes c.id inf
  have he : (cat.setBases c bases inf).1.1.classes = _ := h
  rw [he]
  refine ⟨by simp [Catalog.modify], fun id => ?_⟩
  simp only [ClassTable.decl_modify, Catalog.modify, ClassTable.size_modify]
  by_cases hid : c.id = id ∧ id < cat.classes.size <;> simp [hid]

theorem Catalog.finalize_nil (cat : Catalog) {c : ClassTy} (h : c.id ≠ 0) (inf : Inference) :
    ∃ t, (cat.finalize c [] none inf).1 =
      ((cat.modify c fun d => { d with metaclass := some t }).setBases c
        [some (.cls Builtin.object)] inf).1.1 := by
  have hn : c.sameClass Builtin.object = false := by
    simpa [ClassTy.sameClass, Builtin.object, ClassTy.ofId] using h
  unfold Catalog.finalize
  simp only [List.isEmpty_nil, hn, Bool.not_false, Bool.and_true, if_true]
  generalize (none.or (cat.inheritedMetaclass [some (Ty.cls Builtin.object)])).getD
    (Ty.cls Builtin.type) = t
  refine ⟨t, ?_⟩
  generalize Catalog.setBases (cat.modify c fun d => { d with metaclass := some t }) c
    [some (Ty.cls Builtin.object)] = act
  rfl

theorem Catalog.declareClass_eq (cat : Catalog) (name : String) (flags : ClassFlags)
    (bases : List (Option Ty)) (inf : Inference) :
    (cat.declareClass name flags bases inf).1.2 =
      ((cat.addClass name flags "").2.finalize (cat.addClass name flags "").1 bases none inf).1 := by
  unfold Catalog.declareClass
  obtain ⟨c, cat⟩ := cat.addClass name flags ""
  dsimp only
  generalize cat.finalize c bases none = act
  rfl

/-- A class without bases comes last and derives from the class of all objects. -/
theorem Catalog.bases_declareClass {cat : Catalog} (h : 0 < cat.classes.size) (name : String)
    (flags : ClassFlags) (inf : Inference) :
    (cat.declareClass name flags [] inf).1.2.classes.size = cat.classes.size + 1 ∧
      ∀ id, ((cat.declareClass name flags [] inf).1.2.classes.decl id).bases =
        if id = cat.classes.size then [.resolved Builtin.object]
        else (cat.classes.decl id).bases := by
  have hne : (ClassTy.ofId cat.classes.size).id ≠ 0 := Nat.ne_of_gt h
  obtain ⟨t, ht⟩ := Catalog.finalize_nil (cat.addClass name flags "").2 hne inf
  rw [Catalog.declareClass_eq]
  change ((cat.addClass name flags "").2.finalize (.ofId cat.classes.size) [] none inf).1 = _ at ht
  rw [show (cat.addClass name flags "").1 = .ofId cat.classes.size from rfl, ht]
  obtain ⟨size, bases⟩ := Catalog.bases_setBases
    ((cat.addClass name flags "").2.modify (.ofId cat.classes.size)
      fun d => { d with metaclass := some t })
    (.ofId cat.classes.size) [some (.cls Builtin.object)] inf
  simp only [bases, size]
  simp only [Catalog.modify, Catalog.addClass, ClassTable.decl_modify, ClassTable.size_modify,
    ClassTable.size_push, ClassTable.decl_push, ClassTy.ofId, true_and]
  intro id
  by_cases hid : cat.classes.size = id
  · subst hid
    simp [Catalog.markBases, Ancestor.ofBase, Builtin.object, ClassTy.ofId]
  · have hne : ¬ id = cat.classes.size := fun h => hid h.symm
    simp [hid, hne]

/-- The classes of a session are declared after their bases; the class of all objects is declared. -/
def Session.BasesFirst (s : Session) : Prop := 0 < s.classes.size ∧ s.classes.BasesFirst

instance (s : Session) : Decidable s.BasesFirst :=
  inferInstanceAs (Decidable (0 < s.classes.size ∧ s.classes.BasesFirst))

theorem catalog_placeholderClass {s : Session} (h : s.placeholder = none) :
    (Session.placeholderClass.run s).2.catalog =
      (s.catalog.declareClass "__varianceDummy" .none [] s.inference).1.2 := by
  unfold Session.placeholderClass Session.declareClass
  rw [show s.catalog.declareClass "__varianceDummy" .none [] =
    (fun cat : Catalog => cat.declareClass "__varianceDummy" .none []) s.catalog from rfl]
  generalize (fun cat : Catalog => cat.declareClass "__varianceDummy" .none []) = declare
  obtain ⟨_, _, _, _, _, _, _, _, placeholder⟩ := s
  cases h
  rfl

private theorem basesFirst_placeholderClass {s : Session} (h : s.BasesFirst) :
    (Session.placeholderClass.run s).2.classes.BasesFirst ∧
      (Session.placeholderClass.run s).2.classes.size ≤ s.classes.size + 1 := by
  rcases hp : s.placeholder with _ | c
  · unfold Session.classes
    rw [catalog_placeholderClass hp]
    obtain ⟨size, bases⟩ := Catalog.bases_declareClass h.1 "__varianceDummy" .none s.inference
    generalize (s.catalog.declareClass "__varianceDummy" .none [] s.inference).1.2 = catalog
      at size bases
    refine ⟨fun id base hb => ?_, Nat.le_of_eq size⟩
    rw [bases] at hb
    split at hb
    · rename_i hid
      rw [List.mem_singleton] at hb
      cases hb
      exact hid ▸ h.1
    · exact h.2 id base hb
  · have same : (Session.placeholderClass.run s).2 = s := by
      unfold Session.placeholderClass
      simp only [StateT.run_bind, StateT.run_get, pure_bind, hp]
      rfl
    rw [same]
    exact ⟨h.2, Nat.le_succ _⟩

section

variable {fits fits' : World → ClassTy → ClassTy → Check Bool}

private theorem answer_congr {α : Type} {check check' : World → Check α} {s : Session}
    (h : check s.world = check' s.world) :
    (ExceptT.run (Session.answer check)).run s = (ExceptT.run (Session.answer check')).run s := by
  rw [Frame.run_answer, Frame.run_answer, h]

private theorem checkParamVariance_congr {s : Session} (h : fits s.world = fits' s.world)
    (protocol : ClassTy) (l : Location) (placeholder : Ty) (index : Nat) (v : TypeVar) :
    (ExceptT.run (Session.checkParamVariance fits protocol l placeholder index v)).run s =
      (ExceptT.run (Session.checkParamVariance fits' protocol l placeholder index v)).run s := by
  unfold Session.checkParamVariance
  split
  · rfl
  · have same := @answer_congr _ (fun w => expectedVariance w (fits w) protocol index placeholder)
      (fun w => expectedVariance w (fits' w) protocol index placeholder) s (by rw [h])
    rw [run_bind, run_bind, same]

/-- The variance check of one parameter changes nothing that checks look at. -/
theorem world_checkParamVariance (protocol : ClassTy) (l : Location) (placeholder : Ty)
    (index : Nat) (v : TypeVar) (s : Session) :
    ((ExceptT.run (Session.checkParamVariance fits protocol l placeholder index v)).run s).2.world =
      s.world := by
  unfold Session.checkParamVariance
  split
  · rfl
  · rw [run_bind, Frame.run_answer]
    rcases exec _ _ with ⟨_ | expected, t⟩
    · rfl
    · dsimp only
      split <;> rfl

private theorem checkParamVariances_congr {s : Session} (h : fits s.world = fits' s.world)
    (protocol : ClassTy) (l : Location) (placeholder : Ty) (index : Nat) (vs : List TypeVar) :
    (ExceptT.run (Session.checkParamVariances fits protocol l placeholder index vs)).run s =
      (ExceptT.run (Session.checkParamVariances fits' protocol l placeholder index vs)).run s := by
  induction vs generalizing index s with
  | nil => rfl
  | cons v vs ih =>
    rw [Session.checkParamVariances, Session.checkParamVariances, run_bind, run_bind,
      checkParamVariance_congr h]
    have same : ((ExceptT.run (Session.checkParamVariance fits' protocol l placeholder index v)).run
      s).2.world = s.world := world_checkParamVariance protocol l placeholder index v s
    generalize (ExceptT.run (Session.checkParamVariance fits' protocol l placeholder index v)).run s
      = result at same ⊢
    obtain ⟨_ | first, t⟩ := result
    · rfl
    · dsimp only at same ⊢
      rw [run_bind, run_bind, ih (by rw [same, h])]

end

/-- The check of the variances of a protocol takes boundedly many turns as well. -/
theorem checkVarianceBy_unfold {s : Session} (hs : s.BasesFirst) {turns : Nat}
    (ht : Calls.turnsFor s.classes + 1 ≤ turns) (below : World → Calls) (protocol : ClassTy)
    (l : Location) :
    (ExceptT.run (Session.checkVarianceBy
      (fun w => (Calls.unfold w turns (below w)).fits 0) protocol l)).run s =
      (ExceptT.run (Session.checkVariance protocol l)).run s := by
  obtain ⟨bases, size⟩ := basesFirst_placeholderClass hs
  unfold Session.checkVariance Session.checkVarianceBy
  have started (k : Session → ExceptT InferenceError SessionM Bool) :
      (ExceptT.run (do let s ← get; k s)).run s = (ExceptT.run (k s)).run s := rfl
  rw [started, started]
  dsimp only
  split
  · rfl
  · have declared (k : ClassTy → ExceptT InferenceError SessionM Bool) :
        (ExceptT.run (liftM Session.placeholderClass >>= k)).run s =
          (ExceptT.run (k (Session.placeholderClass.run s).1)).run
            (Session.placeholderClass.run s).2 := rfl
    rw [declared, declared]
    refine checkParamVariances_congr ?_ _ _ _ _ _
    refine Calls.fits_unfold_turnsFor bases (Int.le_refl 0) ?_ _
    unfold Calls.turnsFor at ht ⊢
    change Ty.levels + (Session.placeholderClass.run s).2.classes.size + 2 ≤ turns
    omega

end Conformance
