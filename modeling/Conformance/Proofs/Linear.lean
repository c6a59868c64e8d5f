import Conformance.Proofs.Closed
import Conformance.Proofs.Solved
import Conformance.Proofs.Specialization
import Conformance.Proofs.Weighed
import Mathlib.Data.List.Flatten

/-!
# Linear signatures

In a linear signature a type variable stands as a whole where a parameter or the return type is
declared, and nowhere else. Comparing it with a closed signature finds for each variable the type at
the other side, whatever comes of the rest. Comparing the signature with its arguments put into it
asks for the rest too, and for what was found to fit the arguments.
-/

namespace Conformance

open Check

/-- The variable that a type consists of. -/
def Ty.whole : Ty → List TypeVar
  | .var v => [v]
  | _ => []

def Ty.findings (dest source : Ty) : List (TypeVar × Ty) := dest.whole.map (·, source)

/-- What two functions that are compared come to, by the ways in which types fit. -/
def ParamStep.Meets (fits : Ty → Ty → Prop) : ParamStep → Prop
  | compare _ dest source => fits dest.typeOrUnknown source.typeOrUnknown
  | fault _ _ => False

def ParamStep.findings : ParamStep → List (TypeVar × Ty)
  | compare _ dest source => dest.typeOrUnknown.findings source.typeOrUnknown
  | fault _ _ => []

namespace FunctionTy

def steps (dest source : FunctionTy) : List ParamStep :=
  ParamStep.plan (.ofList dest.params) (.ofList source.params)

/-- The variables that stand as a whole in a signature. -/
def whole (f : FunctionTy) : List TypeVar :=
  (f.params.flatMap fun p => p.typeOrUnknown.whole) ++ f.declaredReturn.toList.flatMap Ty.whole

/-- What is found where a signature is compared with another. -/
def findings (inf : Inference) (dest source : FunctionTy) : List (TypeVar × Ty) :=
  (dest.steps source).flatMap ParamStep.findings ++
    (inf.returnType dest).findings (inf.returnType source)

/-- The parameters fit in one way, and the return types in the other. -/
def Meets (inf : Inference) (fits : Variance → Ty → Ty → Prop) (dest source : FunctionTy) : Prop :=
  (∀ step ∈ dest.steps source, step.Meets (fits .contravariant)) ∧
    fits .covariant (inf.returnType dest) (inf.returnType source)

end FunctionTy

def Distinct (found : List (TypeVar × Ty)) : Prop := found.Pairwise fun x y => x.1.key ≠ y.1.key

/-- The way in which a position is compared. -/
def Mode.variance (m : Mode) : Variance := if m.reverse then .contravariant else .covariant

def Mode.demand (m : Mode) : Variance := if m.invariant then .invariant else m.variance

/-! ## Findings -/

theorem Ty.map_findings (dest source : Ty) : (dest.findings source).map (·.1) = dest.whole := by
  rw [findings, List.map_map]
  exact List.map_id _

theorem ParamStep.map_findings (step : ParamStep) :
    step.findings.map (·.1) = step.listed fun p => p.typeOrUnknown.whole := by
  cases step with
  | compare _ dest source => exact dest.typeOrUnknown.map_findings _
  | fault => rfl

private theorem FunctionTy.whole_returnType {f : FunctionTy}
    (settled : ∀ cell outcome, f.ret ≠ .deferred cell outcome) (inf : Inference) :
    (inf.returnType f).whole = f.declaredReturn.toList.flatMap Ty.whole := by
  unfold Inference.returnType FunctionTy.declaredReturn
  cases hr : f.ret with
  | declared t => simp
  | undeclared => rfl
  | deferred cell outcome => exact absurd hr (settled cell outcome)

/-- The groups were formed of these parameters, in order. -/
structure ParamGroups.Formed (g : ParamGroups) (ps : List Param) : Prop where
  behind : g.args = none → g.keywordOnly = []
  order : (g.positional ++ g.keywordOnly).Sublist ps

theorem ParamGroups.Formed.add {g : ParamGroups} {ps : List Param} (h : g.Formed ps) (p : Param) :
    (g.add p).Formed (ps ++ [p]) := by
  have kept := h.order.trans (List.sublist_append_left ps [p])
  have added := h.order.append (List.Sublist.refl [p])
  unfold ParamGroups.add
  cases p.kind with
  | args => exact ⟨fun none_given => (nomatch none_given), kept⟩
  | kwargs => exact ⟨h.behind, kept⟩
  | simple =>
    by_cases given : g.args.isSome = true
    · simp only [given, if_true]
      rw [List.append_assoc] at added
      refine ⟨fun none_given => ?_, added⟩
      rw [show g.args = none from none_given] at given
      cases given
    · have nothing := h.behind (Option.not_isSome_iff_eq_none.1 given)
      simp only [given, Bool.false_eq_true, if_false]
      rw [nothing, List.append_nil] at added
      exact ⟨fun _ => nothing, by rw [nothing, List.append_nil]; exact added⟩

private theorem ParamGroups.formed_ofList (params : List Param) :
    (ofList params).Formed params := by
  have folded : ∀ (ps before : List Param) (g : ParamGroups), g.Formed before →
      (ps.foldl ParamGroups.add g).Formed (before ++ ps) := by
    intro ps
    induction ps with
    | nil =>
      intro before g h
      rw [List.append_nil]
      exact h
    | cons p ps ih =>
      intro before g h
      rw [List.foldl_cons, List.append_cons]
      exact ih _ _ (h.add p)
  exact folded params [] ⟨[], [], none, none⟩ ⟨fun _ => rfl, .refl _⟩

private theorem ParamGroups.kinds_ofList (params : List Param) :
    (∀ p, (ofList params).args = some p → p ∈ params ∧ p.kind = .args) ∧
      ∀ p, (ofList params).kwargs = some p → p ∈ params ∧ p.kind = .kwargs := by
  have folded : ∀ (ps : List Param) (g : ParamGroups), (∀ p ∈ ps, p ∈ params) →
      ((∀ p, g.args = some p → p ∈ params ∧ p.kind = .args) ∧
        ∀ p, g.kwargs = some p → p ∈ params ∧ p.kind = .kwargs) →
      (∀ p, (ps.foldl ParamGroups.add g).args = some p → p ∈ params ∧ p.kind = .args) ∧
        ∀ p, (ps.foldl ParamGroups.add g).kwargs = some p → p ∈ params ∧ p.kind = .kwargs := by
    intro ps
    induction ps with
    | nil => exact fun _ _ h => h
    | cons p ps ih =>
      intro g mem h
      rw [List.foldl_cons]
      apply ih _ fun q hq => mem q (List.mem_cons_of_mem p hq)
      have here := mem p List.mem_cons_self
      unfold ParamGroups.add
      cases hk : p.kind with
      | args => exact ⟨fun q hq => Option.some.inj hq ▸ ⟨here, hk⟩, h.2⟩
      | kwargs => exact ⟨h.1, fun q hq => Option.some.inj hq ▸ ⟨here, hk⟩⟩
      | simple => dsimp only; split <;> exact h
  exact folded params _ (fun _ h => h) ⟨fun _ h => (nomatch h), fun _ h => (nomatch h)⟩

/-- What is found for the parameters is found for variables of the signature, each at its place. -/
theorem FunctionTy.sublist_findings {f : FunctionTy} (g : FunctionTy)
    (settled : ∀ cell outcome, f.ret ≠ .deferred cell outcome)
    (plain : ∀ p ∈ f.params, p.typeOrUnknown.whole ≠ [] → p.kind = .simple) (inf : Inference) :
    ((f.findings inf g).map (·.1)).Sublist f.whole := by
  obtain ⟨args, kwargs⟩ := ParamGroups.kinds_ofList f.params
  have params : ((f.steps g).flatMap (ParamStep.listed fun p => p.typeOrUnknown.whole)).Sublist
      (f.params.flatMap fun p => p.typeOrUnknown.whole) := by
    refine (ParamStep.sublist_plan _ (fun p hp => ?_) (fun p hp => ?_) _).trans
      ((ParamGroups.formed_ofList f.params).order.flatMap _)
    · by_contra found
      cases (args p hp).2.symm.trans (plain p (args p hp).1 found)
    · by_contra found
      cases (kwargs p hp).2.symm.trans (plain p (kwargs p hp).1 found)
  rw [findings, List.map_append, List.map_flatMap, funext ParamStep.map_findings, Ty.map_findings,
    FunctionTy.whole_returnType settled]
  exact params.append (.refl _)

/-- Nothing is found for a signature in which no variable stands as a whole. -/
theorem FunctionTy.findings_eq_nil {f : FunctionTy} (g : FunctionTy)
    (settled : ∀ cell outcome, f.ret ≠ .deferred cell outcome) {inf : Inference}
    (params : ∀ p ∈ f.params, p.typeOrUnknown.whole = []) (ret : (inf.returnType f).whole = []) :
    f.findings inf g = [] := by
  have none_whole : f.whole = [] := by
    rw [whole, ← whole_returnType settled inf, ret, List.append_nil]
    exact List.flatMap_eq_nil_iff.2 params
  have sub := sublist_findings g settled (fun p hp found => absurd (params p hp) found) inf
  rw [none_whole] at sub
  exact List.map_eq_nil_iff.1 (List.sublist_nil.1 sub)

def World.shares (w : World) (f g : FunctionTy) : Bool :=
  w.identity.identical (.function f) (.function g)

theorem World.eq_of_shares {w : World} {f g : FunctionTy} (h : w.shares f g = true) : f = g :=
  Ty.function.inj (w.identity.eq_of_identical h)

/-! ## Stages of a run -/

namespace Fragment

variable {F : Fragment} {w : World} {σ : Solution} {l : List Pending} {k n : Nat}
  {found : List (TypeVar × Ty)} {params : List TypeVar} {m : Mode} {d s t : Ty}

/-- Nothing is solved for. -/
def resting (F : Fragment) (l : List Pending) : Stage where
  Is := F.Rests l
  notes h _ := ⟨h.inference, h.pending, h.solving⟩

/-- A solution of this kind was found so far. -/
def solvedAs (F : Fragment) (σ : Solution) (l : List Pending) (Q : Solution → Prop) : Stage where
  Is s := ∃ τ, F.Seeks σ l s τ ∧ Q τ
  notes := fun ⟨τ, seeks, known⟩ notes => ⟨τ, seeks.notes notes, known⟩

/-- These types were found so far, and no others for the variables that are solved for. -/
def seeking (F : Fragment) (σ : Solution) (l : List Pending) (found : List (TypeVar × Ty)) :
    Stage :=
  F.solvedAs σ l fun τ => ∀ v : TypeVar, σ.solves v.scope = true → ∀ t : Ty,
    τ.get? v = some t ↔ ∃ x ∈ found, x.1.key = v.key ∧ x.2 = t

/-- Types of the fragment are compared in these states as they are where nothing is in progress. -/
structure Suits (F : Fragment) (L : Link F) (I : Stage) : Prop where
  start {s : CheckState} (h : I.Is s) : F.Start s
  idle {s : CheckState} (h : I.Is s) : F.Idle s.solving
  base {s : CheckState} (h : I.Is s) : L.base s.pending []
  stays {s t : CheckState} (h : I.Is s) (kept : L.Kept s t) : I.Is t

theorem suits_resting {L : Link F} (base : L.base l []) : F.Suits L (F.resting l) where
  start h := Rests.start h
  idle {s} h := by
    rw [h.solving]
    exact fun _ _ => rfl
  base {s} h := by
    rw [h.pending]
    exact base
  stays h kept := h.of_kept kept

section

variable {L : Link F} {Q : Solution → Prop} (hf : F.wide) (ha : F.Apart w σ) (base : L.base l [])
include hf ha base

/-- What is known of the variables that are solved for stays so. -/
theorem suits_solvedAs
    (congr : ∀ τ τ', Q τ → (∀ v : TypeVar, σ.solves v.scope = true → τ'.get? v = τ.get? v) → Q τ') :
    F.Suits L (F.solvedAs σ l Q) where
  start := fun ⟨_, seeks, _⟩ => seeks.start hf
  idle := fun ⟨_, seeks, _⟩ => by
    rw [seeks.solving]
    exact idle_of_scopes ha.idle seeks.scopes
  base := fun ⟨_, seeks, _⟩ => by
    rw [seeks.pending]
    exact base
  stays := by
    rintro s t ⟨τ, seeks, known⟩ kept
    have scopes := kept.solving.scopes
    rw [seeks.solving, Option.map_some, Option.map_eq_some_iff] at scopes
    obtain ⟨υ, solving, scopes⟩ := scopes
    refine ⟨υ, ⟨kept.start.inference, kept.pending.trans seeks.pending, solving,
      scopes.trans seeks.scopes, kept.start.solving.has υ solving⟩, congr τ υ known fun v hv => ?_⟩
    have same := kept.solving.others v (ha.keys v hv)
    rw [solving, seeks.solving] at same
    exact same

private theorem suits_seeking : F.Suits L (F.seeking σ l found) :=
  suits_solvedAs hf ha base fun τ τ' known same v hv t => by
    rw [same v hv]
    exact known v hv t

end

def Holds (F : Fragment) (w : World) (n : Nat) (dest source : Ty) : Prop :=
  F.Accepts [] ((judge w n).assign .default (some dest) (some source))

def Fits (F : Fragment) (w : World) (n : Nat) (u : Variance) (dest source : Ty) : Prop :=
  if u = .contravariant then F.Holds w n source dest else F.Holds w n dest source

def FitsApart (F : Fragment) (w : World) (n : Nat) (u : Variance) (dest source : Ty) : Prop :=
  dest.whole = [] → F.Fits w n u dest source

/-- Two types fit as a variance demands: one of them accepts the other, or the same is demanded of
them. -/
def FitsAs (F : Fragment) (w : World) (n : Nat) (u : Variance) (dest source : Ty) : Prop :=
  match u with
  | .covariant => F.Holds w n dest source
  | .contravariant => F.Holds w n source dest
  | .invariant => F.Accepts []
      ((judge w n).assign { Mode.default with invariant := true } (some dest) (some source))

theorem fitsAs_iff_fits {u : Variance} (varies : u ≠ .invariant) :
    F.FitsAs w n u d s ↔ F.Fits w n u d s := by
  cases u with
  | invariant => exact absurd rfl varies
  | covariant | contravariant => rfl

theorem fitsApart_iff {u : Variance} (whole : d.whole = []) :
    F.FitsApart w n u d s ↔ F.Fits w n u d s := forall_prop_of_true whole

theorem fitsApart_var (u : Variance) (v : TypeVar) (s : Ty) : F.FitsApart w n u (.var v) s :=
  fun none => absurd none (List.cons_ne_nil v [])

private theorem weighs_accepts {L : Link F} {I : Stage} (hI : F.Suits L I) (hf : F.wide)
    (hj : L.Judges (judge w k) (judge w n)) {m' : Mode} (alike : m.invariant = m'.invariant)
    (hd : F.Has d) (hs : F.Has s) :
    Weighs L.clean I I (F.Accepts [] ((judge w n).assign m' (some d) (some s)))
      ((judge w k).assign m (some d) (some s)) := by
  have agrees : L.Agrees .idle ((judge w k).assign m (some d) (some s))
      ((judge w n).assign m' (some d) (some s)) :=
    hj alike (hasOption_some hd) (hasOption_some hs)
  intro x hx
  obtain ⟨b, t, he, -, kept⟩ := agrees.left x (hI.start hx)
  obtain ⟨new, hn, -⟩ := kept.history
  refine ⟨b, t, new, he, hI.stays hx kept, hn, fun clean => ?_⟩
  have linked {y : CheckState} (hy : F.Rests [] y) :
      ∃ u, exec ((judge w n).assign m' (some d) (some s)) y = (.ok b, u) ∧ F.Rests [] u := by
    obtain ⟨c, u, hu, -, kept'⟩ := agrees.right y hy.start
    have related : L.Related .idle x y := by
      refine ⟨hI.start hx, hy.start, ?_, hI.idle hx, ?_⟩
      · rw [hy.pending]
        exact hI.base hx
      · rw [hy.solving]
        exact fun _ _ => rfl
    have after : L.CleanAfter x t := fun new' hn' => by
      rw [List.append_cancel_left (hn'.symm.trans hn)]
      exact clean
    have same := (agrees.link related he hu after).1.2 hf
    exact ⟨u, same ▸ hu, hy.of_kept kept'⟩
  constructor
  · rintro rfl y hy
    exact linked hy
  · intro holds
    have rests : F.Rests [] { x with pending := [], solving := none } :=
      ⟨(hI.start hx).inference, rfl, rfl⟩
    obtain ⟨u, hu, -⟩ := linked rests
    obtain ⟨u', hu', -⟩ := holds _ rests
    cases hu.symm.trans hu'
    rfl

private theorem weighs_assign {L : Link F} {I : Stage} (hI : F.Suits L I) (hf : F.wide)
    (hj : L.Judges (judge w k) (judge w n)) (loose : m.invariant = false) (hd : F.Has d)
    (hs : F.Has s) :
    Weighs L.clean I I (F.Holds w n d s) ((judge w k).assign m (some d) (some s)) :=
  weighs_accepts hI hf hj loose hd hs

private theorem weighs_fits {L : Link F} {I : Stage} (hI : F.Suits L I) (hf : F.wide)
    (hj : L.Judges (judge w k) (judge w n)) (loose : m.invariant = false) (hd : F.Has d)
    (hs : F.Has s) :
    Weighs L.clean I I (F.Fits w n m.variance d s) ((judge w k).compare m (some d) (some s)) := by
  unfold Fits Mode.variance Judge.compare
  cases m.reverse with
  | true => exact weighs_assign hI hf hj loose hs hd
  | false => exact weighs_assign hI hf hj loose hd hs

/-- Two types are compared as the mode demands; what has to be the same is not compared the other way
round. -/
theorem weighs_fitsAs {L : Link F} {I : Stage} (hI : F.Suits L I) (hf : F.wide)
    (hj : L.Judges (judge w k) (judge w n)) (ahead : m.invariant = true → m.reverse = false)
    (hd : F.Has d) (hs : F.Has s) :
    Weighs L.clean I I (F.FitsAs w n m.demand d s)
      ((judge w k).compare m (some d) (some s)) := by
  unfold Mode.demand
  cases strict : m.invariant with
  | true =>
    rw [if_pos rfl, compare_ahead _ (ahead strict)]
    exact weighs_accepts hI hf hj strict hd hs
  | false =>
    have varies : m.variance ≠ .invariant := by
      unfold Mode.variance
      split <;> exact fun h => nomatch h
    rw [if_neg Bool.false_ne_true]
    exact (weighs_fits hI hf hj strict hd hs).iff (fitsAs_iff_fits varies).symm

/-! ## Positions -/

/-- A position of a linear signature: a closed type or, if it is declared with the variance of the
position, a type parameter that is solved for. -/
inductive Place (F : Fragment) (w : World) (params : List TypeVar) (u : Variance) : Ty → Prop
  | closed {t : Ty} (has : F.Has t) (closed : t.Closed w.classes) : Place F w params u t
  | var {v : TypeVar} (param : v ∈ params) (variance : v.variance = u) : Place F w params u (.var v)

def Solvable (σ : Solution) (params : List TypeVar) : Prop :=
  ∀ v ∈ params, σ.solves v.scope = true ∧ v.access = .whole ∧ v.bound = none

theorem whole_of_closed {classes : ClassTable} (h : t.Closed classes) : t.whole = [] := by
  cases h <;> rfl

private theorem weighs_solveVar {clean : Event → Prop} (hf : F.wide) {j : Judge} {v : TypeVar}
    (solved : σ.solves v.scope = true) (unbounded : v.bound = none) (ht : F.Has t)
    (closed : t.Closed w.classes) (new : Distinct (found ++ [(v, t)])) :
    Weighs clean (F.seeking σ l found) (F.seeking σ l (found ++ [(v, t)])) True
      (solveVar w j m v t) := by
  rintro s ⟨τ, seeks, known⟩
  have fresh : ∀ x ∈ found, x.1.key ≠ v.key := fun x hx =>
    (List.pairwise_append.1 new).2.2 x hx _ (List.mem_singleton_self _)
  have blank : τ.get? v = none := by
    by_contra given
    obtain ⟨u, hu⟩ := Option.ne_none_iff_exists'.1 given
    obtain ⟨x, hx, key, -⟩ := (known v solved u).1 hu
    exact fresh x hx key
  refine ⟨true, { s with solving := s.solving.map fun τ => τ.insert v (some t) }, [], ?_,
    ⟨_, seeks.insert hf v ht, fun u hu t' => ?_⟩, (List.append_nil _).symm, fun _ => by simp⟩
  · unfold solveVar fitsBound
    rw [unbounded, closed.solutionCandidate_eq, exec_bind_of_ok (exec_pure true s)]
    rw [Bool.not_true, if_neg Bool.false_ne_true, exec_bind_of_ok (exec_solution s),
      seeks.solving, Option.bind_some, blank]
    dsimp only
    rw [exec_bind_of_ok (exec_solve v t s), seeks.solving]
    rfl
  · rw [Solution.get?_insert]
    simp only [List.mem_append, List.mem_singleton, or_and_right, exists_or, exists_eq_left]
    by_cases key : u.key = v.key
    · have none_before : ¬ ∃ x ∈ found, x.1.key = u.key ∧ x.2 = t' :=
        fun ⟨x, hx, same, _⟩ => fresh x hx (same.trans key)
      rw [if_pos key, or_iff_right none_before]
      simp [key]
    · rw [if_neg key, known u hu]
      simp [Ne.symm key]

/-- A position is compared: what takes the place of a variable is found, and all else is compared as
it is. -/
theorem weighs_place {L : Link F} (hf : F.wide) (ha : F.Apart w σ)
    (base : L.base l []) (hj : L.Judges (judge w (k + 1)) (judge w n))
    (solvable : Solvable σ params) (loose : m.invariant = false)
    (hd : F.Place w params m.variance d) (hs : F.Has s) (closed : s.Closed w.classes)
    (new : Distinct (found ++ d.findings s)) :
    Weighs L.clean (F.seeking σ l found) (F.seeking σ l (found ++ d.findings s))
      (F.FitsApart w n m.variance d s)
      ((judge w (k + 1)).compare m (some d) (some s)) := by
  cases hd with
  | closed has plain =>
    rw [Ty.findings, whole_of_closed plain, List.map_nil, List.append_nil]
    exact (weighs_fits (suits_seeking hf ha base) hf hj loose has hs).iff
      (fitsApart_iff (whole_of_closed plain)).symm
  | @var v param variance =>
    obtain ⟨solved, -, unbounded⟩ := solvable v param
    have solving : Weighs L.clean (F.seeking σ l found) (F.seeking σ l (found ++ [(v, s)])) True
        (solveVar w (judge w k) m v s) := weighs_solveVar hf solved unbounded hs closed new
    exact (solving.congr fun x ⟨τ, seeks, _⟩ => exec_compare_var ha k solved hs seeks).iff
      (iff_of_true trivial (fitsApart_var _ v s))

/-! ## Functions -/

def Joined (F : Fragment) (w : World) (fits : Variance → Ty → Ty → Prop) (f g : FunctionTy) : Prop :=
  w.shares f g = true ∨ f.Meets F.inf fits g

/-- Functions that are not one object are compared by their parameters and return types. -/
theorem exec_assign_function (k : Nat) (loose : m.invariant = false) (f g : FunctionTy)
    (x : CheckState) :
    exec ((judge w (k + 1)).assign m (some (.function f)) (some (.function g))) x =
      exec (if w.shares f g = true then pure true else assignFunction w (judge w k) m f g) x := by
  have compared : exec (assignTy w (judge w k) m (.function f) (.function g)) x =
      exec (assignFunction w (judge w k) m f g) x := by
    unfold assignTy assignProper
    rw [exec_bind_of_ok (exec_solution x), loose]
    rfl
  change exec (if w.shares f g = true then pure true else assignTy _ _ _ _ _) x = _
  split
  · rfl
  · exact compared

theorem exec_assign_function_of_yes {f g : FunctionTy} {x y : CheckState}
    (loose : m.invariant = false)
    (h : exec (assignFunction w (judge w k) m f g) x = (.ok true, y)) :
    ∃ y, exec ((judge w (k + 1)).assign m (some (.function f)) (some (.function g))) x =
      (.ok true, y) := by
  rw [exec_assign_function k loose]
  split
  · exact ⟨x, rfl⟩
  · exact ⟨y, h⟩

/-- Nothing is found where a function is compared with itself. -/
theorem run_shared {T : Stage → Stage → Prop → Check Bool → Prop} (rules : Rules T)
    {stage : List (TypeVar × Ty) → Stage} {f g : FunctionTy} {p : Prop} {act : Check Bool}
    (still : f = g → f.findings F.inf g = [])
    (h : T (stage found) (stage (found ++ f.findings F.inf g)) p act) :
    T (stage found) (stage (found ++ f.findings F.inf g)) (w.shares f g = true ∨ p)
      (if w.shares f g = true then pure true else act) := by
  cases one : w.shares f g with
  | true =>
    rw [still (w.eq_of_shares one), List.append_nil, if_pos rfl]
    exact rules.yes (.inl rfl)
  | false =>
    rw [if_neg Bool.false_ne_true]
    exact rules.iff h (by simp)

section

variable {T : Stage → Stage → Prop → Check Bool → Prop} (rules : Rules T)
  {stage : List (TypeVar × Ty) → Stage} {R : TypeVar × Ty → TypeVar × Ty → Prop} {j : Judge}
  {P : Variance → Ty → Prop} {Q : Ty → Prop} {fits : Variance → Ty → Ty → Prop}
  (known : ∀ {found : List (TypeVar × Ty)} {s : CheckState}, (stage found).Is s →
    s.inference = F.inf)
  (compare : ∀ {m : Mode} {d s : Ty} {found : List (TypeVar × Ty)}, m.invariant = false →
    P m.variance d → Q s → (found ++ d.findings s).Pairwise R →
      T (stage found) (stage (found ++ d.findings s)) (fits m.variance d s)
        (j.compare m (some d) (some s)))
  (ahead : m.reverse = false)

include rules compare ahead

private theorem run_step {step : ParamStep}
    (h : step.Mentions (fun p => P .contravariant p.typeOrUnknown) fun p => Q p.typeOrUnknown)
    (related : (found ++ step.findings).Pairwise R) :
    T (stage found) (stage (found ++ step.findings)) (step.Meets (fits .contravariant))
      (step.run w j m) := by
  cases step with
  | fault wording values =>
    rw [ParamStep.findings, List.append_nil]
    exact rules.refuse _ _ _
  | compare index dest source =>
    have back : m.forParams.reverse = true := by simp [Mode.forParams, ahead]
    have direction : m.forParams.variance = .contravariant := by simp [Mode.variance, back]
    have compared := compare (m := m.forParams) rfl (direction ▸ h.1) h.2 related
    rw [direction, Judge.compare, if_pos back] at compared
    exact rules.child (rules.explained (rules.child compared) (.tell _ _))

include known

/-- Two functions are compared position by position. -/
theorem run_assignFunction {f g : FunctionTy} (hf : ∀ cell outcome, f.ret ≠ .deferred cell outcome)
    (hg : ∀ cell outcome, g.ret ≠ .deferred cell outcome)
    (params : ∀ p ∈ f.params, P .contravariant p.typeOrUnknown)
    (taken : ∀ p ∈ g.params, Q p.typeOrUnknown) (ret : P .covariant (F.inf.returnType f))
    (returned : Q (F.inf.returnType g)) (related : (found ++ f.findings F.inf g).Pairwise R) :
    T (stage found) (stage (found ++ f.findings F.inf g)) (f.Meets F.inf fits g)
      (assignFunction w j m f g) := by
  have demanded {f : FunctionTy} (settled : ∀ cell outcome, f.ret ≠ .deferred cell outcome)
      (s : CheckState) : exec (demand f) s = (.ok (), s) := by
    rw [exec_demand, demand_eq settled]
  have direction : m.forReturn.variance = .covariant := by simp [Mode.variance, Mode.forReturn, ahead]
  have steps := ParamStep.mentions_plan (ParamGroups.all_ofList params) (ParamGroups.all_ofList taken)
  rw [FunctionTy.findings, ← List.append_assoc] at related ⊢
  have compared : T (stage found) (stage (found ++ (f.steps g).flatMap ParamStep.findings))
      (∀ step ∈ f.steps g, step.Meets (fits .contravariant))
      (allOf (ParamStep.run w j m) (f.steps g)) :=
    rules.allOf (f.steps g) found (related.sublist (List.sublist_append_left _ _))
      fun step hs found related => run_step rules compare ahead (steps step hs) related
  have answered := compare (m := m.forReturn) rfl (direction ▸ ret) returned related
  rw [direction, compare_ahead _ (show m.forReturn.reverse = false from ahead)] at answered
  have returns : T (stage (found ++ (f.steps g).flatMap ParamStep.findings)) _ _
      (inference >>= fun inf => assignReturn w j m (inf.returnType f) (inf.returnType g)) :=
    rules.after (fun s hs => by rw [exec_inference, known hs])
      (rules.child (rules.explained (rules.child answered) (.tell _ _)))
  have both := rules.both compared returns
  simp only [bind_assoc] at both
  exact rules.after (fun s _ => demanded hf s) (rules.after (fun s _ => demanded hg s) both)

end

/-- Two functions of the fragment are compared where nothing is found. -/
theorem weighs_functions {L : Link F} {I : Stage} (hI : F.Suits L I) (wide : F.wide)
    (hj : L.Judges (judge w k) (judge w n)) (ahead : m.reverse = false) {f g : FunctionTy}
    (hf : F.HasFunction f) (hg : F.HasFunction g) :
    Weighs L.clean I I (f.Meets F.inf (F.Fits w n) g) (assignFunction w (judge w k) m f g) := by
  have inference {found : List (TypeVar × Ty)} {s : CheckState}
      (hs : ((fun _ => I) found : Stage).Is s) : s.inference = F.inf := (hI.start hs).inference
  have free : (([] : List (TypeVar × Ty)) ++ f.findings F.inf g).Pairwise fun _ _ => True :=
    List.pairwise_of_forall fun _ _ => trivial
  exact run_assignFunction (Weighs.rules _) (P := fun _ t => F.Has t) (Q := F.Has) @inference
    (fun loose hd hs _ => weighs_fits hI wide hj loose hd hs) ahead hf.settled hg.settled
    (fun p hp => .typeOrUnknown (hf.params p hp)) (fun p hp => .typeOrUnknown (hg.params p hp))
    (hf.returnType F.inf) (hg.returnType F.inf) free

/-- A signature with a return type, the positions of which are linear. -/
structure Linear (F : Fragment) (w : World) (params : List TypeVar) (f : FunctionTy) : Prop where
  takes : ∀ p ∈ f.params, F.Place w params .contravariant p.typeOrUnknown
  plain : ∀ p ∈ f.params, p.typeOrUnknown.whole ≠ [] → p.kind = .simple
  yields : ∃ t, f.ret = .declared t ∧ F.Place w params .covariant t

variable {f g : FunctionTy} {ρ : Solution}

theorem Linear.settled (h : F.Linear w params f) (cell : CellId) (outcome : Outcome) :
    f.ret ≠ .deferred cell outcome := by
  obtain ⟨t, ht, -⟩ := h.yields
  rw [ht]
  exact fun h => nomatch h

theorem Linear.returnType (h : F.Linear w params f) :
    F.Place w params .covariant (F.inf.returnType f) := by
  obtain ⟨t, ht, place⟩ := h.yields
  rw [returnType_eq ht]
  exact place

theorem Linear.withoutReceiver (h : F.Linear w params f) : F.Linear w params f.withoutReceiver := by
  have fewer := params_withoutReceiver (f := f)
  refine ⟨fun p hp => h.takes p (fewer.subset hp), fun p hp => h.plain p (fewer.subset hp), ?_⟩
  rw [ret_withoutReceiver]
  exact h.yields

/-- What is found for a type parameter stands at the other side, and the parameter is declared with
the variance of a position. -/
theorem Linear.of_findings {Q : Ty → Prop} (h : F.Linear w params f)
    (taken : ∀ p ∈ g.params, Q p.typeOrUnknown) (returned : Q (F.inf.returnType g)) :
    ∀ x ∈ f.findings F.inf g, x.1 ∈ params ∧ x.1.variance ≠ .invariant ∧ Q x.2 := by
  have position {u : Variance} {d s : Ty} (place : F.Place w params u d) (varies : u ≠ .invariant)
      (hs : Q s) : ∀ x ∈ d.findings s, x.1 ∈ params ∧ x.1.variance ≠ .invariant ∧ Q x.2 := by
    cases place with
    | closed has closed =>
      rw [Ty.findings, whole_of_closed closed]
      exact fun _ h => nomatch h
    | var param variance =>
      intro x hx
      cases List.mem_singleton.1 hx
      exact ⟨param, variance ▸ varies, hs⟩
  have steps := ParamStep.mentions_plan (ParamGroups.all_ofList h.takes)
    (ParamGroups.all_ofList taken)
  intro x hx
  rcases List.mem_append.1 hx with hx | hx
  · obtain ⟨step, hs, hx⟩ := List.mem_flatMap.1 hx
    have place := steps step hs
    cases step with
    | fault => cases hx
    | compare => exact position place.1 (fun h => nomatch h) place.2 x hx
  · exact position h.returnType (fun h => nomatch h) returned x hx

theorem whole_withoutReceiver : f.withoutReceiver.whole.Sublist f.whole := by
  have same : f.withoutReceiver.declaredReturn = f.declaredReturn := by
    rw [FunctionTy.declaredReturn, FunctionTy.declaredReturn, ret_withoutReceiver]
  rw [FunctionTy.whole, FunctionTy.whole, same]
  exact (params_withoutReceiver.flatMap _).append (.refl _)

/-! ## Arguments in the places of the variables -/

section

variable (keeps : ∀ v ∈ params, Substitution.ofVar ρ false v = .var v)
include keeps

theorem Place.fixes {u : Variance} (h : F.Place w params u d) : F.Fixes w ρ d := by
  cases h with
  | closed has closed => exact fixes_closed closed has ρ
  | var param _ => exact fixes_var (keeps _ param)

theorem Linear.fixesSignature (h : F.Linear w params f) : F.FixesSignature w ρ f := by
  refine ⟨fun p hp t ht => ?_, fun t ht => ?_, h.settled⟩
  · exact typeOrUnknown_eq ht ▸ (h.takes p hp).fixes keeps
  · obtain ⟨u, hu, place⟩ := h.yields
    cases hu.symm.trans ht
    exact place.fixes keeps

end

theorem Place.fill_eq {u : Variance} (h : F.Place w params u d) (k : Nat) :
    (d.whole = [] ∧ F.fill w ρ (k + 1) d = d) ∨
      ∃ v ∈ params, d = .var v ∧ v.variance = u ∧
        F.fill w ρ (k + 1) d = Substitution.ofVar ρ false v := by
  cases h with
  | closed has closed =>
    exact .inl ⟨whole_of_closed closed, (fixes_closed closed has ρ (k + 1)).eq.2⟩
  | @var v param variance => exact .inr ⟨v, param, rfl, variance, rfl⟩

private theorem Place.fits_fill {u : Variance} (h : F.Place w params u d) (k : Nat) :
    F.Fits w n u (F.fill w ρ (k + 1) d) s ↔ F.FitsApart w n u d s ∧
      ∀ x ∈ d.findings s, F.Fits w n x.1.variance (Substitution.ofVar ρ false x.1) x.2 := by
  rcases h.fill_eq (ρ := ρ) k with ⟨whole, same⟩ | ⟨v, -, rfl, variance, same⟩
  · simp [Ty.findings, whole, same, fitsApart_iff]
  · simp [Ty.findings, Ty.whole, variance, same, fitsApart_var]

private theorem meets_fillFunction {fits : Variance → Ty → Ty → Prop} {k : Nat}
    (settled : ∀ cell outcome, f.ret ≠ .deferred cell outcome) :
    (F.fillFunction w ρ k f).Meets F.inf fits g ↔
      f.Meets F.inf (fun u d s => fits u (F.fill w ρ k d) s) g := by
  have planned : (F.fillFunction w ρ k f).steps g =
      (f.steps g).map (ParamStep.mapDest (F.fillParam w ρ k)) := by
    rw [FunctionTy.steps, fillFunction, ParamGroups.ofList_map (φ := F.fillParam w ρ k) fun _ => rfl,
      ParamStep.plan_map (φ := F.fillParam w ρ k) fun _ => rfl]
    rfl
  have filled (step : ParamStep) :
      (step.mapDest (F.fillParam w ρ k)).Meets (fits .contravariant) ↔
        step.Meets fun d s => fits .contravariant (F.fill w ρ k d) s := by
    cases step with
    | fault => rfl
    | compare i dest source =>
      rw [ParamStep.mapDest, ParamStep.Meets, typeOrUnknown_fillParam]
      rfl
  rw [FunctionTy.Meets, FunctionTy.Meets, planned, List.forall_mem_map,
    returnType_fillFunction k settled]
  simp only [filled]

/-- A signature with arguments in it is met if the rest is met as declared and what is found fits the
arguments. -/
theorem Linear.meets_fill (h : F.Linear w params f) (k : Nat) :
    (F.fillFunction w ρ (k + 1) f).Meets F.inf (F.Fits w n) g ↔
      f.Meets F.inf (F.FitsApart w n) g ∧
        ∀ x ∈ f.findings F.inf g,
          F.Fits w n x.1.variance (Substitution.ofVar ρ false x.1) x.2 := by
  have steps := ParamStep.mentions_plan (ParamGroups.all_ofList h.takes)
    (ParamGroups.all_ofList fun (p : Param) (_ : p ∈ g.params) => trivial)
  have step (step : ParamStep) (hs : step ∈ f.steps g) :
      step.Meets (fun d s => F.Fits w n .contravariant (F.fill w ρ (k + 1) d) s) ↔
        step.Meets (F.FitsApart w n .contravariant) ∧
          ∀ x ∈ step.findings,
            F.Fits w n x.1.variance (Substitution.ofVar ρ false x.1) x.2 := by
    have place := steps step hs
    cases step with
    | fault => simp [ParamStep.Meets]
    | compare i dest source => exact place.1.fits_fill k
  rw [meets_fillFunction h.settled, FunctionTy.Meets, FunctionTy.Meets, h.returnType.fits_fill k,
    forall₂_congr step]
  simp only [FunctionTy.findings, List.mem_append, List.mem_flatMap, or_imp, forall_and,
    forall_exists_index, and_imp]
  tauto

end Fragment

end Conformance
