import Conformance.Assign.Basic
import Conformance.Proofs.Sample

/-!
# Types of anything

Unknown types and types of anything fit everywhere and accept everything, with one exception: where
types have to be the same, a variable that has been solved accepts nothing but its solution.
-/

namespace Conformance

open Check

/-- The scope of the variable is being solved, and a type other than the given one has been found
for it. -/
def SolvedOtherwise (σ : Option Solution) (v : TypeVar) (t : Ty) : Prop :=
  ∃ τ ∈ σ, τ.solves v.scope = true ∧ ∃ found ∈ τ.get? v, found ≠ t

private theorem reverseVar?_eq_some {mode : Mode} {σ : Option Solution} {t : Ty} {v : TypeVar} :
    reverseVar? mode σ t = some v ↔
      t = .var v ∧ mode.reverse = true ∧ σ.any (·.solves v.scope) = true := by
  cases t <;> simp [reverseVar?]
  grind

section

variable {a : Ty} (ha : a.isAnyOrUnknown = true)
include ha

private theorem same_anything_iff (inf : Inference) (t : Ty) : t.same inf a = true ↔ t = a := by
  cases a <;> simp [Ty.isAnyOrUnknown] at ha <;> cases t <;> simp [Ty.same, Ty.levels, sameAt]

private theorem not_same_var (inf : Inference) (v : TypeVar) : (Ty.var v).same inf a = false := by
  cases a <;> simp [Ty.isAnyOrUnknown] at ha <;> simp [Ty.same, Ty.levels, sameAt]

private theorem reverseVar?_anything (mode : Mode) (σ : Option Solution) :
    reverseVar? mode σ a = none := by
  cases a <;> simp [Ty.isAnyOrUnknown] at ha <;> rfl

private theorem solutionCandidate_anything (mode : Mode) : solutionCandidate mode a = a := by
  cases a <;> simp [Ty.isAnyOrUnknown] at ha <;> rfl

/-! ## Where nothing is solved -/

private theorem exec_assignTy_anything {w : World} {j : Judge} {mode : Mode} {t : Ty}
    {s : CheckState}
    (hs : reverseVar? mode s.solving t = none) :
    exec (assignTy w j mode a t) s = (.ok true, s) := by
  unfold assignTy
  rw [exec_bind_of_ok (exec_solution s), hs]
  cases a <;> simp [Ty.isAnyOrUnknown] at ha ⊢

private theorem exec_assignTy_of_anything {w : World} {j : Judge} {mode : Mode} {t : Ty}
    {s : CheckState}
    (hs : ∀ v, t = .var v → (!mode.reverse && s.solving.any (·.solves v.scope)) = false) :
    exec (assignTy w j mode t a) s = (.ok true, s) := by
  unfold assignTy
  rw [exec_bind_of_ok (exec_solution s), reverseVar?_anything ha]
  cases t with
  | var v =>
    simp only [assignToVar]
    rw [exec_bind_of_ok (exec_inference s), exec_bind_of_ok (exec_solution s),
      not_same_var ha, hs v rfl, ha]
    rfl
  | _ => simp [ha]

private theorem answer_accepts_anything (w : World) (n : Nat) (t : Ty) (s : CheckState) :
    (exec ((judge w n).accepts a t) s).1 = .ok true ∧
      (exec ((judge w n).accepts t a) s).1 = .ok true := by
  cases n with
  | zero => exact ⟨rfl, rfl⟩
  | succ n =>
    let alone : CheckState := { s with notes := none, solving := none }
    have into : exec (assignTy w (judge w n) .default a t) alone = (.ok true, alone) :=
      exec_assignTy_anything ha (by cases t <;> rfl)
    have outOf : exec (assignTy w (judge w n) .default t a) alone = (.ok true, alone) :=
      exec_assignTy_of_anything ha fun _ _ => rfl
    have into : exec ((judge w (n + 1)).assign .default (some a) (some t)) alone =
        (.ok true, alone) := by
      rcases assign_cases w n .default a t with ⟨-, same⟩ | compared
      · rw [same]
        rfl
      · rwa [compared]
    have outOf : exec ((judge w (n + 1)).assign .default (some t) (some a)) alone =
        (.ok true, alone) := by
      rcases assign_cases w n .default t a with ⟨-, same⟩ | compared
      · rw [same]
        rfl
      · rwa [compared]
    exact ⟨congrArg Prod.fst into, congrArg Prod.fst outOf⟩

/-! ## Where variables are solved -/

private theorem exec_fitsBound_anything (w : World) (j : Judge) (mode : Mode) (v : TypeVar)
    (s : CheckState) : exec (fitsBound w j mode v a) s = (.ok true, s) := by
  unfold fitsBound
  cases v.bound with
  | none => rfl
  | some bound => simp [ha]

private theorem answer_widen_anything (w : World) (n : Nat) (v : TypeVar) (found : Ty)
    (s : CheckState) :
    (exec (widen (judge w n) v found a) s).1 = .ok true := by
  have accepted := (answer_accepts_anything ha w n found s).2
  unfold widen
  rw [exec_bind_of_ok (Prod.ext accepted rfl)]
  rfl

private theorem answer_narrow_anything (w : World) (n : Nat) (v : TypeVar) (found : Ty)
    (s : CheckState) :
    (exec (narrow w (judge w n) v found a) s).1 = .ok true := by
  have accepted := (answer_accepts_anything ha w n found s).1
  unfold narrow
  rw [exec_bind_of_ok (Prod.ext accepted rfl)]
  rfl

private theorem answer_solveVar_anything (w : World) (n : Nat) (mode : Mode) {v : TypeVar}
    {s : CheckState} (hv : s.solving.any (·.solves v.scope) = true) :
    ∃ b, (exec (solveVar w (judge w n) mode v a) s).1 = .ok b ∧
      (b = false ↔ mode.invariant = true ∧ SolvedOtherwise s.solving v a) := by
  obtain ⟨σ, hσ, solves⟩ : ∃ σ, s.solving = some σ ∧ σ.solves v.scope = true := by
    cases h : s.solving <;> simp_all
  have otherwise : SolvedOtherwise s.solving v a ↔ ∃ found ∈ σ.get? v, found ≠ a := by
    simp [SolvedOtherwise, hσ, solves]
  rw [otherwise]
  unfold solveVar
  simp only [solutionCandidate_anything ha]
  rw [exec_bind_of_ok (exec_fitsBound_anything ha w (judge w n) mode v s)]
  simp only [Bool.not_true, Bool.false_eq_true, if_false]
  rw [exec_bind_of_ok (exec_solution s), hσ]
  simp only [Option.bind_some]
  cases σ.get? v with
  | none => exact ⟨true, rfl, by simp⟩
  | some found =>
    have other : (∃ t ∈ some found, t ≠ a) ↔ found ≠ a := by simp
    rw [other]
    cases hi : mode.invariant with
    | true =>
      dsimp only
      rw [if_pos rfl, exec_bind_of_ok (exec_inference s)]
      by_cases same : found = a
      · rw [if_pos ((same_anything_iff ha _ _).2 same)]
        exact ⟨true, rfl, by simp [same]⟩
      · rw [if_neg (mt (same_anything_iff ha _ _).1 same)]
        obtain ⟨_, told⟩ := exec_tell .unsolvable (fun inf =>
          [("sourceType", a.text w.classes.nameOf inf), ("name", v.name),
            ("destType", found.text w.classes.nameOf inf)]) s
        refine ⟨false, ?_, by simp [same]⟩
        unfold unsolvable refuse
        rw [exec_bind_of_ok told]
        rfl
    | false =>
      refine ⟨true, ?_, by simp⟩
      dsimp only
      rw [if_neg Bool.false_ne_true]
      split
      · exact answer_narrow_anything ha w n v found s
      · exact answer_widen_anything ha w n v found s

private theorem answer_assignTy_anything (w : World) (n : Nat) (mode : Mode) (t : Ty)
    (s : CheckState) :
    ∃ b, (exec (assignTy w (judge w n) mode a t) s).1 = .ok b ∧
      (b = false ↔ mode.invariant = true ∧ mode.reverse = true ∧
        ∃ v, t = .var v ∧ SolvedOtherwise s.solving v a) := by
  cases hv : reverseVar? mode s.solving t with
  | none =>
    refine ⟨true, congrArg Prod.fst (exec_assignTy_anything ha hv), by simp, ?_⟩
    rintro ⟨-, reverse, v, rfl, σ, hσ, solves, -⟩
    have some : reverseVar? mode s.solving (.var v) = some v := reverseVar?_eq_some.2
      ⟨rfl, reverse, (by simp [Option.mem_def.1 hσ, solves] : s.solving.any _ = true)⟩
    simp [hv] at some
  | some v =>
    obtain ⟨rfl, reverse, solves⟩ := reverseVar?_eq_some.1 hv
    obtain ⟨b, answer, no⟩ := answer_solveVar_anything ha w n mode solves
    refine ⟨b, ?_, by simp [no, reverse]⟩
    unfold assignTy
    rw [exec_bind_of_ok (exec_solution s), hv]
    exact answer

private theorem answer_assignTy_of_anything (w : World) (n : Nat) (mode : Mode) (t : Ty)
    (s : CheckState) :
    ∃ b, (exec (assignTy w (judge w n) mode t a) s).1 = .ok b ∧
      (b = false ↔ mode.invariant = true ∧ mode.reverse = false ∧
        ∃ v, t = .var v ∧ SolvedOtherwise s.solving v a) := by
  by_cases hv : ∃ v, t = .var v ∧ (!mode.reverse && s.solving.any (·.solves v.scope)) = true
  · obtain ⟨v, rfl, solved⟩ := hv
    obtain ⟨reverse, solves⟩ : mode.reverse = false ∧ s.solving.any (·.solves v.scope) = true := by
      simpa using solved
    obtain ⟨b, answer, no⟩ := answer_solveVar_anything ha w n mode solves
    refine ⟨b, ?_, by simp [no, reverse]⟩
    unfold assignTy
    rw [exec_bind_of_ok (exec_solution s), reverseVar?_anything ha]
    simp only [assignToVar]
    rw [exec_bind_of_ok (exec_inference s), exec_bind_of_ok (exec_solution s),
      not_same_var ha, solved]
    exact answer
  · have unsolved v (hvar : t = .var v) :
        (!mode.reverse && s.solving.any (·.solves v.scope)) = false :=
      Bool.eq_false_iff.2 fun solved => hv ⟨v, hvar, solved⟩
    refine ⟨true, congrArg Prod.fst (exec_assignTy_of_anything ha unsolved), by simp, ?_⟩
    rintro ⟨-, reverse, v, hvar, σ, hσ, solves, -⟩
    have := unsolved v hvar
    simp [reverse, Option.mem_def.1 hσ, solves] at this

private theorem answer_assign_anything (w : World) (n : Nat) (mode : Mode) (t : Ty)
    (s : CheckState) :
    ∃ b, (exec ((judge w (n + 1)).assign mode (some a) (some t)) s).1 = .ok b ∧
      (b = false ↔ mode.invariant = true ∧ mode.reverse = true ∧
        ∃ v, t = .var v ∧ SolvedOtherwise s.solving v a) := by
  rcases assign_cases w n mode a t with ⟨rfl, same⟩ | compared
  · rw [same]
    exact ⟨true, rfl, by simp, fun ⟨_, _, v, hv, _⟩ => nomatch hv ▸ ha⟩
  · rw [compared]
    exact answer_assignTy_anything ha w n mode t s

private theorem answer_assign_of_anything (w : World) (n : Nat) (mode : Mode) (t : Ty)
    (s : CheckState) :
    ∃ b, (exec ((judge w (n + 1)).assign mode (some t) (some a)) s).1 = .ok b ∧
      (b = false ↔ mode.invariant = true ∧ mode.reverse = false ∧
        ∃ v, t = .var v ∧ SolvedOtherwise s.solving v a) := by
  rcases assign_cases w n mode t a with ⟨rfl, same⟩ | compared
  · rw [same]
    exact ⟨true, rfl, by simp, fun ⟨_, _, v, hv, _⟩ => nomatch hv ▸ ha⟩
  · rw [compared]
    exact answer_assignTy_of_anything ha w n mode t s

end

/-- Whatever is being solved, in each mode and at each depth, a type of anything and an unknown type
accept every type and fit every type, but for a variable on the side that is being solved which has
to be the same as another type that was found for it. -/
theorem anything_fits_unless_solved_otherwise (w : World) (depth : Int) (mode : Mode)
    (s : CheckState) (a : Ty) (ha : a.isAnyOrUnknown = true) (t : Option Ty) :
    (∃ b u, exec ((judgeAt w depth).assign mode (some a) t) s = (.ok b, u) ∧
      (b = false ↔ depth < Ty.levels ∧ mode.invariant = true ∧ mode.reverse = true ∧
        ∃ v, t = some (.var v) ∧ SolvedOtherwise s.solving v a)) ∧
    ∃ b u, exec ((judgeAt w depth).assign mode t (some a)) s = (.ok b, u) ∧
      (b = false ↔ depth < Ty.levels ∧ mode.invariant = true ∧ mode.reverse = false ∧
        ∃ v, t = some (.var v) ∧ SolvedOtherwise s.solving v a) := by
  unfold judgeAt
  cases hn : levelsAt depth with
  | zero =>
    have beyond : ¬ depth < Ty.levels := by
      unfold levelsAt at hn
      omega
    exact ⟨⟨true, _, rfl, by simp [beyond]⟩, true, _, rfl, by simp [beyond]⟩
  | succ n =>
    have within : depth < Ty.levels := by
      unfold levelsAt at hn
      omega
    cases t with
    | none => exact ⟨⟨true, _, rfl, by simp⟩, true, _, rfl, by simp⟩
    | some t =>
      obtain ⟨b, into, no⟩ := answer_assign_anything ha w n mode t s
      obtain ⟨b', outOf, no'⟩ := answer_assign_of_anything ha w n mode t s
      exact ⟨⟨b, _, Prod.ext into rfl, by simpa [within] using no⟩, b', _, Prod.ext outOf rfl,
        by simpa [within] using no'⟩

/-- The state in which an integer was found for a variable. -/
def intFound (v : TypeVar) : CheckState :=
  ⟨.start, #[], [], [], some ((Solution.forScope v.scope).insert v
    (some (Builtin.instanceOf Builtin.int))), none, []⟩

/-- A variable that was found to be an integer accepts a type of anything, but not where types have
to be the same. -/
theorem any_refused_where_int_was_found :
    let v := TypeVar.make "T" "f.1" .invariant none
    let answer := fun mode => (exec
      ((judgeAt (Sample.ofDecls []) 0).assign mode (some (.var v)) (some .any)) (intFound v)).1
    answer .default = .ok true ∧ answer ⟨true, false, false⟩ = .ok false := by
  intro v answer
  have compared := fun mode => (anything_fits_unless_solved_otherwise (Sample.ofDecls []) 0 mode
    (intFound v) .any rfl (some (.var v))).2
  constructor
  · obtain ⟨b, u, run, no⟩ := compared .default
    have : b ≠ false := fun hb => nomatch (no.1 hb).2.1
    exact (congrArg Prod.fst run).trans (congrArg _ (eq_true_of_ne_false this))
  · obtain ⟨b, u, run, no⟩ := compared ⟨true, false, false⟩
    have otherwise : SolvedOtherwise (intFound v).solving v .any :=
      ⟨_, rfl, by decide +kernel, _, rfl, nofun⟩
    exact (congrArg Prod.fst run).trans
      (congrArg _ (no.2 ⟨by decide, rfl, rfl, v, rfl, otherwise⟩))

end Conformance
