import Conformance.Proofs.Parts

/-!
# Frames

A frame relates the stacks and the history before a check with those after it, whatever the answer
and also where a return type is not found out. Only a comparison with a protocol touches them, so a
frame that the judge of the next level keeps is kept by each part of a comparison.
-/

namespace Conformance

open Check

/-- What the comparisons with protocols leave their traces in. -/
structure Footprint where
  pending : List Pending
  lent : List Pending
  history : List Event

def CheckState.footprint (s : CheckState) : Footprint := ⟨s.pending, s.lent, s.history⟩

/-- A relation between footprints that may be passed on from one part of a check to the next. -/
structure Frame where
  rel : Footprint → Footprint → Prop
  refl (f : Footprint) : rel f f
  trans {f g h : Footprint} (hfg : rel f g) (hgh : rel g h) : rel f h

namespace Frame

variable {F : Frame} {α β : Type}

def Keeps (F : Frame) (act : Check α) : Prop :=
  ∀ s : CheckState, F.rel s.footprint (exec act s).2.footprint

theorem keeps_of_eq {act : Check α} (h : ∀ s, (exec act s).2.footprint = s.footprint) :
    F.Keeps act :=
  fun s => h s ▸ F.refl _

theorem keeps_pure (a : α) : F.Keeps (pure a : Check α) := keeps_of_eq fun _ => rfl

private theorem keeps_inference : F.Keeps inference := keeps_of_eq fun _ => rfl

private theorem keeps_solution : F.Keeps solution := keeps_of_eq fun _ => rfl

private theorem keeps_solve (v : TypeVar) (t : Ty) : F.Keeps (solve v t) := keeps_of_eq fun _ => rfl

private theorem keeps_lift (m : StateM Inference α) : F.Keeps (lift m) := keeps_of_eq fun _ => rfl

theorem keeps_trace (w : World) (line : CheckState → TraceLine) : F.Keeps (trace w line) := by
  refine keeps_of_eq fun s => ?_
  rw [exec_trace]
  by_cases h : w.verbose <;> simp only [h, if_true] <;> rfl

private theorem keeps_tell (wording : Wording) (values : Inference → List (String × String)) :
    F.Keeps (tell wording values) := by
  refine keeps_of_eq fun s => ?_
  obtain ⟨notes, h⟩ := exec_tell wording values s
  rw [h]
  rfl

private theorem keeps_demand (f : FunctionTy) : F.Keeps (demand f) := by
  refine keeps_of_eq fun s => ?_
  rw [exec_demand]
  rfl

theorem keeps_bind {act : Check α} {k : α → Check β} (h : F.Keeps act)
    (hk : ∀ a, F.Keeps (k a)) : F.Keeps (act >>= k) := by
  intro s
  have first := h s
  rw [exec_bind]
  rcases hr : exec act s with ⟨r, t⟩
  rw [hr] at first
  cases r with
  | ok a => exact F.trans first (hk a t)
  | error e => exact first

private theorem keeps_within {enter : CheckState → CheckState}
    {leave : CheckState → CheckState → CheckState} {act : Check α}
    (he : ∀ s, (enter s).footprint = s.footprint)
    (hl : ∀ s t, (leave s t).footprint = t.footprint) (h : F.Keeps act) :
    F.Keeps (within enter leave act) := by
  intro s
  have inner := h (enter s)
  rw [exec_within, hl]
  rwa [he] at inner

private theorem keeps_solvingFor {act : Check α} (σ : Option Solution) (h : F.Keeps act) :
    F.Keeps (solvingFor σ act) :=
  keeps_within (fun _ => rfl) (fun _ _ => rfl) h

private theorem keeps_silently {act : Check α} (h : F.Keeps act) : F.Keeps (silently act) :=
  keeps_within (fun _ => rfl) (fun _ _ => rfl) h

private theorem keeps_child {act : Check α} (h : F.Keeps act) : F.Keeps (child act) :=
  keeps_within (fun _ => rfl) (fun _ _ => rfl) h

private theorem keeps_attempt {act : Check Bool} (h : F.Keeps act) : F.Keeps (attempt act) := by
  intro s
  have inner := h s
  rw [exec_attempt]
  split
  · rename_i t ht
    rwa [ht] at inner
  · rename_i r t _ ht
    rw [ht] at inner
    exact inner

/-- A frame is passed on by each way to put checks together. -/
theorem compositional (F : Frame) : Compositional fun _ act => F.Keeps act where
  holds_pure := keeps_pure
  holds_bind := keeps_bind
  holds_inference := keeps_inference
  holds_lift _ := keeps_lift _
  holds_demand := keeps_demand
  holds_solution := keeps_solution
  holds_solving h := keeps_bind keeps_solution fun σ => h σ fun v _ t => keeps_solve v t
  holds_tell := keeps_tell
  holds_solvingFor := keeps_solvingFor
  holds_silently := keeps_silently
  holds_child := keeps_child
  holds_attempt := keeps_attempt

def KeepsAssign (F : Frame) (j : Judge) : Prop :=
  ∀ mode dest source, F.Keeps (j.assign mode dest source)

/-- The judge keeps the frame in the comparisons with protocols that are made in a mode. -/
structure KeepsProtocols (F : Frame) (j : Judge) (mode : Mode) : Prop where
  conforms : ∀ asObject protocol candidate, F.Keeps (j.conforms mode asObject protocol candidate)
  moduleConforms : ∀ protocol name table, F.Keeps (j.moduleConforms mode protocol name table)

section

variable {w : World} {j : Judge} (hj : F.KeepsAssign j)
include hj

theorem keeps_matchMembers (mode : Mode) (asObject : Bool) (protocol candidate : ClassTy) :
    F.Keeps (matchMembers w j mode asObject protocol candidate) :=
  F.compositional.holds_matchMembers hj _ _ _ _

theorem keeps_matchModule (mode : Mode) (protocol : ClassTy) (table : TableId) :
    F.Keeps (matchModule w j mode protocol table) :=
  F.compositional.holds_matchModule hj _ _ _

theorem keeps_fitsItself (dest source : ClassTy) : F.Keeps (fitsItself w j dest source) :=
  F.compositional.holds_fitsItself hj _ _

/-- A comparison of two types keeps the frame if the judge of the next level does. It asks about
protocols only where the two types need not be the same. -/
theorem keeps_assignStep {mode : Mode} (hp : mode.invariant = false → F.KeepsProtocols j mode)
    (dest source : Option Ty) : F.Keeps (assignStep w j mode dest source) :=
  F.compositional.holds_assignStep hj (fun hm => ⟨(hp hm).conforms, (hp hm).moduleConforms⟩) _ _

end

end Frame

end Conformance
