import Conformance.Proofs.Termination
import Conformance.Ty.Inferrers

/-!
# Nesting

How many comparisons are in progress at once. A comparison with a protocol that calls for another
one does so through a comparison of two types, so from one to the next the depth grows by two, and
the levels run out before the ninth.
-/

namespace Conformance

open Check

mutual

/-- The largest number of comparisons that were in progress in the session at once. -/
def Event.peak : Event → Nat
  | .cut | .assumed _ => 0
  | .made _ pending _ inner => max pending (peaks inner)

def Event.peaks : List Event → Nat
  | [] => 0
  | e :: es => max e.peak (peaks es)

end

private theorem Event.peaks_append (es fs : List Event) :
    peaks (es ++ fs) = max (peaks es) (peaks fs) := by
  induction es with
  | nil => simp [peaks]
  | cons e es ih => simp only [List.cons_append, peaks, ih, Nat.max_assoc]

namespace Frame

/-- The stacks are as they were, and no more than a number of further comparisons were in progress
at once. -/
def nested (n : Nat) : Frame where
  rel f g := g.pending = f.pending ∧ g.lent = f.lent ∧
    ∃ new, g.history = f.history ++ new ∧ Event.peaks new ≤ f.pending.length + n
  refl f := ⟨rfl, rfl, [], (List.append_nil _).symm, Nat.zero_le _⟩
  trans := by
    rintro f g h ⟨hp, hl, new, hh, hn⟩ ⟨hp', hl', new', hh', hn'⟩
    refine ⟨hp'.trans hp, hl'.trans hl, new ++ new', ?_, ?_⟩
    · rw [hh', hh, List.append_assoc]
    · rw [hp] at hn'
      rw [Event.peaks_append]
      exact Nat.max_le.2 ⟨hn, hn'⟩

private theorem nested_keepsLent {n : Nat} : (nested n).KeepsLent := fun h => h.2.1

private theorem nested_mono {α : Type} {n m : Nat} (h : n ≤ m) {act : Check α}
    (hk : (nested n).Keeps act) : (nested m).Keeps act := by
  intro s
  obtain ⟨hp, hl, new, hh, hn⟩ := hk s
  exact ⟨hp, hl, new, hh, Nat.le_trans hn (Nat.add_le_add_left h _)⟩

private theorem nested_record {n : Nat} {e : Event} (h : e.peak = 0) :
    (nested n).Keeps (record e) := by
  intro s
  refine ⟨rfl, rfl, [e], rfl, ?_⟩
  rw [Event.peaks, h, Event.peaks]
  exact Nat.zero_le _

private theorem nested_cutOff {n : Nat} : (nested n).Keeps cutOff :=
  keeps_bind (nested_record rfl) fun _ => keeps_pure true

private theorem nested_whilePending_own {n : Nat} {act : Check Bool} (c : Comparison)
    (h : (nested n).Keeps act) : (nested (n + 1)).Keeps (whilePending .own c act) := by
  intro s
  obtain ⟨hp, hl, new, hh, hn⟩ :=
    h (setPendingOn .own { s with history := [] } (c.pair :: s.pending))
  rw [exec_whilePending]
  dsimp only [pendingOn]
  generalize exec act _ = result at hp hl hh hn ⊢
  obtain ⟨r, t⟩ := result
  have hh : t.history = new := hh
  refine ⟨congrArg List.tail hp, hl, [_], rfl, ?_⟩
  simp only [Event.peaks, Event.peak, Nat.max_zero, hh]
  have hn : Event.peaks new ≤ (s.pending.length + 1) + n := hn
  exact Nat.max_le.2 ⟨by simp only [setPendingOn, CheckState.footprint, List.length_cons]; omega,
    by simp only [CheckState.footprint]; omega⟩

private theorem nested_whilePending_lent {n : Nat} {act : Check Bool} (c : Comparison)
    (h : (nested n).Keeps act) : (nested n).Keeps (whilePending .lent c act) := by
  intro s
  obtain ⟨hp, hl, new, hh, hn⟩ := h (setPendingOn .lent { s with history := [] } (c.pair :: s.lent))
  rw [exec_whilePending]
  dsimp only [pendingOn]
  generalize exec act _ = result at hp hl hh hn ⊢
  obtain ⟨r, t⟩ := result
  have hh : t.history = new := hh
  refine ⟨hp, congrArg List.tail hl, [_], rfl, ?_⟩
  simp only [Event.peaks, Event.peak, Nat.max_zero, hh]
  have hn : Event.peaks new ≤ s.pending.length + n := hn
  exact Nat.max_le.2 ⟨Nat.le_add_right _ _, hn⟩

section

variable {w : World} {j : Judge} {n : Nat} (hj : (nested n).KeepsAssign j)
include hj

private theorem nested_matchClass (choice : StackChoice) (mode : Mode) (asObject : Bool)
    (protocol candidate : ClassTy) :
    (nested (n + 1)).Keeps (matchClass w j choice mode asObject protocol candidate) := by
  refine keeps_bind (keeps_of_eq fun _ => rfl) fun s => ?_
  split
  · exact keeps_bind (nested_record rfl) fun _ => keeps_pure true
  · cases choice with
    | own => exact nested_whilePending_own _ (keeps_matchMembers hj _ _ _ _)
    | lent =>
      exact nested_mono (Nat.le_succ n)
        (nested_whilePending_lent _ (keeps_matchMembers hj _ _ _ _))

private theorem nested_matchModule (mode : Mode) (protocol : ClassTy) (table : TableId) :
    (nested (n + 1)).Keeps (matchModule w j mode protocol table) :=
  nested_mono (Nat.le_succ n) (keeps_matchModule hj _ _ _)

end

private theorem nested_judge (w : World) (n : Nat) :
    (nested (n / 2)).KeepsAssign (judge w n) ∧
      ∀ mode, (nested ((n + 1) / 2)).KeepsProtocols (judge w n) mode := by
  induction n with
  | zero =>
    refine ⟨fun _ _ _ => nested_cutOff, fun mode => ⟨fun _ _ _ => ?_, fun _ _ _ => ?_⟩⟩ <;>
      exact keeps_bind (keeps_trace _ _) fun _ => nested_cutOff
  | succ n ih =>
    obtain ⟨assigns, protocols⟩ := ih
    refine ⟨fun mode _ _ => ?_, fun mode => ?_⟩
    · refine keeps_assignStep (fun _ _ _ => ?_) (fun _ => protocols mode) _ _
      exact nested_mono (by omega) (assigns _ _ _)
    · rw [show (n + 1 + 1) / 2 = n / 2 + 1 by omega]
      constructor
      · exact fun _ _ _ => keeps_bind (keeps_trace _ _) fun _ => nested_matchClass assigns _ _ _ _ _
      · exact fun _ _ _ => keeps_bind (keeps_trace _ _) fun _ => nested_matchModule assigns _ _ _

def mostNested : Nat := (Ty.levels + 1) / 2

private theorem nested_judgeAt (w : World) {depth : Int} (h : 0 ≤ depth) :
    (nested mostNested).KeepsAssign (judgeAt w depth) := by
  have := levelsAt_le h
  intro mode dest source
  refine nested_mono ?_ ((nested_judge w (levelsAt depth)).1 mode dest source)
  unfold mostNested
  omega

private theorem nested_check {α : Type} (w : World) (op : Operation α) (h : 0 ≤ op.depth) :
    (nested mostNested).Keeps (op.check w) := by
  have inner : ¬ (Ty.levels : Int) ≤ op.depth →
      levelsAt (op.depth + 1) / 2 + 1 ≤ mostNested := by
    intro hd
    have := levelsAt_le h
    rw [levelsAt_eq_succ hd] at this
    unfold mostNested
    omega
  have assigns := (nested_judge w (levelsAt (op.depth + 1))).1
  refine keeps_check op (nested_judgeAt w h) (fun _ _ _ _ _ => ?_) fun _ _ _ => ?_
  · rw [conformsFrom_eq]
    split
    · exact nested_cutOff
    · exact nested_mono (inner ‹_›) (nested_matchClass assigns _ _ _ _ _)
  · rw [moduleConformsAt_eq]
    split
    · exact nested_cutOff
    · exact nested_mono (inner ‹_›) (nested_matchModule assigns _ _ _)

end Frame

open Conformance.Frame

namespace Inferrers

/-- Functions each of which yields the one before it. -/
def successive : Inferrers where
  function _ := ⟨"f", [], .undeclared, .instanceMethod, ""⟩
  cell := id
  yields
    | _, 0 => .returns none
    | f, i + 1 => .returns (some (.function (f i)))

def successiveTypes : successive.FiniteTypes :=
  successive.finiteTypes fun f g i agree => by
    cases i with
    | zero => rfl
    | succ i =>
      change Outcome.returns (some (.function (f i))) = .returns (some (.function (g i)))
      rw [agree i i.lt_succ_self]

end Inferrers

end Conformance
