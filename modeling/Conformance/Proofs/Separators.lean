import Mathlib.Data.List.Basic

/-!
# Separators

A text put together around a separator can be taken apart again where the separator stands first, if it
does not occur in what stands before, and where it stands last, if it does not occur behind.
-/

namespace Conformance

variable {α : Type} [DecidableEq α] {a : α} {xs ys xs' ys' : List α}

theorem append_cons_inj_of_first (h : a ∉ xs) (h' : a ∉ xs') (same : xs ++ a :: ys = xs' ++ a :: ys') :
    xs = xs' ∧ ys = ys' := by
  have place : xs.length = xs'.length := by
    simpa only [List.idxOf_append_of_notMem h, List.idxOf_append_of_notMem h', List.idxOf_cons_self,
      Nat.add_zero] using congrArg (List.idxOf a) same
  obtain ⟨before, behind⟩ := List.append_inj same place
  exact ⟨before, (List.cons.inj behind).2⟩

theorem append_cons_inj_of_last (h : a ∉ ys) (h' : a ∉ ys') (same : xs ++ a :: ys = xs' ++ a :: ys') :
    xs = xs' ∧ ys = ys' := by
  have back : ys.reverse ++ a :: xs.reverse = ys'.reverse ++ a :: xs'.reverse := by
    simpa using congrArg List.reverse same
  obtain ⟨behind, before⟩ := append_cons_inj_of_first (mt List.mem_reverse.1 h)
    (mt List.mem_reverse.1 h') back
  exact ⟨List.reverse_inj.1 before, List.reverse_inj.1 behind⟩

end Conformance
