import Conformance.Proofs.Closure

/-!
# Linearizations of heirs

How ancestors that belong to several classes are merged. A protocol that comes right before another
one and its ancestors, and declares no member itself, asks for the same members.
-/

namespace Conformance

namespace Ancestor

theorem merge_of_nextHead {lists : List (List Ancestor)} {a : Ancestor}
    (h : nextHead lists = some a) (found : List Ancestor) :
    merge found lists = merge (found ++ [a]) (dropHeads a lists) := by
  rw [merge]
  split
  · rename_i b hb
    cases h.symm.trans hb
    rfl
  · rename_i hb
    cases h.symm.trans hb

theorem nextHead_of_isFree {a : Ancestor} {l : List Ancestor} {lists : List (List Ancestor)}
    (free : isFree ((a :: l) :: lists) a = true) : nextHead ((a :: l) :: lists) = some a := by
  rw [nextHead, List.filterMap_cons_some List.head?_cons, List.find?_cons_of_pos free]

theorem merge_of_empty {lists : List (List Ancestor)} (h : ∀ l ∈ lists, l = [])
    (found : List Ancestor) : merge found lists = (found, true) := by
  have heads : lists.filterMap List.head? = [] :=
    List.filterMap_eq_nil_iff.2 fun l hl => congrArg List.head? (h l hl)
  have flat : lists.flatten = [] := List.flatten_eq_nil_iff.2 h
  rw [merge]
  split
  · rename_i a ha
    rw [nextHead, heads] at ha
    cases ha
  · rw [appendMissing, flat, List.foldl_nil]
    exact congrArg (Prod.mk found) (List.all_eq_true.2 fun l hl => List.isEmpty_iff.2 (h l hl))

section

variable {a : Ancestor} {order : List Ancestor} (first : ∀ b ∈ order, b.same a = false)
include first

private theorem dropHead_sublist {l : List Ancestor} (h : l.Sublist (a :: order)) :
    (dropHead a l).Sublist order := by
  rcases List.sublist_cons_iff.1 h with inside | ⟨l', rfl, inside⟩
  · cases l with
    | nil => exact inside
    | cons b l =>
      rw [dropHead, first b (inside.subset List.mem_cons_self)]
      exact inside
  · rw [dropHead, same_self]
    exact inside

private theorem isFree_of_sublists {lists : List (List Ancestor)}
    (h : ∀ l ∈ lists, l.Sublist (a :: order)) : isFree lists a = true := by
  have nowhere : inTail lists a = false := by
    refine List.any_eq_false.2 fun l hl => Bool.eq_false_iff.1 (List.any_eq_false.2 fun b hb => ?_)
    exact Bool.eq_false_iff.1 (first b ((h l hl).tail.subset hb))
  unfold isFree
  split
  · rw [nowhere]
    rfl
  · rfl

end

/-- Lists that follow an order add nothing to it. -/
theorem merge_sublists {order : List Ancestor}
    (distinct : order.Pairwise fun a b => b.same a = false) {lists : List (List Ancestor)}
    (h : ∀ l ∈ lists, l.Sublist order) (found : List Ancestor) :
    merge found (order :: lists) = (found ++ order, true) := by
  induction order generalizing lists found with
  | nil =>
    rw [List.append_nil]
    refine merge_of_empty (fun l hl => ?_) found
    rcases List.mem_cons.1 hl with rfl | hl
    · rfl
    · exact List.sublist_nil.1 (h l hl)
  | cons a order ih =>
    obtain ⟨first, rest⟩ := List.pairwise_cons.1 distinct
    have free : isFree ((a :: order) :: lists) a = true := by
      refine isFree_of_sublists first fun l hl => ?_
      rcases List.mem_cons.1 hl with rfl | hl
      · exact .refl _
      · exact h l hl
    have left : dropHeads a ((a :: order) :: lists) = order :: dropHeads a lists := by
      rw [dropHeads, List.map_cons, dropHead, same_self]
      rfl
    have follow : ∀ l ∈ dropHeads a lists, l.Sublist order := by
      intro l hl
      obtain ⟨l', hl', rfl⟩ := List.mem_map.1 hl
      exact dropHead_sublist first (h l' hl')
    rw [merge_of_nextHead (nextHead_of_isFree free), left, ih rest follow, List.append_assoc, List.singleton_append]

end Ancestor

namespace ClassTable

/-- The first class comes right before the second and the ancestors of that, and declares nothing
itself. -/
structure Heir (classes : ClassTable) (heir protocol : ClassId) : Prop where
  members : (classes.decl heir).members.entries = []
  mro : (classes.decl heir).mro = .resolved (.ofId protocol) :: (classes.decl protocol).mro

end ClassTable

/-- An heir asks for the same members. -/
theorem Requirement.all_heir {classes : ClassTable} {q p : ClassId} (h : classes.Heir q p)
    (asObject : Bool) : all classes asObject (.ofId q) = all classes asObject (.ofId p) := by
  have own : ∀ c ∈ [ClassTy.ofId q].filter classes.isProtocol,
      ofDeclared classes asObject c = [] := by
    intro c hc
    rw [List.mem_singleton.1 (List.mem_filter.1 hc).1, ofDeclared,
      show (ClassTy.ofId q).id = q from rfl, h.members]
    rfl
  have ancestors : protocols classes (.ofId q) =
      [ClassTy.ofId q].filter classes.isProtocol ++ protocols classes (.ofId p) := by
    have order : Ancestor.resolved (ClassTy.ofId q).generic ::
        (classes.decl (ClassTy.ofId q).id).mro = [.resolved (.ofId q)] ++
          (.resolved (ClassTy.ofId p).generic :: (classes.decl (ClassTy.ofId p).id).mro) :=
      congrArg (Ancestor.resolved (.ofId q) :: ·) h.mro
    rw [protocols, order, List.filterMap_append, List.filter_append]
    rfl
  rw [all, ancestors, List.flatMap_append, List.flatMap_eq_nil_iff.2 own, List.nil_append, all]

end Conformance
