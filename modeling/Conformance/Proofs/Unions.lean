import Conformance.Proofs.Cells
import Conformance.Proofs.History
import Conformance.Proofs.Sample

/-!
# Unions in the course of a session

A union is made of at least two types, none of them a union or a type of anything, and it stays so.
No two of them are the same when it is built. They may become the same later, but only where one of
them mentions a function whose return type was found out since.
-/

namespace Conformance

/-- The types are the members of a union that was built by combining types. The unions among these
were built so earlier, with what was known then. -/
inductive Combined : Inference → List Ty → Prop
  | mk {inf : Inference} {types : List (Option Ty)} {members : List Ty}
      (earlier : List Ty → Inference)
      (before : ∀ ts, some (.union ts) ∈ types → (earlier ts).Later inf)
      (parts : ∀ ts, some (.union ts) ∈ types → Combined (earlier ts) ts)
      (built : Ty.combine inf types = .union members) : Combined inf members

variable {inf inf' : Inference} {members : List Ty}

/-! ## When a union is built -/

private theorem Ty.not_anything_of_combine {types : List (Option Ty)}
    (built : Ty.combine inf types = .union members) {t : Ty} (ht : some t ∈ types) :
    t.isAnyOrUnknown = false := by
  have given : t ∈ types.filterMap id := List.mem_filterMap.2 ⟨some t, ht, rfl⟩
  unfold Ty.combine at built
  dsimp only at built
  split at built
  · rename_i u found
    rw [built] at found
    have anything := List.find?_some found
    cases anything
  · rename_i none_there
    simpa using List.find?_eq_none.1 none_there t given

private theorem Ty.distinct_of_combine {types : List (Option Ty)}
    (built : Ty.combine inf types = .union members) :
    let alternatives := (types.filterMap id).flatMap Ty.alternatives
    (Ty.distinct inf alternatives = members ∧ 2 ≤ members.length) ∨ .union members ∈ alternatives := by
  intro alternatives
  unfold Ty.combine at built
  dsimp only at built
  split at built
  · rename_i u found
    have anything := List.find?_some found
    rw [built] at anything
    cases anything
  · split at built
    · cases built
    · rename_i t ht
      right
      apply Fragment.mem_of_mem_distinct
      rw [ht, built]
      exact List.mem_singleton_self _
    · rename_i not_none not_one
      cases built
      left
      refine ⟨rfl, ?_⟩
      change 2 ≤ (Ty.distinct inf alternatives).length
      rcases hd : Ty.distinct inf alternatives with _ | ⟨t, _ | ⟨u, us⟩⟩
      · exact absurd hd not_none
      · exact absurd hd (not_one t)
      · simp

namespace Combined

/-- The members of a union are no unions and no types of anything. -/
theorem proper (h : Combined inf members) :
    ∀ t ∈ members, t.isAnyOrUnknown = false ∧ ∀ us, t ≠ .union us := by
  induction h with
  | @mk inf types members earlier before parts built ih =>
    have alternative {t : Ty} (ht : t ∈ (types.filterMap id).flatMap Ty.alternatives) :
        t.isAnyOrUnknown = false ∧ ∀ us, t ≠ .union us := by
      obtain ⟨u, hu, ht⟩ := List.mem_flatMap.1 ht
      have given : some u ∈ types := by simpa using hu
      unfold Ty.alternatives at ht
      split at ht
      · exact ih _ given t ht
      · rename_i plain
        rw [List.mem_singleton] at ht
        subst ht
        exact ⟨Ty.not_anything_of_combine built given, plain⟩
    intro t ht
    rcases Ty.distinct_of_combine built with ⟨distinct, -⟩ | itself
    · rw [← distinct] at ht
      exact alternative (Fragment.mem_of_mem_distinct ht)
    · exact absurd rfl ((alternative itself).2 members)

/-- A union has at least two members, and no two of them are the same when it is built. -/
theorem distinct (h : Combined inf members) :
    2 ≤ members.length ∧ members.Pairwise fun a b => a.same inf b = false := by
  obtain ⟨earlier, before, parts, built⟩ := h
  rename_i types
  rcases Ty.distinct_of_combine built with ⟨distinct, several⟩ | itself
  · refine ⟨several, ?_⟩
    rw [← distinct]
    exact Fragment.pairwise_distinct _
  · obtain ⟨u, hu, ht⟩ := List.mem_flatMap.1 itself
    have given : some u ∈ types := by simpa using hu
    unfold Ty.alternatives at ht
    split at ht
    · exact absurd rfl (((parts _ given).proper _ ht).2 members)
    · rename_i plain
      rw [List.mem_singleton] at ht
      exact absurd ht.symm (plain members)

end Combined

/-! ## Afterwards -/

private theorem Inference.Later.agreeOn_or (later : inf.Later inf') (t : Ty) :
    inf.AgreeOn inf' t ∨
      ∃ cell, t.Defers cell ∧ inf.isSettled cell = false ∧ inf'.isSettled cell = true := by
  by_cases found : ∃ cell, t.Defers cell ∧ inf.isSettled cell = false ∧ inf'.isSettled cell = true
  · exact .inr found
  · left
    intro cell mentioned
    cases before : inf.isSettled cell with
    | true => exact later.settled before
    | false =>
      rw [← Bool.not_eq_true]
      exact fun after => found ⟨cell, mentioned, before, after⟩

/-- A return type of one of the two types was found out between the two times. -/
def FoundBetween (inf inf' : Inference) (a b : Ty) : Prop :=
  ∃ cell, (a.Defers cell ∨ b.Defers cell) ∧
    inf.isSettled cell = false ∧ inf'.isSettled cell = true

private theorem Inference.Later.same_eq_or (later : inf.Later inf') (a b : Ty) :
    a.same inf' b = a.same inf b ∨ FoundBetween inf inf' a b := by
  rcases later.agreeOn_or a with agree | ⟨cell, mentioned, between⟩
  · rcases later.agreeOn_or b with agree' | ⟨cell, mentioned, between⟩
    · exact .inl (agree.same_eq agree')
    · exact .inr ⟨cell, .inr mentioned, between⟩
  · exact .inr ⟨cell, .inl mentioned, between⟩

/-- In every history a union keeps what it had when it was built: at least two members, none of them
a union or a type of anything, and no two of them the same, unless a return type of one of the two
was found out after the union was built. Types nested within the levels of a comparison are compared
in either order. -/
theorem union_members_differ_until_found_out (built : Combined inf members) {s t : Session}
    (since : inf.Later s.inference) (history : s.Steps t) :
    2 ≤ members.length ∧
      (∀ a ∈ members, a.isAnyOrUnknown = false ∧ ∀ us, a ≠ .union us) ∧
      members.Pairwise fun a b =>
        (a.same t.inference b = true ∨
          b.same t.inference a = true ∧
            a.Within t.inference Ty.levels ∧ b.Within t.inference Ty.levels) →
        FoundBetween inf t.inference a b := by
  have later := since.trans history.later
  obtain ⟨several, apart⟩ := built.distinct
  refine ⟨several, built.proper, apart.imp fun {a b} different same => ?_⟩
  have same : a.same t.inference b = true := by
    rcases same with same | ⟨same, ha, hb⟩
    · exact same
    · exact hb.same_symm (Nat.le_refl _) ha same
  rcases later.same_eq_or a b with unchanged | found
  · rw [unchanged, different] at same
    cases same
  · exact found

/-- A function that yields an instance and one of which that is found out, after the union of the two
was built. -/
theorem union_of_functions_found_alike :
    let f := Ty.function (Sample.deferred 0 (Sample.instanceOf 0))
    let g := Ty.function (Sample.function none [] (.declared (Sample.instanceOf 0)))
    let s : Session := { Session.ofDecls #[Sample.object] with inference := ⟨#[false], []⟩ }
    let t := ((Session.run .plain fun _ => Check.demandAll f).run s).2
    f.same s.inference g = false ∧ f.same t.inference g = true ∧
      FoundBetween s.inference t.inference f g := by
  intro f g s t
  have asked : s.Steps t := Relation.ReflTransGen.single (.asked (.infer .plain f s))
  have built : Combined s.inference [f, g] :=
    @Combined.mk s.inference [some f, some g] _ (fun _ => s.inference) (fun _ _ => .refl _)
      (by simp [f, g]) rfl
  have alike : f.same t.inference g = true := by decide
  obtain ⟨-, -, differ⟩ := union_members_differ_until_found_out built (.refl _) asked
  have found := (List.pairwise_cons.1 differ).1 g (List.mem_singleton_self g) (.inl alike)
  exact ⟨by decide, alike, found⟩

end Conformance
