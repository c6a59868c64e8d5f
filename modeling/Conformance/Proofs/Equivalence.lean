import Conformance.Proofs.Coincidence
import Conformance.Proofs.Reading
import Conformance.Proofs.Unions

/-!
# Sameness of the types of a session

The unions of a session were built by combining types, each with what was known then. Where no
return type within them is to be found out, they hold no repetitions later either. Among the types
that are so formed, sameness is an equivalence: it does not see who built a type, which arguments
were left out, or the order of a union.
-/

namespace Conformance

/-- A type of so many levels, all unions of which were built by combining types. Return types may
still be found out where that is allowed, but never within a union. -/
inductive Ty.Formed (inf : Inference) : Bool → Nat → Ty → Prop
  | unknown (finds : Bool) (n : Nat) : Ty.Formed inf finds n .unknown
  | any (finds : Bool) (n : Nat) : Ty.Formed inf finds n .any
  | noneObject (finds : Bool) (n : Nat) : Ty.Formed inf finds n .noneObject
  | module (finds : Bool) (n : Nat) (name : String) (table : TableId) :
      Ty.Formed inf finds (n + 1) (.module name table)
  | var (finds : Bool) (n : Nat) (v : TypeVar) : Ty.Formed inf finds (n + 1) (.var v)
  | cls {finds : Bool} {n : Nat} {c : ClassTy}
      (args : ∀ o ∈ c.argList, ∀ t, o = some t → Ty.Formed inf finds n t) :
      Ty.Formed inf finds (n + 1) (.cls c)
  | function {finds : Bool} {n : Nat} {f : FunctionTy}
      (params : ∀ p ∈ f.params, ∀ t, p.type = some t → Ty.Formed inf finds n t)
      (ret : Ty.Formed inf finds n (inf.returnType f))
      (settled : finds = false → ∀ cell outcome, f.ret ≠ .deferred cell outcome) :
      Ty.Formed inf finds (n + 1) (.function f)
  | overloaded {finds : Bool} {n : Nat} {fs : List FunctionTy}
      (each : ∀ f ∈ fs, Ty.Formed inf finds n (.function f)) :
      Ty.Formed inf finds (n + 1) (.overloaded fs)
  | union {finds : Bool} {n : Nat} {ts : List Ty} {before : Inference}
      (each : ∀ t ∈ ts, Ty.Formed inf false n t) (built : Combined before ts) :
      Ty.Formed inf finds (n + 1) (.union ts)

variable {inf before : Inference} {finds : Bool} {n k : Nat} {t u : Ty} {ts us : List Ty}

/-! ## Formed types -/

theorem Ty.Over.typeOrUnknown {p : Param} (h : ∀ t, p.type = some t → t.Over .all) :
    p.typeOrUnknown.Over .all := by
  unfold Param.typeOrUnknown
  cases hp : p.type with
  | none => exact .unknown trivial
  | some t => exact h t hp

/-- The members of a union in which nothing is to be found out are apart whenever they are
compared. -/
theorem Combined.apart (built : Combined before ts) (each : ∀ t ∈ ts, t.Over .all)
    (inf : Inference) : ts.Pairwise fun t u => t.same inf u = false := by
  refine built.distinct.2.imp_of_mem fun {t u} ht hu different => ?_
  rw [(each t ht).same_eq (each u hu) inf before, different]

theorem Combined.builtOf (built : Combined before ts) (each : ∀ t ∈ ts, t.Over .all) :
    Fragment.Built .start ts where
  single t ht :=
    ⟨Fragment.alternatives_eq_self (built.proper t ht).2, (built.proper t ht).1⟩
  distinct := Fragment.distinct_of_pairwise (built.apart each .start)
  several := built.distinct.1

namespace Ty.Formed

theorem overAll (h : t.Formed inf false n) : t.Over .all := by
  generalize shut : false = finds at h
  induction h with
  | unknown => exact .unknown trivial
  | any => exact .any trivial
  | noneObject => exact .noneObject
  | module _ _ name table => exact .module name table
  | var => exact .var trivial
  | cls _ ih => exact .cls trivial fun o ho t ht => ih o ho t ht shut
  | function _ _ settled params ret =>
    have settled := settled shut.symm
    refine .function (fun p hp => .typeOrUnknown fun t ht => params p hp t ht shut) ?_ settled
    rw [← FunctionTy.returnType_eq settled inf]
    exact ret shut
  | overloaded _ ih => exact .overloaded fun f hf => ih f hf shut
  | union _ built ih =>
    have each := fun t ht => ih t ht rfl
    exact .union each (built.builtOf each)

theorem within (h : t.Formed inf finds n) : t.Within inf n := by
  induction h with
  | unknown _ n => exact .unknown n
  | any _ n => exact .any n
  | noneObject _ n => exact .noneObject n
  | module _ n name table => exact .module n name table
  | var _ n v => exact .var n v
  | cls _ ih => exact .cls ih
  | function _ _ _ params ret => exact .function params ret
  | overloaded _ ih => exact .overloaded ih
  | union each built ih => exact .union ih (built.apart (fun t ht => (each t ht).overAll) inf)

theorem argument {c : ClassTy} (h : (Ty.cls c).Formed inf finds (n + 1)) (i : Nat) :
    WithinOption inf n (c.argAt i) := by
  cases h with
  | cls args => exact withinOption_getD (fun o ho t ht => (args o ho t ht).within) i

theorem member (h : (Ty.union ts).Formed inf finds (n + 1)) :
    (∀ t ∈ ts, t.Within inf n) ∧ ts.Pairwise fun t u => t.same inf u = false := by
  cases h.within with
  | union each distinct => exact ⟨each, distinct⟩

end Ty.Formed

/-! ## What sameness does not see -/

private theorem same_cls_iff {c d : ClassTy} (hc : (Ty.cls c).Formed inf finds Ty.levels) :
    (Ty.cls c).same inf (.cls d) = true ↔ c.id = d.id ∧ c.isInstance = d.isInstance ∧
      c.literal = d.literal ∧ ∀ i, sameOption (Ty.same inf) (c.argAt i) (d.argAt i) = true := by
  change sameClassTy (sameAt inf 14) c d = true ↔ _
  rw [sameClassTy_iff (sameAt_self inf 14 .unknown)]
  refine and_congr_right fun _ => and_congr_right fun _ => and_congr_right fun _ => ?_
  refine forall_congr' fun i => ?_
  rw [sameOption_congr fun t ht u _ => ((hc.argument i t ht).same_eq (by decide) u).symm]

private theorem same_union_iff (ht : (Ty.union ts).Formed inf finds Ty.levels)
    (hu : (Ty.union us).Formed inf finds Ty.levels) :
    (Ty.union ts).same inf (.union us) = true ↔
      ∃ vs, vs.Perm us ∧ List.Forall₂ (fun t v => t.same inf v = true) ts vs := by
  obtain ⟨each, apart⟩ := ht.member
  obtain ⟨each', -⟩ := hu.member
  have deep : 14 ≤ Ty.levels := by decide
  change (ts.length == us.length && ts.all fun t => us.any fun u => sameAt inf 14 t u) = true ↔ _
  rw [Bool.and_eq_true, beq_iff_eq, List.all_eq_true]
  simp only [List.any_eq_true]
  constructor
  · rintro ⟨length, found⟩
    refine exists_perm_forall₂ (fun t ht => ?_) ?_ length
    · obtain ⟨u, hu, same⟩ := found t ht
      exact ⟨u, hu, by rwa [(each t ht).same_eq deep]⟩
    · refine apart.imp_of_mem fun {t t'} ht ht' different u hu same same' => ?_
      have back := (each t' ht').same_symm deep (each' u hu) same'
      have both := (each t ht).same_trans deep (each' u hu) (each t' ht') same back
      rw [different] at both
      cases both
  · rintro ⟨vs, perm, related⟩
    refine ⟨related.length_eq.trans perm.length_eq, fun t ht => ?_⟩
    obtain ⟨v, hv, same⟩ := exists_of_forall₂ related ht
    exact ⟨v, perm.mem_iff.1 hv, by rwa [← (each t ht).same_eq deep]⟩

/-- Sameness is an equivalence on the types that are nested within the levels of a comparison and
find no return type out within a union. Copies that read alike are the same; so are views of a class
that differ in whether an unknown argument is left out, and unions that differ in the order of their
alternatives. -/
theorem same_equivalence_on_formed (inf : Inference) :
    Equivalence (fun t u : { t : Ty // t.Formed inf true Ty.levels } => t.1.same inf u.1 = true) ∧
      (∀ t u : Ty, Ty.ReadsAt inf inf Ty.levels t u → t.same inf u = true) ∧
      (∀ c d : ClassTy, (Ty.cls c).Formed inf true Ty.levels →
        ((Ty.cls c).same inf (.cls d) = true ↔ c.id = d.id ∧ c.isInstance = d.isInstance ∧
          c.literal = d.literal ∧
            ∀ i, sameOption (Ty.same inf) (c.argAt i) (d.argAt i) = true)) ∧
      ∀ ts us : List Ty, (Ty.union ts).Formed inf true Ty.levels →
        (Ty.union us).Formed inf true Ty.levels →
        ((Ty.union ts).same inf (.union us) = true ↔
          ∃ vs, vs.Perm us ∧ List.Forall₂ (fun t v => t.same inf v = true) ts vs) := by
  refine ⟨⟨fun t => sameAt_self inf Ty.levels t.1, ?_, ?_⟩, fun t u h => h.sameAt,
    fun c d hc => same_cls_iff hc, fun ts us ht hu => same_union_iff ht hu⟩
  · intro t u h
    exact t.2.within.same_symm (Nat.le_refl _) u.2.within h
  · intro t u v h h'
    exact t.2.within.same_trans (Nat.le_refl _) u.2.within v.2.within h h'

/-- A union of a view with an unknown argument, one of the bare class that was built in the other
order, and copies of a function whose return types were both found out. -/
theorem same_of_separately_built :
    let inf : Inference := ⟨#[true, true], []⟩
    let view := Ty.cls ⟨0, true, some [some .unknown], true, none⟩
    let t := Ty.union [view, .noneObject]
    let u := Ty.union [.noneObject, Sample.instanceOf 0]
    let f (cell : CellId) := Ty.function (Sample.deferred cell t)
    t.Formed inf true Ty.levels ∧ u.Formed inf true Ty.levels ∧
      (f 0).Formed inf true Ty.levels ∧ (f 1).Formed inf true Ty.levels ∧
      t.same inf u = true ∧ u.same inf t = true ∧ (f 0).same inf (f 1) = true ∧
      (f 1).same inf (f 0) = true ∧ (f 0).same inf (f 0) = true := by
  intro inf view t u f
  obtain ⟨equivalence, copies, views, unions⟩ := same_equivalence_on_formed inf
  have formedView (finds : Bool) (n : Nat) : view.Formed inf finds (n + 1) := by
    refine .cls fun o ho x hx => ?_
    rw [List.mem_singleton.1 ho] at hx
    cases hx
    exact .unknown _ _
  have formedBare (finds : Bool) (n : Nat) : (Sample.instanceOf 0).Formed inf finds (n + 1) :=
    .cls fun _ ho => absurd ho List.not_mem_nil
  have joined {x y : Ty} (plain : Ty.combine inf [some x, some y] = .union [x, y])
      (hx : ∀ ts, x ≠ .union ts) (hy : ∀ ts, y ≠ .union ts) : Combined inf [x, y] := by
    refine @Combined.mk inf [some x, some y] _ (fun _ => inf) (fun _ _ => .refl _) ?_ plain
    intro ts given
    rcases List.mem_pair.1 given with same | same
    · exact absurd (Option.some.inj same).symm (hx ts)
    · exact absurd (Option.some.inj same).symm (hy ts)
  have formed (n : Nat) : t.Formed inf true (n + 2) := by
    refine .union (fun x hx => ?_) (joined rfl nofun nofun)
    rcases List.mem_pair.1 hx with rfl | rfl
    · exact formedView _ _
    · exact .noneObject _ _
  have formed' : u.Formed inf true Ty.levels := by
    refine .union (fun x hx => ?_) (joined rfl nofun nofun)
    rcases List.mem_pair.1 hx with rfl | rfl
    · exact .noneObject _ _
    · exact formedBare _ _
  have formedFinder (cell : CellId) (settled : inf.isSettled cell = true) :
      (f cell).Formed inf true Ty.levels := by
    refine .function (fun p hp x hx => ?_) ?_ nofun
    · rw [List.mem_singleton.1 hp] at hx
      cases hx
    · have found : inf.returnType (Sample.deferred cell t) = t := if_pos settled
      rw [found]
      exact formed 12
  have alike : view.same inf (Sample.instanceOf 0) = true := by
    refine (views _ _ (formedView true 14)).2 ⟨rfl, rfl, rfl, fun i => ?_⟩
    rcases i with _ | i <;> rfl
  have crossed : t.same inf u = true :=
    (unions _ _ (formed 13) formed').2 ⟨[Sample.instanceOf 0, .noneObject], List.Perm.swap ..,
      .cons alike (.cons rfl .nil)⟩
  have copied : (f 0).same inf (f 1) = true := by
    refine copies _ _ (.function ⟨rfl, .cons ⟨rfl, rfl, Ty.ReadsAt.refl inf _ _⟩ .nil, ?_⟩)
    exact Ty.ReadsAt.refl inf _ t
  have back := @equivalence.symm ⟨_, formedFinder 0 rfl⟩ ⟨_, formedFinder 1 rfl⟩ copied
  refine ⟨formed 13, formed', formedFinder 0 rfl, formedFinder 1 rfl, crossed, ?_, copied, back, ?_⟩
  · exact @equivalence.symm ⟨t, formed 13⟩ ⟨u, formed'⟩ crossed
  · exact @equivalence.trans ⟨_, formedFinder 0 rfl⟩ ⟨_, formedFinder 1 rfl⟩ ⟨_, formedFinder 0 rfl⟩
      copied back

end Conformance
