import Conformance.Proofs.Equivalence

/-!
# Combining types in any order

What types combine to depends on which types they are, but neither on their order and repetitions
nor on which of them were combined before. Any and unknown types are taken for one another here,
since the one that comes first stands for the whole.
-/

namespace Conformance

variable {inf now now' : Inference} {finds : Bool} {n m : Nat} {t u a b : Ty} {ts us vs : List Ty}

/-- The types are the same, or both may be anything. -/
def Ty.Tantamount (inf : Inference) (t u : Ty) : Prop :=
  t.isAnyOrUnknown = true ∧ u.isAnyOrUnknown = true ∨ t.same inf u = true

/-- A list of types is taken in another order, has one of its types repeated, or has some of them
combined. -/
inductive Regroups : List Ty → List Ty → Prop
  | reordered {ts us : List Ty} (perm : ts.Perm us) : Regroups ts us
  | repeated {t : Ty} {ts : List Ty} (here : t ∈ ts) : Regroups ts (t :: ts)
  | grouped {sub rest : List Ty} (now : Inference) (given : sub ≠ []) :
      Regroups (sub ++ rest) (Ty.combine now (sub.map some) :: rest)

/-! ## Fewer levels -/

private theorem allPairs_mono {α : Type} {same same' : α → α → Bool} {as bs : List α}
    (h : allPairs same as bs = true) (hs : ∀ a b, same a b = true → same' a b = true) :
    allPairs same' as bs = true := by
  induction as generalizing bs with
  | nil =>
    cases bs with
    | nil => rfl
    | cons b bs => cases h
  | cons a as ih =>
    cases bs with
    | nil => cases h
    | cons b bs =>
      rw [allPairs, Bool.and_eq_true] at h ⊢
      exact ⟨hs a b h.1, ih h.2⟩

private theorem sameOption_mono {same same' : Ty → Ty → Bool} {o o' : Option Ty}
    (h : sameOption same o o' = true) (hs : ∀ t u, same t u = true → same' t u = true) :
    sameOption same' o o' = true := by
  cases o with
  | none => cases o' <;> exact h
  | some t =>
    cases o' with
    | none => exact h
    | some u => exact hs t u h

private theorem sameAt_of_succ (h : sameAt inf (n + 1) t u = true) : sameAt inf n t u = true := by
  induction n generalizing t u with
  | zero =>
    cases t with
    | _ => cases u with
      | _ => first | rfl | cases h
  | succ n ih =>
    cases t with
    | cls c =>
      cases u with
      | cls d =>
        simp only [sameAt, sameClassTy, Bool.and_eq_true, List.all_eq_true] at h ⊢
        exact ⟨h.1, fun p hp => sameOption_mono (h.2 p hp) fun _ _ => ih⟩
      | _ => cases h
    | function f =>
      cases u with
      | function g =>
        simp only [sameAt, sameFunction, Bool.and_eq_true] at h ⊢
        refine ⟨⟨h.1.1, allPairs_mono h.1.2 fun p q hpq => ?_⟩, ih h.2⟩
        rw [sameParam_iff] at hpq ⊢
        exact ⟨hpq.1, hpq.2.1, ih hpq.2.2⟩
      | _ => cases h
    | overloaded fs =>
      cases u with
      | overloaded gs => exact allPairs_mono h fun _ _ => ih
      | _ => cases h
    | union ts =>
      cases u with
      | union us =>
        simp only [sameAt, Bool.and_eq_true, List.all_eq_true, List.any_eq_true] at h ⊢
        refine ⟨h.1, fun t ht => ?_⟩
        obtain ⟨u, hu, same⟩ := h.2 t ht
        exact ⟨u, hu, ih same⟩
      | _ => cases h
    | _ => cases u <;> exact h

private theorem same_of_alternatives (several : ∀ ts, t = .union ts → 1 < ts.length)
    (several' : ∀ us, u = .union us → 1 < us.length)
    (length : t.alternatives.length = u.alternatives.length)
    (found : ∀ a ∈ t.alternatives, ∃ b ∈ u.alternatives, a.same inf b = true) :
    t.same inf u = true := by
  by_cases union : ∃ ts, t = .union ts
  · obtain ⟨ts, rfl⟩ := union
    by_cases union' : ∃ us, u = .union us
    · obtain ⟨us, rfl⟩ := union'
      change (ts.length == us.length && ts.all fun t => us.any fun u => sameAt inf 14 t u) = true
      rw [Bool.and_eq_true, beq_iff_eq, List.all_eq_true]
      refine ⟨length, fun a ha => ?_⟩
      obtain ⟨b, hb, same⟩ := found a ha
      exact List.any_eq_true.2 ⟨b, hb, sameAt_of_succ same⟩
    · rw [Fragment.alternatives_eq_self fun us same => union' ⟨us, same⟩] at length
      exact absurd (length : ts.length = 1) (Nat.ne_of_gt (several ts rfl))
  · have plain := Fragment.alternatives_eq_self fun ts same => union ⟨ts, same⟩
    rw [plain] at length found
    by_cases union' : ∃ us, u = .union us
    · obtain ⟨us, rfl⟩ := union'
      exact absurd (length : 1 = us.length) (Nat.ne_of_lt (several' us rfl))
    · rw [Fragment.alternatives_eq_self fun us same => union' ⟨us, same⟩] at found
      obtain ⟨b, hb, same⟩ := found t (List.mem_singleton_self t)
      rwa [List.mem_singleton.1 hb] at same

/-! ## What is combined -/

namespace Ty

theorem Within.succ (h : t.Within inf n) : t.Within inf (n + 1) := by
  induction h with
  | unknown n => exact .unknown _
  | any n => exact .any _
  | noneObject n => exact .noneObject _
  | module n name table => exact .module _ name table
  | var n v => exact .var _ v
  | cls _ ih => exact .cls ih
  | function _ _ params ret => exact .function params ret
  | overloaded _ ih => exact .overloaded ih
  | union _ distinct ih => exact .union ih distinct

private theorem Formed.anytime (h : t.Formed inf false n) (now : Inference) :
    t.Formed now false n := by
  generalize shut : false = finds at h
  induction h with
  | unknown => exact .unknown _ _
  | any => exact .any _ _
  | noneObject => exact .noneObject _ _
  | module => exact .module ..
  | var => exact .var ..
  | cls _ ih => exact .cls fun o ho t ht => ih o ho t ht shut
  | function _ _ settled params ret =>
    refine .function (fun p hp t ht => params p hp t ht shut) ?_ settled
    have settled := settled shut.symm
    rw [FunctionTy.returnType_eq settled now, ← FunctionTy.returnType_eq settled inf]
    exact ret shut
  | overloaded _ ih => exact .overloaded fun f hf => ih f hf shut
  | union _ built ih => exact .union (fun t ht => ih t ht rfl) built

/-- Some types whose alternatives are nested within the levels of a comparison. -/
structure Combinable (ts : List Ty) : Prop where
  given : ts ≠ []
  made : ∀ t ∈ ts, t.Over .all
  within : ∀ a ∈ Ty.choices ts, a.Within .start Ty.levels

/-- The same alternatives can be chosen from, unless both lists have a type of anything. -/
structure Exchangeable (ts us : List Ty) : Prop where
  vague : (∃ t ∈ ts, t.isAnyOrUnknown = true) ↔ ∃ u ∈ us, u.isAnyOrUnknown = true
  left : (∀ t ∈ ts, t.isAnyOrUnknown = false) →
    ∀ a ∈ Ty.choices ts, ∃ b ∈ Ty.choices us, a.same .start b = true
  right : (∀ u ∈ us, u.isAnyOrUnknown = false) →
    ∀ b ∈ Ty.choices us, ∃ a ∈ Ty.choices ts, b.same .start a = true

end Ty

open Ty

private theorem not_vague_iff :
    (¬ ∃ t ∈ ts, t.isAnyOrUnknown = true) ↔ ∀ t ∈ ts, t.isAnyOrUnknown = false := by
  simp only [not_exists, not_and, Bool.not_eq_true]

theorem Ty.Exchangeable.symm (h : Exchangeable ts us) : Exchangeable us ts :=
  ⟨h.vague.symm, h.right, h.left⟩

theorem Ty.Exchangeable.proper (h : Exchangeable ts us)
    (proper : ∀ t ∈ ts, t.isAnyOrUnknown = false) : ∀ u ∈ us, u.isAnyOrUnknown = false :=
  not_vague_iff.1 fun vague => not_vague_iff.2 proper (h.vague.2 vague)

theorem Ty.Exchangeable.trans (hts : Combinable ts) (hus : Combinable us) (hvs : Combinable vs)
    (h : Exchangeable ts us) (h' : Exchangeable us vs) : Exchangeable ts vs := by
  have deep := Nat.le_refl Ty.levels
  refine ⟨h.vague.trans h'.vague, fun proper a ha => ?_, fun proper c hc => ?_⟩
  · obtain ⟨b, hb, same⟩ := h.left proper a ha
    obtain ⟨c, hc, same'⟩ := h'.left (h.proper proper) b hb
    exact ⟨c, hc, (hts.within a ha).same_trans deep (hus.within b hb) (hvs.within c hc) same same'⟩
  · obtain ⟨b, hb, same⟩ := h'.right proper c hc
    obtain ⟨a, ha, same'⟩ := h.right (h'.symm.proper proper) b hb
    exact ⟨a, ha, (hvs.within c hc).same_trans deep (hus.within b hb) (hts.within a ha) same same'⟩

private theorem exchangeable_of_mem (same : ∀ t, t ∈ ts ↔ t ∈ us) : Exchangeable ts us := by
  refine ⟨exists_congr fun t => and_congr_left fun _ => same t, fun _ a ha => ?_, fun _ b hb => ?_⟩
  · obtain ⟨t, ht, hat⟩ := mem_choices.1 ha
    exact ⟨a, mem_choices.2 ⟨t, (same t).1 ht, hat⟩, sameAt_self .start _ a⟩
  · obtain ⟨u, hu, hbu⟩ := mem_choices.1 hb
    exact ⟨b, mem_choices.2 ⟨u, (same u).2 hu, hbu⟩, sameAt_self .start _ b⟩

section

variable (h : ∀ t ∈ ts, t.Over .all) (given : ts ≠ [])
include h given

private theorem isAnyOrUnknown_join :
    (Ty.join ts).isAnyOrUnknown = true ↔ ∃ t ∈ ts, t.isAnyOrUnknown = true := by
  rcases Ty.join_cases h given with ⟨here, vague⟩ | ⟨proper, -, among⟩
  · exact iff_of_true vague ⟨_, here, vague⟩
  · refine iff_of_false (fun vague => ?_) fun ⟨t, ht, vague⟩ => ?_
    · rcases among with here | ⟨us, union, -⟩
      · rw [proper _ here] at vague
        cases vague
      · rw [union] at vague
        cases vague
    · have here : t ∈ Ty.choices ts :=
        Ty.subset_choices ht (by rw [alternatives_of_vague vague]; exact List.mem_singleton_self t)
      rw [proper t here] at vague
      cases vague

private theorem alternatives_join (proper : ∀ t ∈ ts, t.isAnyOrUnknown = false) :
    (Ty.join ts).alternatives = Ty.distinct .start (Ty.choices ts) := by
  rcases Ty.join_cases h given with ⟨here, vague⟩ | ⟨-, left, -⟩
  · rw [proper _ here] at vague
    cases vague
  · exact left

end

private theorem choices_append : Ty.choices (ts ++ us) = Ty.choices ts ++ Ty.choices us :=
  List.flatMap_append

private theorem choices_cons :
    Ty.choices (t :: ts) = t.alternatives ++ Ty.choices ts := List.flatMap_cons

private theorem alternatives_join_subset (h : ∀ t ∈ ts, t.Over .all) (given : ts ≠ []) :
    (Ty.join ts).alternatives ⊆ Ty.choices ts := by
  rcases Ty.join_cases h given with ⟨here, -⟩ | ⟨-, left, -⟩
  · exact Ty.subset_choices here
  · rw [left]
    exact fun _ => Fragment.mem_of_mem_distinct

namespace Ty.Combinable

private theorem grouped {sub rest : List Ty} (h : Combinable (sub ++ rest)) (given : sub ≠ []) :
    Combinable (Ty.join sub :: rest) ∧ Exchangeable (sub ++ rest) (Ty.join sub :: rest) := by
  have overSub : ∀ t ∈ sub, t.Over .all := fun t ht => h.made t (List.mem_append_left _ ht)
  have among : ∀ a ∈ Ty.choices (Ty.join sub :: rest), a ∈ Ty.choices (sub ++ rest) := by
    rw [choices_append, choices_cons]
    intro a ha
    refine List.mem_append.2 ((List.mem_append.1 ha).imp_left fun ha => ?_)
    exact alternatives_join_subset overSub given ha
  refine ⟨⟨List.cons_ne_nil _ _, ?_, fun a ha => h.within a (among a ha)⟩, ?_, ?_, ?_⟩
  · rw [List.forall_mem_cons]
    exact ⟨Ty.over_join overSub given, fun t ht => h.made t (List.mem_append_right _ ht)⟩
  · simp only [List.mem_append, List.mem_cons, or_and_right, exists_or, exists_eq_left,
      isAnyOrUnknown_join overSub given]
  · intro proper a ha
    rw [choices_cons, alternatives_join overSub given fun t ht =>
      proper t (List.mem_append_left _ ht)]
    rw [choices_append] at ha
    rcases List.mem_append.1 ha with ha' | ha'
    · obtain ⟨b, hb, same⟩ := exists_same_distinct .start ha'
      have within : ∀ x ∈ Ty.choices sub, x.Within .start Ty.levels := fun x hx =>
        h.within x (choices_append ▸ List.mem_append_left _ hx)
      exact ⟨b, List.mem_append_left _ hb, (within b (Fragment.mem_of_mem_distinct hb)).same_symm
        (Nat.le_refl _) (within a ha') same⟩
    · exact ⟨a, List.mem_append_right _ ha', sameAt_self .start _ a⟩
  · exact fun _ b hb => ⟨b, among b hb, sameAt_self .start _ b⟩

private theorem regroups (h : Combinable ts) (step : Regroups ts us) :
    Combinable us ∧ Exchangeable ts us := by
  have listed {us : List Ty} (same : ∀ t, t ∈ ts ↔ t ∈ us) : Combinable us ∧ Exchangeable ts us := by
    refine ⟨⟨?_, fun t ht => h.made t ((same t).2 ht), fun a ha => ?_⟩, exchangeable_of_mem same⟩
    · obtain ⟨t, ht⟩ := List.exists_mem_of_ne_nil ts h.given
      exact List.ne_nil_of_mem ((same t).1 ht)
    · obtain ⟨t, ht, hat⟩ := mem_choices.1 ha
      exact h.within a (mem_choices.2 ⟨t, (same t).2 ht, hat⟩)
  cases step with
  | reordered perm => exact listed fun t => perm.mem_iff
  | repeated here =>
    refine listed fun t => ?_
    rw [List.mem_cons]
    exact ⟨.inr, fun ht => ht.elim (fun same => same ▸ here) id⟩
  | @grouped sub rest now given =>
    rw [Ty.combine_eq_join (fun t ht => h.made t (List.mem_append_left rest ht)) now]
    exact h.grouped given

private theorem regroups_run (h : Combinable ts) (run : Relation.ReflTransGen Regroups ts us) :
    Combinable us ∧ Exchangeable ts us := by
  induction run with
  | refl => exact ⟨h, exchangeable_of_mem fun _ => Iff.rfl⟩
  | tail _ step ih =>
    obtain ⟨combinable, exchangeable⟩ := ih
    obtain ⟨combinable', exchangeable'⟩ := combinable.regroups step
    exact ⟨combinable', exchangeable.trans h combinable combinable' exchangeable'⟩

private theorem length_distinct_le (hts : Combinable ts) (hus : Combinable us)
    (found : ∀ a ∈ Ty.distinct .start (Ty.choices ts),
      ∃ b ∈ Ty.distinct .start (Ty.choices us), a.same .start b = true) :
    (Ty.distinct .start (Ty.choices ts)).length ≤ (Ty.distinct .start (Ty.choices us)).length := by
  refine length_le_of_apart found ?_
  refine (@Fragment.pairwise_distinct .start (Ty.choices ts)).imp_of_mem ?_
  intro a a' ha ha' different b hb same same'
  have here := hts.within a (Fragment.mem_of_mem_distinct ha)
  have here' := hts.within a' (Fragment.mem_of_mem_distinct ha')
  have there := hus.within b (Fragment.mem_of_mem_distinct hb)
  have deep := Nat.le_refl Ty.levels
  have both := here.same_trans deep there here' same (here'.same_symm deep there same')
  rw [different] at both
  cases both

private theorem found_distinct (hts : Combinable ts) (hus : Combinable us)
    (left : ∀ a ∈ Ty.choices ts, ∃ b ∈ Ty.choices us, a.same .start b = true) :
    ∀ a ∈ Ty.distinct .start (Ty.choices ts),
      ∃ b ∈ Ty.distinct .start (Ty.choices us), a.same .start b = true := by
  intro a ha
  have ha := Fragment.mem_of_mem_distinct ha
  obtain ⟨b, hb, same⟩ := left a ha
  obtain ⟨c, hc, same'⟩ := exists_same_distinct .start hb
  have there := hus.within c (Fragment.mem_of_mem_distinct hc)
  have deep := Nat.le_refl Ty.levels
  have back := there.same_symm deep (hus.within b hb) same'
  exact ⟨c, hc, (hts.within a ha).same_trans deep (hus.within b hb) there same back⟩

private theorem tantamount (hts : Combinable ts) (hus : Combinable us) (h : Exchangeable ts us) :
    (Ty.join ts).Tantamount .start (Ty.join us) := by
  by_cases vague : ∃ t ∈ ts, t.isAnyOrUnknown = true
  · exact .inl ⟨(isAnyOrUnknown_join hts.made hts.given).2 vague,
      (isAnyOrUnknown_join hus.made hus.given).2 (h.vague.1 vague)⟩
  · have proper := not_vague_iff.1 vague
    have found := hts.found_distinct hus (h.left proper)
    have found' := hus.found_distinct hts (h.right (h.proper proper))
    have several {ts : List Ty} (hts : Combinable ts) : ∀ us, Ty.join ts = .union us → 1 < us.length :=
      fun us union => by
        have made := Ty.over_join hts.made hts.given
        rw [union] at made
        exact made.built.several
    right
    refine same_of_alternatives (several hts) (several hus) ?_ ?_
    · rw [alternatives_join hts.made hts.given proper,
        alternatives_join hus.made hus.given (h.proper proper)]
      exact Nat.le_antisymm (hts.length_distinct_le hus found) (hus.length_distinct_le hts found')
    · rw [alternatives_join hts.made hts.given proper,
        alternatives_join hus.made hus.given (h.proper proper)]
      exact found

end Ty.Combinable

private theorem combinable_of_formed (given : ts ≠ [])
    (h : ∀ t ∈ ts, t.Formed inf false Ty.levels) :
    Combinable ts := by
  refine ⟨given, fun t ht => (h t ht).overAll, fun a ha => ?_⟩
  obtain ⟨t, ht, hat⟩ := mem_choices.1 ha
  have within := ((h t ht).anytime .start).within
  by_cases union : ∃ us, t = .union us
  · obtain ⟨us, rfl⟩ := union
    cases within with
    | union each _ => exact (each a hat).succ
  · rw [Fragment.alternatives_eq_self fun us same => union ⟨us, same⟩] at hat
    rwa [List.mem_singleton.1 hat]

/-- Combining types comes to the same whatever their order, however often each is there, and
whichever of them were combined before. -/
theorem combine_tantamount_of_regroups (given : ts ≠ [])
    (formed : ∀ t ∈ ts, t.Formed inf false Ty.levels) (run : Relation.ReflTransGen Regroups ts us)
    (now now' : Inference) :
    (Ty.combine now (ts.map some)).Tantamount inf (Ty.combine now' (us.map some)) := by
  have combinable := combinable_of_formed given formed
  obtain ⟨combinable', exchangeable⟩ := combinable.regroups_run run
  rw [Ty.combine_eq_join combinable.made now, Ty.combine_eq_join combinable'.made now']
  refine (combinable.tantamount combinable' exchangeable).imp_right fun same => ?_
  have made := Ty.over_join combinable.made combinable.given
  rw [made.same_eq (Ty.over_join combinable'.made combinable'.given) inf .start, same]

/-- Views of two classes and an absent value, of which one view is repeated and two types are
combined first. -/
theorem combine_of_regrouped :
    let c := Sample.instanceOf 0
    let d := Ty.cls ⟨1, true, some [some .unknown], true, none⟩
    let d' := Sample.instanceOf 1
    let ts := [c, .noneObject, d, d']
    let us := [Ty.union [d, c], c, .noneObject]
    (∀ t ∈ ts, t.Formed .start false Ty.levels) ∧ Relation.ReflTransGen Regroups ts us ∧
      (Ty.combine .start (ts.map some)).Tantamount .start (Ty.combine .start (us.map some)) := by
  intro c d d' ts us
  have bare (id : ClassId) : (Sample.instanceOf id).Formed .start false Ty.levels :=
    .cls fun _ ho => absurd ho List.not_mem_nil
  have formed : ∀ t ∈ ts, t.Formed .start false Ty.levels := by
    refine List.forall_mem_cons.2 ⟨bare 0, List.forall_mem_cons.2 ⟨.noneObject _ _, ?_⟩⟩
    refine List.forall_mem_cons.2 ⟨.cls fun o ho t ht => ?_, ?_⟩
    · rw [List.mem_singleton.1 ho] at ht
      cases ht
      exact .unknown _ _
    · exact List.forall_mem_singleton.2 (bare 1)
  have again : Regroups ts (c :: ts) := .repeated List.mem_cons_self
  have moved : Regroups (c :: ts) ([d, d'] ++ [c, c, .noneObject]) :=
    .reordered (@List.perm_append_comm Ty [c, c, .noneObject] [d, d'])
  have combined : Regroups ([d, d', c] ++ [c, .noneObject]) us :=
    .grouped .start (List.cons_ne_nil d _)
  have run : Relation.ReflTransGen Regroups ts us :=
    ((Relation.ReflTransGen.single again).tail moved).tail combined
  exact ⟨formed, run, combine_tantamount_of_regroups (List.cons_ne_nil c _) formed run .start .start⟩

end Conformance
