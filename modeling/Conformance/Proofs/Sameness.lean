import Conformance.Proofs.Fragment
import Mathlib.Data.List.Forall2

/-!
# Sameness is an equivalence

Two types are compared to a number of levels. Where a type is nested no deeper than that, further
levels change nothing, and where besides no two alternatives of a union are the same, sameness is
symmetric and transitive. The alternatives of one union are looked for in the other in one direction
only; the other direction follows from their number.
-/

namespace Conformance

/-- The type is nested no deeper than so many levels, and no two alternatives of a union in it are
the same. -/
inductive Ty.Within (inf : Inference) : Nat → Ty → Prop
  | unknown (n : Nat) : Ty.Within inf n .unknown
  | any (n : Nat) : Ty.Within inf n .any
  | noneObject (n : Nat) : Ty.Within inf n .noneObject
  | module (n : Nat) (name : String) (table : TableId) : Ty.Within inf (n + 1) (.module name table)
  | var (n : Nat) (v : TypeVar) : Ty.Within inf (n + 1) (.var v)
  | cls {n : Nat} {c : ClassTy} (args : ∀ t ∈ c.argList, ∀ u, t = some u → Ty.Within inf n u) :
      Ty.Within inf (n + 1) (.cls c)
  | function {n : Nat} {f : FunctionTy}
      (params : ∀ p ∈ f.params, ∀ u, p.type = some u → Ty.Within inf n u)
      (ret : Ty.Within inf n (inf.returnType f)) : Ty.Within inf (n + 1) (.function f)
  | overloaded {n : Nat} {fs : List FunctionTy}
      (each : ∀ f ∈ fs, Ty.Within inf n (.function f)) : Ty.Within inf (n + 1) (.overloaded fs)
  | union {n : Nat} {ts : List Ty} (each : ∀ t ∈ ts, Ty.Within inf n t)
      (distinct : ts.Pairwise fun t u => t.same inf u = false) : Ty.Within inf (n + 1) (.union ts)

variable {inf : Inference} {n k : Nat} {t u v : Ty}

/-! ## Lists that are compared place by place -/

section

variable {α : Type} {same same' : α → α → Bool} {as bs cs : List α}

theorem all_congr {p q : α → Bool} (h : ∀ a ∈ as, p a = q a) : as.all p = as.all q := by
  induction as with
  | nil => rfl
  | cons a as ih =>
    rw [List.forall_mem_cons] at h
    rw [List.all_cons, List.all_cons, h.1, ih h.2]

theorem allPairs_congr (h : ∀ a ∈ as, ∀ b ∈ bs, same a b = same' a b) :
    allPairs same as bs = allPairs same' as bs := by
  induction as generalizing bs with
  | nil => cases bs <;> rfl
  | cons a as ih =>
    cases bs with
    | nil => rfl
    | cons b bs =>
      simp only [List.forall_mem_cons] at h
      rw [allPairs, allPairs, h.1.1, ih fun a ha => (h.2 a ha).2]

private theorem allPairs_symm (hs : allPairs same as bs = true)
    (h : ∀ a ∈ as, ∀ b ∈ bs, same a b = true → same b a = true) : allPairs same bs as = true := by
  induction as generalizing bs with
  | nil =>
    cases bs with
    | nil => rfl
    | cons b bs => cases hs
  | cons a as ih =>
    cases bs with
    | nil => cases hs
    | cons b bs =>
      rw [allPairs, Bool.and_eq_true] at hs ⊢
      refine ⟨h a List.mem_cons_self b List.mem_cons_self hs.1, ih hs.2 fun a ha b hb => ?_⟩
      exact h a (List.mem_cons_of_mem _ ha) b (List.mem_cons_of_mem _ hb)

theorem exists_of_allPairs (hs : allPairs same as bs = true) {a : α} (ha : a ∈ as) :
    ∃ b ∈ bs, same a b = true := by
  induction as generalizing bs with
  | nil => cases ha
  | cons a' as ih =>
    cases bs with
    | nil => cases hs
    | cons b bs =>
      rw [allPairs, Bool.and_eq_true] at hs
      rcases List.mem_cons.1 ha with rfl | ha
      · exact ⟨b, List.mem_cons_self, hs.1⟩
      · obtain ⟨c, hc, here⟩ := ih hs.2 ha
        exact ⟨c, List.mem_cons_of_mem b hc, here⟩

private theorem allPairs_trans (hs : allPairs same as bs = true) (hs' : allPairs same bs cs = true)
    (h : ∀ a ∈ as, ∀ b ∈ bs, ∀ c ∈ cs, same a b = true → same b c = true → same a c = true) :
    allPairs same as cs = true := by
  induction as generalizing bs cs with
  | nil =>
    cases bs with
    | nil => exact hs'
    | cons b bs => cases hs
  | cons a as ih =>
    cases bs with
    | nil => cases hs
    | cons b bs =>
      cases cs with
      | nil => cases hs'
      | cons c cs =>
        rw [allPairs, Bool.and_eq_true] at hs hs' ⊢
        simp only [List.forall_mem_cons] at h
        exact ⟨h.1.1.1 hs.1 hs'.1, ih hs.2 hs'.2 fun a ha b hb c hc => (h.2 a ha).2 b hb |>.2 c hc⟩

end

/-- If each of several things is related to one of as many others, and no two to the same one, then
the others can be put into an order in which they are related place by place. -/
theorem exists_perm_forall₂ {α β : Type} {R : α → β → Prop} {as : List α} {bs : List β}
    (h : ∀ a ∈ as, ∃ b ∈ bs, R a b) (apart : as.Pairwise fun a a' => ∀ b ∈ bs, R a b → ¬ R a' b)
    (length : as.length = bs.length) : ∃ cs, cs.Perm bs ∧ List.Forall₂ R as cs := by
  induction as generalizing bs with
  | nil => exact ⟨[], (List.length_eq_zero_iff.1 length.symm) ▸ .refl _, .nil⟩
  | cons a as ih =>
    rw [List.forall_mem_cons] at h
    rw [List.pairwise_cons] at apart
    obtain ⟨⟨b, hb, hab⟩, others⟩ := h
    obtain ⟨first, rest, rfl⟩ := List.append_of_mem hb
    have split : ∀ c, c ∈ first ++ b :: rest ↔ c = b ∨ c ∈ first ++ rest := fun c => by
      simp only [List.mem_append, List.mem_cons, or_left_comm]
    obtain ⟨cs, perm, related⟩ : ∃ cs, cs.Perm (first ++ rest) ∧ List.Forall₂ R as cs := by
      refine ih (fun a' ha' => ?_) (apart.2.imp fun h c hc => h c ((split c).2 (.inr hc))) ?_
      · obtain ⟨c, hc, hac⟩ := others a' ha'
        refine ⟨c, ((split c).1 hc).resolve_left ?_, hac⟩
        rintro rfl
        exact apart.1 a' ha' c hb hab hac
      · simp only [List.length_append, List.length_cons] at length ⊢
        omega
    exact ⟨b :: cs, (perm.cons b).trans List.perm_middle.symm, .cons hab related⟩

theorem exists_of_forall₂ {α β : Type} {R : α → β → Prop} {as : List α} {bs : List β}
    (h : List.Forall₂ R as bs) {a : α} (ha : a ∈ as) : ∃ b ∈ bs, R a b := by
  induction h with
  | nil => cases ha
  | cons here _ ih =>
    rcases List.mem_cons.1 ha with rfl | ha
    · exact ⟨_, List.mem_cons_self, here⟩
    · obtain ⟨b, hb, related⟩ := ih ha
      exact ⟨b, List.mem_cons_of_mem _ hb, related⟩

private theorem exists_related_of_length_eq {α β : Type} {R : α → β → Prop} {as : List α}
    {bs : List β}
    (h : ∀ a ∈ as, ∃ b ∈ bs, R a b) (apart : as.Pairwise fun a a' => ∀ b ∈ bs, R a b → ¬ R a' b)
    (length : as.length = bs.length) : ∀ b ∈ bs, ∃ a ∈ as, R a b := by
  obtain ⟨cs, perm, related⟩ := exists_perm_forall₂ h apart length
  exact fun b hb => exists_of_forall₂ related.flip (perm.mem_iff.2 hb)

/-! ## More levels -/

theorem sameAt_unknown (inf : Inference) (n : Nat) (u : Ty) :
    sameAt inf n .unknown u = (Category.unknown == u.category) := by
  cases n <;> cases u <;> rfl

private theorem sameAt_any (inf : Inference) (n : Nat) (u : Ty) :
    sameAt inf n .any u = (Category.any == u.category) := by
  cases n <;> cases u <;> rfl

private theorem sameAt_noneObject (inf : Inference) (n : Nat) (u : Ty) :
    sameAt inf n .noneObject u = (Category.noneObject == u.category) := by
  cases n <;> cases u <;> rfl

theorem sameOption_congr {same same' : Ty → Ty → Bool} {a b : Option Ty}
    (h : ∀ t, a = some t → ∀ u, b = some u → same t u = same' t u) :
    sameOption same a b = sameOption same' a b := by
  cases a with
  | none => cases b <;> rfl
  | some t =>
    cases b with
    | none => rfl
    | some u => exact h t rfl u rfl

namespace Ty.Within

theorem typeOrUnknown {p : Param} (h : ∀ u, p.type = some u → u.Within inf n) :
    p.typeOrUnknown.Within inf n := by
  unfold Param.typeOrUnknown
  cases hp : p.type with
  | none => exact .unknown n
  | some t => exact h t hp

/-- Beyond the levels that a type is nested, its comparison with any type stays the same. -/
theorem sameAt_eq (h : t.Within inf n) (hk : n ≤ k) (u : Ty) : sameAt inf k t u = sameAt inf n t u := by
  induction n generalizing k t u with
  | zero =>
    cases h with
    | unknown => simp only [sameAt_unknown]
    | any => simp only [sameAt_any]
    | noneObject => simp only [sameAt_noneObject]
  | succ n ih =>
    obtain ⟨k, rfl⟩ : ∃ k', k = k' + 1 := ⟨k - 1, by omega⟩
    have hk : n ≤ k := by omega
    cases h with
    | unknown => simp only [sameAt_unknown]
    | any => simp only [sameAt_any]
    | noneObject => simp only [sameAt_noneObject]
    | module => cases u <;> rfl
    | var => cases u <;> rfl
    | @cls _ c args =>
      cases u with
      | cls d =>
        simp only [sameAt, sameClassTy]
        congr 1
        have unknown : ∀ t, some Ty.unknown = some t → t.Within inf n := by
          rintro _ ⟨⟩
          exact .unknown n
        have others : ∀ o ∈ d.argList, True := fun _ _ => trivial
        have given := forall_mem_padPairs (P := fun o => ∀ t, o = some t → t.Within inf n)
          unknown trivial args others
        exact all_congr fun p hp => sameOption_congr fun t ht u _ => ih ((given p hp).1 t ht) hk u
      | _ => rfl
    | @function _ f params ret =>
      cases u with
      | function g =>
        simp only [sameAt, sameFunction, ih ret hk]
        congr 2
        refine allPairs_congr fun p hp q _ => ?_
        simp only [sameParam, ih (typeOrUnknown (params p hp)) hk]
      | _ => rfl
    | @overloaded _ fs each =>
      cases u with
      | overloaded gs => exact allPairs_congr fun f hf g _ => ih (each f hf) hk _
      | _ => rfl
    | @union _ ts each _ =>
      cases u with
      | union us =>
        simp only [sameAt]
        congr 1
        refine all_congr fun t ht => ?_
        simp only [ih (each t ht) hk]
      | _ => rfl

theorem same_eq (h : t.Within inf n) (hn : n ≤ Ty.levels) (u : Ty) :
    t.same inf u = sameAt inf n t u :=
  h.sameAt_eq hn u

/-- An alternative of a union is no deeper nested than the union, and the same as no other. -/
theorem apart {ts : List Ty} (each : ∀ t ∈ ts, t.Within inf n)
    (distinct : ts.Pairwise fun t u => t.same inf u = false) (hn : n ≤ Ty.levels) :
    ts.Pairwise fun t u => sameAt inf n t u = false := by
  refine distinct.imp_of_mem fun {t u} ht _ h => ?_
  rwa [same_eq (each t ht) hn] at h

end Ty.Within

/-! ## Symmetry and transitivity -/

private theorem sameOption_symm {same : Ty → Ty → Bool} {a b : Option Ty}
    (h : ∀ t, a = some t → ∀ u, b = some u → same t u = true → same u t = true)
    (hs : sameOption same a b = true) : sameOption same b a = true := by
  cases a with
  | none => cases b <;> exact hs
  | some t =>
    cases b with
    | none => exact hs
    | some u => exact h t rfl u rfl hs

private theorem sameOption_trans {same : Ty → Ty → Bool} {a b c : Option Ty}
    (h : ∀ t, a = some t → ∀ u, b = some u → ∀ v, c = some v →
      same t u = true → same u v = true → same t v = true)
    (hs : sameOption same a b = true) (hs' : sameOption same b c = true) :
    sameOption same a c = true := by
  cases a with
  | none => cases b <;> simp_all [sameOption]
  | some t =>
    cases b with
    | none => cases hs
    | some u =>
      cases c with
      | none => cases hs'
      | some v => exact h t rfl u rfl v rfl hs hs'

def WithinOption (inf : Inference) (n : Nat) (o : Option Ty) : Prop := ∀ t, o = some t → t.Within inf n

private theorem withinOption_unknown (n : Nat) : WithinOption inf n (some .unknown) := by
  rintro _ ⟨⟩
  exact .unknown n

theorem withinOption_getD {as : List (Option Ty)} (h : ∀ a ∈ as, WithinOption inf n a) (i : Nat) :
    WithinOption inf n ((as[i]?).getD (some .unknown)) := by
  cases hi : as[i]? with
  | none => exact withinOption_unknown n
  | some a => exact h a (List.mem_of_getElem? hi)

/-- Sameness is symmetric and transitive on the types of a number of levels. -/
structure Alternates (inf : Inference) (n : Nat) : Prop where
  symm {t u : Ty} (ht : t.Within inf n) (hu : u.Within inf n) (h : sameAt inf n t u = true) :
    sameAt inf n u t = true
  trans {t u v : Ty} (ht : t.Within inf n) (hu : u.Within inf n) (hv : v.Within inf n)
    (h : sameAt inf n t u = true) (h' : sameAt inf n u v = true) : sameAt inf n t v = true

namespace Alternates

variable (ih : Alternates inf n)
include ih

private theorem symm_args {as bs : List (Option Ty)} (ha : ∀ a ∈ as, WithinOption inf n a)
    (hb : ∀ b ∈ bs, WithinOption inf n b)
    (h : ∀ p ∈ padPairs as bs, sameOption (sameAt inf n) p.1 p.2 = true) :
    ∀ p ∈ padPairs bs as, sameOption (sameAt inf n) p.1 p.2 = true := by
  have unknown : sameOption (sameAt inf n) (some .unknown) (some .unknown) = true :=
    sameAt_self inf n .unknown
  rw [forall_padPairs_iff (R := fun a b => sameOption (sameAt inf n) a b = true) unknown] at h ⊢
  exact fun i => sameOption_symm (fun t ht u hu =>
    ih.symm (withinOption_getD ha i t ht) (withinOption_getD hb i u hu)) (h i)

private theorem trans_args {as bs cs : List (Option Ty)} (ha : ∀ a ∈ as, WithinOption inf n a)
    (hb : ∀ b ∈ bs, WithinOption inf n b) (hc : ∀ c ∈ cs, WithinOption inf n c)
    (h : ∀ p ∈ padPairs as bs, sameOption (sameAt inf n) p.1 p.2 = true)
    (h' : ∀ p ∈ padPairs bs cs, sameOption (sameAt inf n) p.1 p.2 = true) :
    ∀ p ∈ padPairs as cs, sameOption (sameAt inf n) p.1 p.2 = true := by
  have unknown : sameOption (sameAt inf n) (some .unknown) (some .unknown) = true :=
    sameAt_self inf n .unknown
  rw [forall_padPairs_iff (R := fun a b => sameOption (sameAt inf n) a b = true) unknown]
    at h h' ⊢
  exact fun i => sameOption_trans (fun t ht u hu v hv =>
    ih.trans (withinOption_getD ha i t ht) (withinOption_getD hb i u hu)
      (withinOption_getD hc i v hv)) (h i) (h' i)

private theorem symm_param {p q : Param} (hp : p.typeOrUnknown.Within inf n)
    (hq : q.typeOrUnknown.Within inf n) (h : sameParam (sameAt inf n) p q = true) :
    sameParam (sameAt inf n) q p = true := by
  simp only [sameParam, Bool.and_eq_true, beq_iff_eq] at h ⊢
  exact ⟨⟨h.1.1.symm, h.1.2.symm⟩, ih.symm hp hq h.2⟩

private theorem trans_param {p q r : Param} (hp : p.typeOrUnknown.Within inf n)
    (hq : q.typeOrUnknown.Within inf n) (hr : r.typeOrUnknown.Within inf n)
    (h : sameParam (sameAt inf n) p q = true) (h' : sameParam (sameAt inf n) q r = true) :
    sameParam (sameAt inf n) p r = true := by
  simp only [sameParam, Bool.and_eq_true, beq_iff_eq] at h h' ⊢
  exact ⟨⟨h.1.1.trans h'.1.1, h.1.2.trans h'.1.2⟩, ih.trans hp hq hr h.2 h'.2⟩

/-- Each alternative of the second union is found in the first, as there are equally many. -/
theorem symm_union {ts us : List Ty} (ht : ∀ t ∈ ts, t.Within inf n) (hu : ∀ u ∈ us, u.Within inf n)
    (apart : ts.Pairwise fun t t' => sameAt inf n t t' = false) (length : ts.length = us.length)
    (h : ∀ t ∈ ts, ∃ u ∈ us, sameAt inf n t u = true) :
    ∀ u ∈ us, ∃ t ∈ ts, sameAt inf n u t = true := by
  have found := exists_related_of_length_eq h ?_ length
  · intro u hu'
    obtain ⟨t, ht', same⟩ := found u hu'
    exact ⟨t, ht', ih.symm (ht t ht') (hu u hu') same⟩
  · refine apart.imp_of_mem fun {t t'} ht₁ ht₂ different u hu' same same' => ?_
    have both := ih.trans (ht t ht₁) (hu u hu') (ht t' ht₂) same
      (ih.symm (ht t' ht₂) (hu u hu') same')
    rw [different] at both
    cases both

private theorem symm_succ (hn : n ≤ Ty.levels) (ht : t.Within inf (n + 1))
    (hu : u.Within inf (n + 1))
    (h : sameAt inf (n + 1) t u = true) : sameAt inf (n + 1) u t = true := by
  cases ht with
  | unknown | any | noneObject =>
    cases u with
    | _ => first | rfl | cases h
  | module =>
    cases u with
    | module =>
      simp only [sameAt, beq_iff_eq] at h ⊢
      exact h.symm
    | _ => cases h
  | var =>
    cases u with
    | var =>
      simp only [sameAt, Bool.and_eq_true, beq_iff_eq] at h ⊢
      exact ⟨⟨h.1.1.symm, h.1.2.symm⟩, h.2.symm⟩
    | _ => cases h
  | cls args =>
    cases hu with
    | cls args' =>
      simp only [sameAt, sameClassTy, ClassTy.sameClass, Bool.and_eq_true, beq_iff_eq,
        List.all_eq_true] at h ⊢
      obtain ⟨⟨⟨id, view⟩, literal⟩, same⟩ := h
      exact ⟨⟨⟨id.symm, view.symm⟩, literal.symm⟩, ih.symm_args args args' same⟩
    | _ => cases h
  | function params ret =>
    cases hu with
    | function params' ret' =>
      simp only [sameAt, sameFunction, Bool.and_eq_true, beq_iff_eq] at h ⊢
      obtain ⟨⟨kind, same⟩, returned⟩ := h
      refine ⟨⟨kind.symm, allPairs_symm same fun p hp q hq => ?_⟩, ih.symm ret ret' returned⟩
      exact ih.symm_param (.typeOrUnknown (params p hp)) (.typeOrUnknown (params' q hq))
    | _ => cases h
  | overloaded each =>
    cases hu with
    | overloaded each' =>
      exact allPairs_symm h fun f hf g hg => ih.symm (each f hf) (each' g hg)
    | _ => cases h
  | union each distinct =>
    cases hu with
    | union each' distinct' =>
      simp only [sameAt, Bool.and_eq_true, beq_iff_eq, List.all_eq_true, List.any_eq_true] at h ⊢
      exact ⟨h.1.symm, ih.symm_union each each' (Ty.Within.apart each distinct hn) h.1 h.2⟩
    | _ => cases h

private theorem trans_succ (ht : t.Within inf (n + 1)) (hu : u.Within inf (n + 1))
    (hv : v.Within inf (n + 1)) (h : sameAt inf (n + 1) t u = true)
    (h' : sameAt inf (n + 1) u v = true) : sameAt inf (n + 1) t v = true := by
  cases ht with
  | unknown | any | noneObject =>
    cases u with
    | _ => first | exact h' | cases h
  | module =>
    cases u with
    | module =>
      cases v with
      | module =>
        simp only [sameAt, beq_iff_eq] at h h' ⊢
        exact h.trans h'
      | _ => cases h'
    | _ => cases h
  | var =>
    cases u with
    | var =>
      cases v with
      | var =>
        simp only [sameAt, Bool.and_eq_true, beq_iff_eq] at h h' ⊢
        exact ⟨⟨h.1.1.trans h'.1.1, h.1.2.trans h'.1.2⟩, h.2.trans h'.2⟩
      | _ => cases h'
    | _ => cases h
  | cls args =>
    cases hu with
    | cls args' =>
      cases hv with
      | cls args'' =>
        simp only [sameAt, sameClassTy, ClassTy.sameClass, Bool.and_eq_true, beq_iff_eq,
          List.all_eq_true] at h h' ⊢
        obtain ⟨⟨⟨id, view⟩, literal⟩, same⟩ := h
        obtain ⟨⟨⟨id', view'⟩, literal'⟩, same'⟩ := h'
        exact ⟨⟨⟨id.trans id', view.trans view'⟩, literal.trans literal'⟩,
          ih.trans_args args args' args'' same same'⟩
      | _ => cases h'
    | _ => cases h
  | function params ret =>
    cases hu with
    | function params' ret' =>
      cases hv with
      | function params'' ret'' =>
        simp only [sameAt, sameFunction, Bool.and_eq_true, beq_iff_eq] at h h' ⊢
        obtain ⟨⟨kind, same⟩, returned⟩ := h
        obtain ⟨⟨kind', same'⟩, returned'⟩ := h'
        refine ⟨⟨kind.trans kind', allPairs_trans same same' fun p hp q hq r hr => ?_⟩,
          ih.trans ret ret' ret'' returned returned'⟩
        exact ih.trans_param (.typeOrUnknown (params p hp)) (.typeOrUnknown (params' q hq))
          (.typeOrUnknown (params'' r hr))
      | _ => cases h'
    | _ => cases h
  | overloaded each =>
    cases hu with
    | overloaded each' =>
      cases hv with
      | overloaded each'' =>
        exact allPairs_trans h h' fun f hf g hg k hk => ih.trans (each f hf) (each' g hg) (each'' k hk)
      | _ => cases h'
    | _ => cases h
  | union each _ =>
    cases hu with
    | union each' _ =>
      cases hv with
      | union each'' _ =>
        simp only [sameAt, Bool.and_eq_true, beq_iff_eq, List.all_eq_true, List.any_eq_true]
          at h h' ⊢
        refine ⟨h.1.trans h'.1, fun t ht => ?_⟩
        obtain ⟨u, hu, same⟩ := h.2 t ht
        obtain ⟨v, hv, same'⟩ := h'.2 u hu
        exact ⟨v, hv, ih.trans (each t ht) (each' u hu) (each'' v hv) same same'⟩
      | _ => cases h'
    | _ => cases h

end Alternates

theorem alternates (inf : Inference) (hn : n ≤ Ty.levels) : Alternates inf n := by
  induction n with
  | zero =>
    refine ⟨fun _ _ h => ?_, fun _ _ _ h h' => ?_⟩
    · simp only [sameAt, beq_iff_eq] at h ⊢
      exact h.symm
    · simp only [sameAt, beq_iff_eq] at h h' ⊢
      exact h.trans h'
  | succ n ih =>
    have ih := ih (Nat.le_of_succ_le hn)
    exact ⟨ih.symm_succ (Nat.le_of_succ_le hn), ih.trans_succ⟩

namespace Ty.Within

variable (hn : n ≤ Ty.levels)
include hn

theorem same_symm (ht : t.Within inf n) (hu : u.Within inf n) (h : t.same inf u = true) :
    u.same inf t = true := by
  rw [ht.same_eq hn] at h
  rw [hu.same_eq hn]
  exact (alternates inf hn).symm ht hu h

theorem same_trans (ht : t.Within inf n) (hu : u.Within inf n) (hv : v.Within inf n)
    (h : t.same inf u = true) (h' : u.same inf v = true) : t.same inf v = true := by
  rw [ht.same_eq hn] at h ⊢
  rw [hu.same_eq hn] at h'
  exact (alternates inf hn).trans ht hu hv h h'

end Ty.Within

end Conformance
