import Conformance.Proofs.Filling
import Conformance.Proofs.Twins

/-!
# Types that coincide

Two types coincide if one of them has a type of anything where the other one has an unknown type at
most, and if of each union in them only the alternatives count, not how many of these are listed.
Types that are the same coincide. For types that mention only one of the two types of anything the
converse holds as well.
-/

namespace Conformance

/-- The argument at a place of a view, unknown beyond the last one. -/
def ClassTy.argAt (c : ClassTy) (i : Nat) : Option Ty := (c.argList[i]?).getD (some .unknown)

section

variable (told : ClassId → Prop) (R : Ty → Ty → Prop)

/-- Views of one class with related arguments. A view without arguments of one of the classes that
are told of is related to no view with arguments. -/
structure ClassTy.Matches (c d : ClassTy) : Prop where
  id : c.id = d.id
  isInstance : c.isInstance = d.isInstance
  literal : c.literal = d.literal
  told : told c.id → c.args.isSome = d.args.isSome
  args : ∀ i, Option.Rel R (c.argAt i) (d.argAt i)

structure Param.Matches (p q : Param) : Prop where
  kind : p.kind = q.kind
  name : p.name = q.name
  type : R p.typeOrUnknown q.typeOrUnknown

structure FunctionTy.Matches (f g : FunctionTy) : Prop where
  kind : f.kind = g.kind
  params : List.Forall₂ (Param.Matches R) f.params g.params
  ret : R f.returned g.returned

/-- Two types of one kind, neither of them a union, with related parts. -/
inductive Ty.Matches : Ty → Ty → Prop
  | unknown : Ty.Matches .unknown .unknown
  | any : Ty.Matches .any .any
  | noneObject : Ty.Matches .noneObject .noneObject
  | module (name name' : String) (table : TableId) :
      Ty.Matches (.module name table) (.module name' table)
  | cls {c d : ClassTy} (h : c.Matches told R d) : Ty.Matches (.cls c) (.cls d)
  | function {f g : FunctionTy} (h : f.Matches R g) : Ty.Matches (.function f) (.function g)
  | overloaded {fs gs : List FunctionTy}
      (h : List.Forall₂ (fun f g => R (.function f) (.function g)) fs gs) :
      Ty.Matches (.overloaded fs) (.overloaded gs)
  | var {v w : TypeVar} (name : v.name = w.name) (scope : v.scope = w.scope)
      (access : v.access = w.access) : Ty.Matches (.var v) (.var w)

/-- Each of the types matches one of the others, or one of the others is a type of anything. -/
def Covered (as bs : List Ty) : Prop :=
  ∀ a ∈ as, (∃ b ∈ bs, b.isAnyOrUnknown = true) ∨
    a.isAnyOrUnknown = false ∧ ∃ b ∈ bs, a.Matches told R b

end

/-- The types coincide as far as they are looked at to a number of levels. -/
def coincideAt (told : ClassId → Prop) : Nat → Ty → Ty → Prop
  | 0, _, _ => True
  | n + 1, t, u =>
    Covered told (coincideAt told n) t.alternatives u.alternatives ∧
      Covered told (coincideAt told n) u.alternatives t.alternatives

def NoClass (_ : ClassId) : Prop := False

/-- The types are the same but for the difference between the two types of anything and for how often
a union lists an alternative. -/
def Ty.Coincides (t u : Ty) : Prop := ∀ n, coincideAt NoClass n t u

def EquatedAt (told : ClassId → Prop) (n : Nat) (as bs : List Ty) : Prop :=
  Covered told (coincideAt told n) as bs ∧ Covered told (coincideAt told n) bs as

/-! ## An equivalence -/

section

variable {told : ClassId → Prop} {R : Ty → Ty → Prop} {V : Vocabulary} {n : Nat} {t u v : Ty}
  {as bs cs : List Ty}

private theorem forall₂_symm {α : Type} {S : α → α → Prop} {xs ys : List α}
    (h : List.Forall₂ S xs ys)
    (symm : ∀ x y, S x y → S y x) : List.Forall₂ S ys xs :=
  (h.imp fun x y hxy => symm x y hxy).flip

private theorem forall₂_trans {α : Type} {S : α → α → Prop} {xs ys zs : List α}
    (h : List.Forall₂ S xs ys) (h' : List.Forall₂ S ys zs)
    (trans : ∀ x y z, S x y → S y z → S x z) : List.Forall₂ S xs zs := by
  induction h generalizing zs with
  | nil => exact h'
  | cons first _ ih =>
    cases h' with
    | cons first' rest' => exact .cons (trans _ _ _ first first') (ih rest')

private theorem option_rel_symm {o o' : Option Ty} (h : Option.Rel R o o')
    (symm : ∀ t u, R t u → R u t) : Option.Rel R o' o := by
  cases h with
  | some h => exact .some (symm _ _ h)
  | none => exact .none

private theorem option_rel_trans {o o' o'' : Option Ty} (h : Option.Rel R o o')
    (h' : Option.Rel R o' o'')
    (trans : ∀ t u v, R t u → R u v → R t v) : Option.Rel R o o'' := by
  cases h with
  | some h =>
    cases h' with
    | some h' => exact .some (trans _ _ _ h h')
  | none => exact h'

namespace Ty.Matches

theorem symm (h : t.Matches told R u) (hR : ∀ t u, R t u → R u t) : u.Matches told R t := by
  cases h with
  | unknown => exact .unknown
  | any => exact .any
  | noneObject => exact .noneObject
  | module name name' table => exact .module name' name table
  | cls h =>
    exact .cls ⟨h.id.symm, h.isInstance.symm, h.literal.symm,
      fun here => (h.told (h.id ▸ here)).symm, fun i => option_rel_symm (h.args i) hR⟩
  | function h =>
    exact .function ⟨h.kind.symm,
      forall₂_symm h.params fun p q hpq => ⟨hpq.kind.symm, hpq.name.symm, hR _ _ hpq.type⟩,
      hR _ _ h.ret⟩
  | overloaded h => exact .overloaded (forall₂_symm h fun f g hfg => hR _ _ hfg)
  | var name scope access => exact .var name.symm scope.symm access.symm

theorem trans (h : t.Matches told R u) (h' : u.Matches told R v)
    (hR : ∀ t u v, R t u → R u v → R t v) : t.Matches told R v := by
  cases h with
  | unknown | any | noneObject => exact h'
  | module name name' table =>
    cases h' with
    | module _ name'' => exact .module name name'' table
  | cls h =>
    cases h' with
    | cls h' =>
      exact .cls ⟨h.id.trans h'.id, h.isInstance.trans h'.isInstance, h.literal.trans h'.literal,
        fun here => (h.told here).trans (h'.told (h.id ▸ here)),
        fun i => option_rel_trans (h.args i) (h'.args i) hR⟩
  | function h =>
    cases h' with
    | function h' =>
      refine .function ⟨h.kind.trans h'.kind, forall₂_trans h.params h'.params fun p q r hpq hqr => ?_,
        hR _ _ _ h.ret h'.ret⟩
      exact ⟨hpq.kind.trans hqr.kind, hpq.name.trans hqr.name, hR _ _ _ hpq.type hqr.type⟩
  | overloaded h =>
    cases h' with
    | overloaded h' => exact .overloaded (forall₂_trans h h' fun _ _ _ => hR _ _ _)
  | var name scope access =>
    cases h' with
    | var name' scope' access' =>
      exact .var (name.trans name') (scope.trans scope') (access.trans access')

private theorem isAnyOrUnknown_eq (h : t.Matches told R u) :
    u.isAnyOrUnknown = t.isAnyOrUnknown := by
  cases h <;> rfl

end Ty.Matches

theorem Covered.trans (h : Covered told R as bs) (h' : Covered told R bs cs)
    (hR : ∀ t u v, R t u → R u v → R t v) : Covered told R as cs := by
  intro a ha
  rcases h a ha with ⟨b, hb, vague⟩ | ⟨proper, b, hb, hab⟩
  · rcases h' b hb with found | ⟨proper, -⟩
    · exact .inl found
    · rw [vague] at proper
      cases proper
  · rcases h' b hb with found | ⟨-, c, hc, hbc⟩
    · exact .inl found
    · exact .inr ⟨proper, c, hc, hab.trans hbc hR⟩

private theorem covered_of_matches (h : ∀ a ∈ as, ∃ b ∈ bs, a.Matches told R b) :
    Covered told R as bs := by
  intro a ha
  obtain ⟨b, hb, hab⟩ := h a ha
  by_cases vague : a.isAnyOrUnknown = true
  · exact .inl ⟨b, hb, hab.isAnyOrUnknown_eq.trans vague⟩
  · exact .inr ⟨Bool.eq_false_iff.2 vague, b, hb, hab⟩

private theorem coincideAt_symm (n : Nat) {t u : Ty} (h : coincideAt told n t u) :
    coincideAt told n u t := by
  cases n with
  | zero => trivial
  | succ n => exact ⟨h.2, h.1⟩

theorem coincideAt_trans (n : Nat) {t u v : Ty} (h : coincideAt told n t u)
    (h' : coincideAt told n u v) : coincideAt told n t v := by
  induction n generalizing t u v with
  | zero => trivial
  | succ n ih =>
    exact ⟨h.1.trans h'.1 fun _ _ _ => ih, h'.2.trans h.2 fun _ _ _ => ih⟩

theorem EquatedAt.symm (h : EquatedAt told n as bs) : EquatedAt told n bs as := ⟨h.2, h.1⟩

theorem EquatedAt.trans (h : EquatedAt told n as bs) (h' : EquatedAt told n bs cs) :
    EquatedAt told n as cs :=
  ⟨h.1.trans h'.1 fun _ _ _ => coincideAt_trans n, h'.2.trans h.2 fun _ _ _ => coincideAt_trans n⟩

private theorem equatedAt_of_matches
    (left : ∀ a ∈ as, ∃ b ∈ bs, a.Matches told (coincideAt told n) b)
    (right : ∀ b ∈ bs, ∃ a ∈ as, a.Matches told (coincideAt told n) b) :
    EquatedAt told n as bs := by
  refine ⟨covered_of_matches left, covered_of_matches fun b hb => ?_⟩
  obtain ⟨a, ha, hab⟩ := right b hb
  exact ⟨a, ha, hab.symm fun _ _ => coincideAt_symm n⟩

/-- Types that are no unions coincide if they match, and only then unless they are types of
anything. -/
theorem coincideAt_of_matches (ht : t.alternatives = [t]) (hu : u.alternatives = [u])
    (h : t.Matches told (coincideAt told n) u) : coincideAt told (n + 1) t u := by
  unfold coincideAt
  rw [ht, hu]
  refine equatedAt_of_matches ?_ ?_
  · exact List.forall_mem_singleton.2 ⟨u, List.mem_singleton_self u, h⟩
  · exact List.forall_mem_singleton.2 ⟨t, List.mem_singleton_self t, h⟩

theorem coincideAt_of_vague (ht : t.isAnyOrUnknown = true) (hu : u.isAnyOrUnknown = true) :
    coincideAt told n t u := by
  cases n with
  | zero => trivial
  | succ n =>
    unfold coincideAt
    rw [Ty.alternatives_of_vague ht, Ty.alternatives_of_vague hu]
    exact ⟨fun _ _ => .inl ⟨u, List.mem_singleton_self u, hu⟩,
      fun _ _ => .inl ⟨t, List.mem_singleton_self t, ht⟩⟩

private theorem matches_of_coincideAt (ht : t.alternatives = [t]) (hu : u.alternatives = [u])
    (proper : u.isAnyOrUnknown = false) (h : coincideAt told (n + 1) t u) :
    t.Matches told (coincideAt told n) u := by
  unfold coincideAt at h
  rw [ht, hu] at h
  rcases h.1 t (List.mem_singleton_self t) with ⟨b, hb, vague⟩ | ⟨-, b, hb, match_⟩
  · rw [List.mem_singleton.1 hb, proper] at vague
    cases vague
  · rwa [List.mem_singleton.1 hb] at match_

private theorem isAnyOrUnknown_of_coincideAt (ht : t.isAnyOrUnknown = true) (hu : u.Over V)
    (h : coincideAt told (n + 1) t u) : u.isAnyOrUnknown = true := by
  have found : ∃ b ∈ u.alternatives, b.isAnyOrUnknown = true := by
    unfold coincideAt at h
    rw [Ty.alternatives_of_vague ht] at h
    rcases h.1 t (List.mem_singleton_self t) with found | ⟨proper, -⟩
    · exact found
    · rw [ht] at proper
      cases proper
  obtain ⟨b, hb, vague⟩ := found
  rw [← Bool.not_eq_false]
  intro proper
  rw [(hu.alternative hb).2.2 proper] at vague
  cases vague

end

/-! ## Settled types coincide with themselves -/

section

variable {told : ClassId → Prop} {R : Ty → Ty → Prop} {V : Vocabulary} {n : Nat} {t u : Ty}

theorem Ty.Over.argAt {c : ClassTy} (h : (Ty.cls c).Over V) (unknown : V.vague .unknown) {i : Nat}
    (ht : c.argAt i = some t) : t.Over V := by
  unfold ClassTy.argAt at ht
  cases hi : c.argList[i]? with
  | none =>
    rw [hi] at ht
    cases ht
    exact .unknown unknown
  | some o =>
    rw [hi] at ht
    exact h.argument o (List.mem_of_getElem? hi) t ht

theorem coincideAt_self (n : Nat) (h : t.Over .all) : coincideAt told n t t := by
  induction n generalizing t with
  | zero => trivial
  | succ n ih =>
    have alternative : ∀ a ∈ t.alternatives, a.Matches told (coincideAt told n) a := by
      intro a ha
      obtain ⟨made, alone, -⟩ := h.alternative ha
      cases made with
      | unknown => exact .unknown
      | any => exact .any
      | noneObject => exact .noneObject
      | module name table => exact .module name name table
      | @cls c here args =>
        refine .cls ⟨rfl, rfl, rfl, fun _ => rfl, fun i => rel_option_self fun t ht => ih ?_⟩
        exact Ty.Over.argAt (.cls here args) trivial ht
      | @function f params ret settled =>
        exact .function ⟨rfl, List.forall₂_same.2 fun p hp => ⟨rfl, rfl, ih (params p hp)⟩, ih ret⟩
      | @overloaded fs each => exact .overloaded (List.forall₂_same.2 fun f hf => ih (each f hf))
      | var => exact .var rfl rfl rfl
      | @union us each built =>
        exact absurd (congrArg List.length alone) (Nat.ne_of_gt built.several)
    exact equatedAt_of_matches (fun a ha => ⟨a, ha, alternative a ha⟩)
      fun a ha => ⟨a, ha, alternative a ha⟩

end

/-! ## Joins -/

section

variable {told : ClassId → Prop} {R : Ty → Ty → Prop} {as bs cs : List Ty} {b : Ty}

theorem Covered.mono (h : Covered told R as bs) (more : bs ⊆ cs) : Covered told R as cs := by
  intro a ha
  rcases h a ha with ⟨b, hb, vague⟩ | ⟨proper, b, hb, match_⟩
  · exact .inl ⟨b, more hb, vague⟩
  · exact .inr ⟨proper, b, more hb, match_⟩

/-- The alternatives of several types are covered type by type. -/
theorem covered_choices (h : ∀ a ∈ as, Covered told R a.alternatives bs) :
    Covered told R (Ty.choices as) bs := by
  intro x hx
  obtain ⟨a, ha, hxa⟩ := Ty.mem_choices.1 hx
  exact h a ha x hxa

/-- A type of anything covers everything. -/
theorem covered_of_vague (hb : b ∈ bs) (vague : b.isAnyOrUnknown = true) :
    Covered told R as (Ty.choices bs) := by
  refine fun _ _ => .inl ⟨b, Ty.subset_choices hb ?_, vague⟩
  rw [Ty.alternatives_of_vague vague]
  exact List.mem_singleton_self b

end

section

variable {told : ClassId → Prop} {V : Vocabulary} {n : Nat} {ts : List Ty}

/-- What is joined can be chosen from as before. -/
theorem equatedAt_join (h : ∀ t ∈ ts, t.Over V) (given : ts ≠ [])
    (same : ∀ t ∈ Ty.choices ts, ∀ u ∈ Ty.choices ts, t.same .start u = true →
      coincideAt told (n + 1) t u) :
    EquatedAt told n (Ty.join ts).alternatives (Ty.choices ts) := by
  rcases Ty.join_cases h given with ⟨here, vague⟩ | ⟨proper, left, -⟩
  · rw [Ty.alternatives_of_vague vague]
    exact ⟨covered_of_vague here vague, fun _ _ => .inl ⟨_, List.mem_singleton_self _, vague⟩⟩
  · have alone : ∀ a ∈ Ty.choices ts, a.alternatives = [a] := by
      intro a ha
      obtain ⟨t, ht, hat⟩ := Ty.mem_choices.1 ha
      exact ((h t ht).alternative hat).2.1
    have match_ : ∀ a ∈ Ty.choices ts, ∀ b ∈ Ty.choices ts, a.same .start b = true →
        a.Matches told (coincideAt told n) b := fun a ha b hb hab =>
      matches_of_coincideAt (alone a ha) (alone b hb) (proper b hb) (same a ha b hb hab)
    rw [left]
    refine equatedAt_of_matches (fun a ha => ?_) fun b hb => ?_
    · have ha := Fragment.mem_of_mem_distinct ha
      exact ⟨a, ha, match_ a ha a ha (sameAt_self .start _ a)⟩
    · obtain ⟨a, ha, hab⟩ := exists_same_distinct .start hb
      exact ⟨a, ha, match_ a (Fragment.mem_of_mem_distinct ha) b hb hab⟩

end

/-! ## Sameness and coincidence -/

/-- Of the classes that are told of, a view without arguments is the same as no view with arguments:
where there are both, some argument is no unknown type. -/
def Vocabulary.Tells (V : Vocabulary) (told : ClassId → Prop) : Prop :=
  ∀ c d, V.classes c → V.classes d → told c.id → c.id = d.id → c.args = none →
    d.args.isSome = true → ∃ o ∈ d.argList, o ≠ some .unknown

section

variable {told : ClassId → Prop} {V : Vocabulary} {k : Nat} {t u : Ty} {c d : ClassTy}

private theorem eq_unknown_of_sameAt (h : sameAt .start k t .unknown = true) : t = .unknown := by
  cases k <;> cases t <;> first | rfl | cases h

private theorem eq_unknown_of_sameAt_unknown (h : sameAt .start k .unknown t = true) :
    t = .unknown := by
  cases k <;> cases t <;> first | rfl | cases h

theorem ClassTy.argAt_of_bare (h : c.args = none) (i : Nat) : c.argAt i = some .unknown := by
  rw [argAt, argList, h]
  rfl

theorem sameClassTy_iff {same : Ty → Ty → Bool} (unknown : same .unknown .unknown = true) :
    sameClassTy same c d = true ↔ c.id = d.id ∧ c.isInstance = d.isInstance ∧
      c.literal = d.literal ∧ ∀ i, sameOption same (c.argAt i) (d.argAt i) = true := by
  have args := forall_padPairs_iff (R := fun a b => sameOption same a b = true) unknown
    c.argList d.argList
  simp only [sameClassTy, ClassTy.sameClass, Bool.and_eq_true, beq_iff_eq, List.all_eq_true, args,
    ClassTy.argAt, and_assoc]

private theorem Vocabulary.Tells.isSome_eq (tells : V.Tells told) (hc : V.classes c)
    (hd : V.classes d)
    (here : told c.id) (id : c.id = d.id)
    (args : ∀ i, sameOption (sameAt .start k) (c.argAt i) (d.argAt i) = true) :
    c.args.isSome = d.args.isSome := by
  cases hca : c.args with
  | none =>
    cases hda : d.args with
    | none => rfl
    | some given =>
      obtain ⟨o, ho, other⟩ := tells c d hc hd here id hca (by rw [hda]; rfl)
      obtain ⟨i, hi⟩ := List.getElem?_of_mem ho
      have same := args i
      rw [ClassTy.argAt_of_bare hca, ClassTy.argAt, hi] at same
      cases o with
      | none => cases same
      | some t => exact absurd (congrArg some (eq_unknown_of_sameAt_unknown same)) other
  | some given =>
    cases hda : d.args with
    | some _ => rfl
    | none =>
      obtain ⟨o, ho, other⟩ := tells d c hd hc (id ▸ here) id.symm hda (by rw [hca]; rfl)
      obtain ⟨i, hi⟩ := List.getElem?_of_mem ho
      have same := args i
      rw [ClassTy.argAt_of_bare hda, ClassTy.argAt, hi] at same
      cases o with
      | none => cases same
      | some t => exact absurd (congrArg some (eq_unknown_of_sameAt same)) other

private theorem sameOption_rel {same : Ty → Ty → Bool} {R : Ty → Ty → Prop} {o o' : Option Ty}
    (h : sameOption same o o' = true)
    (hR : ∀ t, o = some t → ∀ u, o' = some u → same t u = true → R t u) : Option.Rel R o o' := by
  cases o with
  | none =>
    cases o' with
    | none => exact .none
    | some u => cases h
  | some t =>
    cases o' with
    | none => cases h
    | some u => exact .some (hR t rfl u rfl h)

private theorem forall₂_of_allPairs {α : Type} {same : α → α → Bool} {R : α → α → Prop}
    {as bs : List α}
    (h : allPairs same as bs = true) (hR : ∀ a ∈ as, ∀ b ∈ bs, same a b = true → R a b) :
    List.Forall₂ R as bs := by
  induction as generalizing bs with
  | nil =>
    cases bs with
    | nil => exact .nil
    | cons b bs => cases h
  | cons a as ih =>
    cases bs with
    | nil => cases h
    | cons b bs =>
      rw [allPairs, Bool.and_eq_true] at h
      simp only [List.forall_mem_cons] at hR
      exact .cons (hR.1.1 h.1) (ih h.2 fun a ha b hb => (hR.2 a ha).2 b hb)

theorem sameParam_iff {same : Ty → Ty → Bool} {p q : Param} :
    sameParam same p q = true ↔
      p.kind = q.kind ∧ p.name = q.name ∧ same p.typeOrUnknown q.typeOrUnknown = true := by
  simp only [sameParam, Bool.and_eq_true, beq_iff_eq, and_assoc]

/-- At a number of levels, settled types that are the same coincide. -/
def SameCoincide (V : Vocabulary) (told : ClassId → Prop) (k : Nat) : Prop :=
  ∀ t u : Ty, t.Over V → u.Over V → t.Within .start k → u.Within .start k →
    sameAt .start k t u = true → ∀ n, coincideAt told n t u

private theorem matches_of_sameAt (unknown : V.vague .unknown) (tells : V.Tells told)
    (ih : SameCoincide V told k) (ht : t.Over V) (hu : u.Over V)
    (htw : t.Within .start (k + 1)) (huw : u.Within .start (k + 1)) (alone : t.alternatives = [t])
    (same : sameAt .start (k + 1) t u = true) (n : Nat) :
    t.Matches told (coincideAt told n) u := by
  cases ht with
  | unknown | any | noneObject =>
    cases u with
    | unknown => first | exact .unknown | cases same
    | any => first | exact .any | cases same
    | noneObject => first | exact .noneObject | cases same
    | _ => cases same
  | module name table =>
    cases u with
    | module name' table' =>
      obtain rfl : table = table' := by simpa [sameAt] using same
      exact .module name name' table
    | _ => cases same
  | var =>
    cases u with
    | var =>
      simp only [sameAt, Bool.and_eq_true, beq_iff_eq] at same
      exact .var same.1.1 same.1.2 same.2
    | _ => cases same
  | @cls c here args =>
    cases hu with
    | @cls d here' args' =>
      cases htw with
      | cls within =>
        cases huw with
        | cls within' =>
          obtain ⟨id, isInstance, literal, each⟩ :=
            (sameClassTy_iff (sameAt_self .start k .unknown)).1 same
          refine .cls ⟨id, isInstance, literal,
            fun hid => tells.isSome_eq here here' hid id each, fun i => ?_⟩
          refine sameOption_rel (each i) fun t ht u hu h => ?_
          exact ih t u (Ty.Over.argAt (.cls here args) unknown ht)
            (Ty.Over.argAt (.cls here' args') unknown hu) (withinOption_getD within i t ht)
            (withinOption_getD within' i u hu) h n
    | _ => cases same
  | @function f params ret settled =>
    cases hu with
    | @function g params' ret' settled' =>
      cases htw with
      | function within returned =>
        cases huw with
        | function within' returned' =>
          simp only [sameAt, sameFunction, Bool.and_eq_true, beq_iff_eq] at same
          rw [FunctionTy.returnType_eq settled] at same returned
          rw [FunctionTy.returnType_eq settled'] at same returned'
          refine .function ⟨same.1.1, forall₂_of_allPairs same.1.2 fun p hp q hq h => ?_,
            ih _ _ ret ret' returned returned' same.2 n⟩
          obtain ⟨kind, name, type⟩ := sameParam_iff.1 h
          exact ⟨kind, name, ih _ _ (params p hp) (params' q hq)
            (Ty.Within.typeOrUnknown (within p hp)) (Ty.Within.typeOrUnknown (within' q hq)) type n⟩
    | _ => cases same
  | @overloaded fs each =>
    cases hu with
    | @overloaded gs each' =>
      cases htw with
      | overloaded within =>
        cases huw with
        | overloaded within' =>
          exact .overloaded (forall₂_of_allPairs same fun f hf g hg h =>
            ih _ _ (each f hf) (each' g hg) (within f hf) (within' g hg) h n)
    | _ => cases same
  | @union ts each built => exact absurd (congrArg List.length alone) (Nat.ne_of_gt built.several)

theorem SameCoincide.choice (h : SameCoincide V told k) {ts us : List Ty}
    (ht : (Ty.union ts).Over V) (hu : (Ty.union us).Over V)
    (htw : (Ty.union ts).Within .start (k + 1)) (huw : (Ty.union us).Within .start (k + 1))
    (same : sameAt .start (k + 1) (.union ts) (.union us) = true) (n : Nat) :
    ∀ t ∈ ts, ∃ u ∈ us, t.Matches told (coincideAt told n) u := by
  intro t htm
  simp only [sameAt, Bool.and_eq_true, List.all_eq_true, List.any_eq_true] at same
  obtain ⟨u, hum, here⟩ := same.2 t htm
  cases htw with
  | union within =>
    cases huw with
    | union within' =>
      have coincide := h t u (ht.member t htm) (hu.member u hum) (within t htm) (within' u hum) here
      refine ⟨u, hum, matches_of_coincideAt (ht.built.single t htm).1 (hu.built.single u hum).1
        (hu.built.single u hum).2 (coincide (n + 1))⟩

/-- Settled types that are the same coincide. -/
theorem sameCoincide (unknown : V.vague .unknown) (tells : V.Tells told) (hk : k ≤ Ty.levels) :
    SameCoincide V told k := by
  induction k with
  | zero =>
    intro t u ht hu htw huw same n
    cases htw <;> cases huw <;> first | exact coincideAt_self n ht.all | cases same
  | succ k ih =>
    have ih := ih (Nat.le_of_succ_le hk)
    intro t u ht hu htw huw same n
    cases n with
    | zero => trivial
    | succ n =>
    by_cases union : ∃ ts, t = .union ts
    · obtain ⟨ts, rfl⟩ := union
      cases hu with
      | @union us each' built' =>
        have back := (alternates .start hk).symm htw huw same
        refine equatedAt_of_matches (ih.choice ht (.union each' built') htw huw same n) fun u hum => ?_
        obtain ⟨t, htm, match_⟩ := ih.choice (.union each' built') ht huw htw back n u hum
        exact ⟨t, htm, match_.symm fun _ _ => coincideAt_symm n⟩
      | _ => cases same
    · have alone := Fragment.alternatives_eq_self fun ts h => union ⟨ts, h⟩
      have same_kind : u.alternatives = [u] := by
        refine Fragment.alternatives_eq_self fun us => ?_
        rintro rfl
        cases t with
        | union ts => exact union ⟨ts, rfl⟩
        | _ => cases same
      exact coincideAt_of_matches alone same_kind
        (matches_of_sameAt unknown tells ih ht hu htw huw alone same n)

end

/-- If each of several things is related to one of others, and no two to the same one, there are at
least as many others. -/
theorem length_le_of_apart {α β : Type} {R : α → β → Prop} {as : List α} {bs : List β}
    (h : ∀ a ∈ as, ∃ b ∈ bs, R a b)
    (apart : as.Pairwise fun a a' => ∀ b ∈ bs, R a b → ¬ R a' b) : as.length ≤ bs.length := by
  induction as generalizing bs with
  | nil => exact Nat.zero_le _
  | cons a as ih =>
    rw [List.forall_mem_cons] at h
    rw [List.pairwise_cons] at apart
    obtain ⟨⟨b, hb, hab⟩, others⟩ := h
    obtain ⟨before, after, rfl⟩ := List.append_of_mem hb
    have split : ∀ c, c ∈ before ++ b :: after ↔ c = b ∨ c ∈ before ++ after := by
      intro c
      simp only [List.mem_append, List.mem_cons, or_left_comm]
    have fewer : as.length ≤ (before ++ after).length := by
      refine ih (fun a' ha' => ?_) (apart.2.imp fun h c hc => h c ((split c).2 (.inr hc)))
      obtain ⟨c, hc, hac⟩ := others a' ha'
      refine ⟨c, ((split c).1 hc).resolve_left ?_, hac⟩
      rintro rfl
      exact apart.1 a' ha' c hb hab hac
    simp only [List.length_append, List.length_cons] at fewer ⊢
    omega

/-- Only one type of anything is mentioned; unless it is the unknown type, each class has as many
arguments as are asked for. -/
def Vocabulary.single (arity : ClassId → Nat) (only : Ty) : Vocabulary :=
  ⟨fun c => only = .unknown ∨ c.argList.length = arity c.id, fun _ => True, fun t => t = only⟩

section

variable {told : ClassId → Prop} {arity : ClassId → Nat} {only : Ty} {k m : Nat} {t u : Ty}
  {c d : ClassTy}

/-- At a number of levels, settled types that mention one type of anything are the same if they
coincide. -/
def CoincideSame (told : ClassId → Prop) (arity : ClassId → Nat) (only : Ty) (k : Nat) : Prop :=
  ∀ t u : Ty, t.Over (.single arity only) → u.Over (.single arity only) → t.Within .start k →
    u.Within .start k → ∀ m, k < m → coincideAt told m t u → sameAt .start k t u = true

private theorem vague_eq (h : t.Over (.single arity only)) (vague : t.isAnyOrUnknown = true) :
    t = only := by
  cases h with
  | unknown here | any here => exact here
  | _ => cases vague

private theorem argAt_cases (hc : (Ty.cls c).Over (.single arity only))
    (hd : (Ty.cls d).Over (.single arity only)) (id : c.id = d.id) (i : Nat) :
    (∀ t, c.argAt i = some t → t.Over (.single arity only)) ∧
        (∀ t, d.argAt i = some t → t.Over (.single arity only)) ∨
      c.argAt i = some .unknown ∧ d.argAt i = some .unknown := by
  by_cases unknown : only = .unknown
  · exact .inl ⟨fun t => hc.argAt unknown.symm, fun t => hd.argAt unknown.symm⟩
  · have length : c.argList.length = d.argList.length := by
      cases hc with
      | cls here _ =>
        cases hd with
        | cls here' _ => rw [here.resolve_left unknown, here'.resolve_left unknown, id]
    unfold ClassTy.argAt
    by_cases hi : i < c.argList.length
    · rw [List.getElem?_eq_getElem hi, List.getElem?_eq_getElem (length ▸ hi)]
      exact .inl ⟨fun t ht => hc.argument _ (List.getElem_mem hi) t ht,
        fun t ht => hd.argument _ (List.getElem_mem (length ▸ hi)) t ht⟩
    · rw [List.getElem?_eq_none (Nat.le_of_not_lt hi),
        List.getElem?_eq_none (length ▸ Nat.le_of_not_lt hi)]
      exact .inr ⟨rfl, rfl⟩

private theorem sameOption_of_rel {same : Ty → Ty → Bool} {R : Ty → Ty → Prop} {o o' : Option Ty}
    (h : Option.Rel R o o') (hR : ∀ t, o = some t → ∀ u, o' = some u → R t u → same t u = true) :
    sameOption same o o' = true := by
  cases h with
  | none => rfl
  | some h => exact hR _ rfl _ rfl h

private theorem allPairs_of_forall₂ {α : Type} {same : α → α → Bool} {R : α → α → Prop}
    {as bs : List α}
    (h : List.Forall₂ R as bs) (hR : ∀ a ∈ as, ∀ b ∈ bs, R a b → same a b = true) :
    allPairs same as bs = true := by
  induction h with
  | nil => rfl
  | cons first _ ih =>
    simp only [List.forall_mem_cons] at hR
    rw [allPairs, Bool.and_eq_true]
    exact ⟨hR.1.1 first, ih fun a ha b hb => (hR.2 a ha).2 b hb⟩

private theorem sameAt_of_matches (ih : CoincideSame told arity only k)
    (ht : t.Over (.single arity only))
    (hu : u.Over (.single arity only)) (htw : t.Within .start (k + 1))
    (huw : u.Within .start (k + 1)) (hm : k < m) (h : t.Matches told (coincideAt told m) u) :
    sameAt .start (k + 1) t u = true := by
  cases h with
  | unknown | any | noneObject => rfl
  | module => exact beq_self_eq_true _
  | var name scope access => simp [sameAt, name, scope, access]
  | @cls c d h =>
    cases htw with
    | cls within =>
      cases huw with
      | cls within' =>
        refine (sameClassTy_iff (sameAt_self .start k .unknown)).2
          ⟨h.id, h.isInstance, h.literal, fun i => ?_⟩
        rcases argAt_cases ht hu h.id i with ⟨left, right⟩ | ⟨left, right⟩
        · exact sameOption_of_rel (h.args i) fun t ht u hu => ih t u (left t ht) (right u hu)
            (withinOption_getD within i t ht) (withinOption_getD within' i u hu) m hm
        · rw [left, right]
          exact sameAt_self .start k .unknown
  | @function f g h =>
    cases htw with
    | function within returned =>
      cases huw with
      | function within' returned' =>
        rw [FunctionTy.returnType_eq ht.settled] at returned
        rw [FunctionTy.returnType_eq hu.settled] at returned'
        simp only [sameAt, sameFunction, Bool.and_eq_true, beq_iff_eq,
          FunctionTy.returnType_eq ht.settled, FunctionTy.returnType_eq hu.settled]
        refine ⟨⟨h.kind, allPairs_of_forall₂ h.params fun p hp q hq hpq => ?_⟩,
          ih _ _ ht.returned hu.returned returned returned' m hm h.ret⟩
        exact sameParam_iff.2 ⟨hpq.kind, hpq.name, ih _ _ (ht.param p hp) (hu.param q hq)
          (Ty.Within.typeOrUnknown (within p hp)) (Ty.Within.typeOrUnknown (within' q hq)) m hm
          hpq.type⟩
  | overloaded h =>
    cases htw with
    | overloaded within =>
      cases huw with
      | overloaded within' =>
        exact allPairs_of_forall₂ h fun f hf g hg =>
          ih _ _ (ht.overload f hf) (hu.overload g hg) (within f hf) (within' g hg) m hm

private theorem choice_of_coincideAt (hu : u.Over (.single arity only))
    (proper : u.isAnyOrUnknown = false)
    (h : coincideAt told (m + 1) t u) :
    ∀ a ∈ t.alternatives, ∃ b ∈ u.alternatives, a.Matches told (coincideAt told m) b := by
  intro a ha
  rcases h.1 a ha with ⟨b, hb, vague⟩ | ⟨-, found⟩
  · rw [(hu.alternative hb).2.2 proper] at vague
    cases vague
  · exact found

private theorem length_alternatives_le (hk : k ≤ Ty.levels) (ih : CoincideSame told arity only k)
    (ht : t.Over (.single arity only)) (hu : u.Over (.single arity only))
    (htw : t.Within .start (k + 1)) (proper : u.isAnyOrUnknown = false) (hm : k < m + 1)
    (h : coincideAt told (m + 1) t u) : t.alternatives.length ≤ u.alternatives.length := by
  cases ht with
  | @union ts each built =>
    cases htw with
    | union within distinct =>
      refine length_le_of_apart (choice_of_coincideAt hu proper h) ?_
      refine (Ty.Within.apart within distinct hk).imp_of_mem fun {a a'} ha ha' different b _ hab hab' => ?_
      have both : a.Matches told (coincideAt told m) a' :=
        hab.trans (hab'.symm fun _ _ => coincideAt_symm m) fun _ _ _ => coincideAt_trans m
      have same := ih a a' (each a ha) (each a' ha') (within a ha) (within a' ha') (m + 1) hm
        (coincideAt_of_matches (built.single a ha).1 (built.single a' ha').1 both)
      rw [different] at same
      cases same
  | _ => exact List.length_pos_of_ne_nil hu.alternatives_ne_nil

private theorem sameAt_of_vague (ht : t.Over (.single arity only))
    (hu : u.Over (.single arity only))
    (vague : t.isAnyOrUnknown = true ∨ u.isAnyOrUnknown = true)
    (h : coincideAt told (m + 1) t u) : sameAt .start k t u = true := by
  have both : t.isAnyOrUnknown = true ∧ u.isAnyOrUnknown = true := by
    rcases vague with vague | vague
    · exact ⟨vague, isAnyOrUnknown_of_coincideAt vague hu h⟩
    · exact ⟨isAnyOrUnknown_of_coincideAt vague ht (coincideAt_symm _ h), vague⟩
  rw [vague_eq ht both.1, vague_eq hu both.2]
  exact sameAt_self .start k only

/-- Settled types that mention one type of anything are the same if they coincide. -/
theorem coincideSame (hk : k ≤ Ty.levels) : CoincideSame told arity only k := by
  induction k with
  | zero =>
    intro t u ht hu htw huw m hm h
    obtain ⟨m, rfl⟩ : ∃ m', m = m' + 1 := ⟨m - 1, by omega⟩
    by_cases vague : t.isAnyOrUnknown = true ∨ u.isAnyOrUnknown = true
    · exact sameAt_of_vague ht hu vague h
    · cases htw with
      | noneObject =>
        cases huw with
        | noneObject => rfl
        | _ => exact absurd (.inr rfl) vague
      | _ => exact absurd (.inl rfl) vague
  | succ k ih =>
    have hk' := Nat.le_of_succ_le hk
    have ih := ih hk'
    intro t u ht hu htw huw m hm h
    obtain ⟨m, rfl⟩ : ∃ m', m = m' + 1 := ⟨m - 1, by omega⟩
    by_cases vague : t.isAnyOrUnknown = true ∨ u.isAnyOrUnknown = true
    · exact sameAt_of_vague ht hu vague h
    rw [not_or, Bool.not_eq_true, Bool.not_eq_true] at vague
    have length := Nat.le_antisymm
      (length_alternatives_le hk' ih ht hu htw vague.2 (by omega) h)
      (length_alternatives_le hk' ih hu ht huw vague.1 (by omega) (coincideAt_symm _ h))
    by_cases union : ∃ us, u = .union us
    · obtain ⟨us, rfl⟩ := union
      cases ht with
      | @union ts each built =>
        cases htw with
        | union within =>
          cases huw with
          | union within' =>
            simp only [sameAt, Bool.and_eq_true, beq_iff_eq, List.all_eq_true, List.any_eq_true]
            refine ⟨length, fun a ha => ?_⟩
            obtain ⟨b, hb, hab⟩ := choice_of_coincideAt hu vague.2 h a ha
            refine ⟨b, hb, ih a b (each a ha) (hu.member b hb) (within a ha) (within' b hb) (m + 1)
              (by omega) ?_⟩
            exact coincideAt_of_matches (built.single a ha).1 (hu.built.single b hb).1 hab
      | _ => exact absurd length.symm (Nat.ne_of_gt hu.built.several)
    · have alone' := Fragment.alternatives_eq_self fun us h => union ⟨us, h⟩
      have alone : t.alternatives = [t] := by
        refine Fragment.alternatives_eq_self fun ts => ?_
        rintro rfl
        rw [alone'] at length
        exact absurd length (Nat.ne_of_gt ht.built.several)
      exact sameAt_of_matches ih ht hu htw huw (by omega)
        (matches_of_coincideAt alone alone' vague.2 h)

end

end Conformance
