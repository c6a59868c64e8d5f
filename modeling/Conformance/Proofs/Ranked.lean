import Conformance.Proofs.Decided
import Conformance.Proofs.Linear
import Conformance.Proofs.Receptive

/-!
# Ranked types

Instances of classes that are no protocols and have no type arguments, and unions of these, are
compared in one way wherever they meet. What accepts a type accepts everything that the type accepts,
provided this is so of the classes, and a union accepts what it was built of.
-/

namespace Conformance

open Check

/-- Each alternative of the source is an instance of a class that one of the destination takes. -/
def World.Above (w : World) (dest source : Ty) : Prop :=
  ∀ u ∈ source.alternatives, ∃ t ∈ dest.alternatives, ∃ a b,
    t = .cls a ∧ u = .cls b ∧ w.takes a b = true

namespace Fragment

/-- Classes that are compared by name, of which one takes what is taken by one that it takes. -/
structure Ranks (F : Fragment) (w : World) (C : ClassTy → Prop) : Prop where
  nominal {c : ClassTy} (h : C c) : w.classes.Nominal c
  has {c : ClassTy} (h : C c) : F.HasClass c
  closed {c : ClassTy} (h : C c) : (Ty.cls c).Closed w.classes
  trans {a b c : ClassTy} (ha : C a) (hb : C b) (hc : C c) (upper : w.takes a b = true)
    (lower : w.takes b c = true) : w.takes a c = true

/-- An instance of one of the classes, or a union of such. -/
structure Ranked (F : Fragment) (C : ClassTy → Prop) (t : Ty) : Prop where
  has : F.Has t
  each : ∀ u ∈ t.alternatives, ∃ c, C c ∧ u = .cls c

variable {F : Fragment} {w : World} {C : ClassTy → Prop} {m n : Nat} {mode : Mode} {a b c s t : Ty}

namespace Ranked

theorem ofClass {c : ClassTy} (hR : F.Ranks w C) (h : C c) : F.Ranked C (.cls c) :=
  ⟨hR.has h, fun _ hu => ⟨c, h, List.mem_singleton.1 hu⟩⟩

theorem listed (h : F.Ranked C t) {c : ClassTy} (hc : .cls c ∈ t.alternatives) : C c := by
  obtain ⟨d, hd, same⟩ := h.each _ hc
  cases same
  exact hd

/-- A ranked type is an instance or a union of instances. -/
theorem cases (h : F.Ranked C t) :
    (∃ c, C c ∧ t = .cls c) ∨ ∃ ts, t = .union ts ∧ ∀ u ∈ ts, ∃ c, C c ∧ u = .cls c := by
  by_cases union : ∃ ts, t = .union ts
  · obtain ⟨ts, rfl⟩ := union
    exact .inr ⟨ts, rfl, h.each⟩
  · refine .inl (h.each t ?_)
    rw [alternatives_eq_self fun ts same => union ⟨ts, same⟩]
    exact List.mem_singleton_self t

theorem not_var (h : F.Ranked C t) (v : TypeVar) : t ≠ .var v := by
  rintro rfl
  obtain ⟨c, -, same⟩ := h.each _ (List.mem_singleton_self _)
  cases same

theorem proper (h : F.Ranked C t) : t.isAnyOrUnknown = false := by
  rcases h.cases with ⟨c, -, rfl⟩ | ⟨ts, rfl, -⟩ <;> rfl

theorem closed (hR : F.Ranks w C) (h : F.Ranked C t) : t.Closed w.classes := by
  rcases h.cases with ⟨c, hc, rfl⟩ | ⟨ts, rfl, each⟩
  · exact hR.closed hc
  · refine .union fun u hu => ?_
    obtain ⟨c, hc, rfl⟩ := each u hu
    exact hR.closed hc

/-! ## The order -/

theorem above_self (h : F.Ranked C t) : w.Above t t := by
  intro u hu
  obtain ⟨c, -, rfl⟩ := h.each u hu
  exact ⟨_, hu, c, c, rfl, rfl, World.takes_of_sameView (sameView_self c)⟩

private theorem above_trans (hR : F.Ranks w C) (ha : F.Ranked C a) (hb : F.Ranked C b)
    (hc : F.Ranked C c)
    (upper : w.Above a b) (lower : w.Above b c) : w.Above a c := by
  intro u hu
  obtain ⟨t, ht, x, y, rfl, rfl, low⟩ := lower u hu
  obtain ⟨s, hs, z, x', rfl, same, high⟩ := upper _ ht
  cases same
  exact ⟨_, hs, z, y, rfl, rfl, hR.trans (ha.listed hs) (hb.listed ht) (hc.listed hu) high low⟩

theorem within (hR : F.Ranks w C) (h : F.Ranked C t) : t.Within F.inf Ty.levels := by
  have instances {c : ClassTy} (hc : C c) (n : Nat) : (Ty.cls c).Within F.inf (n + 1) :=
    .cls fun o ho => by
      rw [ClassTy.argList, (hR.nominal hc).bare] at ho
      cases ho
  rcases h.cases with ⟨c, hc, rfl⟩ | ⟨ts, rfl, each⟩
  · exact instances hc _
  · have built : Built F.inf ts := by
      cases h.has
      assumption
    refine .union (fun u hu => ?_) (built.distinct ▸ pairwise_distinct ts)
    obtain ⟨c, hc, rfl⟩ := each u hu
    exact instances hc _

theorem same_trans (hR : F.Ranks w C) (ha : F.Ranked C a) (hb : F.Ranked C b) (hc : F.Ranked C c)
    (h : a.same F.inf b = true) (h' : b.same F.inf c = true) : a.same F.inf c = true :=
  (ha.within hR).same_trans (Nat.le_refl _) (hb.within hR) (hc.within hR) h h'

/-! ## Unions -/

theorem alternatives_ne_nil (h : F.Ranked C t) : t.alternatives ≠ [] := by
  rcases h.cases with ⟨c, -, rfl⟩ | ⟨ts, rfl, -⟩
  · exact List.cons_ne_nil _ _
  · have several : 1 < ts.length := by
      cases h.has with
      | union _ built => exact built.several
    exact List.ne_nil_of_length_pos (Nat.zero_lt_of_lt several)

private theorem alternatives_combine (ha : F.Ranked C a) (hb : F.Ranked C b) :
    (Ty.combine F.inf [some a, some b]).alternatives =
      Ty.distinct F.inf (a.alternatives ++ b.alternatives) := by
  have given : [some a, some b].filterMap id = [a, b] := rfl
  have proper : [a, b].find? Ty.isAnyOrUnknown = none := by
    simp [ha.proper, hb.proper]
  have flat : [a, b].flatMap Ty.alternatives = a.alternatives ++ b.alternatives := by simp
  unfold Ty.combine
  dsimp only
  rw [given, proper, flat]
  rcases hd : Ty.distinct F.inf (a.alternatives ++ b.alternatives) with _ | ⟨u, _ | ⟨v, vs⟩⟩
  · obtain ⟨u, hu⟩ := List.exists_mem_of_ne_nil _ ha.alternatives_ne_nil
    obtain ⟨x, hx, -⟩ := exists_same_distinct F.inf (List.mem_append_left b.alternatives hu)
    rw [hd] at hx
    cases hx
  · have first : u ∈ Ty.distinct F.inf (a.alternatives ++ b.alternatives) :=
      hd ▸ List.mem_cons_self
    have mem := mem_of_mem_distinct first
    have single : ∃ c, C c ∧ u = .cls c := (List.mem_append.1 mem).elim (ha.each u) (hb.each u)
    obtain ⟨c, -, rfl⟩ := single
    rfl
  · rfl

/-- Two ranked types have a union that accepts both. -/
theorem combine (hR : F.Ranks w C) (ha : F.Ranked C a) (hb : F.Ranked C b) :
    F.Ranked C (Ty.combine F.inf [some a, some b]) ∧
      w.Above (Ty.combine F.inf [some a, some b]) a ∧
        w.Above (Ty.combine F.inf [some a, some b]) b := by
  have made := ha.alternatives_combine hb
  have among {u : Ty} (hu : u ∈ a.alternatives ++ b.alternatives) : ∃ c, C c ∧ u = .cls c :=
    (List.mem_append.1 hu).elim (ha.each u) (hb.each u)
  have above {t : Ty} (h : t.alternatives ⊆ a.alternatives ++ b.alternatives) :
      w.Above (Ty.combine F.inf [some a, some b]) t := by
    intro u hu
    obtain ⟨v, hv, same⟩ := exists_same_distinct F.inf (h hu)
    obtain ⟨y, hy, rfl⟩ := among (h hu)
    obtain ⟨x, hx, rfl⟩ := among (mem_of_mem_distinct hv)
    have view := (same_bare (hR.nominal hx).bare (hR.nominal hy).bare 14).1 same
    exact ⟨_, made ▸ hv, x, y, rfl, rfl, World.takes_of_sameView view⟩
  refine ⟨⟨has_combine fun o ho => ?_, fun u hu => ?_⟩, above (List.subset_append_left _ _),
    above (List.subset_append_right _ _)⟩
  · rcases List.mem_cons.1 ho with rfl | ho
    · exact hasOption_some ha.has
    · rw [List.mem_singleton.1 ho]
      exact hasOption_some hb.has
  · rw [made] at hu
    exact among (mem_of_mem_distinct hu)

/-! ## Comparisons -/

section

variable (loose : mode.invariant = false)
include loose

private theorem decides_instance (hR : F.Ranks w C) (ha : F.Ranked C a) {y : ClassTy} (hy : C y)
    (hn : 2 ≤ n) :
    Decides F.inf (∃ t ∈ a.alternatives, ∃ x, t = .cls x ∧ w.takes x y = true)
      ((judge w n).assign mode (some a) (some (.cls y))) := by
  have one {x : ClassTy} (hx : C x) {k : Nat} (hk : 1 ≤ k) :
      Decides F.inf (∃ z, Ty.cls x = .cls z ∧ w.takes z y = true)
        ((judge w k).assign mode (some (.cls x)) (some (.cls y))) :=
    ((meets_nominal (hR.nominal hx) (hR.nominal hy)).loose hk loose).iff (by simp)
  rcases ha.cases with ⟨x, hx, rfl⟩ | ⟨ts, rfl, each⟩
  · exact (one hx (Nat.le_of_succ_le hn)).iff (by simp [Ty.alternatives])
  · obtain ⟨k, rfl⟩ := Nat.exists_eq_add_of_le' (Nat.le_of_succ_le hn)
    refine decides_assign (fun one => Ty.noConfusion one) ?_
    refine decides_assignTy ha.not_var ha.proper rfl ?_
    unfold assignProper
    rw [if_neg (by simp [loose])]
    refine .orElse (.silently (.anyOf fun t ht => ?_)) fun _ => .mismatch w _ _
    obtain ⟨x, hx, rfl⟩ := each t ht
    exact (one hx (Nat.le_of_succ_le_succ hn)).attempt

/-- A ranked type accepts what is below it. -/
theorem decides (hR : F.Ranks w C) (ha : F.Ranked C a) (hb : F.Ranked C b) (hn : 3 ≤ n) :
    Decides F.inf (w.Above a b) ((judge w n).assign mode (some a) (some b)) := by
  have one {y : ClassTy} (hy : C y) {k : Nat} (hk : 2 ≤ k) :=
    decides_instance loose hR ha hy hk
  rcases hb.cases with ⟨y, hy, rfl⟩ | ⟨us, rfl, each⟩
  · refine (one hy (Nat.le_of_succ_le hn)).iff ?_
    simp [World.Above, Ty.alternatives]
  · obtain ⟨k, rfl⟩ := Nat.exists_eq_add_of_le' (Nat.le_trans (by decide : 1 ≤ 3) hn)
    have above : w.Above a (.union us) ↔ ∀ u ∈ us, ∃ t ∈ a.alternatives, ∃ x y,
        t = .cls x ∧ u = .cls y ∧ w.takes x y = true := Iff.rfl
    refine decides_assign (fun one => one ▸ ha.above_self) ?_
    refine decides_assignTy ha.not_var ha.proper rfl ?_
    unfold assignProper
    rw [if_neg (by simp [loose])]
    refine .orElse ((Decides.allOf fun u hu => ?_).iff above.symm) fun _ => .mismatch w _ _
    obtain ⟨y, hy, rfl⟩ := each u hu
    exact ((one hy (Nat.le_of_succ_le_succ hn)).iff (by simp)).child

end

private theorem decides_same (hR : F.Ranks w C) (ha : F.Ranked C a) (hb : F.Ranked C b)
    (strict : mode.invariant = true) :
    Decides F.inf (a.same F.inf b = true) ((judge w (n + 1)).assign mode (some a) (some b)) := by
  refine decides_assign (fun one => one ▸ sameAt_self _ _ _) ?_
  refine decides_strict ha.not_var ha.proper hb.proper strict Iff.rfl ?_
  rintro other x y rfl rfl view
  have hx := hR.nominal (ha.listed (List.mem_singleton_self _))
  have hy := hR.nominal (hb.listed (List.mem_singleton_self _))
  exact absurd ((same_bare hx.bare hy.bare 14).2 view) other

end Ranked

/-! ## As a variance demands -/

def OrderedAs (F : Fragment) (w : World) (u : Variance) (dest source : Ty) : Prop :=
  u.choose (w.Above dest source) (w.Above source dest) (dest.same F.inf source = true)

theorem orderedAs_trans (u : Variance) (hR : F.Ranks w C) (ha : F.Ranked C a) (hb : F.Ranked C b)
    (hc : F.Ranked C c) (h : F.OrderedAs w u a b) (h' : F.OrderedAs w u b c) :
    F.OrderedAs w u a c := by
  cases u with
  | covariant => exact ha.above_trans hR hb hc h h'
  | contravariant => exact hc.above_trans hR hb ha h' h
  | invariant => exact ha.same_trans hR hb hc h h'

private theorem accepts_iff_of_decides {L : Link F} {act : Check Bool} {p : Prop}
    (calm : L.Calm (fun _ => True) act) (h : Decides F.inf p act) : F.Accepts [] act ↔ p := by
  constructor
  · intro accepts
    obtain ⟨t, ht, -⟩ := accepts ⟨F.inf, #[], [], [], none, none, []⟩ ⟨rfl, rfl, rfl⟩
    exact h.of_answer ⟨rfl, unsolving_none⟩ ht
  · intro hp s hs
    obtain ⟨b, t, ht, answer, -⟩ := h s ⟨hs.inference, hs.solving ▸ unsolving_none⟩
    rw [answer.2 hp] at ht
    exact ⟨t, ht, hs.of_kept (calm.elim hs.start ht).2⟩

/-- Ranked types fit as a variance demands exactly if they are ordered so. -/
theorem fitsAs_iff_orderedAs (hw : F.Covers w) (hR : F.Ranks w C) (ha : F.Ranked C a)
    (hb : F.Ranked C b) (hn : 3 ≤ n) (u : Variance) :
    F.FitsAs w n u a b ↔ F.OrderedAs w u a b := by
  cases u with
  | covariant =>
    exact accepts_iff_of_decides (calm_assign hw n _ ha.has hb.has) (Ranked.decides rfl hR ha hb hn)
  | contravariant =>
    exact accepts_iff_of_decides (calm_assign hw n _ hb.has ha.has) (Ranked.decides rfl hR hb ha hn)
  | invariant =>
    obtain ⟨k, rfl⟩ := Nat.exists_eq_add_of_le' (Nat.le_trans (by decide : 1 ≤ 3) hn)
    exact accepts_iff_of_decides (calm_assign hw _ _ ha.has hb.has)
      (Ranked.decides_same hR ha hb rfl)

end Fragment

end Conformance
