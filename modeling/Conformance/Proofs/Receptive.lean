import Conformance.Proofs.Affirms
import Conformance.Proofs.Cells
import Conformance.Proofs.Sample

/-!
# Types that accept copies of themselves

A type accepts each type that is the same, and a union accepts each of the types that it is made of,
unless that is a variable: a variable that is not to be solved is put aside for its bound before the
alternatives of the union are tried.
-/

namespace Conformance

open Check

/-- The type is nested no deeper than so many levels, and has each keyword of a function taken by one
parameter. The alternatives of a union are neither unions nor variables, and no two of them are the
same. -/
inductive Ty.Receptive (inf : Inference) : Nat → Ty → Prop
  | unknown (n : Nat) : Ty.Receptive inf n .unknown
  | any (n : Nat) : Ty.Receptive inf n .any
  | noneObject (n : Nat) : Ty.Receptive inf n .noneObject
  | module (n : Nat) (name : String) (table : TableId) :
      Ty.Receptive inf (n + 1) (.module name table)
  | var (n : Nat) (v : TypeVar) : Ty.Receptive inf (n + 1) (.var v)
  | cls {n : Nat} {c : ClassTy} (args : ∀ o ∈ c.argList, ∀ u, o = some u → Ty.Receptive inf n u) :
      Ty.Receptive inf (n + 1) (.cls c)
  | function {n : Nat} {f : FunctionTy}
      (params : ∀ p ∈ f.params, ∀ u, p.type = some u → Ty.Receptive inf n u)
      (ret : Ty.Receptive inf n (inf.returnType f))
      (named : (ParamGroups.ofList f.params).Named) : Ty.Receptive inf (n + 1) (.function f)
  | overloaded {n : Nat} {fs : List FunctionTy}
      (each : ∀ f ∈ fs, Ty.Receptive inf n (.function f)) : Ty.Receptive inf (n + 1) (.overloaded fs)
  | union {n : Nat} {ts : List Ty} (each : ∀ t ∈ ts, Ty.Receptive inf n t)
      (distinct : ts.Pairwise fun t u => t.same inf u = false)
      (flat : ∀ t ∈ ts, ∀ us, t ≠ .union us) (fixed : ∀ t ∈ ts, ∀ v, t ≠ .var v) :
      Ty.Receptive inf (n + 1) (.union ts)

def Ty.Known (inf : Inference) (t : Ty) : Prop :=
  ∀ cell, t.Defers cell → inf.isSettled cell = true

variable {inf inf' : Inference} {w : World} {mode : Mode} {n k : Nat} {t u : Ty}

namespace Ty.Receptive

theorem within (h : t.Receptive inf n) : t.Within inf n := by
  induction h with
  | unknown => exact .unknown _
  | any => exact .any _
  | noneObject => exact .noneObject _
  | module => exact .module _ _ _
  | var => exact .var _ _
  | cls _ args => exact .cls args
  | function _ _ _ params ret => exact .function params ret
  | overloaded _ each => exact .overloaded each
  | union _ distinct _ _ each => exact .union each distinct

end Ty.Receptive

theorem Ty.Known.agreeOn (h : t.Known inf) (later : inf.Later inf') : inf.AgreeOn inf' t := by
  intro cell mentioned
  rw [h cell mentioned, later.settled (h cell mentioned)]

/-- The type accepts copies of itself, and nothing in it is still to be found out. -/
structure Ty.Firm (inf : Inference) (n : Nat) (t : Ty) : Prop where
  receptive : t.Receptive inf n
  known : t.Known inf

namespace Ty.Firm

theorem unknown : Ty.Firm inf n .unknown := ⟨.unknown n, fun _ hc => nomatch hc⟩

theorem argument {c : ClassTy} (h : Ty.Firm inf (n + 1) (.cls c)) {o : Option Ty}
    (ho : o ∈ c.argList) (ht : o = some t) : t.Firm inf n := by
  refine ⟨?_, fun cell hc => h.known cell (.argument (ht ▸ ho) hc)⟩
  cases h.receptive with
  | cls args => exact args o ho t ht

theorem alternative {ts : List Ty} (h : Ty.Firm inf (n + 1) (.union ts)) (ht : t ∈ ts) :
    t.Firm inf n := by
  refine ⟨?_, fun cell hc => h.known cell (.alternative ht hc)⟩
  cases h.receptive with
  | union each => exact each t ht

theorem overload {fs : List FunctionTy} (h : Ty.Firm inf (n + 1) (.overloaded fs))
    {f : FunctionTy} (hf : f ∈ fs) : Ty.Firm inf n (.function f) := by
  refine ⟨?_, fun cell hc => h.known cell (.overload hf hc)⟩
  cases h.receptive with
  | overloaded each => exact each f hf

theorem typeOrUnknown {f : FunctionTy} (h : Ty.Firm inf (n + 1) (.function f)) {p : Param}
    (hp : p ∈ f.params) : p.typeOrUnknown.Firm inf n := by
  cases h.receptive with
  | function params =>
    unfold Param.typeOrUnknown
    cases typed : p.type with
    | none => exact unknown
    | some t => exact ⟨params p hp t typed, fun cell hc => h.known cell (.param hp typed hc)⟩

theorem returned {f : FunctionTy} (h : Ty.Firm inf (n + 1) (.function f)) :
    (inf.returnType f).Firm inf n := by
  refine ⟨?_, fun cell hc => h.known cell hc.of_returnType⟩
  cases h.receptive with
  | function _ ret => exact ret

theorem same_comm (hn : n ≤ Ty.levels) (ht : t.Firm inf n) (hu : u.Firm inf n) :
    t.same inf u = u.same inf t :=
  Bool.eq_iff_iff.2 ⟨ht.receptive.within.same_symm hn hu.receptive.within,
    hu.receptive.within.same_symm hn ht.receptive.within⟩

private theorem same_later (later : inf.Later inf') (ht : t.Firm inf n) (hu : u.Firm inf k) :
    t.same inf' u = t.same inf u :=
  (ht.known.agreeOn later).same_eq (hu.known.agreeOn later)

end Ty.Firm

/-! ## What is the same is accepted -/

private theorem affirms_vague (n : Nat) (mode : Mode) {a : Option Ty}
    (vague : ∀ t, a = some t → t.isAnyOrUnknown = true) (b : Option Ty) :
    Affirms inf ((judge w n).assign mode a b) ∧ Affirms inf ((judge w n).assign mode b a) := by
  cases n with
  | zero => exact ⟨.cutOff, .cutOff⟩
  | succ n =>
    rcases a with _ | t
    · cases b <;> exact ⟨.pure, .pure⟩
    rcases b with _ | u
    · exact ⟨.pure, .pure⟩
    have ht := vague t rfl
    refine ⟨affirms_assign (affirms_assignTy (fun v same => ?_) fun _ proper _ => ?_),
      affirms_assign (.solution ?_)⟩
    · rw [same] at ht
      cases ht
    · rw [ht] at proper
      cases proper
    · rw [Fragment.reverseVar?_none]
      dsimp only
      split
      · refine .inference fun now _ => .solution ?_
        split
        · exact .pure
        · simp only [Option.any_none, Bool.and_false, Bool.false_eq_true, if_false]
          exact .pure
      · rw [ht, Bool.or_true]
        exact .pure

private theorem mem_pairArguments_cases {params : List TypeVar} {dests sources : List (Option Ty)}
    {p : ArgumentPair} (hp : p ∈ pairArguments params dests sources) :
    p.dest = some .unknown ∨ ∃ i : Nat, sources[i]? = some p.source ∧
      (dests[i]? = some p.dest ∨ dests[i]? = none) := by
  obtain ⟨i, hi, rfl⟩ := List.mem_mapIdx.1 hp
  by_cases none_given : dests.isEmpty = true
  · exact .inl (by rw [if_pos none_given])
  · rw [if_neg none_given]
    have length : dests.length ≠ 0 := by simpa using none_given
    refine .inr ⟨i, List.getElem?_eq_getElem hi, ?_⟩
    by_cases given : i < dests.length
    · have place : min i (dests.length - 1) = i := by omega
      exact .inl (by simp [place, List.getElem?_eq_getElem given])
    · exact .inr (List.getElem?_eq_none (Nat.le_of_not_lt given))

section

variable {j : Judge} (learns : Assigns (fun _ act => Learns act) j) (hk : k + 1 ≤ Ty.levels)
  (hj : ∀ {t u : Ty} (mode : Mode), t.Firm inf k → u.Firm inf k → t.same inf u = true →
    Affirms inf (j.assign mode (some t) (some u)))
include learns hk hj

private theorem affirms_sameFunction {f g : FunctionTy} (hf : Ty.Firm inf (k + 1) (.function f))
    (hg : Ty.Firm inf (k + 1) (.function g))
    (same : (Ty.function f).same inf (.function g) = true) :
    Affirms inf (assignFunction w j mode f g) := by
  have inner : k ≤ Ty.levels := Nat.le_of_succ_le hk
  rw [hf.receptive.within.same_eq hk] at same
  simp only [sameAt, sameFunction, Bool.and_eq_true] at same
  have named : (ParamGroups.ofList f.params).Named := by
    cases hf.receptive with
    | function _ _ named => exact named
  have matched := matched_of_same (R := fun p q => p.name = q.name ∧
      p.typeOrUnknown.Firm inf k ∧ q.typeOrUnknown.Firm inf k ∧
        q.typeOrUnknown.same inf p.typeOrUnknown = true) same.1.2 fun p hp q hq name same => by
    have firm := hf.typeOrUnknown hp
    have firm' := hg.typeOrUnknown hq
    rw [← firm.receptive.within.same_eq inner, firm.same_comm inner firm'] at same
    exact ⟨name, firm, firm', same⟩
  refine affirms_assignFunction learns matched (fun p q here => here.1) named ?_ ?_
  · exact fun p q here => hj _ here.2.2.1 here.2.1 here.2.2.2
  · intro now later
    rw [(hf.known.agreeOn later).returnType_eq, (hg.known.agreeOn later).returnType_eq]
    exact hj _ hf.returned hg.returned
      ((hf.returned.receptive.within.same_eq inner _).trans same.2)

end

private theorem affirms_sameClass (n : Nat) {c d : ClassTy}
    (hk : k + 1 ≤ Ty.levels) (hc : Ty.Firm inf (k + 1) (.cls c)) (hd : Ty.Firm inf (k + 1) (.cls d))
    (deeper : ∀ {t u : Ty} (mode : Mode), t.Firm inf k → u.Firm inf k → t.same inf u = true →
      Affirms inf ((judge w n).assign mode (some t) (some u)))
    (same : (Ty.cls c).same inf (.cls d) = true) :
    Affirms inf (assignToClass w (judge w n) mode c (.cls d)) := by
  have inner : k ≤ Ty.levels := Nat.le_of_succ_le hk
  rw [hc.receptive.within.same_eq hk] at same
  simp only [sameAt, sameClassTy, Bool.and_eq_true, List.all_eq_true] at same
  obtain ⟨⟨⟨id, view⟩, literal⟩, each⟩ := same
  rw [forall_padPairs_iff (R := fun a b => sameOption (sameAt inf k) a b = true)
    (sameAt_self inf k .unknown)] at each
  refine affirms_assignToClass_of_pairs (learns_judge w n) (by simp [sameView, id, view, literal])
    fun dests sources params hs ht p hp mode => ?_
  simp only [ClassTy.argList, hs, ht, Option.getD_some] at each
  have unknown : ∀ t, some Ty.unknown = some t → t.isAnyOrUnknown = true := by
    rintro t ⟨⟩
    rfl
  rcases mem_pairArguments_cases hp with here | ⟨i, source, dest⟩
  · rw [here]
    exact affirms_vague n mode unknown _
  · have here := each i
    rw [source] at here
    rcases dest with dest | beyond
    · rw [dest, Option.getD_some, Option.getD_some] at here
      have dest := List.mem_of_getElem? dest
      have source := List.mem_of_getElem? source
      revert dest source here
      rcases p.dest with _ | t <;> rcases p.source with _ | u <;> intro here dest source
      · exact affirms_vague n mode (by rintro t ⟨⟩) _
      · cases here
      · cases here
      · have firm := hc.argument (by simpa [ClassTy.argList, hs] using dest) rfl
        have firm' := hd.argument (by simpa [ClassTy.argList, ht] using source) rfl
        have same := (firm.receptive.within.same_eq inner u).trans here
        exact ⟨deeper mode firm firm' same, deeper mode firm' firm
          ((firm.same_comm inner firm').symm.trans same)⟩
    · rw [beyond, Option.getD_none, Option.getD_some] at here
      refine (affirms_vague n mode (fun t ht => ?_) _).symm
      rw [ht, sameOption, sameAt_unknown] at here
      cases t with
      | unknown => rfl
      | _ => cases here

private theorem affirms_union (hm : mode.invariant = false) (n : Nat) {ts : List Ty} (ht : t ∈ ts)
    (var : ∀ v, u ≠ .var v) (flat : ∀ us, u ≠ .union us)
    (here : ∀ m, m < n → Affirms inf ((judge w m).assign mode (some t) (some u))) :
    Affirms inf ((judge w n).assign mode (some (.union ts)) (some u)) := by
  cases n with
  | zero => exact .cutOff
  | succ n =>
    refine affirms_assign (affirms_assignTy nofun fun _ _ _ => ?_)
    have branch (t : Ty) : Learns (attempt ((judge w n).assign mode (some t) (some u))) :=
      (learns_judge w n _ _ _).attempt
    rw [assignProper_union hm var flat]
    exact .orElse (Learns.compositional.holds_anyOf fun t _ => branch t).silently
      (.silently (.anyOf (fun t _ => branch t) ht (.attempt (here n (Nat.lt_succ_self n)))))

private theorem affirms_from_union (hm : mode.invariant = false) (n : Nat) {us : List Ty}
    (var : ∀ v, t ≠ .var v)
    (each : ∀ u ∈ us, ∀ m, m < n → Affirms inf ((judge w m).assign mode (some t) (some u))) :
    Affirms inf ((judge w n).assign mode (some t) (some (.union us))) := by
  cases n with
  | zero => exact .cutOff
  | succ n =>
    refine affirms_assign (affirms_assignTy (fun v same => absurd same (var v)) fun _ _ _ => ?_)
    unfold assignProper
    rw [if_neg (by simp [hm])]
    have step (u : Ty) : Learns (child ((judge w n).assign mode (some t) (some u))) :=
      (learns_judge w n _ _ _).child
    exact .orElse (Learns.compositional.holds_allOf fun u _ => step u)
      (.allOf (fun u _ => step u) fun u hu => .child (each u hu n (Nat.lt_succ_self n)))

private theorem affirms_same_invariant (hm : mode.invariant = true) (n : Nat) (ht : t.Firm inf k)
    (hu : u.Firm inf k) (same : t.same inf u = true) :
    Affirms inf ((judge w n).assign mode (some t) (some u)) := by
  have still : ∀ now, inf.Later now → t.same now u = true := by
    intro now later
    rw [Ty.Firm.same_later later ht hu, same]
  cases n with
  | zero => exact .cutOff
  | succ n =>
    refine affirms_assign (affirms_assignTy (fun _ _ now later => still now later) fun _ _ _ => ?_)
    unfold assignProper
    rw [if_pos hm]
    refine .inference fun now later => ?_
    rw [still now later]
    exact .pure

private theorem affirms_sameUnion (hm : mode.invariant = false) (n : Nat) {ts : List Ty}
    (hk : k + 1 ≤ Ty.levels) (ht : Ty.Firm inf (k + 1) (.union ts)) (hu : u.Firm inf (k + 1))
    (deeper : ∀ m, m < n → ∀ {t u : Ty}, t.Firm inf k → u.Firm inf k → t.same inf u = true →
      Affirms inf ((judge w m).assign mode (some t) (some u)))
    (same : (Ty.union ts).same inf u = true) :
    Affirms inf ((judge w n).assign mode (some (.union ts)) (some u)) := by
  have inner : k ≤ Ty.levels := Nat.le_of_succ_le hk
  rw [ht.receptive.within.same_eq hk] at same
  cases u with
  | union us =>
    simp only [sameAt, Bool.and_eq_true, beq_iff_eq, List.all_eq_true, List.any_eq_true] at same
    obtain ⟨length, each⟩ := same
    have within : ∀ t ∈ ts, t.Within inf k := fun t h => (ht.alternative h).receptive.within
    have within' : ∀ u ∈ us, u.Within inf k := fun u h => (hu.alternative h).receptive.within
    obtain ⟨distinct, flat, fixed⟩ : (ts.Pairwise fun t u => t.same inf u = false) ∧
        (∀ u ∈ us, ∀ vs, u ≠ .union vs) ∧ ∀ u ∈ us, ∀ v, u ≠ .var v := by
      cases ht.receptive with
      | union _ distinct =>
        cases hu.receptive with
        | union _ _ flat fixed => exact ⟨distinct, flat, fixed⟩
    have found := (alternates inf inner).symm_union within within'
      (Ty.Within.apart within distinct inner) length each
    have var : ∀ v, Ty.union ts ≠ .var v := fun _ h => Ty.noConfusion h
    refine affirms_from_union hm n var fun u hu' m hlt => ?_
    obtain ⟨t, ht', here⟩ := found u hu'
    have firm := ht.alternative ht'
    have firm' := hu.alternative hu'
    rw [← firm'.receptive.within.same_eq inner, firm'.same_comm inner firm] at here
    exact affirms_union hm m ht' (fixed u hu') (flat u hu') fun m' hlt' =>
      deeper m' (Nat.lt_trans hlt' hlt) firm firm' here
  | _ => cases same

/-- What is the same is accepted in each mode. -/
theorem affirms_same (w : World) (hk : k ≤ Ty.levels) (n : Nat) (mode : Mode)
    (ht : t.Firm inf k) (hu : u.Firm inf k) (same : t.same inf u = true) :
    Affirms inf ((judge w n).assign mode (some t) (some u)) := by
  induction n using Nat.strongRecOn generalizing k mode t u with
  | ind n ih =>
  by_cases hm : mode.invariant = true
  · exact affirms_same_invariant hm n ht hu same
  rw [Bool.not_eq_true] at hm
  by_cases union : ∃ ts, t = .union ts
  · obtain ⟨ts, rfl⟩ := union
    cases k with
    | zero => cases ht.receptive
    | succ k =>
      refine affirms_sameUnion hm n hk ht ?_ (fun m hlt t u ht hu => ?_) same
      · exact hu
      · exact ih m hlt (Nat.le_of_succ_le hk) mode ht hu
  cases n with
  | zero => exact .cutOff
  | succ n =>
  have learns := learns_judge w n
  refine affirms_assign (affirms_assignTy (fun v _ now later => ?_) fun fixed properT properU => ?_)
  · rw [Ty.Firm.same_later later ht hu, same]
  unfold assignProper
  rw [if_neg (by simp [hm])]
  have deeper {k : Nat} (hk : k ≤ Ty.levels) {t u : Ty} (mode : Mode) (ht : t.Firm inf k)
      (hu : u.Firm inf k) (same : t.same inf u = true) :
      Affirms inf ((judge w n).assign mode (some t) (some u)) :=
    ih n (Nat.lt_succ_self n) hk mode ht hu same
  cases ht.receptive with
  | unknown | any => cases properT
  | noneObject =>
    cases u with
    | noneObject => exact .inference fun _ _ => .pure
    | _ => cases same
  | module =>
    cases u with
    | module =>
      refine .inference fun now later => ?_
      rw [Ty.Firm.same_later later ht hu, same]
      exact .pure
    | _ => cases same
  | var _ v => exact absurd rfl (fixed v)
  | @cls k c args =>
    cases u with
    | cls d => exact affirms_sameClass n hk ht hu (deeper (Nat.le_of_succ_le hk)) same
    | _ => cases same
  | @function k f params ret named =>
    cases u with
    | function g =>
      refine .yielding (fun _ => rfl) ?_
      exact affirms_sameFunction learns hk (deeper (Nat.le_of_succ_le hk)) ht hu same
    | _ => cases same
  | @overloaded k fs each =>
    cases u with
    | overloaded gs =>
      rw [ht.receptive.within.same_eq hk] at same
      refine .yielding (fun _ => rfl) (affirms_overloads learns fun f hf => ?_)
      obtain ⟨g, hg, here⟩ := exists_of_allPairs same hf
      have firm := ht.overload hf
      have inner := Nat.le_of_succ_le hk
      rw [← firm.receptive.within.same_eq inner] at here
      have step (g : FunctionTy) : Learns (attempt (assignFunction w (judge w n) mode f g)) :=
        (Learns.compositional.holds_assignFunction learns mode f g).attempt
      refine .orElse (Learns.compositional.holds_anyOf fun g _ => step g).silently
        (.silently (.anyOf (fun g _ => step g) hg (.attempt ?_)))
      cases k with
      | zero => cases firm.receptive
      | succ k =>
        exact affirms_sameFunction learns inner (deeper (Nat.le_of_succ_le inner)) firm
          (hu.overload hg) here
    | _ => cases same
  | @union k ts => exact absurd ⟨ts, rfl⟩ union

/-! ## What a union is made of -/

/-- Each type of a list is the same as one that is left when repetitions are dropped. -/
theorem exists_same_distinct (inf : Inference) {ts : List Ty} (ht : t ∈ ts) :
    ∃ u ∈ Ty.distinct inf ts, u.same inf t = true := by
  have folded : ∀ us found : List Ty, (t ∈ us ∨ ∃ u ∈ found, u.same inf t = true) →
      ∃ u ∈ us.foldl (Ty.insertDistinct inf) found, u.same inf t = true := by
    intro us
    induction us with
    | nil => exact fun found h => h.resolve_left List.not_mem_nil
    | cons a us ih =>
      intro found h
      refine ih _ ?_
      unfold Ty.insertDistinct
      rcases h with here | ⟨u, hu, same⟩
      · rcases List.mem_cons.1 here with rfl | later
        · right
          split
          · rename_i seen
            simpa using seen
          · exact ⟨t, by simp, sameAt_self inf _ t⟩
        · exact .inl later
      · right
        split
        · exact ⟨u, hu, same⟩
        · exact ⟨u, List.mem_append_left _ hu, same⟩
  exact folded ts [] (.inl ht)

/-- Types each of which has alternatives that accept copies of themselves. -/
def Ty.Offer (inf : Inference) (types : List (Option Ty)) : Prop :=
  ∀ t, some t ∈ types → t.alternatives ≠ [] ∧
    ∀ a ∈ t.alternatives, a.Firm inf Ty.levels ∧ ∀ us, a ≠ .union us

private theorem affirms_alternatives (hm : mode.invariant = false) (n : Nat) (var : ∀ v, t ≠ .var v)
    (each : ∀ a ∈ u.alternatives, ∀ m, Affirms inf ((judge w m).assign mode (some t) (some a))) :
    Affirms inf ((judge w n).assign mode (some t) (some u)) := by
  by_cases union : ∃ us, u = .union us
  · obtain ⟨us, rfl⟩ := union
    exact affirms_from_union hm n var fun a ha m _ => each a ha m
  · refine each u ?_ n
    unfold Ty.alternatives
    split
    · exact absurd ⟨_, rfl⟩ union
    · exact List.mem_singleton_self _

private theorem affirms_combine (hm : mode.invariant = false) (n : Nat) {types : List (Option Ty)}
    (offer : Ty.Offer inf types) (ht : some t ∈ types)
    (fixed : ∀ v, .var v ∈ t.alternatives →
      t = .var v ∧ ∀ us, Ty.combine inf types ≠ .union us) :
    Affirms inf ((judge w n).assign mode (some (Ty.combine inf types)) (some t)) := by
  have given : t ∈ types.filterMap id := List.mem_filterMap.2 ⟨some t, ht, rfl⟩
  have firm : ∀ a ∈ (types.filterMap id).flatMap Ty.alternatives,
      a.Firm inf Ty.levels ∧ ∀ us, a ≠ .union us := by
    intro a ha
    obtain ⟨u, hu, ha⟩ := List.mem_flatMap.1 ha
    exact (offer u (by simpa using hu)).2 a ha
  have found : ∀ a ∈ t.alternatives,
      ∃ u ∈ Ty.distinct inf ((types.filterMap id).flatMap Ty.alternatives), u.same inf a = true ∧
        ∀ m, Affirms inf ((judge w m).assign mode (some u) (some a)) := by
    intro a ha
    have listed := List.mem_flatMap.2 ⟨t, given, ha⟩
    obtain ⟨u, hu, same⟩ := exists_same_distinct inf listed
    exact ⟨u, hu, same, fun m => affirms_same w (Nat.le_refl _) m mode
      (firm u (Fragment.mem_of_mem_distinct hu)).1 (firm a listed).1 same⟩
  obtain ⟨some_given, -⟩ := offer t ht
  unfold Ty.combine at fixed ⊢
  dsimp only at fixed ⊢
  split
  · rename_i x hx
    refine (affirms_vague n mode (fun u hu => ?_) _).1
    rw [← Option.some.inj hu]
    exact List.find?_some hx
  · rename_i proper
    simp only [proper] at fixed
    generalize Ty.distinct inf ((types.filterMap id).flatMap Ty.alternatives) = us at found fixed
    rcases us with _ | ⟨x, _ | ⟨y, zs⟩⟩
    · obtain ⟨a, ha⟩ := List.exists_mem_of_ne_nil _ some_given
      obtain ⟨u, hu, -⟩ := found a ha
      cases hu
    · have here : ∀ a ∈ t.alternatives, x.same inf a = true ∧
          ∀ m, Affirms inf ((judge w m).assign mode (some x) (some a)) := by
        intro a ha
        obtain ⟨u, hu, same, accepts⟩ := found a ha
        rw [List.mem_singleton.1 hu] at same accepts
        exact ⟨same, accepts⟩
      by_cases var : ∃ v, t = .var v
      · obtain ⟨v, rfl⟩ := var
        exact (here (.var v) (List.mem_singleton_self _)).2 n
      · refine affirms_alternatives hm n ?_ fun a ha => (here a ha).2
        rintro v rfl
        obtain ⟨a, ha⟩ := List.exists_mem_of_ne_nil _ some_given
        have same := (here a ha).1
        cases a with
        | var v' => exact var ⟨v', (fixed v' ha).1⟩
        | _ => cases same
    · refine affirms_alternatives hm n nofun fun a ha m => ?_
      obtain ⟨u, hu, -, accepts⟩ := found a ha
      obtain ⟨-, flat⟩ := firm a (List.mem_flatMap.2 ⟨t, given, ha⟩)
      refine affirms_union hm m hu ?_ flat fun m' _ => accepts m'
      rintro v rfl
      exact (fixed v ha).2 _ rfl

/-- At each depth and where nothing is solved for: a union is granted each of the types that it was
built of, unless that has a variable among its alternatives, and a type is granted what is the
same. A variable is granted where nothing but itself is left of the union. -/
theorem union_accepts_its_parts (w : World) (depth : Int) {s : CheckState} (rest : s.solving = none)
    {mode : Mode} (hm : mode.invariant = false) :
    let run := fun dest source =>
      exec ((judgeAt w depth).assign mode (some dest) (some source)) s
    (∀ (types : List (Option Ty)) (t : Ty), Ty.Offer s.inference types → some t ∈ types →
      (∀ v, .var v ∈ t.alternatives →
        t = .var v ∧ ∀ us, Ty.combine s.inference types ≠ .union us) →
      Granted s (run (Ty.combine s.inference types) t)) ∧
    ∀ t u : Ty, t.Firm s.inference Ty.levels → u.Firm s.inference Ty.levels →
      t.same s.inference u = true → Granted s (run t u) := by
  intro run
  have granted {dest source : Ty} (h : Affirms s.inference
      ((judgeAt w depth).assign mode (some dest) (some source))) : Granted s (run dest source) :=
    granted_of_affirms (learns_judge w _ _ _ _) h rest
  refine ⟨fun types t offer ht fixed => ?_, fun t u ht hu same => ?_⟩
  · exact granted (affirms_combine hm (levelsAt depth) offer ht fixed)
  · exact granted (affirms_same w (Nat.le_refl _) (levelsAt depth) mode ht hu same)

/-- A variable that may stand for any object is refused by a union that it is an alternative of. -/
example :
    let v := TypeVar.make "T" "f" .invariant none
    let w := Sample.ofDecls [Sample.object, Sample.classOf "A" []]
    (exec ((judgeAt w 0).assign .default (some (Ty.combine .start
      [some (.var v), some (Sample.instanceOf 1)])) (some (.var v)))
        ⟨.start, #[], [], [], none, none, []⟩).1 = .ok false := by
  decide +kernel

private theorem Sample.firm_instanceOf (inf : Inference) (id : ClassId) :
    (Sample.instanceOf id).Firm inf (n + 1) :=
  ⟨.cls (fun _ h => nomatch h), fun cell hc => by
    cases hc with
    | argument here => cases here⟩

/-- A union of two classes is accepted by what it is put together to with one of them and another
one. -/
theorem union_accepts_smaller_union :
    let s : CheckState := ⟨.start, #[], [], [], none, none, []⟩
    let ab := Ty.union [Sample.instanceOf 1, Sample.instanceOf 2]
    let types := [some (Sample.instanceOf 3), some ab, none, some (Sample.instanceOf 1)]
    let w := Sample.ofDecls [Sample.object, Sample.classOf "A" [], Sample.classOf "B" [],
      Sample.classOf "C" []]
    Ty.combine .start types =
        .union [Sample.instanceOf 3, Sample.instanceOf 1, Sample.instanceOf 2] ∧
      Granted s (exec ((judgeAt w 0).assign .default (some (Ty.combine .start types)) (some ab)) s)
    := by
  intro s ab types w
  have alternative (id : ClassId) : (Sample.instanceOf id).Firm .start Ty.levels ∧
      ∀ us, Sample.instanceOf id ≠ .union us :=
    ⟨Sample.firm_instanceOf .start id, nofun⟩
  have offer : Ty.Offer .start types := by
    intro t ht
    obtain rfl | rfl | rfl : t = Sample.instanceOf 3 ∨ t = ab ∨ t = Sample.instanceOf 1 := by
      simpa [types] using ht
    · exact ⟨nofun, List.forall_mem_singleton.2 (alternative 3)⟩
    · exact ⟨nofun, List.forall_mem_cons.2 ⟨alternative 1,
        List.forall_mem_singleton.2 (alternative 2)⟩⟩
    · exact ⟨nofun, List.forall_mem_singleton.2 (alternative 1)⟩
  refine ⟨rfl, (union_accepts_its_parts w 0 (rfl : s.solving = none) rfl).1 types ab offer ?_ ?_⟩
  · simp [types]
  · simp [ab, Ty.alternatives, Sample.instanceOf]

end Conformance
