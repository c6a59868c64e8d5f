import Conformance.Proofs.Complete
import Conformance.Proofs.Receptive

/-!
# Types that have to be the same

What is accepted where two complete types have to be the same is accepted the other way round too,
and where they need not be the same, unless the finder of a return type fails that is asked for on
the way.
-/

namespace Conformance

open Check

variable {inf : Inference} {n k : Nat} {t u : Ty}

namespace Ty.Complete

/-- A complete type accepts copies of itself. -/
theorem receptive {classes : ClassTable} (h : t.Complete classes inf n) : t.Receptive inf n := by
  induction h with
  | unknown => exact .unknown _
  | any => exact .any _
  | noneObject => exact .noneObject _
  | module => exact .module _ _ _
  | cls _ _ args => exact .cls args
  | function _ _ _ named params ret => exact .function params ret named
  | overloaded _ each => exact .overloaded each
  | union complete distinct flat each =>
    exact .union each distinct flat fun t ht v => (complete t ht).not_var v

theorem known {classes : ClassTable} (h : t.Complete classes inf n) : t.Known inf := by
  induction h with
  | unknown | any | noneObject | module => exact fun _ hc => nomatch hc
  | cls _ _ args =>
    intro cell hc
    cases hc with
    | argument here inner => exact args _ here _ rfl cell inner
  | @function _ f _ found _ _ params ret =>
    intro cell hc
    unfold Inference.isOpen at found
    unfold Inference.returnType at ret
    cases hc with
    | here hr =>
      rw [hr] at found
      simpa using found
    | @found _ other _ hr inner =>
      rw [hr] at found ret
      have settled : inf.isSettled other = true := by simpa using found
      simp only [settled, if_true, Option.getD_some] at ret
      exact ret cell inner
    | declared hr inner =>
      rw [hr] at ret
      exact ret cell inner
    | param here typed inner => exact params _ here _ typed cell inner
  | overloaded _ each =>
    intro cell hc
    cases hc with
    | overload here inner => exact each _ here cell inner
  | union _ _ _ each =>
    intro cell hc
    cases hc with
    | alternative here inner => exact each _ here cell inner

theorem firm {classes : ClassTable} (h : t.Complete classes inf n) : t.Firm inf n :=
  ⟨h.receptive, h.known⟩

end Ty.Complete

private theorem mem_pairArguments {params : List TypeVar} {dests sources : List (Option Ty)}
    (length : dests.length = sources.length) {p : ArgumentPair}
    (hp : p ∈ pairArguments params dests sources) :
    ∃ i : Nat, p.dest = (dests[i]?).getD (some .unknown) ∧
      p.source = (sources[i]?).getD (some .unknown) := by
  obtain ⟨i, hi, rfl⟩ := List.mem_mapIdx.1 hp
  have given : i < dests.length := length ▸ hi
  have place : min i (dests.length - 1) = i := by omega
  have nonempty : dests.isEmpty = false := by
    cases dests with
    | nil => cases given
    | cons => rfl
  refine ⟨i, ?_⟩
  simp [nonempty, place, List.getElem?_eq_getElem hi, List.getElem?_eq_getElem given]

section

variable {w : World} {j : Judge} {mode : Mode}

private theorem affirms_assignToClass (learns : Assigns (fun _ act => Learns act) j) {c d : ClassTy}
    (view : sameView c d = true)
    (hc : ∀ ts, c.args = some ts → ts.length = (w.classes.decl c.id).params.length)
    (hd : ∀ ts, d.args = some ts → ts.length = (w.classes.decl d.id).params.length)
    (each : ∀ (i : Nat) (mode : Mode),
      let a := (c.argList[i]?).getD (some .unknown)
      let b := (d.argList[i]?).getD (some .unknown)
      Affirms inf (j.assign mode a b) ∧ Affirms inf (j.assign mode b a)) :
    Affirms inf (assignToClass w j mode c (.cls d)) := by
  refine affirms_assignToClass_of_pairs learns view fun dests sources params hs ht p hp mode => ?_
  have id : c.id = d.id := by
    simp only [sameView, ClassTy.sameClass, Bool.and_eq_true, beq_iff_eq] at view
    exact view.1.1
  have length : dests.length = sources.length := by rw [hc dests hs, hd sources ht, id]
  simp only [ClassTy.argList, hs, ht, Option.getD_some] at each
  obtain ⟨i, dest, source⟩ := mem_pairArguments length hp
  rw [dest, source]
  exact each i mode

private theorem affirms_fitting (w : World) (hk : k ≤ Ty.levels) (n : Nat) (mode : Mode)
    {a b : Option Ty}
    (ha : CompleteOption w.classes inf k a) (hb : CompleteOption w.classes inf k b)
    (fits : fitsInvariant inf n a b = true) : Affirms inf ((judge w n).assign mode a b) := by
  induction n using Nat.strongRecOn generalizing k mode a b with
  | ind n ih =>
  cases hm : mode.invariant with
  | true =>
    intro s rest known
    obtain ⟨t, run, -⟩ := yields_assign hm n ha hb s rfl rest
    rw [run, known.fitsInvariant_eq n ha hb, fits]
    intro refused
    cases refused
  | false =>
  cases n with
  | zero => exact .cutOff
  | succ n =>
    have learns := learns_judge w n
    cases a with
    | none => exact .pure
    | some t =>
    cases b with
    | none => exact .pure
    | some u =>
    have ht := ha t rfl
    have hu := hb u rfl
    by_cases same : t.same inf u = true
    · exact affirms_same w hk (n + 1) mode ht.firm hu.firm same
    refine affirms_assign (affirms_assignTy (fun v is => absurd is (ht.not_var v))
      fun _ properT properU => ?_)
    simp only [fitsInvariant, properT, properU, same, Bool.false_or] at fits
    unfold assignProper
    rw [if_neg (by simp [hm])]
    cases ht with
    | @cls k c full args =>
      cases hu with
      | @cls _ d full' args' =>
        simp only [fitsArguments, Bool.and_eq_true, List.all_eq_true] at fits
        obtain ⟨view, each⟩ := fits
        have unknown := fitsInvariant_self inf n (some .unknown)
        rw [forall_padPairs_iff (R := fun a b => fitsInvariant inf n a b = true) unknown] at each
        refine affirms_assignToClass learns view full full' fun i mode => ?_
        have dest := completeOption_getD args i
        have source := completeOption_getD args' i
        have inner := Nat.le_of_succ_le hk
        have back := (fitsInvariant_comm inner n dest source).symm.trans (each i)
        exact ⟨ih n (Nat.lt_succ_self n) inner mode dest source (each i),
          ih n (Nat.lt_succ_self n) inner mode source dest back⟩
      | _ => cases fits
    | _ => cases fits

end

/-- At each depth, of two complete types: if they are accepted as the same, then so are they the
other way round, and in each mode both are granted; if they are the same, they are accepted as such;
and in each mode a type is granted to itself. -/
theorem invariance_goes_both_ways (w : World) (depth : Int) {s : CheckState}
    (rest : s.solving = none) {a b : Ty} (ha : a.Complete w.classes s.inference Ty.levels)
    (hb : b.Complete w.classes s.inference Ty.levels) {mode : Mode}
    (hm : mode.invariant = true) :
    let run := fun mode dest source =>
      exec ((judgeAt w depth).assign mode (some dest) (some source)) s
    ((run mode a b).1 = .ok true →
      (run mode b a).1 = .ok true ∧
        ∀ other, Granted s (run other a b) ∧ Granted s (run other b a)) ∧
    (a.same s.inference b = true → (run mode a b).1 = .ok true) ∧
    (run mode a a).1 = .ok true ∧ ∀ other, Granted s (run other a a) := by
  intro run
  have hca := completeOption_some ha
  have hcb := completeOption_some hb
  have answer {dest source : Ty} (hd : dest.Complete w.classes s.inference Ty.levels)
      (hs : source.Complete w.classes s.inference Ty.levels) :
      (run mode dest source).1 =
        .ok (fitsInvariant s.inference (levelsAt depth) (some dest) (some source)) := by
    obtain ⟨t, ran, -⟩ := yields_assign hm (levelsAt depth) (completeOption_some hd)
      (completeOption_some hs) s rfl rest
    exact congrArg Prod.fst ran
  have granted {dest source : Ty} (hd : dest.Complete w.classes s.inference Ty.levels)
      (hs : source.Complete w.classes s.inference Ty.levels)
      (fits : fitsInvariant s.inference (levelsAt depth) (some dest) (some source) = true)
      (other : Mode) : Granted s (run other dest source) :=
    granted_of_affirms (learns_judge w _ _ _ _) (affirms_fitting w (Nat.le_refl _) _ other
      (completeOption_some hd) (completeOption_some hs) fits) rest
  have comm := fitsInvariant_comm (Nat.le_refl _) (levelsAt depth) hca hcb
  have itself := fitsInvariant_self s.inference (levelsAt depth) (some a)
  refine ⟨fun yes => ?_, fun same => ?_, ?_, granted ha ha itself⟩
  · rw [answer ha hb] at yes
    have fits := Except.ok.inj yes
    have back := comm.symm.trans fits
    refine ⟨?_, fun other => ⟨granted ha hb fits other, granted hb ha back other⟩⟩
    rw [answer hb ha, back]
  · rw [answer ha hb, fitsInvariant_of_same same]
  · rw [answer ha ha, itself]

private theorem Sample.complete_union {classes : ClassTable} {i j : ClassId} (apart : i ≠ j) :
    (Ty.union [Sample.instanceOf i, Sample.instanceOf j]).Complete classes inf (n + 2) := by
  have single (id : ClassId) : (Sample.instanceOf id).Complete classes inf (n + 1) :=
    .cls nofun nofun
  have different : (Sample.instanceOf i).same inf (Sample.instanceOf j) = false := by
    simp [Ty.same, Ty.levels, sameAt, sameClassTy, ClassTy.sameClass, Sample.instanceOf,
      ClassTy.ofId, ClassTy.toInstance, apart]
  refine .union ?_ ?_ ?_
  · simp [single]
  · simp [different]
  · simp [Sample.instanceOf]

/-- A union and the same alternatives in another order stand for each other. -/
theorem union_accepted_in_another_order :
    let s : CheckState := ⟨.start, #[], [], [], none, none, []⟩
    let ab := Ty.union [Sample.instanceOf 1, Sample.instanceOf 2]
    let ba := Ty.union [Sample.instanceOf 2, Sample.instanceOf 1]
    let run := fun mode dest source => exec ((judgeAt (Sample.ofDecls [Sample.object,
      Sample.classOf "A" [], Sample.classOf "B" []]) 0).assign mode (some dest) (some source)) s
    (run ⟨true, false, false⟩ ab ba).1 = .ok true ∧ (run ⟨true, false, false⟩ ba ab).1 = .ok true ∧
      ∀ other, Granted s (run other ab ba) ∧ Granted s (run other ba ab) := by
  intro s ab ba run
  obtain ⟨both, same, -⟩ := invariance_goes_both_ways (Sample.ofDecls [Sample.object,
    Sample.classOf "A" [], Sample.classOf "B" []]) 0 (rfl : s.solving = none)
    (Sample.complete_union (n := 13) (by decide : (1 : ClassId) ≠ 2))
    (Sample.complete_union (n := 13) (by decide : (2 : ClassId) ≠ 1))
    (rfl : (⟨true, false, false⟩ : Mode).invariant = true)
  have yes := same (by decide)
  exact ⟨yes, both yes⟩

end Conformance
