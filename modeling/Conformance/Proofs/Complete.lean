import Conformance.Proofs.Itself
import Conformance.Proofs.Learning
import Conformance.Proofs.Sameness

/-!
# Complete types

A complete type leaves nothing open: it mentions no variable and no return type that is still to be
found out. Whether two complete types are the same stays as it is, whatever is found out later, and
where two of them are compared as types that have to be the same, the answer follows from the two
types alone: they are the same, or views of one class whose arguments have to be the same.
-/

namespace Conformance

open Check

/-- The type is nested no deeper than so many levels, mentions no variable and no function whose
return type is still to be found out, gives each class as many arguments as it has parameters, or
none, and has each keyword of a function taken by one parameter. The alternatives of a union are no
unions, and no two of them are the same. -/
inductive Ty.Complete (classes : ClassTable) (inf : Inference) : Nat → Ty → Prop
  | unknown (n : Nat) : Ty.Complete classes inf n .unknown
  | any (n : Nat) : Ty.Complete classes inf n .any
  | noneObject (n : Nat) : Ty.Complete classes inf n .noneObject
  | module (n : Nat) (name : String) (table : TableId) :
      Ty.Complete classes inf (n + 1) (.module name table)
  | cls {n : Nat} {c : ClassTy}
      (full : ∀ ts, c.args = some ts → ts.length = (classes.decl c.id).params.length)
      (args : ∀ t ∈ c.argList, ∀ u, t = some u → Ty.Complete classes inf n u) :
      Ty.Complete classes inf (n + 1) (.cls c)
  | function {n : Nat} {f : FunctionTy}
      (params : ∀ p ∈ f.params, ∀ u, p.type = some u → Ty.Complete classes inf n u)
      (found : inf.isOpen f = false) (ret : Ty.Complete classes inf n (inf.returnType f))
      (named : (ParamGroups.ofList f.params).Named) : Ty.Complete classes inf (n + 1) (.function f)
  | overloaded {n : Nat} {fs : List FunctionTy}
      (each : ∀ f ∈ fs, Ty.Complete classes inf n (.function f)) :
      Ty.Complete classes inf (n + 1) (.overloaded fs)
  | union {n : Nat} {ts : List Ty} (each : ∀ t ∈ ts, Ty.Complete classes inf n t)
      (distinct : ts.Pairwise fun t u => t.same inf u = false)
      (flat : ∀ t ∈ ts, ∀ us, t ≠ .union us) : Ty.Complete classes inf (n + 1) (.union ts)

def CompleteOption (classes : ClassTable) (inf : Inference) (n : Nat) (o : Option Ty) : Prop :=
  ∀ t, o = some t → t.Complete classes inf n

variable {classes : ClassTable} {inf inf' : Inference} {n k : Nat} {t u : Ty}

namespace Ty.Complete

theorem within (h : t.Complete classes inf n) : t.Within inf n := by
  induction h with
  | unknown => exact .unknown _
  | any => exact .any _
  | noneObject => exact .noneObject _
  | module => exact .module _ _ _
  | cls _ _ args => exact .cls args
  | function _ _ _ _ params ret => exact .function params ret
  | overloaded _ each => exact .overloaded each
  | union _ distinct _ each => exact .union each distinct

theorem args {c : ClassTy} (h : Ty.Complete classes inf (n + 1) (.cls c)) :
    ∀ o ∈ c.argList, CompleteOption classes inf n o := by
  cases h
  assumption

theorem typeOrUnknown {p : Param} (h : CompleteOption classes inf n p.type) :
    p.typeOrUnknown.Complete classes inf n := by
  unfold Param.typeOrUnknown
  cases hp : p.type with
  | none => exact .unknown n
  | some t => exact h t hp

theorem succ (h : t.Complete classes inf n) : t.Complete classes inf (n + 1) := by
  induction h with
  | unknown => exact .unknown _
  | any => exact .any _
  | noneObject => exact .noneObject _
  | module => exact .module _ _ _
  | cls full _ args => exact .cls full args
  | function _ found _ named params ret => exact .function params found ret named
  | overloaded _ each => exact .overloaded each
  | union _ distinct flat each => exact .union each distinct flat

theorem not_var (h : t.Complete classes inf n) (v : TypeVar) : t ≠ .var v := by
  rintro rfl
  cases h

end Ty.Complete

private theorem completeOption_unknown (n : Nat) :
    CompleteOption classes inf n (some .unknown) := by
  rintro _ ⟨⟩
  exact .unknown n

theorem completeOption_getD {as : List (Option Ty)} (h : ∀ a ∈ as, CompleteOption classes inf n a)
    (i : Nat) : CompleteOption classes inf n ((as[i]?).getD (some .unknown)) := by
  cases hi : as[i]? with
  | none => exact completeOption_unknown n
  | some a => exact h a (List.mem_of_getElem? hi)

theorem completeOption_some (h : t.Complete classes inf n) :
    CompleteOption classes inf n (some t) := by
  rintro _ ⟨⟩
  exact h

private theorem complete_padPairs {c d : ClassTy} (hc : Ty.Complete classes inf (n + 1) (.cls c))
    (hd : Ty.Complete classes inf (k + 1) (.cls d)) :
    ∀ p ∈ padPairs c.argList d.argList,
      CompleteOption classes inf n p.1 ∧ CompleteOption classes inf k p.2 :=
  forall_mem_padPairs (completeOption_unknown n) (completeOption_unknown k) hc.args hd.args

/-! ## Later answers -/

namespace Inference.Later

/-- What is found out later does not change whether complete types are the same. -/
theorem sameAt_eq (later : inf.Later inf') {m m' : Nat} (ht : t.Complete classes inf m)
    (hu : u.Complete classes inf m') (n : Nat) : sameAt inf' n t u = sameAt inf n t u := by
  induction n generalizing t u m m' with
  | zero => rfl
  | succ n ih =>
    cases ht with
    | unknown | any | noneObject | module => cases hu <;> rfl
    | @cls m c full args =>
      cases hu with
      | @cls m' d full' args' =>
        have given := complete_padPairs (.cls full args) (.cls full' args')
        simp only [sameAt, sameClassTy]
        congr 1
        exact all_congr fun p hp => sameOption_congr fun t ht u hu =>
          ih ((given p hp).1 t ht) ((given p hp).2 u hu)
      | _ => rfl
    | function params found ret =>
      cases hu with
      | function params' found' ret' =>
        simp only [sameAt, sameFunction, later.returnType_eq found, later.returnType_eq found',
          ih ret ret']
        congr 2
        refine allPairs_congr fun p hp q hq => ?_
        simp only [sameParam, ih (.typeOrUnknown (params p hp)) (.typeOrUnknown (params' q hq))]
      | _ => rfl
    | overloaded each =>
      cases hu with
      | overloaded each' => exact allPairs_congr fun f hf g hg => ih (each f hf) (each' g hg)
      | _ => rfl
    | @union m ts each =>
      cases hu with
      | @union m' us each' =>
        simp only [sameAt]
        congr 1
        refine all_congr fun t ht => ?_
        rw [Bool.eq_iff_iff, List.any_eq_true, List.any_eq_true]
        refine exists_congr fun u => and_congr_right fun hu => ?_
        rw [ih (each t ht) (each' u hu)]
      | _ => rfl

theorem same_eq (later : inf.Later inf') {m m' : Nat} (ht : t.Complete classes inf m)
    (hu : u.Complete classes inf m') : t.same inf' u = t.same inf u :=
  later.sameAt_eq ht hu Ty.levels

end Inference.Later

/-! ## What has to be the same -/

/-- Views of one class of which each argument fits. -/
def fitsArguments (fits : Option Ty → Option Ty → Bool) : Ty → Ty → Bool
  | .cls c, .cls d => sameView c d && (padPairs c.argList d.argList).all fun p => fits p.1 p.2
  | _, _ => false

/-- The answer, at a number of levels, to whether two types are the same. -/
def fitsInvariant (inf : Inference) : Nat → Option Ty → Option Ty → Bool
  | n + 1, some a, some b =>
    a.isAnyOrUnknown || b.isAnyOrUnknown || a.same inf b || fitsArguments (fitsInvariant inf n) a b
  | _, _, _ => true

theorem fitsInvariant_of_same (h : t.same inf u = true) (n : Nat) :
    fitsInvariant inf n (some t) (some u) = true := by
  cases n <;> simp [fitsInvariant, h]

theorem fitsInvariant_self (inf : Inference) (n : Nat) (o : Option Ty) :
    fitsInvariant inf n o o = true := by
  cases o with
  | none => cases n <;> rfl
  | some t => exact fitsInvariant_of_same (sameAt_self _ _ _) n

theorem same_comm (hk : k ≤ Ty.levels) (ht : t.Complete classes inf k)
    (hu : u.Complete classes inf k) : t.same inf u = u.same inf t :=
  Bool.eq_iff_iff.2 ⟨ht.within.same_symm hk hu.within, hu.within.same_symm hk ht.within⟩

theorem sameView_comm (c d : ClassTy) : sameView c d = sameView d c := by
  simp only [sameView, ClassTy.sameClass, BEq.comm (a := d.id), BEq.comm (a := d.isInstance),
    BEq.comm (a := d.literal)]

private theorem fitsArguments_congr {fits fits' : Option Ty → Option Ty → Bool}
    (ht : t.Complete classes inf (k + 1)) (hu : u.Complete classes inf (k + 1))
    (h : ∀ {a b}, CompleteOption classes inf k a → CompleteOption classes inf k b →
      fits a b = fits' a b) : fitsArguments fits t u = fitsArguments fits' t u := by
  cases t with
  | cls c =>
    cases u with
    | cls d =>
      have given := complete_padPairs ht hu
      simp only [fitsArguments]
      congr 1
      exact all_congr fun p hp => h (given p hp).1 (given p hp).2
    | _ => rfl
  | _ => rfl

private theorem fitsArguments_comm {fits : Option Ty → Option Ty → Bool}
    (ht : t.Complete classes inf (k + 1)) (hu : u.Complete classes inf (k + 1))
    (h : ∀ {a b}, CompleteOption classes inf k a → CompleteOption classes inf k b →
      fits a b = fits b a) : fitsArguments fits t u = fitsArguments fits u t := by
  cases t with
  | cls c =>
    cases u with
    | cls d =>
      have given := complete_padPairs ht hu
      simp only [fitsArguments, sameView_comm c d, padPairs_swap c.argList d.argList, List.all_map]
      congr 1
      exact all_congr fun p hp => h (given p hp).1 (given p hp).2
    | _ => rfl
  | _ => cases u <;> rfl

theorem fitsInvariant_comm (hk : k ≤ Ty.levels) (n : Nat) {a b : Option Ty}
    (ha : CompleteOption classes inf k a) (hb : CompleteOption classes inf k b) :
    fitsInvariant inf n a b = fitsInvariant inf n b a := by
  induction n generalizing a b with
  | zero => rfl
  | succ n ih =>
    cases a with
    | none => cases b <;> rfl
    | some t =>
      cases b with
      | none => rfl
      | some u =>
        have ht := ha t rfl
        have hu := hb u rfl
        rw [fitsInvariant, fitsInvariant, same_comm hk ht hu, Bool.or_comm t.isAnyOrUnknown,
          fitsArguments_comm ht.succ hu.succ ih]

theorem Inference.Later.fitsInvariant_eq (later : inf.Later inf') (n : Nat) {a b : Option Ty}
    (ha : CompleteOption classes inf k a) (hb : CompleteOption classes inf k b) :
    fitsInvariant inf' n a b = fitsInvariant inf n a b := by
  induction n generalizing a b with
  | zero => rfl
  | succ n ih =>
    cases a with
    | none => rfl
    | some t =>
      cases b with
      | none => rfl
      | some u =>
        have ht := ha t rfl
        have hu := hb u rfl
        rw [fitsInvariant, fitsInvariant, later.same_eq ht hu,
          fitsArguments_congr ht.succ hu.succ ih]

/-! ## The comparison of types that have to be the same -/

/-- From each state with these return types in which nothing is solved for, the check gives the
answer and changes neither. -/
def Yields (inf : Inference) (b : Bool) (act : Check Bool) : Prop :=
  ∀ s : CheckState, s.inference = inf → s.solving = none →
    ∃ t, exec act s = (.ok b, t) ∧ t.inference = inf ∧ t.solving = none

namespace Yields

variable {α : Type} {b : Bool} {act : Check Bool}

theorem pure (b : Bool) : Yields inf b (pure b) := fun s hs rest => ⟨s, rfl, hs, rest⟩

theorem cutOff : Yields inf true cutOff := fun _ hs rest => ⟨_, rfl, hs, rest⟩

theorem bind {k : Bool → Check Bool} {c : Bool} (h : Yields inf b act) (hk : Yields inf c (k b)) :
    Yields inf c (act >>= k) := by
  intro s hs rest
  obtain ⟨t, ht, inference, solving⟩ := h s hs rest
  rw [exec_bind_of_ok ht]
  exact hk t inference solving

theorem inference {k : Inference → Check Bool} (hk : Yields inf b (k inf)) :
    Yields inf b (Check.inference >>= k) := by
  intro s hs rest
  rw [exec_bind_of_ok (exec_inference s), hs]
  exact hk s hs rest

theorem solution {k : Option Solution → Check Bool} (hk : Yields inf b (k none)) :
    Yields inf b (Check.solution >>= k) := by
  intro s hs rest
  rw [exec_bind_of_ok (exec_solution s), rest]
  exact hk s hs rest

theorem child (h : Yields inf b act) : Yields inf b (child act) := by
  intro s hs rest
  obtain ⟨t, ht, inference, solving⟩ :=
    h { s with notes := s.notes.map fun _ => .empty } hs rest
  refine ⟨{ t with notes := s.notes.map fun e => e.addChild (t.notes.getD .empty) }, ?_, inference,
    solving⟩
  rw [Check.child, exec_within, ht]

theorem mismatch (w : World) (source dest : Ty) : Yields inf false (mismatch w source dest) := by
  intro s hs rest
  obtain ⟨notes, told⟩ := exec_tell .mismatch
    (fun inf => [("sourceType", source.text w.classes.nameOf inf),
      ("destType", dest.text w.classes.nameOf inf)]) s
  refine ⟨{ s with notes := notes }, ?_, hs, rest⟩
  rw [Conformance.mismatch, refuse, exec_bind_of_ok told]
  rfl

theorem allOf {f : α → Check Bool} {p : α → Bool} {as : List α}
    (h : ∀ a ∈ as, Yields inf (p a) (f a)) : Yields inf (as.all p) (allOf f as) := by
  induction as with
  | nil => exact pure true
  | cons a as ih =>
    rw [List.forall_mem_cons] at h
    rw [Check.allOf, List.all_cons]
    exact h.1.bind ((ih h.2).bind (pure _))

end Yields

section

variable {w : World} {mode : Mode} {m : Nat} {known : Inference}

private theorem yields_assignInvariant {j : Judge} {fits : Option Ty → Option Ty → Bool}
    (hj : ∀ p : Option Ty × Option Ty, CompleteOption w.classes known m p.1 →
      CompleteOption w.classes known m p.2 → Yields inf (fits p.1 p.2) (j.assign mode p.1 p.2))
    (ht : t.Complete w.classes known (m + 1)) (hu : u.Complete w.classes known (m + 1)) :
    Yields inf (t.same inf u || fitsArguments fits t u) (assignInvariant w j mode t u) := by
  refine .inference ?_
  cases same : t.same inf u with
  | true => exact .pure true
  | false =>
    rw [Bool.false_or, if_neg Bool.false_ne_true]
    cases t with
    | cls c =>
      cases u with
      | cls d =>
        simp only [fitsArguments]
        cases view : sameView c d with
        | false => exact .mismatch w _ _
        | true =>
          have given := complete_padPairs ht hu
          have each := Yields.allOf fun p hp => (hj p (given p hp).1 (given p hp).2).child
          rw [Bool.true_and, if_pos rfl]
          refine each.bind ?_
          cases (padPairs c.argList d.argList).all fun p => fits p.1 p.2 with
          | true => exact .pure true
          | false => exact .mismatch w _ _
      | _ => exact .mismatch w _ _
    | _ => exact .mismatch w _ _

/-- Whether two types are the same is answered without asking for a return type. -/
theorem yields_assign (hm : mode.invariant = true) (n : Nat) {a b : Option Ty}
    (ha : CompleteOption w.classes known m a) (hb : CompleteOption w.classes known m b) :
    Yields inf (fitsInvariant inf n a b) ((judge w n).assign mode a b) := by
  induction n generalizing m a b with
  | zero => exact .cutOff
  | succ n ih =>
    cases a with
    | none => exact .pure true
    | some t =>
      cases b with
      | none => exact .pure true
      | some u =>
        have ht := (ha t rfl).succ
        have hu := (hb u rfl).succ
        have proper := yields_assignInvariant (fun p => ih) ht hu
        rcases assign_cases w n mode t u with ⟨rfl, identical⟩ | compared
        · rw [identical, fitsInvariant_self]
          exact .pure true
        rw [compared]
        refine .solution ?_
        rw [Fragment.reverseVar?_none]
        dsimp only
        split
        · exact absurd rfl (ht.not_var _)
        · rw [fitsInvariant, Bool.or_assoc]
          cases t.isAnyOrUnknown || u.isAnyOrUnknown with
          | true => exact .pure true
          | false =>
            unfold assignProper
            rw [if_pos hm]
            exact proper

end

end Conformance
