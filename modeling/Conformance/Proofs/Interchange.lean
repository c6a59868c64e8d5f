import Conformance.Proofs.Operation
import Conformance.Proofs.Sample
import Conformance.Proofs.TwinJudges

/-!
# Interchangeable types

Sameness compares less of two types than a comparison with a third one looks at: it takes missing type
arguments for unknown ones and unions in any order, and leaves out which parameters have defaults, the
bounds of type variables and the scopes of functions. Where two types that are the same agree in this
too, one may take the place of the other in every comparison.
-/

namespace Conformance

open Check

section

variable (inf : Inference)

/-- No return type is to be found out of either function, and they agree in what sameness leaves out,
by the way to compare types one level down. -/
structure FunctionTy.AgreeBeyond (agree : Ty → Ty → Prop) (f g : FunctionTy) : Prop where
  scope : g.scope = f.scope
  params : List.Forall₂ (fun p q => q.hasDefault = p.hasDefault ∧
    agree p.typeOrUnknown q.typeOrUnknown) f.params g.params
  found : inf.isOpen f = false
  found' : inf.isOpen g = false
  ret : agree (inf.returnType f) (inf.returnType g)

/-- The two types are nested no deeper than so many levels, no return type in them is to be found out,
and they agree in what sameness leaves out. Where sameness does not look for the same place in both, in
unions and in the bounds of type variables, they are the same place by place. -/
def Ty.AgreeBeyond : Nat → Ty → Ty → Prop
  | 0, t, _ => t.isAnyOrUnknown = true ∨ t = .noneObject
  | n + 1, t, u =>
    match t, u with
    | .cls c, .cls d => Option.Rel (List.Forall₂ (Option.Rel (Ty.AgreeBeyond n))) c.args d.args
    | .function f, .function g => FunctionTy.AgreeBeyond inf (Ty.AgreeBeyond n) f g
    | .overloaded fs, .overloaded gs =>
      List.Forall₂ (fun f g => Ty.AgreeBeyond n (.function f) (.function g)) fs gs
    | .var v, .var u =>
      Option.Rel (fun t u => sameAt inf n t u = true ∧ Ty.AgreeBeyond n t u) v.bound u.bound
    | .union ts, .union us =>
      List.Forall₂ (fun t u => sameAt inf n t u = true ∧ Ty.AgreeBeyond n t u) ts us
    | _, _ => True

end

/-- Two runs from one state, which may come across everything. -/
def Pairing.itself (inf : Inference) : Pairing where
  left := inf
  right := inf
  common _ := True
  classes _ := True
  modules _ := True
  loose := True
  naming := .none

namespace Pairing

private theorem shares_itself (inf : Inference) : (itself inf).Shares fun _ => True where
  part _ _ := trivial
  cls _ := trivial
  module _ := trivial
  cell _ _ := cell_of_common (fun _ => trivial) rfl _
  var _ := .refl rfl _
  scope _ := rfl

private theorem twin_itself (inf : Inference) (t : Ty) : t.Twin (itself inf) t :=
  (shares_itself inf).twin trivial

private theorem fixes_itself (inf : Inference) (w : World) : (itself inf).Fixes w :=
  ⟨fun _ _ => twin_itself inf _, fun _ _ => twin_itself inf _, fun _ => .refl rfl _,
    twin_itself inf _, twin_itself inf _⟩

variable {inf : Inference} {n : Nat}

private theorem rel_of_allPairs {α : Type} {same : α → α → Bool} {R S : α → α → Prop}
    {as bs : List α}
    (h : allPairs same as bs = true) (agree : List.Forall₂ R as bs)
    (twin : ∀ a b, same a b = true → R a b → S a b) : List.Forall₂ S as bs := by
  induction agree with
  | nil => exact .nil
  | cons first _ ih =>
    rw [allPairs, Bool.and_eq_true] at h
    exact .cons (twin _ _ h.1 first) (ih h.2)

private theorem rel_of_padPairs {same : Ty → Ty → Bool} {R S : Ty → Ty → Prop}
    {as bs : List (Option Ty)}
    (h : ((padPairs as bs).all fun p => sameOption same p.1 p.2) = true)
    (agree : List.Forall₂ (Option.Rel R) as bs) (twin : ∀ t u, same t u = true → R t u → S t u) :
    List.Forall₂ (Option.Rel S) as bs := by
  induction agree with
  | nil => exact .nil
  | cons first _ ih =>
    rw [padPairs, List.all_cons, Bool.and_eq_true] at h
    refine .cons ?_ (ih h.2)
    cases first with
    | none => exact .none
    | some first => exact .some (twin _ _ h.1 first)

private theorem function_of_same {f g : FunctionTy}
    (same : sameFunction inf (sameAt inf n) f g = true)
    (agree : FunctionTy.AgreeBeyond inf (Ty.AgreeBeyond inf n) f g)
    (twin : ∀ t u, sameAt inf n t u = true → t.AgreeBeyond inf n u → t.Twin (itself inf) u) :
    f.Twin (itself inf) g := by
  rw [sameFunction, Bool.and_eq_true, Bool.and_eq_true, beq_iff_eq] at same
  obtain ⟨⟨kind, params⟩, ret⟩ := same
  refine .mk (.inl trivial) kind.symm agree.scope ?_ ?_
  · refine rel_of_allPairs params agree.params fun p q same agree => ?_
    rw [sameParam, Bool.and_eq_true, Bool.and_eq_true, beq_iff_eq, beq_iff_eq] at same
    obtain ⟨⟨kind, name⟩, type⟩ := same
    exact .mk kind.symm name.symm agree.1 (.inl trivial) (twin _ _ type agree.2)
  · exact .known trivial agree.found agree.found' (twin _ _ ret agree.ret)

private theorem twin_of_same {a b : Ty} (same : sameAt inf n a b = true)
    (agree : a.AgreeBeyond inf n b) :
    a.Twin (itself inf) b := by
  induction n generalizing a b with
  | zero =>
    rcases agree with anything | rfl
    · cases a with
      | unknown => cases b <;> first | exact .unknown | cases same
      | any => cases b <;> first | exact .any | cases same
      | _ => cases anything
    · cases b <;> first | exact .noneObject | cases same
  | succ n ih =>
    have twin (t u : Ty) (same : sameAt inf n t u = true) (agree : t.AgreeBeyond inf n u) :
        t.Twin (itself inf) u := ih same agree
    cases a with
    | unknown => cases b <;> first | exact .unknown | cases same
    | any => cases b <;> first | exact .any | cases same
    | noneObject => cases b <;> first | exact .noneObject | cases same
    | module name table =>
      cases b with
      | module name' table' =>
        obtain rfl : table = table' := by simpa [sameAt] using same
        exact .module (.inl trivial) trivial
      | _ => cases same
    | cls c =>
      cases b with
      | cls d =>
        rw [sameAt, sameClassTy, Bool.and_eq_true, Bool.and_eq_true, Bool.and_eq_true,
          ClassTy.sameClass, beq_iff_eq, beq_iff_eq, beq_iff_eq] at same
        obtain ⟨⟨⟨id, isInstance⟩, literal⟩, args⟩ := same
        refine .cls ⟨trivial, id.symm, isInstance.symm, literal.symm, .inl trivial⟩ ?_
        change Option.Rel _ c.args d.args at agree
        rw [ClassTy.argList, ClassTy.argList] at args
        generalize c.args = as at agree args
        generalize d.args = bs at agree args
        cases agree with
        | none => exact .none
        | some each => exact .some (rel_of_padPairs args each twin)
      | _ => cases same
    | function f =>
      cases b with
      | function g => exact .function (function_of_same same agree twin)
      | _ => cases same
    | overloaded fs =>
      cases b with
      | overloaded gs =>
        refine .overloaded (rel_of_allPairs same agree fun f g same agree => ?_)
        cases twin _ _ same agree with
        | function twin => exact twin
      | _ => cases same
    | var v =>
      cases b with
      | var u =>
        rw [sameAt, Bool.and_eq_true, Bool.and_eq_true, beq_iff_eq, beq_iff_eq, beq_iff_eq] at same
        obtain ⟨⟨name, scope⟩, access⟩ := same
        refine .var ⟨?_, scope.symm, ?_, access.symm, .inl trivial⟩ ?_
        · rw [← name, ← scope]
          rfl
        · rw [TypeVar.key, TypeVar.key, ← name, ← scope]
          rfl
        change Option.Rel _ v.bound u.bound at agree
        generalize v.bound = o at agree
        generalize u.bound = o' at agree
        cases agree with
        | none => exact .none
        | some here => exact .some (twin _ _ here.1 here.2)
      | _ => cases same
    | union ts =>
      cases b with
      | union us => exact .union (List.Forall₂.imp (fun t u here => twin t u here.1 here.2) agree)
      | _ => cases same

end Pairing

/-- Two types that are the same and agree in what sameness leaves out are interchangeable: in every
session, mode, solution and depth a third type accepts both or neither, and both accept it or neither
does, and a return type that cannot be found out is reported alike. The one that takes the place of the
other has to be the same object as the third type where the other was, unless this makes no
difference. -/
theorem interchangeable_of_same {s : Session} {i : Identity}
    (identified : (Pairing.itself s.inference).Identifies s.world (s.world.identifying i)) {a b : Ty}
    (same : a.same s.inference b = true) (agree : a.AgreeBeyond s.inference Ty.levels b)
    (c : Option Ty) (request : Request) (depth : Int) (mode : Mode) :
    let answer := fun (s : Session) dest source =>
      ((Session.run request fun w => (judgeAt w depth).assign mode dest source).run s).1.answer
    let replaced := { s with identity := i }
    answer replaced c (some b) = answer s c (some a) ∧
      answer replaced (some b) c = answer s (some a) c := by
  intro answer replaced
  have twin := Pairing.twin_of_same same agree
  have respects := Pairing.respects_judge (Pairing.fixes_itself s.inference s.world) identified
    (levelsAt depth)
  have itself : Option.Rel (Ty.Twin (.itself s.inference)) c c :=
    rel_option_self fun c _ => Pairing.twin_itself _ c
  have entered : (Pairing.itself s.inference).Meets (Frame.entering s request)
      (Frame.entering replaced request) :=
    (Pairing.shares_itself s.inference).meets (.start _ fun _ _ => rfl) rfl rfl rfl
      (fun _ _ => ⟨trivial, trivial⟩) (fun σ _ => Pairing.keeps_of_none rfl σ)
      fun _ _ _ _ _ => trivial
  exact ⟨(respects.assign mode itself (.some twin) _ _ entered).1.eq,
    (respects.assign mode (.some twin) itself _ _ entered).1.eq⟩

/-- Containers of a function, in one of which its return type is declared and in the other it was found
out. -/
theorem containers_of_found_and_declared :
    let a := Ty.cls (Sample.viewOf 1 (.function
      (Sample.function none [] (.declared (Sample.instanceOf 0)))))
    let b := Ty.cls (Sample.viewOf 1 (.function (Sample.deferred 0 (Sample.instanceOf 0))))
    let s : Session := { Session.ofDecls #[Sample.object] with inference := ⟨#[true], []⟩ }
    let answer := fun dest source =>
      ((Session.run .plain fun w => (judgeAt w 0).assign .default dest source).run s).1.answer
    a.same s.inference b = true ∧
      ∀ c, answer c (some b) = answer c (some a) ∧ answer (some b) c = answer (some a) c := by
  intro a b s answer
  have same : a.same s.inference b = true := by decide
  have agree : a.AgreeBeyond s.inference Ty.levels b := by
    apply Option.Rel.some
    refine .cons (.some ⟨rfl, ?_, rfl, rfl, ?_⟩) .nil
    · exact .cons ⟨rfl, trivial⟩ .nil
    · exact .none
  exact ⟨same, fun c =>
    interchangeable_of_same (i := .apart) (fun _ _ => .inl rfl) same agree c .plain 0 .default⟩

end Conformance
