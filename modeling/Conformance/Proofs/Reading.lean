import Conformance.Proofs.Cells
import Conformance.Proofs.Twins

/-!
# What can be read of a type

Sameness reads a return type as far as it is known, and neither the cell that it is kept in nor the
bound of a type variable. Two types that are read alike, each at its own time, are not told apart by
sameness, and unions of them are read alike as well.
-/

namespace Conformance

/-! ## Reading to a number of levels -/

section

variable (now now' : Inference) (R : Ty → Ty → Prop)

structure ClassTy.ReadsBy (c d : ClassTy) : Prop where
  id : d.id = c.id
  isInstance : d.isInstance = c.isInstance
  literal : d.literal = c.literal
  args : List.Forall₂ (Option.Rel R) c.argList d.argList

structure Param.ReadsBy (p q : Param) : Prop where
  kind : q.kind = p.kind
  name : q.name = p.name
  type : R p.typeOrUnknown q.typeOrUnknown

structure FunctionTy.ReadsBy (f g : FunctionTy) : Prop where
  kind : g.kind = f.kind
  params : List.Forall₂ (Param.ReadsBy R) f.params g.params
  ret : R (now.returnType f) (now'.returnType g)

structure TypeVar.Reads (v u : TypeVar) : Prop where
  name : u.name = v.name
  scope : u.scope = v.scope
  access : u.access = v.access

/-- The first type at one time reads like the second at another if their parts do. -/
inductive Ty.ReadsBy : Ty → Ty → Prop
  | unknown : Ty.ReadsBy .unknown .unknown
  | any : Ty.ReadsBy .any .any
  | noneObject : Ty.ReadsBy .noneObject .noneObject
  | cls {c d : ClassTy} (h : c.ReadsBy R d) : Ty.ReadsBy (.cls c) (.cls d)
  | module {name name' : String} {table : TableId} :
      Ty.ReadsBy (.module name table) (.module name' table)
  | function {f g : FunctionTy} (h : f.ReadsBy now now' R g) : Ty.ReadsBy (.function f) (.function g)
  | overloaded {fs gs : List FunctionTy}
      (h : List.Forall₂ (fun f g => R (.function f) (.function g)) fs gs) :
      Ty.ReadsBy (.overloaded fs) (.overloaded gs)
  | var {v u : TypeVar} (h : v.Reads u) : Ty.ReadsBy (.var v) (.var u)
  | union {ts us : List Ty} (h : List.Forall₂ R ts us) : Ty.ReadsBy (.union ts) (.union us)

/-- The first type at one time reads like the second at another, to a number of levels. -/
def Ty.ReadsAt (now now' : Inference) : Nat → Ty → Ty → Prop
  | 0, t, u => u.category = t.category
  | n + 1, t, u => Ty.ReadsBy now now' (Ty.ReadsAt now now' n) t u

end

variable {now now' : Inference} {t u : Ty} {n : Nat}

namespace Ty.ReadsAt

theorem category (h : Ty.ReadsAt now now' n t u) : u.category = t.category := by
  cases n with
  | zero => exact h
  | succ n => cases (h : Ty.ReadsBy ..) <;> rfl

/-- A type reads as before where none of its cells was settled since. -/
theorem of_agreeOn (n : Nat) {t : Ty} (h : now.AgreeOn now' t) : Ty.ReadsAt now now' n t t := by
  induction n generalizing t with
  | zero => rfl
  | succ n ih =>
    cases t with
    | unknown => exact .unknown
    | any => exact .any
    | noneObject => exact .noneObject
    | cls c =>
      refine .cls ⟨rfl, rfl, rfl, List.forall₂_same.2 fun o ho => ?_⟩
      exact rel_option_self fun t ht => ih (h.argument ho ht)
    | module name table => exact .module
    | function f =>
      refine .function ⟨rfl, List.forall₂_same.2 fun p hp => ⟨rfl, rfl, ih (h.typeOrUnknown hp)⟩, ?_⟩
      rw [h.returnType_eq]
      exact ih h.returned
    | overloaded fs => exact .overloaded (List.forall₂_same.2 fun f hf => ih (h.overload hf))
    | var v => exact .var ⟨rfl, rfl, rfl⟩
    | union ts => exact .union (List.forall₂_same.2 fun t ht => ih (h.alternative ht))

theorem refl (now : Inference) (n : Nat) (t : Ty) : Ty.ReadsAt now now n t t :=
  of_agreeOn n fun _ _ => rfl

/-- Sameness tells nothing apart that reads alike. -/
theorem sameAt_eq {t t' u u' : Ty} (ht : Ty.ReadsAt now now' n t t')
    (hu : Ty.ReadsAt now now' n u u') : sameAt now' n t' u' = sameAt now n t u := by
  induction n generalizing t t' u u' with
  | zero => rw [sameAt, sameAt, ht.category, hu.category]
  | succ n ih =>
    cases (ht : Ty.ReadsBy ..) with
    | cls h =>
      cases (hu : Ty.ReadsBy ..) with
      | cls h' =>
        rw [sameAt, sameAt, sameClassTy, sameClassTy, ClassTy.sameClass, ClassTy.sameClass,
          h.id, h'.id, h.isInstance, h'.isInstance, h.literal, h'.literal]
        congr 1
        have unknown : Ty.ReadsAt now now' n .unknown .unknown := of_agreeOn n .unknown
        refine all_eq_of_rel (rel_padPairs unknown h.args h'.args) fun p p' hp => ?_
        obtain ⟨a, b⟩ := p
        obtain ⟨a', b'⟩ := p'
        obtain ⟨ha, hb⟩ := hp
        cases ha with
        | none => cases hb <;> rfl
        | some ha =>
          cases hb with
          | none => rfl
          | some hb => exact ih ha hb
      | _ => rfl
    | function h =>
      cases (hu : Ty.ReadsBy ..) with
      | function h' =>
        rw [sameAt, sameAt, sameFunction, sameFunction, h.kind, h'.kind, ih h.ret h'.ret]
        congr 2
        refine allPairs_eq_of_rel h.params h'.params fun p p' q q' hp hq => ?_
        rw [sameParam, sameParam, hp.kind, hq.kind, hp.name, hq.name, ih hp.type hq.type]
      | _ => rfl
    | overloaded h =>
      cases (hu : Ty.ReadsBy ..) with
      | overloaded h' =>
        rw [sameAt, sameAt]
        exact allPairs_eq_of_rel h h' fun f f' g g' hf hg => ih hf hg
      | _ => rfl
    | var h =>
      cases (hu : Ty.ReadsBy ..) with
      | var h' =>
        rw [sameAt, sameAt, h.name, h'.name, h.scope, h'.scope, h.access, h'.access]
      | _ => rfl
    | union h =>
      cases (hu : Ty.ReadsBy ..) with
      | union h' =>
        rw [sameAt, sameAt, h.length_eq, h'.length_eq]
        congr 1
        exact all_eq_of_rel h fun t t' ht => any_eq_of_rel h' fun u u' hu => ih ht hu
      | _ => rfl
    | _ => cases (hu : Ty.ReadsBy ..) <;> rfl

/-- What reads alike at one time is the same. -/
theorem sameAt (h : Ty.ReadsAt now now n t u) : Conformance.sameAt now n t u = true := by
  rw [sameAt_eq (refl now n t) h]
  exact sameAt_self now n t

end Ty.ReadsAt

/-! ## Reading at several times -/

private theorem rel_option_imp {α β : Type} {R S : α → β → Prop} {a : Option α} {b : Option β}
    (h : Option.Rel R a b) (imp : ∀ a b, R a b → S a b) : Option.Rel S a b := by
  cases h with
  | none => exact .none
  | some h => exact .some (imp _ _ h)

private theorem forall₂_of_forall {α β ι : Type} {R : ι → α → β → Prop} {as : List α} {bs : List β}
    (i : ι)
    (h : ∀ i, List.Forall₂ (R i) as bs) : List.Forall₂ (fun a b => ∀ i, R i a b) as bs := by
  induction as generalizing bs with
  | nil =>
    cases h i
    exact .nil
  | cons a as ih =>
    cases bs with
    | nil => cases h i
    | cons b bs =>
      simp only [List.forall₂_cons] at h
      exact .cons (fun i => (h i).1) (ih fun i => (h i).2)

def Ty.Alike (times : Inference → Inference → Prop) (t u : Ty) : Prop :=
  ∀ now now', times now now' → ∀ n, Ty.ReadsAt now now' n t u

section

variable {times : Inference → Inference → Prop}

/-- The parameters of the functions read alike at each of the times, and so do their return types. -/
structure FunctionTy.Alike (times : Inference → Inference → Prop) (f g : FunctionTy) : Prop where
  kind : g.kind = f.kind
  params : List.Forall₂ (Param.ReadsBy (Ty.Alike times)) f.params g.params
  ret : ∀ now now', times now now' → ∀ n,
    Ty.ReadsAt now now' n (now.returnType f) (now'.returnType g)

namespace Ty.Alike

theorem mono {fewer : Inference → Inference → Prop} (h : Ty.Alike times t u)
    (sub : ∀ now now', fewer now now' → times now now') : Ty.Alike fewer t u :=
  fun now now' here => h now now' (sub now now' here)

private theorem of_layers (h : ∀ now now', times now now' → ∀ n,
    Ty.ReadsBy now now' (Ty.ReadsAt now now' n) t u) : Ty.Alike times t u := by
  intro now now' here n
  cases n with
  | zero => exact (Ty.ReadsAt.category (n := 1) (h now now' here 0) :)
  | succ n => exact h now now' here n

theorem of_agreeOn (h : ∀ now now', times now now' → now.AgreeOn now' t) : Ty.Alike times t t :=
  fun now now' here n => .of_agreeOn n (h now now' here)

theorem unknown : Ty.Alike times .unknown .unknown := of_layers fun _ _ _ _ => .unknown

theorem var (v : TypeVar) : Ty.Alike times (.var v) (.var v) :=
  of_layers fun _ _ _ _ => .var ⟨rfl, rfl, rfl⟩

theorem cls {c d : ClassTy} (h : c.ReadsBy (Ty.Alike times) d) : Ty.Alike times (.cls c) (.cls d) :=
  of_layers fun now now' here n => .cls
    { h with args := h.args.imp fun _ _ rel => rel_option_imp rel fun _ _ h => h now now' here n }

theorem function {f g : FunctionTy} (h : f.Alike times g) :
    Ty.Alike times (.function f) (.function g) :=
  of_layers fun now now' here n => .function
    { kind := h.kind
      params := h.params.imp fun _ _ hp => { hp with type := hp.type now now' here n }
      ret := h.ret now now' here n }

theorem overloaded {fs gs : List FunctionTy} (h : List.Forall₂ (FunctionTy.Alike times) fs gs) :
    Ty.Alike times (.overloaded fs) (.overloaded gs) :=
  of_layers fun now now' here n => .overloaded (h.imp fun _ _ h => function h now now' here n)

theorem union {ts us : List Ty} (h : List.Forall₂ (Ty.Alike times) ts us) :
    Ty.Alike times (.union ts) (.union us) :=
  of_layers fun now now' here n => .union (h.imp fun _ _ h => h now now' here n)

/-- The alternatives of types that read alike at some time read alike. -/
theorem alternatives (h : Ty.Alike times t u) (here : times now now') :
    List.Forall₂ (Ty.Alike times) t.alternatives u.alternatives := by
  have single : List.Forall₂ (Ty.Alike times) [t] [u] := .cons h .nil
  cases (h now now' here 1 : Ty.ReadsBy ..) with
  | @union ts us =>
    have each (i : { times' : Inference × Inference // times times'.1 times'.2 } × Nat) :
        List.Forall₂ (Ty.ReadsAt i.1.1.1 i.1.1.2 i.2) ts us := by
      cases (h _ _ i.1.2 (i.2 + 1) : Ty.ReadsBy ..) with
      | union h => exact h
    exact (forall₂_of_forall ⟨⟨(now, now'), here⟩, 0⟩ each).imp
      fun t u h now now' here n => h ⟨⟨(now, now'), here⟩, n⟩
  | _ => exact single

/-- Building a union at these times does not tell types apart that read alike. -/
theorem combined (here : times now now') : Ty.CombinedAlike now now' (Ty.Alike times) where
  anything h := by cases (h now now' here 1 : Ty.ReadsBy ..) <;> rfl
  alternatives h := h.alternatives here
  same ht hu := (ht now now' here Ty.levels).sameAt_eq (hu now now' here Ty.levels)
  unknown := .unknown
  union := .union

end Ty.Alike

end

end Conformance
