import Conformance.Proofs.Lineages
import Conformance.Proofs.Scopes
import Conformance.Proofs.TwinJudges

/-!
# Variables under other names

Two classes whose parameters differ in nothing but their names are not told apart by what is written in
terms of these: with the parameters of the one put in the place of those of the other, a type is its
own twin, where the two runs call the variables of the two classes by each other's names.
-/

namespace Conformance

/-! ## Exchanging -/

section

variable {α : Type} [DecidableEq α]

/-- Exchanges what stands at the same place in the two lists. -/
def exchange : List α → List α → Equiv.Perm α
  | a :: as, b :: bs => (Equiv.swap a b).trans (exchange as bs)
  | _, _ => .refl α

private theorem exchange_of_not_mem {as bs : List α} {x : α} (h : x ∉ as) (h' : x ∉ bs) :
    exchange as bs x = x := by
  induction as generalizing bs with
  | nil => rfl
  | cons a as ih =>
    cases bs with
    | nil => rfl
    | cons b bs =>
      rw [List.mem_cons, not_or] at h h'
      rw [exchange, Equiv.trans_apply, Equiv.swap_apply_of_ne_of_ne h.1 h'.1]
      exact ih h.2 h'.2

private theorem exchange_of_getElem? {as bs : List α} (distinct : as.Nodup) (distinct' : bs.Nodup)
    (apart : ∀ a ∈ as, a ∉ bs) {i : Nat} {a b : α} (ha : as[i]? = some a) (hb : bs[i]? = some b) :
    exchange as bs a = b := by
  induction as generalizing bs i with
  | nil => cases ha
  | cons c as ih =>
    cases bs with
    | nil => cases hb
    | cons d bs =>
      obtain ⟨first, rest⟩ := List.nodup_cons.1 distinct
      obtain ⟨first', rest'⟩ := List.nodup_cons.1 distinct'
      obtain ⟨outside, others⟩ := List.forall_mem_cons.1 apart
      rw [exchange, Equiv.trans_apply]
      cases i with
      | zero =>
        cases ha
        cases hb
        rw [Equiv.swap_apply_left]
        exact exchange_of_not_mem (fun here => others _ here List.mem_cons_self) first'
      | succ i =>
        have here := List.mem_of_getElem? (show as[i]? = some a from ha)
        have apart := others a here
        rw [List.mem_cons, not_or] at apart
        have kept : Equiv.swap c d a = a :=
          Equiv.swap_apply_of_ne_of_ne (fun same => first (same ▸ here)) apart.1
        rw [kept]
        exact ih rest rest' (fun x hx inside => others x hx (List.mem_cons_of_mem d inside)) ha hb

end

/-! ## The variables of two classes -/

namespace ClassTable

def ownVars (classes : ClassTable) (id : ClassId) : List TypeVar :=
  classes.selfVar (.ofId id) :: (classes.decl id).params

def Foreign (classes : ClassTable) (p q : ClassId) (scope : String) : Prop :=
  scope ≠ (classes.decl p).scope ∧ scope ≠ (classes.decl q).scope ∧ '@' ∉ scope.toList

/-- The parameters of the two classes differ in nothing but their names. They have no bounds, and no
two variables of one class have the same name. -/
structure Renamed (classes : ClassTable) (p q : ClassId) : Prop where
  other : (classes.decl p).scope ≠ (classes.decl q).scope
  named : ∀ id, id = p ∨ id = q → (classes.decl id).scope ≠ "" ∧ '@' ∉ (classes.decl id).scope.toList
  params : List.Forall₂ (fun v u : TypeVar => u = { v with name := u.name, scope := u.scope })
    (classes.decl p).params (classes.decl q).params
  free : ∀ v ∈ (classes.decl p).params, v.bound = none ∧ v.access = .whole
  own : ∀ id, id = p ∨ id = q → ∀ v ∈ (classes.decl id).params, v.scope = (classes.decl id).scope
  distinct : ∀ id, id = p ∨ id = q → ((classes.ownVars id).map (·.name)).Nodup

namespace Renamed

variable {classes : ClassTable} {p q : ClassId} (h : classes.Renamed p q)
include h

theorem foreign_empty : classes.Foreign p q "" :=
  ⟨(h.named p (.inl rfl)).1.symm, (h.named q (.inr rfl)).1.symm, List.not_mem_nil⟩

private theorem scope_of_mem {id : ClassId} (hid : id = p ∨ id = q) :
    ∀ v ∈ classes.ownVars id, v.scope = (classes.decl id).scope := by
  intro v hv
  rcases List.mem_cons.1 hv with rfl | hv
  · rfl
  · exact h.own id hid v hv

private theorem plain_of_mem {id : ClassId} (hid : id = p ∨ id = q) {v : TypeVar}
    (hv : v ∈ classes.ownVars id) : '@' ∉ v.scope.toList :=
  h.scope_of_mem hid v hv ▸ (h.named id hid).2

/-- How the variables of the two classes are exchanged. -/
def naming : Renaming where
  scope := Equiv.swap (classes.decl p).scope (classes.decl q).scope
  var := exchange ((classes.ownVars p).map fun v => (v.name, v.scope))
    ((classes.ownVars q).map fun v => (v.name, v.scope))
  key := exchange ((classes.ownVars p).map (·.key)) ((classes.ownVars q).map (·.key))
  unscoped := Equiv.swap_apply_of_ne_of_ne h.foreign_empty.1 h.foreign_empty.2.1

theorem scope_naming : h.naming.scope (classes.decl p).scope = (classes.decl q).scope :=
  Equiv.swap_apply_left _ _

theorem scope_of_foreign {scope : String} (foreign : classes.Foreign p q scope) :
    h.naming.scope scope = scope :=
  Equiv.swap_apply_of_ne_of_ne foreign.1 foreign.2.1

section

variable {α : Type} [DecidableEq α] {f : TypeVar → α}
  (tells : ∀ v u : TypeVar, '@' ∉ v.scope.toList → '@' ∉ u.scope.toList → f v = f u →
    v.name = u.name ∧ v.scope = u.scope)
include tells

private theorem exchange_foreign {v : TypeVar} (foreign : classes.Foreign p q v.scope) :
    exchange ((classes.ownVars p).map f) ((classes.ownVars q).map f) (f v) = f v := by
  have outside {id : ClassId} (hid : id = p ∨ id = q) (other : v.scope ≠ (classes.decl id).scope) :
      f v ∉ (classes.ownVars id).map f := by
    intro here
    obtain ⟨u, hu, same⟩ := List.mem_map.1 here
    have scope := (tells u v (h.plain_of_mem hid hu) foreign.2.2 same).2
    exact other (scope.symm.trans (h.scope_of_mem hid u hu))
  exact exchange_of_not_mem (outside (.inl rfl) foreign.1) (outside (.inr rfl) foreign.2.1)

omit [DecidableEq α] in
theorem nodup_map {id : ClassId} (hid : id = p ∨ id = q) : ((classes.ownVars id).map f).Nodup := by
  have names := h.distinct id hid
  refine (List.nodup_map_iff_inj_on (List.Nodup.of_map _ names)).2 fun v hv u hu same => ?_
  exact List.inj_on_of_nodup_map names hv hu
    (tells v u (h.plain_of_mem hid hv) (h.plain_of_mem hid hu) same).1

private theorem exchange_own {v u : TypeVar} {i : Nat} (hv : (classes.ownVars p)[i]? = some v)
    (hu : (classes.ownVars q)[i]? = some u) :
    exchange ((classes.ownVars p).map f) ((classes.ownVars q).map f) (f v) = f u := by
  have apart : ∀ x ∈ (classes.ownVars p).map f, x ∉ (classes.ownVars q).map f := by
    intro x hx hx'
    obtain ⟨v, hv, rfl⟩ := List.mem_map.1 hx
    obtain ⟨u, hu, same⟩ := List.mem_map.1 hx'
    have scope := (tells u v (h.plain_of_mem (.inr rfl) hu) (h.plain_of_mem (.inl rfl) hv) same).2
    rw [h.scope_of_mem (.inr rfl) u hu, h.scope_of_mem (.inl rfl) v hv] at scope
    exact h.other scope.symm
  refine exchange_of_getElem? (h.nodup_map tells (.inl rfl)) (h.nodup_map tells (.inr rfl)) apart
    (i := i) ?_ ?_
  · rw [List.getElem?_map, hv, Option.map_some]
  · rw [List.getElem?_map, hu, Option.map_some]

end

omit h in
theorem name_and_scope_of_key (v u : TypeVar) (hv : '@' ∉ v.scope.toList)
    (hu : '@' ∉ u.scope.toList) (same : v.key = u.key) : v.name = u.name ∧ v.scope = u.scope :=
  (TypeVar.key_inj hv hu).1 same

omit h in
private theorem name_and_scope_of_pair (v u : TypeVar) (_ : '@' ∉ v.scope.toList)
    (_ : '@' ∉ u.scope.toList) (same : (v.name, v.scope) = (u.name, u.scope)) :
    v.name = u.name ∧ v.scope = u.scope :=
  Prod.ext_iff.1 same

section

variable {m : Pairing} (named : m.naming = h.naming)
include named

theorem alike_of_foreign {v : TypeVar} (foreign : classes.Foreign p q v.scope) :
    TypeVar.Alike m v v := by
  refine ⟨?_, ?_, ?_, rfl, .inr ⟨rfl, rfl, rfl⟩⟩ <;> rw [named]
  · exact (h.exchange_foreign name_and_scope_of_pair foreign).symm
  · exact (h.scope_of_foreign foreign).symm
  · exact (h.exchange_foreign name_and_scope_of_key foreign).symm

/-- The parameters at the same place are twins. -/
theorem rel_ownParams :
    List.Forall₂ (TypeVar.Twin m) (classes.decl p).params (classes.decl q).params := by
  refine List.forall₂_iff_get.2 ⟨h.params.length_eq, fun i hi hi' => ?_⟩
  have differ := List.forall₂_iff_get.1 h.params |>.2 i hi hi'
  have hv := List.getElem?_eq_getElem hi
  have hu := List.getElem?_eq_getElem hi'
  rw [List.get_eq_getElem, List.get_eq_getElem] at differ ⊢
  generalize (classes.decl p).params[i] = v at differ hv
  generalize (classes.decl q).params[i] = u at differ hu
  have here := List.mem_of_getElem? hv
  have own : (classes.ownVars p)[i + 1]? = some v := hv
  have own' : (classes.ownVars q)[i + 1]? = some u := hu
  have same {α : Type} (f : TypeVar → α)
      (blind : ∀ name scope, f { v with name := name, scope := scope } = f v) : f u = f v := by
    rw [differ]
    exact blind _ _
  refine .var ⟨?_, ?_, ?_, same _ fun _ _ => rfl, .inr ⟨?_, ?_, ?_⟩⟩ ?_
  · rw [named]
    exact (h.exchange_own name_and_scope_of_pair own own').symm
  · rw [named, h.own p (.inl rfl) v here, h.own q (.inr rfl) u (List.mem_of_getElem? hu)]
    exact h.scope_naming.symm
  · rw [named]
    exact (h.exchange_own name_and_scope_of_key own own').symm
  · exact same (·.variance) fun _ _ => rfl
  · exact same (·.isSelf) fun _ _ => rfl
  · exact same (·.isParamSpec) fun _ _ => rfl
  · rw [same (·.bound) fun _ _ => rfl, (h.free v here).1]
    exact .none

theorem key_self : (classes.selfVar (.ofId q)).key = m.naming.key (classes.selfVar (.ofId p)).key := by
  rw [named]
  exact (h.exchange_own name_and_scope_of_key (i := 0) rfl rfl).symm

end

end Renamed

end ClassTable

/-! ## Types with other variables in their place -/

/-- A solution puts the twin of each variable of these types in its place, and opens no class. The runs
come across the classes and modules of the types; their unions are as they are built, and no return type
in them is still to be found out. -/
structure Pairing.Replaces (m : Pairing) (classes : ClassTable) (σ : Solution) (P : Ty → Prop) :
    Prop where
  part {t u : Ty} (h : P t) (hu : u.Part t) : P u
  cls {c : ClassTy} (h : P (.cls c)) : m.classes c.id ∧ ¬ c.Opens classes σ
  module {name : String} {table : TableId} (h : P (.module name table)) : m.modules table
  var {v : TypeVar} (h : P (.var v)) : (Ty.var v).Twin m (Substitution.ofVar σ false v)
  function {f : FunctionTy} (h : P (.function f)) :
    m.naming.scope f.scope = f.scope ∧ ∀ cell outcome, f.ret ≠ .deferred cell outcome
  union {ts : List Ty} (h : P (.union ts)) : Fragment.Built .start ts

namespace Pairing.Replaces

variable {m : Pairing} {classes : ClassTable} {σ : Solution} {P : Ty → Prop}
  (h : m.Replaces classes σ P) {t : Ty} {n : Nat}
include h

theorem over_of (ht : P t) : t.Over ⟨fun c => ¬ c.Opens classes σ, fun v => P (.var v), fun _ => True⟩ := by
  induction size : sizeOf t using Nat.strongRecOn generalizing t with
  | ind n ih =>
    have parts {u : Ty} (hu : u.Part t) := ih (sizeOf u) (size ▸ hu.sizeOf_lt) (h.part ht hu) rfl
    cases t with
    | unknown => exact .unknown trivial
    | any => exact .any trivial
    | noneObject => exact .noneObject
    | module name table => exact .module name table
    | var v => exact .var ht
    | cls c => exact .cls (h.cls ht).2 fun o ho t ht => parts (.argument (ht ▸ ho))
    | function f =>
      refine .function (fun p hp => ?_) ?_ (h.function ht).2
      · unfold Param.typeOrUnknown
        cases typed : p.type with
        | none => exact .unknown trivial
        | some t => exact parts (.param hp typed)
      · unfold FunctionTy.returned FunctionTy.declaredReturn
        cases ret : f.ret with
        | declared t => exact parts (.declared ret)
        | undeclared => exact .unknown trivial
        | deferred cell outcome => exact .unknown trivial
    | overloaded fs => exact .overloaded fun f hf => parts (.overload hf)
    | union ts => exact .union (fun t ht => parts (.alternative ht)) (h.union ht)

variable (holds : m.Holds m.left m.right) (found : σ.Finds .all)
include holds found

/-- With what the solution puts in its place, such a type is its own twin. -/
theorem twin (ht : P t) (nests : t.Nests classes [] n) : t.Twin m (t.fillAt classes σ n) := by
  induction n generalizing t with
  | zero => cases nests <;> constructor
  | succ n ih =>
    have function {f : FunctionTy} (hf : P (.function f))
        (params : ∀ p ∈ f.params, p.typeOrUnknown.Nests classes [] n)
        (ret : f.returned.Nests classes [] n) :
        f.Twin m (f.fill (Ty.fillAt classes σ n)) := by
      obtain ⟨scope, settled⟩ := h.function hf
      refine .mk (.inr rfl) rfl scope.symm (List.forall₂_map_right_iff.2
        (List.forall₂_same.2 fun p hp => .mk rfl rfl rfl (.inr (Option.isSome_map ..)) ?_)) ?_
      · rw [Param.typeOrUnknown_fill (Ty.fillAt_unknown n)]
        have nests := params p hp
        unfold Param.typeOrUnknown at nests ⊢
        cases typed : p.type with
        | none =>
          rw [Option.getD_none, Ty.fillAt_unknown]
          exact .unknown
        | some t =>
          rw [typed] at nests
          exact ih (h.part hf (.param hp typed)) nests
      · unfold FunctionTy.fill
        unfold FunctionTy.returned FunctionTy.declaredReturn at ret
        cases returns : f.ret with
        | undeclared => exact .undeclared returns rfl
        | deferred cell outcome => exact absurd returns (settled cell outcome)
        | declared t =>
          rw [returns] at ret
          exact .declared returns rfl (ih (h.part hf (.declared returns)) ret)
    cases nests with
    | unknown => exact .unknown
    | any => exact .any
    | noneObject => exact .noneObject
    | module _ _ name table => exact .module (.inr rfl) (h.module ht)
    | var _ => exact h.var ht
    | @cls _ _ c args =>
      obtain ⟨known, shut⟩ := h.cls ht
      change Ty.Twin m (.cls c) (.cls (c.fill classes σ (Ty.fillAt classes σ n)))
      cases hargs : c.args with
      | none =>
        rw [ClassTy.fill_of_bare hargs shut]
        exact .cls (.refl known) (by rw [hargs]; exact .none)
      | some given =>
        rw [ClassTy.fill_of_args hargs]
        refine .cls ⟨known, rfl, rfl, rfl, .inr rfl⟩ ?_
        rw [hargs]
        refine .some (List.forall₂_map_right_iff.2 (List.forall₂_same.2 fun o ho => ?_))
        have here : o ∈ c.argList := by rwa [ClassTy.argList, hargs]
        cases o with
        | none => exact .none
        | some t => exact .some (ih (h.part ht (.argument here)) (args _ here t rfl))
    | function params ret => exact .function (function ht params ret)
    | @overloaded _ _ fs each =>
      refine .overloaded (List.forall₂_map_right_iff.2 (List.forall₂_same.2 fun f hf => ?_))
      cases each f hf with
      | function params ret =>
        exact function (h.part ht (.overload hf)) (fun p hp => (params p hp).mono (Nat.le_succ _))
          (ret.mono (Nat.le_succ _))
    | @union _ _ ts each =>
      have made : ∀ t ∈ ts, t.Over .all := fun t here => (h.over_of (h.part ht (.alternative here))).all
      have filled : ∀ u ∈ ts.map (Ty.fillAt classes σ n), u.Over .all := by
        intro u hu
        obtain ⟨t, here, rfl⟩ := List.mem_map.1 hu
        exact (made t here).fillAt found n
      change Ty.Twin m (.union ts) (Ty.join (ts.map (Ty.fillAt classes σ n)))
      rw [← Ty.join_self (h.union ht), ← Ty.combine_eq_join made m.left,
        ← Ty.combine_eq_join filled m.right]
      refine holds.rel_combine (List.forall₂_map_left_iff.2 (List.forall₂_map_right_iff.2 ?_))
      refine List.forall₂_map_right_iff.2 (List.forall₂_same.2 fun t here => .some ?_)
      exact ih (h.part ht (.alternative here)) (each t here)

end Pairing.Replaces

/-! ## Seen through a view -/

private theorem isEmpty_ofClass_of_bare {classes : ClassTable} {owner : ClassTy}
    (bare : owner.args = none) :
    (Solution.ofClass classes owner).isEmpty = true := by
  unfold Solution.ofClass
  rw [bare]
  simp only [Solution.isEmpty, Solution.forScope, Fragment.entries_addScope, Solution.empty,
    List.isEmpty_nil]

private theorem Ty.specialize_eq_substitute (classes : ClassTable) (owner : ClassTy) (t : Ty) :
    t.specialize classes owner none = t.substitute classes (.ofClass classes owner) false := by
  unfold Ty.specialize memberSolution
  by_cases given : owner.args.isSome = true
  · rw [if_pos given]
  · have bare : owner.args = none := by simpa using given
    rw [if_neg given, Ty.substitute, isEmpty_ofClass_of_bare bare]
    rfl

private theorem Ty.specialize_function (classes : ClassTable) (owner : ClassTy) (f : FunctionTy) :
    (Ty.function f).specialize classes owner none = Ty.function <$> f.specialize classes owner := by
  unfold Ty.specialize FunctionTy.specialize
  cases memberSolution classes owner none with
  | none => rfl
  | some σ => exact Ty.substitute_function classes σ f

namespace Pairing.Replaces

variable {m : Pairing} {classes : ClassTable} {owner : ClassTy} {P : Ty → Prop}
  (h : m.Replaces classes (.ofClass classes owner) P) {t : Ty}
include h

private theorem fillAt_of_isEmpty (empty : (Solution.ofClass classes owner).isEmpty = true)
    (n : Nat)
    (ht : P t) : t.fillAt classes (.ofClass classes owner) n = t := by
  refine Ty.fillAt_eq_self (fun c shut => shut) (fun v _ => ?_) n (h.over_of ht)
  have nothing : (Solution.ofClass classes owner).get? v = none := by
    rw [Solution.get?, List.isEmpty_iff.1 empty]
    rfl
  unfold Substitution.ofVar
  rw [nothing]
  split <;> rfl

theorem cls_through {c : ClassTy} (hc : P (.cls c)) :
    Ty.cls (c.through classes owner) = (Ty.cls c).fillAt classes (.ofClass classes owner) Ty.levels := by
  by_cases given : owner.args.isSome = true
  · exact ClassTy.cls_through given
  · have bare : owner.args = none := by simpa using given
    rw [h.fillAt_of_isEmpty (isEmpty_ofClass_of_bare bare) _ hc, ClassTy.through_of_bare bare]

variable (holds : m.Holds m.left m.right) (made : (Ty.cls owner).Over .all)
include made

theorem specialize_eq (ht : P t) (inf : Inference) : t.specialize classes owner none inf =
    (t.fillAt classes (.ofClass classes owner) Ty.levels, inf) := by
  rw [Ty.specialize_eq_substitute, Ty.substitute]
  split
  · rename_i empty
    rw [Bool.not_false, Bool.and_true] at empty
    rw [h.fillAt_of_isEmpty empty _ ht]
    rfl
  · exact ofTyAt_eq (finds_ofClass made trivial) _ (h.over_of ht).all inf

include holds

/-- What is seen through the view is the twin of what is written. -/
theorem both_seen (ht : P t) (nests : t.Nests classes [] Ty.levels) :
    m.Both (Ty.Twin m) (pure t) (t.specialize classes owner none) := by
  intro inf inf' now
  rw [h.specialize_eq made ht]
  exact ⟨h.twin holds (finds_ofClass made trivial) ht nests, now⟩

theorem both_seenFunction {f : FunctionTy} (hf : P (.function f))
    (nests : (Ty.function f).Nests classes [] Ty.levels) :
    m.Both (FunctionTy.Twin m) (pure f) (f.specialize classes owner) := by
  intro inf inf' now
  obtain ⟨seen, after⟩ := h.both_seen holds made hf nests inf inf' now
  rw [Ty.specialize_function] at seen after
  cases seen with
  | function twin => exact ⟨twin, after⟩

end Pairing.Replaces

end Conformance
