import Conformance.Proofs.Learning
import Conformance.Proofs.Sameness
import Mathlib.Data.List.Forall2
import Mathlib.Logic.Equiv.Basic

/-!
# Twins

Two runs are set side by side that hand out cells under different numbers, or that are asked about
types which sameness does not tell apart place by place. What the one comes across is then the twin of
what the other comes across: the same but for the numbers of cells, and, where this is allowed, but
for what no comparison looks at. Sameness and unions do not tell twins apart.
-/

namespace Conformance

/-- How the second of two runs calls the type variables of the first: the scopes, the variables by
their names and scopes, and the keys under which solutions keep them. -/
structure Renaming where
  scope : Equiv.Perm String
  var : Equiv.Perm (String × String)
  key : Equiv.Perm String
  /-- What has no scope stays without one. -/
  unscoped : scope "" = ""

/-- All variables keep their names. -/
def Renaming.none : Renaming := ⟨.refl _, .refl _, .refl _, rfl⟩

theorem Renaming.isEmpty_scope (r : Renaming) (scope : String) :
    (r.scope scope).isEmpty = scope.isEmpty := by
  rw [Bool.eq_iff_iff, String.isEmpty_iff, String.isEmpty_iff]
  exact ⟨fun none => r.scope.injective (none.trans r.unscoped.symm), fun none => none ▸ r.unscoped⟩

/-- Two runs that are compared: what is known about return types when they begin, and which of the
cells that were handed out by then they have in common. -/
structure Pairing where
  left : Inference
  right : Inference
  common : CellId → Prop
  /-- The classes and the modules that the runs come across. -/
  classes : ClassId → Prop
  modules : TableId → Prop
  /-- Twins may differ in what no comparison looks at: the names of functions and modules, marks of
  classes and of type variables, whether an unknown type is written as an annotation, and how a return
  type came to be known. -/
  loose : Prop
  /-- How the second run calls the type variables of the first. -/
  naming : Renaming

namespace Pairing

/-- The cells are in common, or the two runs have handed them out one after the other at the same
time. -/
def Cell (m : Pairing) (c c' : Nat) : Prop :=
  (m.common c ∧ c < m.left.settled.size ∧ c < m.right.settled.size ∧ c' = c) ∨
    ∃ i, c = m.left.settled.size + i ∧ c' = m.right.settled.size + i

/-- Since the two runs began, they have handed out as many cells and settled the same ones. -/
structure Holds (m : Pairing) (inf inf' : Inference) : Prop where
  size : ∃ i, inf.settled.size = m.left.settled.size + i ∧
    inf'.settled.size = m.right.settled.size + i
  settled {c c' : CellId} (h : m.Cell c c') : inf'.isSettled c' = inf.isSettled c
  left : m.left.Later inf
  right : m.right.Later inf'

end Pairing

/-- The two views are of one class, which the runs come across. Their type arguments are left out. -/
structure ClassTy.Alike (m : Pairing) (c d : ClassTy) : Prop where
  known : m.classes c.id
  id : d.id = c.id
  isInstance : d.isInstance = c.isInstance
  literal : d.literal = c.literal
  marked : m.loose ∨ d.explicit = c.explicit

/-- The type variables are alike but for their bounds. -/
structure TypeVar.Alike (m : Pairing) (v u : TypeVar) : Prop where
  called : (u.name, u.scope) = m.naming.var (v.name, v.scope)
  scope : u.scope = m.naming.scope v.scope
  key : u.key = m.naming.key v.key
  access : u.access = v.access
  marked : m.loose ∨ u.variance = v.variance ∧ u.isSelf = v.isSelf ∧ u.isParamSpec = v.isParamSpec

mutual

/-- The two types are the same but for what the two runs may differ in. -/
inductive Ty.Twin (m : Pairing) : Ty → Ty → Prop
  | unknown : Ty.Twin m .unknown .unknown
  | any : Ty.Twin m .any .any
  | noneObject : Ty.Twin m .noneObject .noneObject
  | cls {c d : ClassTy} (alike : ClassTy.Alike m c d)
      (args : Option.Rel (List.Forall₂ (Option.Rel (Ty.Twin m))) c.args d.args) :
      Ty.Twin m (.cls c) (.cls d)
  | module {name name' : String} {table : TableId} (named : m.loose ∨ name' = name)
      (known : m.modules table) : Ty.Twin m (.module name table) (.module name' table)
  | function {f g : FunctionTy} (twin : FunctionTy.Twin m f g) :
      Ty.Twin m (.function f) (.function g)
  | overloaded {fs gs : List FunctionTy} (twins : List.Forall₂ (FunctionTy.Twin m) fs gs) :
      Ty.Twin m (.overloaded fs) (.overloaded gs)
  | var {v u : TypeVar} (alike : TypeVar.Alike m v u)
      (bound : Option.Rel (Ty.Twin m) v.bound u.bound) : Ty.Twin m (.var v) (.var u)
  | union {ts us : List Ty} (twins : List.Forall₂ (Ty.Twin m) ts us) :
      Ty.Twin m (.union ts) (.union us)

inductive FunctionTy.Twin (m : Pairing) : FunctionTy → FunctionTy → Prop
  | mk {f g : FunctionTy}
      (named : m.loose ∨ g.name = f.name) (kind : g.kind = f.kind)
      (scope : g.scope = m.naming.scope f.scope)
      (params : List.Forall₂ (Param.Twin m) f.params g.params)
      (ret : FunctionTy.Returns m f g) : FunctionTy.Twin m f g

inductive Param.Twin (m : Pairing) : Param → Param → Prop
  | mk {p q : Param} (kind : q.kind = p.kind) (name : q.name = p.name)
      (hasDefault : q.hasDefault = p.hasDefault)
      (written : m.loose ∨ q.type.isSome = p.type.isSome)
      (type : Ty.Twin m p.typeOrUnknown q.typeOrUnknown) : Param.Twin m p q

/-- The return types of the two functions are twins, and so are the ways to find them out. -/
inductive FunctionTy.Returns (m : Pairing) : FunctionTy → FunctionTy → Prop
  | declared {f g : FunctionTy} {t u : Ty} (ret : f.ret = .declared t) (ret' : g.ret = .declared u)
      (twin : Ty.Twin m t u) : FunctionTy.Returns m f g
  | undeclared {f g : FunctionTy} (ret : f.ret = .undeclared) (ret' : g.ret = .undeclared) :
      FunctionTy.Returns m f g
  | deferred {f g : FunctionTy} {c c' : CellId} {o o' : Outcome} (ret : f.ret = .deferred c o)
      (ret' : g.ret = .deferred c' o') (cell : m.Cell c c') (outcome : Outcome.Twin m o o') :
      FunctionTy.Returns m f g
  | known {f g : FunctionTy} (loose : m.loose) (found : m.left.isOpen f = false)
      (found' : m.right.isOpen g = false)
      (twin : Ty.Twin m (m.left.returnType f) (m.right.returnType g)) : FunctionTy.Returns m f g

inductive Outcome.Twin (m : Pairing) : Outcome → Outcome → Prop
  | returns {t u : Option Ty} (twin : Option.Rel (Ty.Twin m) t u) :
      Outcome.Twin m (.returns t) (.returns u)
  | raises (message : String) : Outcome.Twin m (.raises message) (.raises message)

end

/-- The two views of a class are twins. -/
abbrev ClassTy.Twin (m : Pairing) (c d : ClassTy) : Prop := Ty.Twin m (.cls c) (.cls d)

/-- The two type variables are twins. -/
abbrev TypeVar.Twin (m : Pairing) (v u : TypeVar) : Prop := Ty.Twin m (.var v) (.var u)

/-! ## Related lists -/

section

variable {α β γ δ : Type} {R : α → β → Prop} {S : γ → δ → Prop}

theorem all_eq_of_rel {as : List α} {bs : List β} (h : List.Forall₂ R as bs) {p : α → Bool}
    {q : β → Bool} (hp : ∀ a b, R a b → q b = p a) : bs.all q = as.all p := by
  induction h with
  | nil => rfl
  | cons hab _ ih => rw [List.all_cons, List.all_cons, hp _ _ hab, ih]

theorem any_eq_of_rel {as : List α} {bs : List β} (h : List.Forall₂ R as bs) {p : α → Bool}
    {q : β → Bool} (hp : ∀ a b, R a b → q b = p a) : bs.any q = as.any p := by
  induction h with
  | nil => rfl
  | cons hab _ ih => rw [List.any_cons, List.any_cons, hp _ _ hab, ih]

theorem rel_find? {as : List α} {bs : List β} (h : List.Forall₂ R as bs) {p : α → Bool}
    {q : β → Bool} (hp : ∀ a b, R a b → q b = p a) : Option.Rel R (as.find? p) (bs.find? q) := by
  induction h with
  | nil => exact .none
  | @cons a b _ _ hab _ ih =>
    rw [List.find?_cons, List.find?_cons, hp a b hab]
    cases p a with
    | true => exact .some hab
    | false => exact ih

theorem allPairs_eq_of_rel {as : List α} {bs : List β} (h : List.Forall₂ R as bs) {cs : List α}
    {ds : List β} (h' : List.Forall₂ R cs ds) {same : α → α → Bool} {same' : β → β → Bool}
    (hs : ∀ a b c d, R a b → R c d → same' b d = same a c) :
    allPairs same' bs ds = allPairs same as cs := by
  induction h generalizing cs ds with
  | nil => cases h' <;> rfl
  | cons hab _ ih =>
    cases h' with
    | nil => rfl
    | cons hcd hrest => rw [allPairs, allPairs, hs _ _ _ _ hab hcd, ih hrest]

theorem rel_option_isSome {a : Option α} {b : Option β} (h : Option.Rel R a b) :
    b.isSome = a.isSome := by
  cases h <;> rfl

theorem rel_option_isNone {a : Option α} {b : Option β} (h : Option.Rel R a b) :
    b.isNone = a.isNone := by
  cases h <;> rfl

theorem rel_option_getD {a : Option α} {b : Option β} (h : Option.Rel R a b) {x : α} {y : β}
    (hd : R x y) : R (a.getD x) (b.getD y) := by
  cases h with
  | none => exact hd
  | some h => exact h

theorem rel_option_map {a : Option α} {b : Option β} (h : Option.Rel R a b) {f : α → γ} {g : β → δ}
    (hf : ∀ a b, R a b → S (f a) (g b)) : Option.Rel S (a.map f) (b.map g) := by
  cases h with
  | none => exact .none
  | some h => exact .some (hf _ _ h)

theorem rel_option_self {R : α → α → Prop} {o : Option α} (h : ∀ a, o = some a → R a a) :
    Option.Rel R o o := by
  cases o with
  | none => exact .none
  | some a => exact .some (h a rfl)

theorem rel_getElem? {as : List α} {bs : List β} (h : List.Forall₂ R as bs) (i : Nat) :
    Option.Rel R as[i]? bs[i]? := by
  induction h generalizing i with
  | nil => exact .none
  | cons hab _ ih =>
    cases i with
    | zero => exact .some hab
    | succ i => simpa using ih i

theorem rel_tail {as : List α} {bs : List β} (h : List.Forall₂ R as bs) :
    List.Forall₂ R as.tail bs.tail := by
  cases h with
  | nil => exact .nil
  | cons _ rest => exact rest

end

/-! ## Related types -/

section

variable {R : Ty → Ty → Prop}

theorem rel_padPairs (unknown : R .unknown .unknown) {as as' bs bs' : List (Option Ty)}
    (ha : List.Forall₂ (Option.Rel R) as as') (hb : List.Forall₂ (Option.Rel R) bs bs') :
    List.Forall₂ (fun p p' => Option.Rel R p.1 p'.1 ∧ Option.Rel R p.2 p'.2)
      (padPairs as bs) (padPairs as' bs') := by
  induction ha generalizing bs bs' with
  | nil =>
    rw [padPairs, padPairs, List.forall₂_map_left_iff, List.forall₂_map_right_iff]
    exact hb.imp fun _ _ h => ⟨.some unknown, h⟩
  | @cons a a' as as' haa has ih =>
    cases hb with
    | nil =>
      rw [padPairs, padPairs, List.forall₂_map_left_iff, List.forall₂_map_right_iff]
      exact (List.Forall₂.cons haa has).imp fun _ _ h => ⟨h, .some unknown⟩
    | cons hbb hbs =>
      rw [padPairs, padPairs]
      exact .cons ⟨haa, hbb⟩ (ih hbs)

/-- Building a union does not tell related types apart. -/
structure Ty.CombinedAlike (inf inf' : Inference) (R : Ty → Ty → Prop) : Prop where
  anything {t u : Ty} (h : R t u) : u.isAnyOrUnknown = t.isAnyOrUnknown
  alternatives {t u : Ty} (h : R t u) : List.Forall₂ R t.alternatives u.alternatives
  same {t t' u u' : Ty} (ht : R t t') (hu : R u u') : t'.same inf' u' = t.same inf u
  unknown : R .unknown .unknown
  union {ts us : List Ty} (h : List.Forall₂ R ts us) : R (.union ts) (.union us)

namespace Ty.CombinedAlike

variable {inf inf' : Inference} (h : Ty.CombinedAlike inf inf' R)
include h

theorem distinct {ts ts' : List Ty} (ht : List.Forall₂ R ts ts') :
    List.Forall₂ R (Ty.distinct inf ts) (Ty.distinct inf' ts') := by
  refine List.rel_foldl (P := List.Forall₂ R) (fun found found' hf t t' ht => ?_) .nil ht
  unfold Ty.insertDistinct
  rw [any_eq_of_rel hf fun u u' hu => h.same hu ht]
  split
  · exact hf
  · exact List.rel_append hf (.cons ht .nil)

theorem combine {types types' : List (Option Ty)}
    (ht : List.Forall₂ (Option.Rel R) types types') :
    R (Ty.combine inf types) (Ty.combine inf' types') := by
  have given : List.Forall₂ R (types.filterMap id) (types'.filterMap id) :=
    List.rel_filterMap (fun _ _ hab => hab) ht
  have found := rel_find? given fun t t' ht => h.anything ht
  have flat : List.Forall₂ R ((types.filterMap id).flatMap Ty.alternatives)
      ((types'.filterMap id).flatMap Ty.alternatives) :=
    List.rel_flatMap given fun _ _ ht => h.alternatives ht
  have distinct := h.distinct flat
  unfold Ty.combine
  dsimp only
  generalize (types.filterMap id).find? Ty.isAnyOrUnknown = a at found
  generalize (types'.filterMap id).find? Ty.isAnyOrUnknown = b at found
  generalize Ty.distinct inf ((types.filterMap id).flatMap Ty.alternatives) = us at distinct
  generalize Ty.distinct inf' ((types'.filterMap id).flatMap Ty.alternatives) = us' at distinct
  cases found with
  | some ht => exact ht
  | none =>
    cases distinct with
    | nil => exact h.unknown
    | cons first rest =>
      cases rest with
      | nil => exact first
      | cons second rest => exact h.union (.cons first (.cons second rest))

end Ty.CombinedAlike

end

/-! ## Cells -/

namespace Pairing

variable {m : Pairing} {inf inf' : Inference} {c c' d d' : Nat}

/-- Runs that have all cells in common hand out new ones under the same numbers. -/
theorem cell_of_common (all : ∀ c, m.common c) (same : m.right = m.left) (c : CellId) :
    m.Cell c c := by
  by_cases given : c < m.left.settled.size
  · exact .inl ⟨all c, given, same ▸ given, rfl⟩
  · obtain ⟨i, rfl⟩ := Nat.exists_eq_add_of_le (Nat.le_of_not_lt given)
    exact .inr ⟨i, rfl, by rw [same]⟩

private theorem Cell.eq_iff (hc : m.Cell c c') (hd : m.Cell d d') : c = d ↔ c' = d' := by
  rcases hc with ⟨-, hc, hc', rfl⟩ | ⟨i, rfl, rfl⟩ <;>
    rcases hd with ⟨-, hd, hd', rfl⟩ | ⟨j, rfl, rfl⟩ <;> omega

namespace Holds

variable (h : m.Holds inf inf')
include h

private theorem lt_size_iff (hc : m.Cell c c') : c' < inf'.settled.size ↔ c < inf.settled.size := by
  obtain ⟨i, size, size'⟩ := h.size
  rcases hc with ⟨-, hc, hc', rfl⟩ | ⟨j, rfl, rfl⟩ <;> omega

/-- The next cells of the two runs belong together. -/
theorem next : m.Cell inf.settled.size inf'.settled.size := .inr h.size

theorem newCell : m.Holds (Inference.newCell inf).2 (Inference.newCell inf').2 := by
  have opened (now : Inference) := opens_newCell now
  have pushed (now : Inference) : (Inference.newCell now).2.settled.size = now.settled.size + 1 := by
    change (now.settled.push false).size = _
    simp
  obtain ⟨i, size, size'⟩ := h.size
  refine ⟨⟨i + 1, ?_, ?_⟩, fun hc => ?_, h.left.trans (.of_opened (opened inf)),
    h.right.trans (.of_opened (opened inf'))⟩
  · rw [pushed, size, Nat.add_assoc]
  · rw [pushed, size', Nat.add_assoc]
  · rw [(opened inf').settled, (opened inf).settled, h.settled hc]

end Holds

theorem isSettled_settle_iff (inf : Inference) (cell other : CellId) :
    (inf.settle cell).isSettled other =
      (decide (cell = other ∧ cell < inf.settled.size) || inf.isSettled other) := by
  by_cases given : cell < inf.settled.size
  · simp [Inference.isSettled_settle given, given]
  · simp [Inference.isSettled, Inference.settle, Array.setIfInBounds, given]

theorem Holds.settle (h : m.Holds inf inf') (hc : m.Cell c c') (name name' : String) :
    m.Holds { inf.settle c with calls := inf.calls ++ [name] }
      { inf'.settle c' with calls := inf'.calls ++ [name'] } := by
  obtain ⟨i, size, size'⟩ := h.size
  refine ⟨⟨i, ?_, ?_⟩, fun {d d'} hd => ?_, h.left.trans (.settle inf c name),
    h.right.trans (.settle inf' c' name')⟩
  · simpa [Inference.settle] using size
  · simpa [Inference.settle] using size'
  · change (inf'.settle c').isSettled d' = (inf.settle c).isSettled d
    rw [isSettled_settle_iff, isSettled_settle_iff, h.settled hd]
    congr 2
    rw [hc.eq_iff hd, h.lt_size_iff hc]

theorem Holds.start (m : Pairing)
    (agree : ∀ c, m.common c → m.right.isSettled c = m.left.isSettled c) :
    m.Holds m.left m.right := by
  refine ⟨⟨0, rfl, rfl⟩, fun {c c'} hc => ?_, .refl _, .refl _⟩
  rcases hc with ⟨common, -, -, rfl⟩ | ⟨i, rfl, rfl⟩
  · exact agree _ common
  · simp [Inference.isSettled]

end Pairing

/-! ## Types -/

variable {m : Pairing} {inf inf' : Inference}

namespace ClassTy.Twin

variable {c d : ClassTy} (h : c.Twin m d)
include h

theorem alike : ClassTy.Alike m c d := by
  cases h
  assumption

theorem known : m.classes c.id := h.alike.known

theorem id : d.id = c.id := h.alike.id

theorem isInstance : d.isInstance = c.isInstance := h.alike.isInstance

theorem literal : d.literal = c.literal := h.alike.literal

theorem args : Option.Rel (List.Forall₂ (Option.Rel (Ty.Twin m))) c.args d.args := by
  cases h
  assumption

theorem argList : List.Forall₂ (Option.Rel (Ty.Twin m)) c.argList d.argList :=
  rel_option_getD h.args .nil

theorem toInstance : c.toInstance.Twin m d.toInstance :=
  .cls { h.alike with isInstance := rfl } h.args

theorem toClassObject : c.toClassObject.Twin m d.toClassObject :=
  .cls { h.alike with isInstance := rfl } h.args

/-- Without type arguments nothing is left that twins may differ in. -/
theorem generic_eq : d.generic = c.generic := by
  have id := h.id
  have isInstance := h.isInstance
  have literal := h.literal
  obtain ⟨_, _, _, _, _⟩ := c
  obtain ⟨_, _, _, _, _⟩ := d
  simp_all [ClassTy.generic]

end ClassTy.Twin

theorem ClassTy.Alike.refl {c : ClassTy} (known : m.classes c.id) : ClassTy.Alike m c c :=
  ⟨known, rfl, rfl, rfl, .inr rfl⟩

theorem ClassTy.twin_generic {c : ClassTy} (known : m.classes c.id) : c.generic.Twin m c.generic :=
  .cls (.refl known) .none

theorem ClassTy.twin_withArgs {c d : ClassTy} (h : c.Twin m d) {as bs : List (Option Ty)}
    (ha : List.Forall₂ (Option.Rel (Ty.Twin m)) as bs) (explicit : Bool) :
    (c.withArgs as explicit).Twin m (d.withArgs bs explicit) :=
  .cls { h.alike with marked := .inr rfl } (.some ha)

namespace TypeVar.Alike

/-- A variable that keeps its name. -/
theorem refl (plain : m.naming = .none) (v : TypeVar) : TypeVar.Alike m v v := by
  refine ⟨?_, ?_, ?_, rfl, .inr ⟨rfl, rfl, rfl⟩⟩ <;> rw [plain] <;> rfl

private theorem sameName_eq {v u v' u' : TypeVar} (h : TypeVar.Alike m v u)
    (h' : TypeVar.Alike m v' u') :
    (u.name == u'.name && u.scope == u'.scope) = (v.name == v'.name && v.scope == v'.scope) := by
  have pairs (x y : TypeVar) : (x.name == y.name && x.scope == y.scope) =
      ((x.name, x.scope) == (y.name, y.scope)) := rfl
  rw [pairs, pairs, h.called, h'.called, Bool.eq_iff_iff, beq_iff_eq, beq_iff_eq,
    EmbeddingLike.apply_eq_iff_eq]

end TypeVar.Alike

namespace TypeVar.Twin

variable {v u : TypeVar} (h : v.Twin m u)
include h

theorem alike : TypeVar.Alike m v u := by
  cases h
  assumption

theorem bound : Option.Rel (Ty.Twin m) v.bound u.bound := by
  cases h
  assumption

theorem scope : u.scope = m.naming.scope v.scope := h.alike.scope

theorem access : u.access = v.access := h.alike.access

theorem key : u.key = m.naming.key v.key := h.alike.key

end TypeVar.Twin

namespace Ty.Twin

variable {t u : Ty} (h : t.Twin m u)
include h

theorem category : u.category = t.category := by
  cases h <;> rfl

theorem isAnyOrUnknown : u.isAnyOrUnknown = t.isAnyOrUnknown := by
  cases h <;> rfl

theorem isCallable : u.isCallable = t.isCallable := by
  cases h <;> rfl

theorem alternatives : List.Forall₂ (Ty.Twin m) t.alternatives u.alternatives := by
  have itself := h
  cases h with
  | union twins => exact twins
  | _ => exact .cons itself .nil

theorem asInstance? : Option.Rel (ClassTy.Twin m) t.asInstance? u.asInstance? := by
  cases h with
  | @cls c d alike args =>
    rw [Ty.asInstance?, Ty.asInstance?, alike.isInstance]
    split
    · exact .some (.cls alike args)
    · exact .none
  | _ => exact .none

theorem asClassObject? : Option.Rel (ClassTy.Twin m) t.asClassObject? u.asClassObject? := by
  cases h with
  | @cls c d alike args =>
    rw [Ty.asClassObject?, Ty.asClassObject?, alike.isInstance]
    split
    · exact .none
    · exact .some (.cls alike args)
  | _ => exact .none

theorem isInstance_eq : u.isInstance = t.isInstance := rel_option_isSome h.asInstance?

theorem hasLiteralAt (inArgs : Bool) (n : Nat) :
    u.hasLiteralAt inArgs n = t.hasLiteralAt inArgs n := by
  induction n generalizing t u with
  | zero => rfl
  | succ n ih =>
    cases h with
    | cls alike args =>
      have given := ClassTy.Twin.argList (.cls alike args)
      rw [Ty.hasLiteralAt, Ty.hasLiteralAt, alike.isInstance, alike.literal]
      congr 2
      refine any_eq_of_rel given fun a b hab => ?_
      cases hab with
      | none => rfl
      | some hab => exact ih hab
    | union twins =>
      rw [Ty.hasLiteralAt, Ty.hasLiteralAt]
      exact any_eq_of_rel twins fun a b hab => ih hab
    | _ => rfl

end Ty.Twin

/-! ## Functions -/

namespace FunctionTy.Twin

variable {f g : FunctionTy} (h : f.Twin m g)
include h

theorem kind : g.kind = f.kind := by
  cases h
  assumption

theorem scope : g.scope = m.naming.scope f.scope := by
  cases h
  assumption

theorem params : List.Forall₂ (Param.Twin m) f.params g.params := by
  cases h
  assumption

theorem ret : f.Returns m g := by
  cases h
  assumption

/-- Twins with other parameters and another return type are twins if these are. -/
theorem withSignature {ps qs : List Param} (hp : List.Forall₂ (Param.Twin m) ps qs) {r r' : Return}
    (hr : FunctionTy.Returns m { f with params := ps, ret := r } { g with params := qs, ret := r' }) :
    FunctionTy.Twin m { f with params := ps, ret := r } { g with params := qs, ret := r' } := by
  cases h with
  | mk named kind scope => exact .mk named kind scope hp hr

end FunctionTy.Twin

/-- Annotations that are twins, or of which one is left out and the other says nothing. -/
inductive Pairing.Annotated (m : Pairing) : Option Ty → Option Ty → Prop
  | both {t u : Ty} (h : t.Twin m u) : m.Annotated (some t) (some u)
  | neither : m.Annotated none none
  | left (loose : m.loose) : m.Annotated (some .unknown) none
  | right (loose : m.loose) : m.Annotated none (some .unknown)

namespace Param.Twin

variable {p q : Param} (h : p.Twin m q)
include h

theorem kind : q.kind = p.kind := by
  cases h
  assumption

theorem name : q.name = p.name := by
  cases h
  assumption

theorem hasDefault : q.hasDefault = p.hasDefault := by
  cases h
  assumption

theorem type : p.typeOrUnknown.Twin m q.typeOrUnknown := by
  cases h
  assumption

theorem annotated : m.Annotated p.type q.type := by
  obtain ⟨-, -, -, written, type⟩ := h
  unfold Param.typeOrUnknown at type
  generalize p.type = a at written type
  generalize q.type = b at written type
  cases a with
  | none =>
    cases b with
    | none => exact .neither
    | some u =>
      change Ty.Twin m .unknown u at type
      cases type
      exact .right (by simpa using written)
  | some t =>
    cases b with
    | none =>
      change Ty.Twin m t .unknown at type
      cases type
      exact .left (by simpa using written)
    | some u => exact .both type

theorem isPositionalOnly : q.isPositionalOnly = p.isPositionalOnly := by
  rw [Param.isPositionalOnly, Param.isPositionalOnly, h.name]

end Param.Twin

namespace Pairing.Holds

variable (h : m.Holds inf inf')
include h

theorem isOpen_eq {f g : FunctionTy} (hr : f.Returns m g) : inf'.isOpen g = inf.isOpen f := by
  cases hr with
  | declared ret ret' => rw [Inference.isOpen, Inference.isOpen, ret, ret']
  | undeclared ret ret' => rw [Inference.isOpen, Inference.isOpen, ret, ret']
  | deferred ret ret' cell =>
    rw [Inference.isOpen, Inference.isOpen, ret, ret']
    dsimp only
    rw [h.settled cell]
  | known loose found found' => rw [h.right.isOpen_eq_false found', h.left.isOpen_eq_false found]

theorem returnType {f g : FunctionTy} (hr : f.Returns m g) :
    (inf.returnType f).Twin m (inf'.returnType g) := by
  cases hr with
  | declared ret ret' twin =>
    rw [Inference.returnType, Inference.returnType, ret, ret']
    exact twin
  | undeclared ret ret' =>
    rw [Inference.returnType, Inference.returnType, ret, ret']
    exact .unknown
  | deferred ret ret' cell outcome =>
    rw [Inference.returnType, Inference.returnType, ret, ret']
    dsimp only
    rw [h.settled cell]
    split
    · cases outcome with
      | returns twin => exact rel_option_getD twin .unknown
      | raises => exact .unknown
    · exact .unknown
  | known loose found found' twin =>
    rw [h.right.returnType_eq found', h.left.returnType_eq found]
    exact twin

/-! ## Sameness -/

/-- Sameness does not tell twins apart. -/
theorem sameAt_eq (n : Nat) {t t' u u' : Ty} (ht : t.Twin m t') (hu : u.Twin m u') :
    sameAt inf' n t' u' = sameAt inf n t u := by
  induction n generalizing t t' u u' with
  | zero => rw [sameAt, sameAt, ht.category, hu.category]
  | succ n ih =>
    have functions {f f' g g' : FunctionTy} (hf : f.Twin m f') (hg : g.Twin m g') :
        sameFunction inf' (sameAt inf' n) f' g' = sameFunction inf (sameAt inf n) f g := by
      rw [sameFunction, sameFunction, hf.kind, hg.kind,
        ih (h.returnType hf.ret) (h.returnType hg.ret)]
      congr 2
      refine allPairs_eq_of_rel hf.params hg.params fun p p' q q' hp hq => ?_
      rw [sameParam, sameParam, hp.kind, hq.kind, hp.name, hq.name, ih hp.type hq.type]
    cases ht with
    | cls alike args =>
      cases hu with
      | cls alike' args' =>
        have left := ClassTy.Twin.argList (.cls alike args)
        have right := ClassTy.Twin.argList (.cls alike' args')
        rw [sameAt, sameAt, sameClassTy, sameClassTy, ClassTy.sameClass, ClassTy.sameClass,
          alike.id, alike'.id, alike.isInstance, alike'.isInstance, alike.literal, alike'.literal]
        congr 1
        refine all_eq_of_rel (rel_padPairs .unknown left right) fun p p' hp => ?_
        obtain ⟨a, b⟩ := p
        obtain ⟨a', b'⟩ := p'
        obtain ⟨ha, hb⟩ := hp
        cases ha with
        | none => cases hb <;> rfl
        | some ha =>
          cases hb with
          | none => rfl
          | some hb => exact ih ha hb
      | _ => rfl
    | function hf =>
      cases hu with
      | function hg => exact functions hf hg
      | _ => rfl
    | overloaded hf =>
      cases hu with
      | overloaded hg =>
        rw [sameAt, sameAt]
        exact allPairs_eq_of_rel hf hg fun f f' g g' hf hg => ih (.function hf) (.function hg)
      | _ => rfl
    | var alike bound =>
      cases hu with
      | var alike' bound' =>
        rw [sameAt, sameAt, alike.access, alike'.access, alike.sameName_eq alike']
      | _ => rfl
    | union hts =>
      cases hu with
      | union hus =>
        rw [sameAt, sameAt, hts.length_eq, hus.length_eq]
        congr 1
        exact all_eq_of_rel hts fun t t' ht => any_eq_of_rel hus fun u u' hu => ih ht hu
      | _ => rfl
    | _ => cases hu <;> rfl

theorem same_eq {t t' u u' : Ty} (ht : t.Twin m t') (hu : u.Twin m u') :
    t'.same inf' u' = t.same inf u := h.sameAt_eq _ ht hu

/-! ## Unions -/

theorem rel_combine {types types' : List (Option Ty)}
    (ht : List.Forall₂ (Option.Rel (Ty.Twin m)) types types') :
    (Ty.combine inf types).Twin m (Ty.combine inf' types') :=
  Ty.CombinedAlike.combine
    { anything := fun ht => ht.isAnyOrUnknown
      alternatives := fun ht => ht.alternatives
      same := fun ht hu => h.same_eq ht hu
      unknown := .unknown
      union := .union } ht

end Pairing.Holds

/-! ## Types that are their own twins -/

/-- What a type is put together from. -/
inductive Ty.Part : Ty → Ty → Prop
  | argument {c : ClassTy} {t : Ty} (here : some t ∈ c.argList) : Ty.Part t (.cls c)
  | param {f : FunctionTy} {p : Param} {t : Ty} (here : p ∈ f.params) (typed : p.type = some t) :
      Ty.Part t (.function f)
  | declared {f : FunctionTy} {t : Ty} (ret : f.ret = .declared t) : Ty.Part t (.function f)
  | found {f : FunctionTy} {cell : CellId} {t : Ty} (ret : f.ret = .deferred cell (.returns (some t))) :
      Ty.Part t (.function f)
  | overload {fs : List FunctionTy} {f : FunctionTy} (here : f ∈ fs) :
      Ty.Part (.function f) (.overloaded fs)
  | bound {v : TypeVar} {t : Ty} (h : v.bound = some t) : Ty.Part t (.var v)
  | alternative {ts : List Ty} {t : Ty} (here : t ∈ ts) : Ty.Part t (.union ts)

theorem Ty.Part.sizeOf_lt {t u : Ty} (h : u.Part t) : sizeOf u < sizeOf t := by
  cases h with
  | @argument c t here =>
    obtain ⟨id, isInstance, args, explicit, literal⟩ := c
    cases args with
    | none => cases here
    | some as =>
      have smaller := List.sizeOf_lt_of_mem (show some u ∈ as from here)
      simp at smaller ⊢
      omega
  | @param f p t here typed =>
    obtain ⟨name, params, ret, kind, scope⟩ := f
    obtain ⟨kind, name, type, hasDefault⟩ := p
    have smaller := List.sizeOf_lt_of_mem here
    dsimp only at typed
    subst typed
    simp at smaller ⊢
    omega
  | @declared f t ret =>
    obtain ⟨name, params, _, kind, scope⟩ := f
    dsimp only at ret
    subst ret
    simp
    omega
  | @found f cell t ret =>
    obtain ⟨name, params, _, kind, scope⟩ := f
    dsimp only at ret
    subst ret
    simp
    omega
  | @overload fs f here =>
    have smaller := List.sizeOf_lt_of_mem here
    simp
    omega
  | @bound v t h =>
    obtain ⟨name, scope, variance, bound, isSelf, isParamSpec, access⟩ := v
    dsimp only at h
    subst h
    simp
    omega
  | alternative here =>
    have smaller := List.sizeOf_lt_of_mem here
    simp
    omega

/-- The runs come across the classes and modules of these types and of what they are put together
from, have their cells in common, and call their variables by the same names. -/
structure Pairing.Shares (m : Pairing) (P : Ty → Prop) : Prop where
  part {t u : Ty} (h : P t) (hu : u.Part t) : P u
  cls {c : ClassTy} (h : P (.cls c)) : m.classes c.id
  module {name : String} {table : TableId} (h : P (.module name table)) : m.modules table
  cell {f : FunctionTy} {cell : CellId} {outcome : Outcome} (h : P (.function f))
    (ret : f.ret = .deferred cell outcome) : m.Cell cell cell
  var {v : TypeVar} (h : P (.var v)) : TypeVar.Alike m v v
  scope {f : FunctionTy} (h : P (.function f)) : m.naming.scope f.scope = f.scope

namespace Pairing.Shares

variable {P : Ty → Prop} (h : m.Shares P)
include h

private theorem twin_of_parts {t : Ty} (ht : P t) (parts : ∀ u : Ty, u.Part t → u.Twin m u) :
    t.Twin m t := by
  cases t with
  | unknown => exact .unknown
  | any => exact .any
  | noneObject => exact .noneObject
  | module name table => exact .module (.inr rfl) (h.module ht)
  | cls c =>
    refine .cls (.refl (h.cls ht)) ?_
    cases ha : c.args with
    | none => exact .none
    | some as =>
      refine .some (List.forall₂_same.2 fun a here => rel_option_self fun t given => ?_)
      apply parts
      apply Ty.Part.argument
      rw [ClassTy.argList, ha, ← given]
      exact here
  | function f =>
    refine .function (.mk (.inr rfl) rfl (h.scope ht).symm (List.forall₂_same.2 fun p here => ?_) ?_)
    · refine .mk rfl rfl rfl (.inr rfl) ?_
      unfold Param.typeOrUnknown
      cases typed : p.type with
      | none => exact .unknown
      | some t => exact parts t (.param here typed)
    · cases ret : f.ret with
      | declared t => exact .declared ret ret (parts t (.declared ret))
      | undeclared => exact .undeclared ret ret
      | deferred cell outcome =>
        refine .deferred ret ret (h.cell ht ret) ?_
        cases outcome with
        | raises message => exact .raises message
        | returns o => exact .returns (rel_option_self fun t ht => parts t (.found (ht ▸ ret)))
  | overloaded fs =>
    refine .overloaded (List.forall₂_same.2 fun f here => ?_)
    cases parts _ (.overload here) with
    | function twin => exact twin
  | var v =>
    exact .var (h.var ht) (rel_option_self fun t h => parts t (.bound h))
  | union ts => exact .union (List.forall₂_same.2 fun t here => parts t (.alternative here))

/-- Such a type is its own twin. -/
theorem twin {t : Ty} (ht : P t) : t.Twin m t := by
  induction size : sizeOf t using Nat.strongRecOn generalizing t with
  | ind n ih =>
    refine h.twin_of_parts ht fun u hu => ?_
    exact ih (sizeOf u) (size ▸ hu.sizeOf_lt) (h.part ht hu) rfl

end Pairing.Shares

end Conformance
