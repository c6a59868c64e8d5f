import Conformance.Proofs.Ancestry
import Conformance.Proofs.Composition
import Conformance.Proofs.Specialization

/-!
# Lineages in terms of type arguments

A class keeps its ancestors in terms of its own parameters. Of a class with one base, these are the
ancestors of the base as they are seen through the base; so to see them through a view of the class is
to substitute twice, and to see the base through the view first is to substitute once. The two
lineages tally: they coincide, entry by entry.
-/

namespace Conformance

/-! ## The solution of a view of a class -/

/-- No two classes have one scope, unless it is empty. -/
def ClassTable.DistinctScopes (classes : ClassTable) : Prop :=
  ∀ id other, (classes.decl id).scope = (classes.decl other).scope →
    (classes.decl id).scope ≠ "" → id = other

section

variable {classes : ClassTable} {owner c : ClassTy} {V : Vocabulary} {v : TypeVar} {t : Ty}

theorem solves_ofClass (scope : String) :
    (Solution.ofClass classes owner).solves scope = true ↔
      scope = (classes.decl owner.id).scope ∧ scope ≠ "" := by
  have same : (Solution.ofClass classes owner).solves scope =
      (Solution.forScope (classes.decl owner.id).scope).solves scope :=
    congrArg (!scope.isEmpty && List.contains · scope) (scopes_ofClass classes owner)
  rw [same]
  generalize (classes.decl owner.id).scope = own
  by_cases unnamed : own = ""
  · simp [Solution.forScope, Solution.addScope, Solution.solves, Solution.empty, unnamed]
  · simp [Solution.forScope, Solution.addScope, Solution.solves, Solution.empty, unnamed, and_comm]

/-- A view of a class puts nothing in the place of a variable of another scope. -/
theorem ofVar_of_scope_ne (other : v.scope ≠ (classes.decl owner.id).scope) :
    Substitution.ofVar (Solution.ofClass classes owner) false v = .var v := by
  refine Fragment.ofVar_eq_var ?_
  rw [← Bool.not_eq_true, solves_ofClass]
  exact fun solves => other solves.1

private theorem opens_ofClass (scopes : classes.DistinctScopes)
    (h : c.Opens classes (Solution.ofClass classes owner)) : c.id = owner.id := by
  have solves := h.2
  rw [Bool.or_eq_false_iff, Bool.not_eq_false', solves_ofClass] at solves
  exact scopes _ _ solves.2.1 solves.2.2

theorem finds_ofClass (made : (Ty.cls owner).Over V) (unknown : V.vague .unknown) :
    (Solution.ofClass classes owner).Finds V := by
  intro v t ht
  obtain ⟨e, he, found⟩ := Fragment.mem_entries_of_get? ht
  rcases Fragment.mem_entries_ofClass he with none | given
  · rw [none] at found
    exact Option.some.inj found ▸ .unknown unknown
  · exact made.argument e.2 given t found

private theorem get?_ofClass_map {sub : Ty → Ty} (unknown : sub .unknown = .unknown)
    {args : List (Option Ty)} (given : owner.args = some args) (v : TypeVar) :
    (Solution.ofClass classes { owner with args := some (args.map (Option.map sub)) }).get? v =
      ((Solution.ofClass classes owner).get? v).map sub := by
  have filled : ∀ (vs : List TypeVar) (ts : List (Option Ty)) (σ τ : Solution),
      (∀ v, τ.get? v = (σ.get? v).map sub) →
        (Solution.ofClass.go τ vs (ts.map (Option.map sub))).get? v =
          ((Solution.ofClass.go σ vs ts).get? v).map sub := by
    intro vs
    induction vs with
    | nil => exact fun _ _ _ h => h v
    | cons p vs ih =>
      intro ts σ τ h
      have inserted : ∀ (o o' : Option Ty), o' = o.map sub → ∀ v,
          (τ.insert p o').get? v = ((σ.insert p o).get? v).map sub := by
        rintro o _ rfl v
        rw [Solution.get?_insert, Solution.get?_insert]
        split
        · rfl
        · exact h v
      cases ts with
      | nil => exact ih [] _ _ (inserted _ _ (congrArg some unknown.symm))
      | cons t ts => exact ih ts _ _ (inserted _ _ rfl)
  have none_yet : ∀ scope v, (Solution.forScope scope).get? v = none := fun scope v => by
    rw [Solution.get?, Solution.forScope, Fragment.entries_addScope]
    rfl
  unfold Solution.ofClass
  rw [given]
  exact filled _ args _ _ fun v => by rw [none_yet, Option.map_none]

end

/-! ## Ancestors as seen through a view -/

/-- A class in terms of the type arguments of a view of the class that it is a base or an ancestor
of. -/
def ClassTy.through (classes : ClassTable) (c owner : ClassTy) : ClassTy :=
  if owner.args.isSome then
    c.fill classes (.ofClass classes owner)
      (Ty.fillAt classes (.ofClass classes owner) (Ty.levels - 1))
  else c

def Ancestor.through (classes : ClassTable) (a : Ancestor) (owner : ClassTy) : Ancestor :=
  match a with
  | .resolved c => .resolved (c.through classes owner)
  | .unresolved t mark => .unresolved t mark

section

variable {classes : ClassTable} {owner c : ClassTy} {V : Vocabulary}

theorem ClassTy.through_of_bare (bare : owner.args = none) : c.through classes owner = c := by
  rw [through, bare]
  rfl

theorem ClassTy.cls_through (given : owner.args.isSome = true) :
    Ty.cls (c.through classes owner) =
      (Ty.cls c).fillAt classes (.ofClass classes owner) Ty.levels := by
  rw [through, if_pos given]
  rfl

@[simp] theorem ClassTy.id_through : (c.through classes owner).id = c.id := by
  unfold through
  split
  · exact ClassTy.id_fill
  · rfl

@[simp] theorem ClassTy.isInstance_through :
    (c.through classes owner).isInstance = c.isInstance := by
  unfold through
  split
  · exact ClassTy.isInstance_fill
  · rfl

private theorem fill_of_isEmpty (scopes : classes.DistinctScopes) (given : owner.args.isSome = true)
    (empty : (Solution.ofClass classes owner).isEmpty = true) (made : (Ty.cls c).Over .all) :
    (Ty.cls c).fillAt classes (.ofClass classes owner) Ty.levels = .cls c := by
  have none_found : (Solution.ofClass classes owner).entries = [] := List.isEmpty_iff.1 empty
  have no_params : (classes.decl owner.id).params = [] := by
    obtain ⟨args, hargs⟩ := Option.isSome_iff_exists.1 given
    by_contra some_params
    have found := @isEmpty_go (.forScope (classes.decl owner.id).scope) _ args (.inr some_params)
    have here : Solution.ofClass classes owner =
        Solution.ofClass.go (.forScope (classes.decl owner.id).scope)
          (classes.decl owner.id).params args := by
      unfold Solution.ofClass
      rw [hargs]
    rw [← here, empty] at found
    cases found
  refine Ty.fillAt_eq_self (fun d _ opens => ?_) (fun v _ => ?_) Ty.levels made
  · have same := opens_ofClass scopes opens
    have solves := opens.2
    rw [same, no_params] at solves
    cases solves
  · unfold Substitution.ofVar Solution.get?
    rw [none_found]
    split <;> rfl

theorem substitute_eq (scopes : classes.DistinctScopes) (given : owner.args.isSome = true)
    (made : (Ty.cls c).Over .all) (overOwner : (Ty.cls owner).Over .all) (inf : Inference) :
    c.substitute classes (.ofClass classes owner) false inf = (c.through classes owner, inf) := by
  unfold ClassTy.substitute
  by_cases empty : (Solution.ofClass classes owner).isEmpty = true
  · rw [if_pos (by rw [empty]; rfl)]
    have same := fill_of_isEmpty scopes given empty made
    rw [← ClassTy.cls_through given] at same
    exact congrArg (·, inf) (Ty.cls.inj same).symm
  · rw [if_neg (by simpa using empty), ClassTy.through, if_pos given]
    have found : (Solution.ofClass classes owner).Finds .all := finds_ofClass overOwner trivial
    exact ofClassTy_eq (fun o ho t ht => ofTyAt_eq found _ (made.argument o ho t ht) inf)
      fun v _ => ofTyAt_eq found _ (.var trivial) inf

theorem specialize_eq (scopes : classes.DistinctScopes) (made : (Ty.cls c).Over .all)
    (overOwner : (Ty.cls owner).Over .all) (inf : Inference) :
    c.specialize classes owner inf = (c.through classes owner, inf) := by
  unfold ClassTy.specialize memberSolution
  by_cases given : owner.args.isSome = true
  · rw [if_pos given]
    exact substitute_eq scopes given made overOwner inf
  · rw [if_neg given, ClassTy.through, if_neg given]
    rfl

theorem specializeBase_eq (scopes : classes.DistinctScopes) (given : owner.args.isSome = true)
    (made : (Ty.cls c).Over .all) (overOwner : (Ty.cls owner).Over .all) (other : c.id ≠ owner.id)
    (inf : Inference) : owner.specializeBase classes c inf = (c.through classes owner, inf) := by
  unfold ClassTy.specializeBase
  split
  · exact substitute_eq scopes given made overOwner inf
  · rename_i bare
    rw [Option.isSome_iff_ne_none, ne_eq, not_not] at bare
    rw [ClassTy.through, if_pos given,
      ClassTy.fill_of_bare bare fun opens => other (opens_ofClass scopes opens)]
    rfl

theorem lineage_eq (scopes : classes.DistinctScopes)
    (made : ∀ b, .resolved b ∈ (classes.decl c.id).mro → (Ty.cls b).Over .all)
    (overOwner : (Ty.cls c).Over .all) (inf : Inference) :
    classes.lineage c inf = (.resolved c.toClassObject ::
      (classes.decl c.id).mro.map fun a => a.through classes c, inf) := by
  let seen (a : Ancestor) : StateM Inference Ancestor := do
    match a with
    | .resolved b =>
      let b ← b.specialize classes c
      pure (.resolved b)
    | .unresolved _ _ => pure a
  have each : (classes.decl c.id).mro.mapM seen inf =
      ((classes.decl c.id).mro.map fun a => a.through classes c, inf) := by
    refine mapM_eq_map fun a ha => ?_
    cases a with
    | unresolved t mark => rfl
    | resolved b =>
      change ((.resolved (b.specialize classes c inf).1, (b.specialize classes c inf).2) :
        Ancestor × Inference) = _
      rw [specialize_eq scopes (made b ha) overOwner]
      rfl
  unfold ClassTable.lineage
  exact congrArg (fun r : List Ancestor × Inference => (.resolved c.toClassObject :: r.1, r.2)) each

end

/-! ## A class with one base -/

def ClassTable.without (classes : ClassTable) (id : ClassId) : Vocabulary :=
  ⟨fun c => c.id ≠ id, fun v => v.scope ≠ (classes.decl id).scope, fun _ => True⟩

/-- Every mention of the class has type arguments. -/
def Vocabulary.given (id : ClassId) : Vocabulary :=
  ⟨fun c => c.id = id → c.args ≠ none, fun _ => True, fun _ => True⟩

/-- No mention of the class has nothing but unknown types for arguments. -/
def Vocabulary.known (id : ClassId) : Vocabulary :=
  ⟨fun c => c.id = id → c.args = none ∨ ∃ o ∈ c.argList, o ≠ some .unknown, fun _ => True,
    fun _ => True⟩

def ClassTable.OwnParams (classes : ClassTable) : Prop :=
  ∀ id, ∀ v ∈ (classes.decl id).params, v.scope = (classes.decl id).scope

/-- The class has the ancestors that its one base brings along, in terms of the type arguments of the
base. These mention nothing of the class itself. -/
structure ClassTable.Descends (classes : ClassTable) (id : ClassId) (base : ClassTy) : Prop where
  object : base.isInstance = false
  other : base.id ≠ id
  named : (classes.decl id).scope ≠ ""
  mro : (classes.decl id).mro =
    .resolved base :: (classes.decl base.id).mro.map fun a => a.through classes base
  free : ∀ c, .resolved c ∈ (classes.decl base.id).mro → (Ty.cls c).Over (classes.without id)
  settled : ∀ a ∈ (classes.decl base.id).mro, ∀ t, a.toTy = some t → t.Over .all

/-- The types coincide, and neither is nested too deep to be compared. -/
structure Ty.Tallies (t u : Ty) : Prop where
  coincides : t.Coincides u
  left : t.Within .start Ty.levels
  right : u.Within .start Ty.levels

section

variable {classes : ClassTable} {id : ClassId} {base view : ClassTy} {W : Vocabulary}

/-- What is asked of a vocabulary in which a base of the class is written. -/
structure Vocabulary.Tolerates (W : Vocabulary) (id : ClassId) : Prop where
  others {c : ClassTy} (h : c.id ≠ id) : W.classes c
  vars (v : TypeVar) : W.vars v
  vague (t : Ty) : W.vague t
  tells : W.Tells (· = id)

theorem Vocabulary.tolerates_given (id : ClassId) : (Vocabulary.given id).Tolerates id :=
  ⟨fun other same => absurd same other, fun _ => trivial, fun _ => trivial,
    fun _ _ hc _ here _ bare _ => absurd bare (hc here)⟩

theorem Vocabulary.tolerates_known (id : ClassId) : (Vocabulary.known id).Tolerates id := by
  refine ⟨fun other same => absurd same other, fun _ => trivial, fun _ => trivial, ?_⟩
  intro c d _ hd here same _ some_given
  refine (hd (same ▸ here)).resolve_left fun bare => ?_
  rw [bare] at some_given
  cases some_given

private theorem nests_ofVar {σs : List Solution} {v : TypeVar} {n : Nat}
    (nests : (Ty.cls base).Nests classes σs (n + 1)) (kept : (Ty.var v).Nests classes σs n) :
    (Substitution.ofVar (Solution.ofClass classes base) false v).Nests classes σs n := by
  unfold Substitution.ofVar
  split
  · exact kept
  · split
    · rename_i t ht
      obtain ⟨e, he, found⟩ := Fragment.mem_entries_of_get? ht
      rcases Fragment.mem_entries_ofClass he with none | given
      · rw [none] at found
        exact Option.some.inj found ▸ .unknown σs n
      · cases nests with
        | cls args => exact args e.2 given t found
    · exact kept

private theorem composes_views (scopes : classes.DistinctScopes) (own : classes.OwnParams)
    (h : classes.Descends id base) (tolerates : W.Tolerates id) (here : view.id = id)
    (special : view.args.isSome = true) (overView : (Ty.cls view).Over .all)
    (overBase : (Ty.cls base).Over W)
    (nests : (Ty.cls base).Nests classes [.ofClass classes view] Ty.levels)
    {args : List (Option Ty)} (given : base.args = some args) :
    Composes classes (.ofClass classes base) (.ofClass classes view)
      (.ofClass classes (base.through classes view)) (classes.without id) W := by
  have seen : base.through classes view = { base with
      args := some (args.map (Option.map
        (Ty.fillAt classes (.ofClass classes view) (Ty.levels - 1)))) } := by
    rw [ClassTy.through, if_pos special, ClassTy.fill_of_args given]
  have solves : ∀ scope, (Solution.ofClass classes (base.through classes view)).solves scope =
      (Solution.ofClass classes base).solves scope := by
    intro scope
    rw [Bool.eq_iff_iff, solves_ofClass, solves_ofClass, ClassTy.id_through]
  have kept : ∀ v, (classes.without id).vars v →
      Substitution.ofVar (Solution.ofClass classes view) false v = .var v :=
    fun v hv => ofVar_of_scope_ne (here.symm ▸ hv)
  have nestsVar : ∀ v n, (classes.without id).vars v →
      (Ty.var v).Nests classes [.ofClass classes view] (n + 1) := by
    intro v n hv
    refine .var fun σ τs eq => ?_
    obtain ⟨rfl, rfl⟩ := List.cons.inj eq
    rw [kept v hv]
    exact .var nofun
  have shut : ∀ c : ClassTy, c.Opens classes (.ofClass classes view) → c.id = id :=
    fun c opens => (opens_ofClass scopes opens).trans here
  have overThrough : (Ty.cls (base.through classes view)).Over .all := by
    rw [ClassTy.cls_through special]
    exact overBase.all.fillAt (finds_ofClass overView trivial) _
  refine
    { opens := fun c => ?_, vars := fun {v} hv => ?_, nests := fun {v} hv => ?_,
      params := fun {c} hc v hv same => ?_, shut := fun {c} hc opens => hc (shut c opens),
      made := fun {v} hv => ?_, views := fun {c d} hc same => tolerates.others (same ▸ hc),
      vague := tolerates.vague, told := ?_, foundFirst := finds_ofClass overBase.all trivial,
      found := finds_ofClass overView trivial, foundAtOnce := finds_ofClass overThrough trivial }
  · rw [ClassTy.Opens, ClassTy.Opens, solves]
  · have filled := (nests_ofVar nests (nestsVar v _ hv)).fillAt_eq (Nat.le_succ _)
    have stays : (Ty.var v).fillAt classes (.ofClass classes view) (Ty.levels - 1) = .var v :=
      kept v hv
    have unknown : Ty.unknown.fillAt classes (.ofClass classes view) (Ty.levels - 1) = .unknown :=
      Ty.fillAt_unknown _
    have found := @get?_ofClass_map classes base _ unknown args given v
    refine Eq.trans ?_ filled.symm
    unfold Substitution.ofVar
    rw [solves, seen, found]
    split
    · exact stays.symm
    · cases (Solution.ofClass classes base).get? v with
      | none => exact stays.symm
      | some t => rfl
  · exact (nests_ofVar nests (nestsVar v _ hv)).mono (Nat.le_succ _)
  · have scope := own c.id v hv
    exact hc (scopes c.id id (scope.symm.trans same) (scope.symm.trans same ▸ h.named))
  · exact ⟨tolerates.vars v, (finds_ofClass overBase (tolerates.vague _)).ofVar (tolerates.vars v)⟩
  · rintro c d hc hd ⟨e, same, opens⟩ id_eq bare some_given
    exact tolerates.tells c d hc hd (same ▸ shut e opens) id_eq bare some_given

theorem ClassTy.toClassObject_eq {c : ClassTy} (object : c.isInstance = false) :
    c.toClassObject = c := by
  obtain ⟨id, isInstance, args, explicit, literal⟩ := c
  cases object
  rfl

def Ancestor.Tallies (a b : Ancestor) : Prop := Option.Rel Ty.Tallies a.toTy b.toTy

theorem Ty.Tallies.self {t : Ty} (made : t.Over .all) (within : t.Within .start Ty.levels) :
    t.Tallies t := ⟨fun n => coincideAt_self n made, within, within⟩

/-- The solutions that are put into the ancestors of the base of a class, one after another, when the
class is seen through a view. -/
def solutionsThrough (classes : ClassTable) (base view : ClassTy) : List Solution :=
  (memberSolution classes base none).toList ++ [.ofClass classes view]

/-- The base and its ancestors, as they are kept with a class and seen through a view of it, tally
with those that the base has as it is seen through the view. -/
theorem tallies_lineage (scopes : classes.DistinctScopes) (own : classes.OwnParams)
    (h : classes.Descends id base) (tolerates : W.Tolerates id) (here : view.id = id)
    (special : view.args.isSome = true) (overView : (Ty.cls view).Over .all)
    (overBase : (Ty.cls base).Over W)
    (nests : (Ty.cls base).Nests classes [.ofClass classes view] Ty.levels)
    (nestsEach : ∀ a ∈ (classes.decl base.id).mro, ∀ t, a.toTy = some t →
      t.Nests classes (solutionsThrough classes base view) Ty.levels) :
    List.Forall₂ Ancestor.Tallies
      ((classes.decl id).mro.map fun a => a.through classes view)
      (.resolved (base.through classes view).toClassObject ::
        (classes.decl base.id).mro.map fun a => a.through classes (base.through classes view)) := by
  have foundView : (Solution.ofClass classes view).Finds .all := finds_ofClass overView trivial
  have head : Ty.Tallies (.cls (base.through classes view))
      (.cls (base.through classes view).toClassObject) := by
    rw [ClassTy.toClassObject_eq (ClassTy.isInstance_through.trans h.object)]
    refine .self ?_ ?_ <;> rw [ClassTy.cls_through special]
    · exact overBase.all.fillAt foundView _
    · exact (nests.fillAt overBase.all foundView).within (overBase.all.fillAt foundView _)
  rw [h.mro, List.map_cons, List.map_map]
  refine .cons (.some head) (List.forall₂_map_left_iff.2 (List.forall₂_map_right_iff.2
    (List.forall₂_same.2 fun a ha => ?_)))
  cases a with
  | unresolved o mark =>
    refine rel_option_self fun t ht => ?_
    have made := h.settled _ ha t ht
    exact .self made ((nestsEach _ ha t ht).within made)
  | resolved c =>
    refine .some ?_
    have free := h.free c ha
    have nestsC := nestsEach _ ha _ rfl
    cases hargs : base.args with
    | none =>
      have bare : (base.through classes view).args = none := by
        rw [ClassTy.through, if_pos special, ClassTy.fill_of_bare hargs
          fun opens => h.other ((opens_ofClass scopes opens).trans here)]
        exact hargs
      have kept : (Ty.cls c).fillAt classes (.ofClass classes view) Ty.levels = .cls c :=
        Ty.fillAt_eq_self (V := classes.without id)
          (fun d hd opens => hd ((opens_ofClass scopes opens).trans here))
          (fun v hv => ofVar_of_scope_ne (here.symm ▸ hv)) Ty.levels free
      change Ty.Tallies (.cls ((c.through classes base).through classes view))
        (.cls (c.through classes (base.through classes view)))
      rw [ClassTy.through_of_bare hargs, ClassTy.through_of_bare bare, ClassTy.cls_through special,
        kept]
      exact .self free.all (nestsC.within free)
    | some args =>
      have composes := composes_views scopes own h tolerates here special overView overBase nests
        hargs
      have given : base.args.isSome = true := by rw [hargs]; rfl
      have given' : (base.through classes view).args.isSome = true := by
        rw [ClassTy.through, if_pos special, ClassTy.fill_of_args hargs]
        rfl
      have inOrder : solutionsThrough classes base view =
          [.ofClass classes base, .ofClass classes view] := by
        rw [solutionsThrough, memberSolution, if_pos given]
        rfl
      rw [inOrder] at nestsC
      have first := nestsC.fillAt free.all composes.foundFirst
      have overFirst : ((Ty.cls c).fillAt classes (.ofClass classes base) Ty.levels).Over .all :=
        free.all.fillAt composes.foundFirst _
      change Ty.Tallies (.cls ((c.through classes base).through classes view))
        (.cls (c.through classes (base.through classes view)))
      rw [ClassTy.cls_through special, ClassTy.cls_through given, ClassTy.cls_through given']
      refine ⟨composes.coincides (Nat.le_refl _) free nestsC, ?_, ?_⟩
      · exact (first.fillAt overFirst foundView).within (overFirst.fillAt foundView _)
      · exact ((composes.nests_atOnce (Nat.le_refl _) free nestsC).fillAt free.all
          composes.foundAtOnce).within (free.all.fillAt composes.foundAtOnce _)

end

end Conformance
