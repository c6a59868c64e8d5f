import Conformance.Proofs.Lineages
import Conformance.Proofs.Scopes

/-!
# Catalogs that are built up in layers

Where each class gets its bases once, and only after the classes that these mention, a class with one
base has the ancestors that the base brings along, in terms of the type arguments of the base. A class
may mention itself in its bases. What is added later, parameters of other classes among it, leaves
that as it is.
-/

namespace Conformance

/-! ## The ancestors of a class with one base -/

namespace Ancestor

private theorem merge_one {l : List Ancestor} (once : (ids l).Nodup) (found : List Ancestor) :
    merge found [l, []] = (found ++ l, true) := by
  induction l generalizing found with
  | nil =>
    rw [List.append_nil]
    exact merge_of_empty (by simp) found
  | cons a l ih =>
    have free : isFree [a :: l, []] a = true := by
      cases a with
      | unresolved t mark => rfl
      | resolved c =>
        have later : c.id ∉ ids l := (List.nodup_cons.1 once).1
        rw [← any_same_resolved, Bool.not_eq_true] at later
        simp [isFree, inTail, later]
    have left : dropHeads a [a :: l, []] = [l, []] := by
      simp [dropHeads, dropHead, same_self]
    rw [merge_of_nextHead (nextHead_of_isFree free), left, ih ?_, List.append_assoc, List.singleton_append]
    cases a with
    | resolved c => exact (List.nodup_cons.1 once).2
    | unresolved t mark => exact once

private theorem merge_base {c : ClassTy} {l : List Ancestor}
    (once : (ids (.resolved c :: l)).Nodup) :
    merge [] [.resolved c :: l, [.resolved c]] = (.resolved c :: l, true) := by
  obtain ⟨first, rest⟩ : c.id ∉ ids l ∧ (ids l).Nodup := List.nodup_cons.1 once
  rw [← any_same_resolved, Bool.not_eq_true] at first
  have free : isFree [.resolved c :: l, [.resolved c]] (.resolved c) = true := by
    simp [isFree, inTail, first]
  have left : dropHeads (.resolved c) [.resolved c :: l, [.resolved c]] = [l, []] := by
    simp [dropHeads, dropHead, same_self]
  rw [merge_of_nextHead (nextHead_of_isFree free), left, merge_one rest]
  rfl

private theorem toTy_ofBase (t : Option Ty) (mark : Nat) : (ofBase t mark).toTy = t := by
  unfold ofBase
  split
  · split <;> rfl
  all_goals rfl

@[simp] theorem ids_map_through (classes : ClassTable) (owner : ClassTy) (as : List Ancestor) :
    ids (as.map fun a => a.through classes owner) = ids as := by
  induction as with
  | nil => rfl
  | cons a as ih =>
    cases a with
    | resolved c =>
      rw [List.map_cons, ids_resolved, ← ih]
      exact congrArg (· :: _) ClassTy.id_through
    | unresolved t mark => exact ih

end Ancestor

namespace ClassTable

variable {classes other : ClassTable} {id : ClassId} {base c owner : ClassTy} {V : Vocabulary}

/-- The classes of a vocabulary have the parameters and the scopes that they had. -/
def Agrees (classes : ClassTable) (V : Vocabulary) (other : ClassTable) : Prop :=
  ∀ c, V.classes c → (other.decl c.id).params = (classes.decl c.id).params ∧
    (other.decl c.id).scope = (classes.decl c.id).scope

private theorem Agrees.ofClass_eq (same : classes.Agrees V other) (here : V.classes owner) :
    Solution.ofClass other owner = Solution.ofClass classes owner := by
  obtain ⟨params, scope⟩ := same owner here
  unfold Solution.ofClass
  dsimp only
  rw [params, scope]

private theorem Agrees.through_eq (same : classes.Agrees V other) (here : V.classes owner)
    (made : (Ty.cls c).Over V) : c.through other owner = c.through classes owner := by
  by_cases given : owner.args.isSome = true
  · have filled := @Ty.fillAt_congr V _ classes (.ofClass classes owner) other same Ty.levels made
    rw [← ClassTy.cls_through given, ← same.ofClass_eq here, ← ClassTy.cls_through given] at filled
    exact Ty.cls.inj filled
  · rw [Option.isSome_iff_ne_none, ne_eq, not_not] at given
    rw [ClassTy.through_of_bare given, ClassTy.through_of_bare given]

private theorem Agrees.map_through_eq (same : classes.Agrees V other) (here : V.classes owner)
    {as : List Ancestor} (made : ∀ c, .resolved c ∈ as → (Ty.cls c).Over V) :
    as.map (fun a => a.through other owner) = as.map fun a => a.through classes owner := by
  refine List.map_congr_left fun a ha => ?_
  cases a with
  | resolved c => exact congrArg Ancestor.resolved (same.through_eq here (made c ha))
  | unresolved t mark => rfl

/-- A class keeps descending from its base in a table that agrees on what is mentioned. -/
theorem Descends.of_agrees (h : classes.Descends id base) (same : classes.Agrees V other)
    (here : V.classes base)
    (made : ∀ c, .resolved c ∈ (classes.decl base.id).mro → (Ty.cls c).Over V)
    (scope : (other.decl id).scope = (classes.decl id).scope)
    (mro : (other.decl id).mro = (classes.decl id).mro)
    (mroBase : (other.decl base.id).mro = (classes.decl base.id).mro) : other.Descends id base := by
  have without : other.without id = classes.without id := by
    unfold ClassTable.without
    rw [scope]
  refine ⟨h.object, h.other, by rw [scope]; exact h.named, ?_, ?_, ?_⟩
  · rw [mro, mroBase, same.map_through_eq here made]
    exact h.mro
  · rw [mroBase, without]
    exact h.free
  · rw [mroBase]
    exact h.settled

/-- What a base brings along: itself and its ancestors, in terms of its type arguments. -/
def line (classes : ClassTable) : Ancestor → List Ancestor
  | .resolved c =>
    .resolved c.toClassObject :: (classes.decl c.id).mro.map fun a => a.through classes c
  | .unresolved _ _ => [.unknown]

private theorem agrees_withBases (classes : ClassTable) (id : ClassId) (bs : List Ancestor)
    (V : Vocabulary) : classes.Agrees V (classes.withBases id bs) := by
  intro c _
  simp only [withBases, decl_modify, size_modify]
  constructor <;> split <;> rfl

theorem DistinctScopes.of_agrees (h : classes.DistinctScopes) (same : classes.Agrees .all other) :
    other.DistinctScopes := by
  have scope : ∀ id, (other.decl id).scope = (classes.decl id).scope := fun id =>
    (same (.ofId id) trivial).2
  intro id id'
  rw [scope, scope]
  exact h id id'

private theorem lineageOfBase_eq {bs : List Ancestor} (scopes : classes.DistinctScopes)
    (others : ∀ b, .resolved b ∈ bs → b.id ≠ id)
    (made : ∀ b, .resolved b ∈ bs → (Ty.cls b).Over .all)
    (overMro : ∀ b, .resolved b ∈ bs → ∀ c, .resolved c ∈ (classes.decl b.id).mro →
      (Ty.cls c).Over .all) (inf : Inference) :
    ∀ a ∈ bs, (classes.withBases id bs).lineageOfBase a inf = (classes.line a, inf) := by
  intro a ha
  cases a with
  | unresolved t mark => rfl
  | resolved b =>
    have agrees := classes.agrees_withBases id bs .all
    have mro : ((classes.withBases id bs).decl b.id).mro = (classes.decl b.id).mro :=
      congrArg ClassDecl.mro (decl_withBases_of_ne (others b ha))
    refine (lineage_eq (scopes.of_agrees agrees) (mro ▸ overMro b ha) (made b ha) inf).trans ?_
    rw [mro, agrees.map_through_eq trivial (overMro b ha)]
    rfl

private theorem brought_eq {bs : List Ancestor} (scopes : classes.DistinctScopes)
    (others : ∀ b, .resolved b ∈ bs → b.id ≠ id)
    (made : ∀ b, .resolved b ∈ bs → (Ty.cls b).Over .all)
    (overMro : ∀ b, .resolved b ∈ bs → ∀ c, .resolved c ∈ (classes.decl b.id).mro →
      (Ty.cls c).Over .all) (inf : Inference) :
    classes.brought id bs inf = (Ancestor.merge [] (bs.map classes.line ++ [bs])).1 := by
  unfold brought
  rw [mapM_eq_map (lineageOfBase_eq scopes others made overMro inf)]

end ClassTable

/-! ## Catalogs -/

namespace Catalog

variable {cat cat' : Catalog} {fixed known known' : List ClassId} {V : Vocabulary} {t : Ty}
  {c owner : ClassTy} {bases : List (Option Ty)}

/-- What can be written where the classes of a list are known: views of these, and variables of the
scope of no other class, be it still to be declared. -/
def vocabulary (cat : Catalog) (known : List ClassId) : Vocabulary where
  classes c := c.id ∈ known
  vars v := (∀ id < cat.classes.size, v.scope = (cat.classes.decl id).scope → id ∈ known) ∧
    ∀ name n, cat.nextScope ≤ n → v.scope ≠ scopeName name n
  vague _ := True

/-- Each class has a scope of its own, by its number, and parameters of that scope. -/
structure Numbered (cat : Catalog) : Prop where
  scope : ∀ id < cat.classes.size, ∃ name n, n < cat.nextScope ∧
    (cat.classes.decl id).scope = scopeName name n
  distinct : cat.classes.DistinctScopes
  own : cat.classes.OwnParams

/-- The classes that were there keep their scopes, and a class may be added under a new one. -/
structure Onward (cat cat' : Catalog) : Prop where
  size : cat.classes.size ≤ cat'.classes.size
  single : cat'.classes.size ≤ cat.classes.size + 1
  next : cat.nextScope ≤ cat'.nextScope
  scope : ∀ id < cat.classes.size, (cat'.classes.decl id).scope = (cat.classes.decl id).scope
  fresh : ∀ id < cat'.classes.size, cat.classes.size ≤ id → ∃ name n,
    cat.nextScope ≤ n ∧ n < cat'.nextScope ∧ (cat'.classes.decl id).scope = scopeName name n

private theorem lt_of_named {classes : ClassTable} {id : ClassId}
    (named : (classes.decl id).scope ≠ "") :
    id < classes.size := by
  rw [← Nat.not_le]
  intro undeclared
  rw [ClassTable.decl_of_size_le undeclared] at named
  exact named rfl

theorem Numbered.onward (h : cat.Numbered) (later : cat.Onward cat')
    (own : cat'.classes.OwnParams) : cat'.Numbered := by
  have apart : ∀ id other, id < cat.classes.size → other < cat'.classes.size →
      cat.classes.size ≤ other → (cat'.classes.decl id).scope ≠ (cat'.classes.decl other).scope := by
    intro id other hid hother new same
    obtain ⟨name, n, hn, scope⟩ := h.scope id hid
    obtain ⟨name', n', hn', -, scope'⟩ := later.fresh other hother new
    rw [later.scope id hid, scope, scope'] at same
    exact absurd (scopeName_inj same ▸ hn) (Nat.not_lt_of_le hn')
  refine ⟨fun id hid => ?_, fun id other same named => ?_, own⟩
  · rcases Nat.lt_or_ge id cat.classes.size with before | new
    · obtain ⟨name, n, hn, scope⟩ := h.scope id before
      exact ⟨name, n, Nat.lt_of_lt_of_le hn later.next, (later.scope id before).trans scope⟩
    · obtain ⟨name, n, -, hn, scope⟩ := later.fresh id hid new
      exact ⟨name, n, hn, scope⟩
  · have hid := lt_of_named named
    have hother := lt_of_named (same ▸ named)
    rcases Nat.lt_or_ge id cat.classes.size with before | new <;>
      rcases Nat.lt_or_ge other cat.classes.size with before' | new'
    · rw [later.scope id before] at same named
      rw [later.scope other before'] at same
      exact h.distinct id other same named
    · exact absurd same (apart id other before hother new')
    · exact absurd same.symm (apart other id before' hid new)
    · have last : ∀ i < cat'.classes.size, cat.classes.size ≤ i → i = cat.classes.size :=
        fun i hi new => Nat.le_antisymm
          (Nat.le_of_lt_succ (Nat.lt_of_lt_of_le hi later.single)) new
      exact (last id hid new).trans (last other hother new').symm

private theorem Onward.keeps_over (h : cat.Onward cat') (more : known ⊆ known')
    (made : t.Over (cat.vocabulary known)) : t.Over (cat'.vocabulary known') := by
  refine made.mono (fun c hc => more hc) (fun v hv => ⟨fun id hid same => ?_, fun name n hn => ?_⟩)
    fun _ _ => trivial
  · rcases Nat.lt_or_ge id cat.classes.size with before | new
    · exact more (hv.1 id before (same.trans (h.scope id before)))
    · obtain ⟨name, n, hn, -, scope⟩ := h.fresh id hid new
      exact absurd (same.trans scope) (hv.2 name n hn)
  · exact hv.2 name n (Nat.le_trans h.next hn)

/-- The bases are written with classes that are known, and those that are class objects have been
given their own bases. -/
def Writes (cat : Catalog) (known fixed : List ClassId) (bases : List (Option Ty)) : Prop :=
  ∀ t, some t ∈ bases → t.Over (cat.vocabulary known) ∧
    ∀ b, t = .cls b → b.isInstance = false → b.id ∈ fixed

theorem Writes.onward (h : cat.Writes known fixed bases) (later : cat.Onward cat')
    (more : known ⊆ known') : cat'.Writes known' fixed bases :=
  fun t ht => ⟨later.keeps_over more (h t ht).1, (h t ht).2⟩

/-- A class of the list has got its bases: classes with one base descend from it, and ancestors
mention classes of the list only. -/
structure Layered (cat : Catalog) (fixed : List ClassId) : Prop where
  numbered : cat.Numbered
  declared : ∀ id ∈ fixed, id < cat.classes.size
  entries : ∀ id, ∀ a ∈ (cat.classes.decl id).mro, ∀ t, a.toTy = some t →
    t.Over (cat.vocabulary fixed)
  once : ∀ id, (Ancestor.ids (cat.classes.decl id).mro).Nodup
  proper : ∀ id, id ∉ Ancestor.ids (cat.classes.decl id).mro
  descends : ∀ id b, (cat.classes.decl id).bases = [.resolved b] → cat.classes.Descends id b

theorem vars_of_mem_params (numbered : cat.Numbered) (declared : ∀ id ∈ known, id < cat.classes.size)
    (here : c.id ∈ known) : ∀ v ∈ (cat.classes.decl c.id).params, (cat.vocabulary known).vars v := by
  intro v hv
  obtain ⟨name, n, hn, scope⟩ := numbered.scope c.id (declared _ here)
  have own := numbered.own c.id v hv
  refine ⟨fun id hid same => ?_, fun name' n' hn' same => ?_⟩
  · have named : (cat.classes.decl c.id).scope ≠ "" := scope ▸ scopeName_ne_empty name n
    exact numbered.distinct c.id id (own.symm.trans same) named ▸ here
  · have number := scopeName_inj (scope.symm.trans (own.symm.trans same))
    exact absurd (number ▸ hn') (Nat.not_le_of_lt hn)

private theorem over_through (numbered : cat.Numbered)
    (declared : ∀ id ∈ known, id < cat.classes.size)
    (made : (Ty.cls c).Over (cat.vocabulary known))
    (overOwner : (Ty.cls owner).Over (cat.vocabulary known)) :
    (Ty.cls (c.through cat.classes owner)).Over (cat.vocabulary known) := by
  by_cases given : owner.args.isSome = true
  · rw [ClassTy.cls_through given]
    exact Ty.over_fillAt (fun c d (hc : c.id ∈ known) same => show d.id ∈ known from same ▸ hc)
      (fun c hc => vars_of_mem_params numbered declared hc)
      (fun v hv => ⟨hv, (finds_ofClass overOwner trivial).ofVar hv⟩) (fun _ _ => trivial) _ made
  · rw [Option.isSome_iff_ne_none, ne_eq, not_not] at given
    rwa [ClassTy.through_of_bare given]

private theorem Layered.classes_mem (h : cat.Layered fixed) (id : ClassId) :
    ∀ other ∈ Ancestor.ids (cat.classes.decl id).mro, other ∈ fixed := by
  intro other hother
  obtain ⟨c, hc, rfl⟩ := Ancestor.mem_ids.1 hother
  cases h.entries id _ hc _ rfl with
  | cls here => exact here

/-! ### Steps beside the bases -/

/-- Classes, scopes, parameters and members are added, and no class is given bases. -/
structure Beside (cat cat' : Catalog) : Prop extends cat.Onward cat' where
  own : cat.classes.OwnParams → cat'.classes.OwnParams
  bases : ∀ id, (cat'.classes.decl id).bases = (cat.classes.decl id).bases
  mro : ∀ id, (cat'.classes.decl id).mro = (cat.classes.decl id).mro

theorem Beside.refl (cat : Catalog) : cat.Beside cat :=
  ⟨⟨Nat.le_refl _, Nat.le_succ _, Nat.le_refl _, fun _ _ => rfl,
    fun _ hid later => absurd hid (Nat.not_lt_of_le later)⟩, id, fun _ => rfl, fun _ => rfl⟩

/-- Parameters are added to classes without bases only. -/
theorem Layered.beside (h : cat.Layered fixed) (step : cat.Beside cat')
    (params : ∀ id ∈ fixed, (cat'.classes.decl id).params = (cat.classes.decl id).params) :
    cat'.Layered fixed := by
  refine ⟨h.numbered.onward step.toOnward (step.own h.numbered.own),
    fun id hid => Nat.lt_of_lt_of_le (h.declared id hid) step.size,
    fun id a ha t ht => ?_, fun id => ?_, fun id => ?_, fun id b hb => ?_⟩
  · rw [step.mro] at ha
    exact step.keeps_over (List.Subset.refl _) (h.entries id a ha t ht)
  · rw [step.mro]
    exact h.once id
  · rw [step.mro]
    exact h.proper id
  · rw [step.bases] at hb
    have descends := h.descends id b hb
    have declared : id < cat.classes.size := by
      rw [← Nat.not_le]
      intro undeclared
      rw [ClassTable.decl_of_size_le undeclared] at hb
      cases hb
    have agrees : cat.classes.Agrees (cat.vocabulary fixed) cat'.classes :=
      fun c hc => ⟨params c.id hc, step.scope c.id (h.declared _ hc)⟩
    have base : b.id ∈ fixed := by
      refine h.classes_mem id b.id ?_
      rw [descends.mro]
      exact List.mem_cons_self
    exact descends.of_agrees agrees base (fun c hc => h.entries b.id _ hc _ rfl)
      (step.scope id declared) (step.mro id) (step.mro b.id)

theorem beside_addClass (cat : Catalog) (name : String) (flags : ClassFlags) (moduleName : String) :
    cat.Beside (cat.addClass name flags moduleName).2 := by
  let d := ClassDecl.fresh name (qualified moduleName name)
    (scopeName (qualified moduleName name) cat.nextScope) flags
  have decl : ∀ id, (cat.addClass name flags moduleName).2.classes.decl id =
      if id = cat.classes.size then d else cat.classes.decl id := fun id =>
    ClassTable.decl_push cat.classes d id
  have size : (cat.addClass name flags moduleName).2.classes.size = cat.classes.size + 1 :=
    ClassTable.size_push cat.classes d
  have added : (cat.addClass name flags moduleName).2.classes.decl cat.classes.size = d := by
    rw [decl, if_pos rfl]
  have others : ∀ id, id ≠ cat.classes.size →
      (cat.addClass name flags moduleName).2.classes.decl id = cat.classes.decl id := by
    intro id hne
    rw [decl, if_neg hne]
  have undeclared : cat.classes.decl cat.classes.size = default :=
    ClassTable.decl_of_size_le (Nat.le_refl _)
  refine ⟨⟨size ▸ Nat.le_succ _, Nat.le_of_eq size, Nat.le_succ _, ?_, ?_⟩, ?_, ?_, ?_⟩
  · exact fun id hid => congrArg ClassDecl.scope (others id (Nat.ne_of_lt hid))
  · intro id hid new
    rw [size] at hid
    rw [Nat.le_antisymm (Nat.le_of_lt_succ hid) new, added]
    exact ⟨_, _, Nat.le_refl _, Nat.lt_succ_self _, rfl⟩
  · intro own id v hv
    by_cases new : id = cat.classes.size
    · rw [new, added] at hv
      cases hv
    · rw [others id new] at hv ⊢
      exact own id v hv
  · intro id
    by_cases new : id = cat.classes.size
    · rw [new, added, undeclared]
      rfl
    · rw [others id new]
  · intro id
    by_cases new : id = cat.classes.size
    · rw [new, added, undeclared]
      rfl
    · rw [others id new]

/-- A change of a class that leaves its scope, its bases and its ancestors as they are, and adds
parameters of its scope at most. -/
theorem beside_modify (cat : Catalog) (c : ClassTy) {f : ClassDecl → ClassDecl}
    (scope : ∀ d, (f d).scope = d.scope) (bases : ∀ d, (f d).bases = d.bases)
    (mro : ∀ d, (f d).mro = d.mro)
    (params : ∀ v ∈ (f (cat.classes.decl c.id)).params,
      v ∈ (cat.classes.decl c.id).params ∨ v.scope = (cat.classes.decl c.id).scope) :
    cat.Beside (cat.modify c f) := by
  have size : (cat.modify c f).classes.size = cat.classes.size := ClassTable.size_modify ..
  have decl : ∀ id, (cat.modify c f).classes.decl id = cat.classes.decl id ∨
      id = c.id ∧ (cat.modify c f).classes.decl id = f (cat.classes.decl id) := by
    intro id
    have here : (cat.modify c f).classes.decl id = _ := ClassTable.decl_modify cat.classes c.id id f
    rw [here]
    split
    · rename_i same
      exact .inr ⟨same.1.symm, rfl⟩
    · exact .inl rfl
  have kept : ∀ {α : Type} (field : ClassDecl → α), (∀ d, field (f d) = field d) → ∀ id,
      field ((cat.modify c f).classes.decl id) = field (cat.classes.decl id) := by
    intro α field same id
    rcases decl id with h | ⟨-, h⟩
    · rw [h]
    · rw [h, same]
  refine ⟨⟨Nat.le_of_eq size.symm, size ▸ Nat.le_succ _, Nat.le_refl _,
    fun id _ => kept ClassDecl.scope scope id, fun id hid new => ?_⟩, fun own id v hv => ?_,
    kept ClassDecl.bases bases, kept ClassDecl.mro mro⟩
  · rw [size] at hid
    exact absurd hid (Nat.not_lt_of_le new)
  · rw [kept ClassDecl.scope scope]
    rcases decl id with h | ⟨rfl, h⟩
    · rw [h] at hv
      exact own id v hv
    · rw [h] at hv
      exact (params v hv).elim (own c.id v) id

/-! ### Giving a class its bases -/

private theorem toTy_of_mem_markBases {mark : Nat} {a : Ancestor} (h : a ∈ markBases mark bases) :
    a.toTy ∈ bases := by
  obtain ⟨t, ht, m, rfl⟩ := mem_markBases h
  rwa [Ancestor.toTy_ofBase]

private theorem object_of_mem_markBases {mark : Nat} (h : .resolved c ∈ markBases mark bases) :
    c.isInstance = false := by
  obtain ⟨t, -, m, same⟩ := mem_markBases h
  unfold Ancestor.ofBase at same
  split at same
  · split at same
    · cases same
    · rename_i object
      cases same
      exact Bool.eq_false_iff.2 object
  all_goals cases same

/-- Of the bases, those that are class objects have got theirs. -/
theorem Writes.resolved (writes : cat.Writes known fixed bases) {mark : Nat} {b : ClassTy}
    (hb : .resolved b ∈ markBases mark bases) :
    (Ty.cls b).Over (cat.vocabulary known) ∧ b.id ∈ fixed := by
  obtain ⟨made, given⟩ := writes (.cls b) (toTy_of_mem_markBases hb)
  exact ⟨made, given b rfl (object_of_mem_markBases hb)⟩

section

variable (h : cat.Layered fixed) (fresh : c.id ∉ fixed)
  (writes : cat.Writes (c.id :: fixed) fixed bases)
include h fresh writes

private theorem brought_eq_merge (mark : Nat) (inf : Inference) :
    cat.classes.brought c.id (markBases mark bases) inf =
      (Ancestor.merge [] ((markBases mark bases).map cat.classes.line ++
        [markBases mark bases])).1 :=
  ClassTable.brought_eq h.numbered.distinct
    (fun b hb (same : b.id = c.id) => fresh (same ▸ (writes.resolved hb).2))
    (fun _ hb => (writes.resolved hb).1.all) (fun b _ _ hc => (h.entries b.id _ hc _ rfl).all) inf

private theorem over_of_mem_brought (declared : c.id < cat.classes.size) {mark : Nat}
    {inf : Inference}
    {a : Ancestor} (ha : a ∈ cat.classes.brought c.id (markBases mark bases) inf) {t : Ty}
    (ht : a.toTy = some t) : t.Over (cat.vocabulary (c.id :: fixed)) := by
  have all_declared : ∀ id ∈ c.id :: fixed, id < cat.classes.size :=
    List.forall_mem_cons.2 ⟨declared, h.declared⟩
  have entry : ∀ id, ∀ a ∈ (cat.classes.decl id).mro, ∀ t, a.toTy = some t →
      t.Over (cat.vocabulary (c.id :: fixed)) := fun id a ha t ht =>
    (Beside.refl cat).keeps_over (List.subset_cons_self _ _) (h.entries id a ha t ht)
  rw [brought_eq_merge h fresh writes] at ha
  rcases Ancestor.mem_of_mem_merge [] _ ha with none | ⟨l, hl, here⟩
  · cases none
  · rcases List.mem_append.1 hl with hl | hl
    · obtain ⟨base, hbase, rfl⟩ := List.mem_map.1 hl
      cases base with
      | unresolved u mark =>
        rw [List.mem_singleton.1 (show a ∈ [.unknown] from here)] at ht
        exact Option.some.inj ht ▸ .unknown trivial
      | resolved b =>
        have made := (writes.resolved hbase).1
        rcases List.mem_cons.1 (show a ∈ _ :: _ from here) with rfl | here
        · cases ht
          cases made with
          | cls known args => exact .cls known args
        · obtain ⟨d, hd, rfl⟩ := List.mem_map.1 here
          cases d with
          | unresolved u mark => exact entry b.id _ hd t ht
          | resolved d =>
            cases ht
            exact over_through h.numbered all_declared (entry b.id _ hd _ rfl) made
    · rw [List.mem_singleton.1 hl] at here
      exact (writes t (ht ▸ toTy_of_mem_markBases here)).1

private theorem descends_brought (declared : c.id < cat.classes.size) {after : ClassTable}
    {mark : Nat}
    {inf : Inference} (others : ∀ id, id ≠ c.id → after.decl id = cat.classes.decl id)
    (own : after.decl c.id = { cat.classes.decl c.id with
      bases := markBases mark bases
      mro := cat.classes.brought c.id (markBases mark bases) inf })
    (agrees : cat.classes.Agrees .all after) {b : ClassTy}
    (single : markBases mark bases = [.resolved b]) : after.Descends c.id b := by
  obtain ⟨made, given⟩ := writes.resolved (single ▸ List.mem_singleton_self (Ancestor.resolved b))
  have object := object_of_mem_markBases (single ▸ List.mem_singleton_self (Ancestor.resolved b))
  have other : b.id ≠ c.id := fun same => fresh (same ▸ given)
  have scope : (after.decl c.id).scope = (cat.classes.decl c.id).scope := by rw [own]
  have mroBase : (after.decl b.id).mro = (cat.classes.decl b.id).mro := by rw [others _ other]
  have entry : ∀ d, .resolved d ∈ (cat.classes.decl b.id).mro →
      (Ty.cls d).Over (cat.vocabulary fixed) := fun d hd => h.entries b.id _ hd _ rfl
  have once : (Ancestor.ids (.resolved b ::
      (cat.classes.decl b.id).mro.map fun a => a.through cat.classes b)).Nodup := by
    rw [Ancestor.ids_resolved, Ancestor.ids_map_through]
    exact List.nodup_cons.2 ⟨h.proper b.id, h.once b.id⟩
  refine ⟨object, other, ?_, ?_, ?_, ?_⟩
  · obtain ⟨name, n, -, named⟩ := h.numbered.scope c.id declared
    rw [scope, named]
    exact scopeName_ne_empty name n
  · rw [mroBase, agrees.map_through_eq trivial fun d hd => (entry d hd).all, own]
    dsimp only
    rw [brought_eq_merge h fresh writes, single]
    change (Ancestor.merge [] [.resolved b.toClassObject :: _, [.resolved b]]).1 = _
    rw [ClassTy.toClassObject_eq object, Ancestor.merge_base once]
  · intro d hd
    rw [mroBase] at hd
    refine (entry d hd).mono (fun e he same => fresh (same ▸ he)) (fun v hv same => ?_)
      fun _ _ => trivial
    exact fresh (hv.1 c.id declared (same.trans scope))
  · intro a ha t ht
    rw [mroBase] at ha
    exact (h.entries b.id a ha t ht).all

private theorem layered_of_brought (declared : c.id < cat.classes.size) {mark : Nat}
    {inf : Inference}
    (next : cat'.nextScope = cat.nextScope) (size : cat'.classes.size = cat.classes.size)
    (others : ∀ id, id ≠ c.id → cat'.classes.decl id = cat.classes.decl id)
    (own : cat'.classes.decl c.id = { cat.classes.decl c.id with
      bases := markBases mark bases
      mro := cat.classes.brought c.id (markBases mark bases) inf }) :
    cat'.Layered (c.id :: fixed) := by
  have agrees : ∀ id, (cat'.classes.decl id).params = (cat.classes.decl id).params ∧
      (cat'.classes.decl id).scope = (cat.classes.decl id).scope := by
    intro id
    by_cases here : id = c.id
    · rw [here, own]
      exact ⟨rfl, rfl⟩
    · rw [others id here]
      exact ⟨rfl, rfl⟩
  have later : cat.Onward cat' :=
    ⟨Nat.le_of_eq size.symm, size ▸ Nat.le_succ _, Nat.le_of_eq next.symm, fun id _ => (agrees id).2,
      fun id hid new => absurd (size ▸ hid) (Nat.not_lt_of_le new)⟩
  have numbered := h.numbered.onward later fun id v hv => by
    rw [(agrees id).2]
    exact h.numbered.own id v ((agrees id).1 ▸ hv)
  have known : ∀ b ∈ Ancestor.ids (markBases mark bases), b ∈ fixed := by
    intro b hb
    obtain ⟨d, hd, rfl⟩ := Ancestor.mem_ids.1 hb
    exact (writes.resolved hd).2
  obtain ⟨once, brought⟩ := @ClassTable.ids_brought cat.classes c.id
    (markBases mark bases) (fun here => fresh (known _ here)) inf
  refine ⟨numbered, ?_, fun id a ha t ht => ?_, fun id => ?_, fun id => ?_, fun id b hb => ?_⟩
  · rw [size]
    exact List.forall_mem_cons.2 ⟨declared, h.declared⟩
  all_goals by_cases here : id = c.id
  · rw [here, own] at ha
    exact later.keeps_over (List.Subset.refl _) (over_of_mem_brought h fresh writes declared ha ht)
  · rw [others id here] at ha
    exact later.keeps_over (List.subset_cons_self _ _) (h.entries id a ha t ht)
  · rw [here, own]
    exact once
  · rw [others id here]
    exact h.once id
  · rw [here, own]
    intro itself
    obtain ⟨b, hb, same | above⟩ := (brought c.id).1 itself
    · exact fresh (same ▸ known b hb)
    · exact fresh (h.classes_mem b _ above)
  · rw [others id here]
    exact h.proper id
  · rw [here, own] at hb
    rw [here]
    exact descends_brought h fresh writes declared others own (fun d _ => agrees d.id) hb
  · rw [others id here] at hb
    have descends := h.descends id b hb
    have base : b.id ∈ fixed := by
      refine h.classes_mem id b.id ?_
      rw [descends.mro]
      exact List.mem_cons_self
    refine descends.of_agrees (V := cat.vocabulary fixed) (fun d _ => agrees d.id) base
      (fun d hd => h.entries b.id _ hd _ rfl) (agrees id).2 ?_ ?_
    · rw [others id here]
    · rw [others b.id fun same => fresh (same ▸ base)]

/-- A class that is given bases written with classes that have got theirs joins these. -/
theorem layered_setBases (declared : c.id < cat.classes.size) (inf : Inference) :
    (cat.setBases c bases inf).1.1.Layered (c.id :: fixed) := by
  obtain ⟨size, others, own⟩ :=
    ClassTable.linearize_withBases declared (markBases cat.nextMark bases) inf
  exact layered_of_brought h fresh writes declared rfl size others own

end

theorem writes_of_objects {ids : List ClassId} (known : ∀ id ∈ ids, id ∈ fixed) :
    cat.Writes fixed fixed (ids.map fun id => some (.cls (.ofId id))) := by
  intro t ht
  obtain ⟨id, hid, same⟩ := List.mem_map.1 ht
  cases same
  exact ⟨.cls (known id hid) nofun, fun b same _ => Ty.cls.inj same ▸ known id hid⟩

theorem Layered.modify (h : cat.Layered fixed) (c : ClassTy) {f : ClassDecl → ClassDecl}
    (scope : ∀ d, (f d).scope = d.scope) (bases : ∀ d, (f d).bases = d.bases)
    (mro : ∀ d, (f d).mro = d.mro) (params : ∀ d, (f d).params = d.params) :
    (cat.modify c f).Layered fixed := by
  have step := cat.beside_modify c scope bases mro fun v hv => .inl (params _ ▸ hv)
  refine h.beside step fun id _ => ?_
  have here := ClassTable.decl_modify cat.classes c.id id f
  change ((cat.classes.modify c.id f).decl id).params = _
  rw [here]
  split
  · exact params _
  · rfl

theorem layered_finalize (h : cat.Layered fixed) (rooted : Builtin.object.id ∈ fixed)
    (declared : c.id < cat.classes.size) (fresh : c.id ∉ fixed)
    (writes : cat.Writes (c.id :: fixed) fixed bases) (metaclass : Option Ty) (inf : Inference) :
    (cat.finalize c bases metaclass inf).1.Layered (c.id :: fixed) := by
  obtain ⟨t, finalized⟩ := cat.finalize_eq c bases metaclass inf
  rw [finalized]
  have step := cat.beside_modify c (f := fun d => { d with metaclass := some t }) (fun _ => rfl)
    (fun _ => rfl) (fun _ => rfl) fun v hv => .inl hv
  have marked := h.modify c (f := fun d => { d with metaclass := some t }) (fun _ => rfl)
    (fun _ => rfl) (fun _ => rfl) fun _ => rfl
  refine layered_setBases marked fresh ?_ (Nat.lt_of_lt_of_le declared step.size) inf
  split
  · have object := @writes_of_objects cat fixed [Builtin.object.id] (by simpa using rooted)
    exact object.onward step.toOnward (List.subset_cons_self _ _)
  · exact writes.onward step.toOnward (List.Subset.refl _)

theorem bases_finalize {b : ClassTy} (declared : c.id < cat.classes.size)
    (object : b.isInstance = false) (metaclass : Option Ty) (inf : Inference) :
    ((cat.finalize c [some (.cls b)] metaclass inf).1.classes.decl c.id).bases = [.resolved b] := by
  obtain ⟨t, finalized⟩ := cat.finalize_eq c [some (.cls b)] metaclass inf
  rw [finalized]
  have step := cat.beside_modify c (f := fun d => { d with metaclass := some t }) (fun _ => rfl)
    (fun _ => rfl) (fun _ => rfl) fun v hv => .inl hv
  have here := Nat.lt_of_lt_of_le declared step.size
  refine (congrArg ClassDecl.bases (ClassTable.linearize_withBases here _ inf).2.2).trans ?_
  change [Ancestor.ofBase (some (.cls b)) cat.nextMark] = _
  rw [Ancestor.ofBase, object]
  rfl

theorem layered_declareClass (h : cat.Layered fixed) (rooted : Builtin.object.id ∈ fixed)
    (name : String) (flags : ClassFlags) (writes : cat.Writes fixed fixed bases) (inf : Inference) :
    (cat.declareClass name flags bases inf).1.2.Layered (cat.classes.size :: fixed) := by
  have step := cat.beside_addClass name flags ""
  have added : (cat.addClass name flags "").2.Layered fixed := by
    refine h.beside step fun id hid => congrArg ClassDecl.params ?_
    exact (ClassTable.decl_push ..).trans (if_neg (Nat.ne_of_lt (h.declared id hid)))
  rw [declareClass_eq]
  refine layered_finalize added rooted ?_ ?_ ?_ none inf
  · simp [addClass, ClassTy.ofId]
  · exact fun here => Nat.lt_irrefl _ (h.declared _ here)
  · exact writes.onward step.toOnward (List.subset_cons_self _ _)

end Catalog

/-! ### Classes without type parameters -/

namespace Ancestor

def IsBare (a : Ancestor) : Prop := ∃ id, a = .resolved (.ofId id)

instance : DecidablePred IsBare
  | .resolved ⟨id, false, none, false, none⟩ => isTrue ⟨id, rfl⟩
  | .resolved ⟨_, true, _, _, _⟩ => isFalse nofun
  | .resolved ⟨_, _, some _, _, _⟩ => isFalse nofun
  | .resolved ⟨_, _, _, true, _⟩ => isFalse nofun
  | .resolved ⟨_, _, _, _, some _⟩ => isFalse nofun
  | .unresolved _ _ => isFalse nofun

private theorem eq_map_of_bare {as : List Ancestor} (bare : ∀ a ∈ as, a.IsBare) :
    as = (ids as).map fun id => .resolved (.ofId id) := by
  induction as with
  | nil => rfl
  | cons a as ih =>
    rw [List.forall_mem_cons] at bare
    obtain ⟨⟨id, rfl⟩, others⟩ := bare
    exact congrArg _ (ih others)

theorem through_of_bare {classes : ClassTable} {owner : ClassTy} (bare : owner.args = none)
    (a : Ancestor) : a.through classes owner = a := by
  cases a with
  | resolved c => exact congrArg resolved (ClassTy.through_of_bare bare)
  | unresolved t mark => rfl

end Ancestor

namespace Catalog

/-- A catalog of classes without parameters, each of them declared after its bases. -/
theorem layered_of_bare {cat : Catalog}
    (ancestral : cat.classes.Ancestral (List.range cat.classes.size))
    (next : cat.nextScope = cat.classes.size)
    (scope : ∀ id < cat.classes.size,
      (cat.classes.decl id).scope = scopeName (cat.classes.decl id).fullName id)
    (params : ∀ id < cat.classes.size, (cat.classes.decl id).params.isEmpty = true)
    (bare : ∀ id < cat.classes.size,
      ∀ a ∈ (cat.classes.decl id).bases ++ (cat.classes.decl id).mro, a.IsBare)
    (brought : ∀ id < cat.classes.size, ∀ b ∈ Ancestor.ids (cat.classes.decl id).bases,
      Ancestor.ids (cat.classes.decl id).bases = [b] → Ancestor.ids (cat.classes.decl id).mro =
        b :: Ancestor.ids (cat.classes.decl b).mro) :
    cat.Layered (List.range cat.classes.size) := by
  have beyond : ∀ id, ¬ id < cat.classes.size → cat.classes.decl id = default := fun id hid =>
    ClassTable.decl_of_size_le (Nat.le_of_not_lt hid)
  have bareMro : ∀ id, ∀ a ∈ (cat.classes.decl id).mro, a.IsBare := by
    intro id a ha
    by_cases hid : id < cat.classes.size
    · exact bare id hid a (List.mem_append_right _ ha)
    · rw [beyond id hid] at ha
      cases ha
  have among : ∀ id, ∀ b ∈ Ancestor.ids (cat.classes.decl id).mro, b ∈ List.range cat.classes.size := by
    intro id b hb
    obtain ⟨c, -, last⟩ := Relation.TransGen.tail'_iff.1 ((ancestral.mem id b).1 hb)
    exact (ancestral.bases c b last).2
  have apart : ∀ id, ∀ b ∈ Ancestor.ids (cat.classes.decl id).mro, b ≠ id := by
    rintro id b hb rfl
    exact ancestral.proper b ((ancestral.mem b b).1 hb)
  have made : ∀ V : Vocabulary, ∀ id, V.classes (.ofId id) → (Ty.cls (.ofId id)).Over V :=
    fun V id here => .cls here nofun
  refine ⟨⟨fun id hid => ⟨_, id, next.symm ▸ hid, scope id hid⟩, fun id other same named => ?_,
    fun id v hv => ?_⟩, ancestral.declared, fun id a ha t ht => ?_, ancestral.once,
    fun id itself => apart id id itself rfl, fun id b hb => ?_⟩
  · have hother := scope other (lt_of_named (same ▸ named))
    exact scopeName_inj ((scope id (lt_of_named named)).symm.trans (same.trans hother))
  · by_cases hid : id < cat.classes.size
    · rw [List.isEmpty_iff.1 (params id hid)] at hv
      cases hv
    · rw [beyond id hid] at hv
      cases hv
  · obtain ⟨b, rfl⟩ := bareMro id a ha
    cases ht
    exact made _ b (among id b (Ancestor.mem_ids.2 ⟨_, ha, rfl⟩))
  · by_cases hid : id < cat.classes.size
    · have brought := brought id hid
      have bare := bare id hid
      rw [hb] at bare brought
      obtain ⟨k, same⟩ := bare (.resolved b) (List.mem_append_left _ (List.mem_singleton_self _))
      cases same
      have listed := brought k (List.mem_singleton_self k) rfl
      refine ⟨rfl, apart id k (listed ▸ List.mem_cons_self), ?_, ?_, fun c hc => ?_,
        fun a ha t ht => ?_⟩
      · rw [scope id hid]
        exact scopeName_ne_empty _ id
      · rw [List.map_congr_left fun a _ => Ancestor.through_of_bare rfl a, List.map_id',
          Ancestor.eq_map_of_bare (bareMro id), listed, List.map_cons]
        exact congrArg _ (Ancestor.eq_map_of_bare (bareMro k)).symm
      · obtain ⟨j, same⟩ := bareMro k _ hc
        cases same
        refine made _ j (apart id j ?_)
        rw [listed]
        exact List.mem_cons_of_mem _ (Ancestor.mem_ids.2 ⟨_, hc, rfl⟩)
      · obtain ⟨j, rfl⟩ := bareMro k a ha
        cases ht
        exact made .all j trivial
    · rw [beyond id hid] at hb
      cases hb

end Catalog

end Conformance
