import Conformance.Proofs.Heirs
import Conformance.Proofs.Renaming
import Conformance.Proofs.Repeated

/-!
# Heirs of generic protocols

A protocol that extends another one, with its own parameters for type arguments, and declares nothing
itself asks for the same members, in terms of its own parameters. Where what is written in the protocol
mentions neither of the two protocols nor its receiver's class, and what a comparison comes across
mentions nothing of the two, a class is compared with both in the same way.
-/

namespace Conformance

open Check

/-! ## What is written in a protocol -/

/-- The declared types of the members of a class and its ancestors, what these are put together from,
and the accessors of the properties among them. -/
inductive ClassTable.WrittenIn (classes : ClassTable) (id : ClassId) : Ty → Prop
  | member {e : String × Member} {t : Ty} (here : e ∈ (classes.decl id).members.entries)
      (h : e.2.declaredType = some t) : classes.WrittenIn id t
  | ancestor {c : ClassTy} (h : .resolved c ∈ (classes.decl id).mro) : classes.WrittenIn id (.cls c)
  | part {t u : Ty} (whole : classes.WrittenIn id t) (h : u.Part t) : classes.WrittenIn id u
  | accessor {c : ClassTy} {a : Accessor} {f : FunctionTy} (property : classes.WrittenIn id (.cls c))
      (h : a.of (classes.decl c.id) = some f) : classes.WrittenIn id (.function f)

/-- The functions that are written in the first class have scopes of their own, and no return type in it
is still to be found out; its unions are as they are built, and it is nested no deeper than substitution
goes. -/
structure ClassTable.Portable (classes : ClassTable) (p q : ClassId) : Prop where
  foreign {f : FunctionTy} (h : classes.WrittenIn p (.function f)) : classes.Foreign p q f.scope
  settled {f : FunctionTy} (h : classes.WrittenIn p (.function f)) :
    ∀ cell outcome, f.ret ≠ .deferred cell outcome
  built {ts : List Ty} (h : classes.WrittenIn p (.union ts)) : Fragment.Built .start ts
  nests {t : Ty} (h : classes.WrittenIn p t) : t.Nests classes [] Ty.levels

/-- The second class extends the first one with its own parameters for type arguments, has the
ancestors that this brings along, and declares nothing itself. -/
structure ClassTable.ExtendedBy (classes : ClassTable) (p q : ClassId) (base : ClassTy) : Prop where
  renamed : classes.Renamed p q
  id : base.id = p
  args : base.argList = (classes.decl q).params.map fun v => some (.var v)
  members : (classes.decl q).members.entries = []
  mro : (classes.decl q).mro =
    .resolved base :: (classes.decl p).mro.map fun a => a.through classes base

/-- What a comparison of a class with a protocol, and one with its heir, start from: the class, the type
arguments, what the caller has found and what is in progress, and what is written in the protocol apart
from its parameters. -/
inductive CheckState.Begins (s : CheckState) (classes : ClassTable) (view candidate : ClassTy) :
    Ty → Prop
  | candidate : s.Begins classes view candidate (.cls candidate)
  | argument {t : Ty} (h : some t ∈ view.argList) : s.Begins classes view candidate t
  | solution {σ : Solution} {key : String} {t : Ty} (h : s.solving = some σ)
      (here : (key, some t) ∈ σ.entries) : s.Begins classes view candidate t
  | tried {e : Pending} (here : e ∈ s.pending ++ s.lent) :
      s.Begins classes view candidate (.cls e.candidate)
  | asked {e : Pending} (here : e ∈ s.pending ++ s.lent) :
      s.Begins classes view candidate (.cls e.protocol)
  | cls {c : ClassTy} (h : classes.WrittenIn view.id (.cls c)) :
      s.Begins classes view candidate (.cls (.ofId c.id))
  | module {name : String} {table : TableId} (h : classes.WrittenIn view.id (.module name table)) :
      s.Begins classes view candidate (.module name table)
  | var {v : TypeVar} (h : classes.WrittenIn view.id (.var v))
      (other : v ∉ (classes.decl view.id).params) : s.Begins classes view candidate (.var v)

/-- Nothing that the comparisons come across has to do with the two protocols. -/
structure CheckState.Apart (s : CheckState) (w : World) (q : ClassId) (view candidate : ClassTy) :
    Prop where
  foreign {t : Ty} (h : w.Reaches (s.Begins w.classes view candidate) t) :
    w.classes.Foreign view.id q (w.classes.scopeOf t)
  scopes {σ : Solution} (h : s.solving = some σ) {scope : String} (here : scope ∈ σ.scopes) :
    w.classes.Foreign view.id q scope
  keys {σ : Solution} (h : s.solving = some σ) {e : String × Option Ty} (here : e ∈ σ.entries) :
    ∃ v : TypeVar, v.key = e.1 ∧ w.classes.Foreign view.id q v.scope

section

variable {w : World} {q : ClassId} {view candidate base : ClassTy} {s : CheckState}

/-- The two comparisons, which call the variables of the protocol and of its heir by each other's
names. -/
def CheckState.heirs (s : CheckState) (w : World) (view candidate : ClassTy) (naming : Renaming) :
    Pairing where
  left := s.inference
  right := s.inference
  common _ := True
  classes id := ∃ c : ClassTy, c.id = id ∧ w.Reaches (s.Begins w.classes view candidate) (.cls c)
  modules table := ∃ name, w.Reaches (s.Begins w.classes view candidate) (.module name table)
  loose := False
  naming := naming

namespace ClassTable.ExtendedBy

variable {m : Pairing} (h : w.classes.ExtendedBy view.id q base)
  (hm : s.heirs w view candidate h.renamed.naming = m)

section

include hm

private theorem naming_eq : m.naming = h.renamed.naming := by rw [← hm]; rfl

private theorem holds_start : m.Holds m.left m.right := by
  subst hm
  exact .start _ fun _ _ => rfl

private theorem known_iff {id : ClassId} : m.classes id ↔
    ∃ c : ClassTy, c.id = id ∧ w.Reaches (s.Begins w.classes view candidate) (.cls c) := by
  rw [← hm]
  rfl

private theorem known_written {c : ClassTy} (hc : w.classes.WrittenIn view.id (.cls c)) :
    m.classes c.id :=
  (h.known_iff hm).2 ⟨.ofId c.id, rfl, .start (.cls hc)⟩

end

section

include h

private theorem over_base : (Ty.cls base).Over .all := by
  refine .cls trivial fun o ho t ht => ?_
  rw [h.args] at ho
  obtain ⟨v, -, rfl⟩ := List.mem_map.1 ho
  cases ht
  exact .var trivial

private theorem ofVar_param {i : Nat} {v u : TypeVar}
    (hv : (w.classes.decl view.id).params[i]? = some v)
    (hu : (w.classes.decl q).params[i]? = some u) :
    Substitution.ofVar (.ofClass w.classes base) false v = .var u := by
  have same : Solution.ofClass w.classes base =
      .ofClass w.classes ((ClassTy.ofId view.id).given ((w.classes.decl q).params.map .var)) := by
    have args := h.args
    unfold ClassTy.argList at args
    cases hargs : base.args with
    | none =>
      rw [hargs, Option.getD_none, eq_comm, List.map_eq_nil_iff] at args
      rw [args] at hu
      cases hu
    | some given =>
      rw [hargs, Option.getD_some] at args
      unfold Solution.ofClass
      rw [hargs, h.id, args, ClassTy.given, ClassTy.withArgs, List.map_map]
      rfl
  have keys := h.renamed.nodup_map ClassTable.Renamed.name_and_scope_of_key (.inl rfl)
  rw [ClassTable.ownVars, List.map_cons, List.nodup_cons] at keys
  have here := List.mem_of_getElem? hv
  have scope := h.renamed.own view.id (.inl rfl) v here
  have placed := World.place_param (P := .ofId view.id) hv keys.2 (h.renamed.free v here).2 scope
    (scope ▸ (h.renamed.named view.id (.inl rfl)).1)
  rw [same, ofVar_given, placed, Option.bind_some, List.getElem?_map, hu]
  · rfl
  · rw [List.length_map]
    exact h.renamed.params.length_eq.symm

end

variable (apart : s.Apart w q view candidate)
include hm apart

private theorem foreign_decl {id : ClassId} (known : m.classes id) :
    w.classes.Foreign view.id q (w.classes.decl id).scope := by
  obtain ⟨c, rfl, reached⟩ := (h.known_iff hm).1 known
  exact apart.foreign reached

theorem shares : m.Shares (w.Reaches (s.Begins w.classes view candidate)) where
  part := .part
  cls reached := (h.known_iff hm).2 ⟨_, rfl, reached⟩
  module reached := by
    subst hm
    exact ⟨_, reached⟩
  cell _ _ := by
    subst hm
    exact Pairing.cell_of_common (fun _ => trivial) rfl _
  var reached := h.renamed.alike_of_foreign (h.naming_eq hm) (apart.foreign reached)
  scope reached := by
    rw [h.naming_eq hm]
    exact h.renamed.scope_of_foreign (apart.foreign reached)

theorem fixes : m.Fixes w := by
  refine (h.shares hm apart).fixes (fun id known => (h.known_iff hm).1 known) (fun table known => ?_)
    fun c known => h.renamed.alike_of_foreign (h.naming_eq hm) (h.foreign_decl hm apart known)
  subst hm
  exact known

/-- The comparisons start from states that are twins. -/
theorem meets : m.Meets s s := by
  refine (h.shares hm apart).meets ?_ rfl rfl rfl
    (fun e here => ⟨.start (.tried here), .start (.asked here)⟩) (fun σ hσ => ⟨fun scope here => ?_,
      fun e here => ?_⟩) fun σ hσ key t here => .start (.solution hσ here)
  · have start := h.holds_start hm
    subst hm
    exact start
  · rw [h.naming_eq hm]
    exact h.renamed.scope_of_foreign (apart.scopes hσ here)
  · obtain ⟨v, key, foreign⟩ := apart.keys hσ here
    rw [← key]
    exact (h.renamed.alike_of_foreign (h.naming_eq hm) foreign).key.symm

private theorem replaces (portable : w.classes.Portable view.id q) :
    m.Replaces w.classes (.ofClass w.classes base) (w.classes.WrittenIn view.id) where
  part := .part
  cls {c} hc := by
    refine ⟨h.known_written hm hc, fun opens => ?_⟩
    have solves := opens.2
    rw [Bool.or_eq_false_iff, Bool.not_eq_false', solves_ofClass, h.id] at solves
    exact (h.foreign_decl hm apart (h.known_written hm hc)).1 solves.2.1
  module hmod := by
    subst hm
    exact ⟨_, .start (.module hmod)⟩
  var {v} hv := by
    by_cases param : v ∈ (w.classes.decl view.id).params
    · obtain ⟨i, hi⟩ := List.getElem?_of_mem param
      have twin := rel_getElem? (h.renamed.rel_ownParams (h.naming_eq hm)) i
      rw [hi] at twin
      generalize hu : (w.classes.decl q).params[i]? = u at twin
      cases twin with
      | some twin =>
        rw [h.ofVar_param hi hu]
        exact twin
    · have twin := (h.shares hm apart).twin (.start (.var hv param))
      have foreign : w.classes.Foreign view.id q v.scope := apart.foreign (.start (.var hv param))
      rw [ofVar_of_scope_ne (h.id ▸ foreign.1)]
      exact twin
  function {f} hf := by
    refine ⟨?_, portable.settled hf⟩
    rw [h.naming_eq hm]
    exact h.renamed.scope_of_foreign (portable.foreign hf)
  union := portable.built

variable (portable : w.classes.Portable view.id q)
include portable

/-! ### Requirements -/

private theorem rel_ancestors : List.Forall₂ m.Entry (w.classes.decl view.id).mro
    ((w.classes.decl view.id).mro.map fun a => a.through w.classes base) := by
  have replaces := h.replaces hm apart portable
  refine List.forall₂_map_right_iff.2 (List.forall₂_same.2 fun a ha => ?_)
  cases a with
  | unresolved t mark => exact .unresolved t mark
  | resolved c =>
    have here : w.classes.WrittenIn view.id (.cls c) := .ancestor ha
    have twin := replaces.twin (h.holds_start hm) (finds_ofClass h.over_base trivial) here
      (portable.nests here)
    rw [← replaces.cls_through here] at twin
    exact .resolved twin

end ClassTable.ExtendedBy

/-- What declares a member for the protocol and for its heir: the protocol itself, and the base of the
heir, or ancestors that are twins. -/
inductive Pairing.Declarer (m : Pairing) (p : ClassId) (base : ClassTy) : ClassTy → ClassTy → Prop
  | own {c : ClassTy} (id : c.id = p) (bare : c.args = none) : m.Declarer p base c base
  | inherited {c d : ClassTy} (twin : c.Twin m d) : m.Declarer p base c d

/-- The same member is asked for. -/
structure Pairing.Corresponds (m : Pairing) (p : ClassId) (base : ClassTy) (r r' : Requirement) :
    Prop where
  name : r'.name = r.name
  member : r'.member = r.member
  owner : m.Declarer p base r.owner r'.owner

namespace Requirement

private theorem rel_nearest {R : Requirement → Requirement → Prop}
    (named : ∀ r r', R r r' → r'.name = r.name) {rs rs' : List Requirement}
    (hr : List.Forall₂ R rs rs') : List.Forall₂ R (nearest rs) (nearest rs') := by
  refine List.rel_foldl (P := List.Forall₂ R) (fun found found' hf r r' hr => ?_) .nil hr
  have met : found'.any (·.name == r'.name) = found.any (·.name == r.name) :=
    any_eq_of_rel hf fun a a' ha => by rw [named _ _ ha, named _ _ hr]
  rw [met]
  split
  · exact hf
  · exact List.rel_append hf (.cons hr .nil)

end Requirement

namespace ClassTable.ExtendedBy

variable {m : Pairing} (h : w.classes.ExtendedBy view.id q base)

include h in
private theorem declarer_id {c d : ClassTy} (hcd : m.Declarer view.id base c d) : d.id = c.id := by
  cases hcd with
  | own id => rw [id, h.id]
  | inherited twin => exact twin.id

variable (hm : s.heirs w view candidate h.renamed.naming = m) (apart : s.Apart w q view candidate)
  (portable : w.classes.Portable view.id q)
include hm apart portable

private theorem rel_protocols {protocol : ClassTy} (hid : protocol.id = view.id) :
    List.Forall₂ (m.Declarer view.id base) (Requirement.protocols w.classes protocol)
      (((w.classes.decl q).mro.filterMap Ancestor.class?).filter w.classes.isProtocol) := by
  unfold Requirement.protocols
  rw [h.mro, hid]
  refine List.rel_filter (fun c d hcd => ?_) (.cons (.own hid rfl)
    (List.rel_filterMap (fun a b hab => ?_) (h.rel_ancestors hm apart portable)))
  · change w.classes.isProtocol c = true ↔ w.classes.isProtocol d = true
    rw [ClassTable.isProtocol, ClassTable.isProtocol, h.declarer_id hcd]
  · cases hab with
    | resolved twin => exact .some (.inherited twin)
    | unresolved => exact .none

private theorem rel_requirements (asObject : Bool) {protocol heir : ClassTy}
    (hid : protocol.id = view.id)
    (hid' : heir.id = q) : List.Forall₂ (m.Corresponds view.id base)
      (Requirement.all w.classes asObject protocol) (Requirement.all w.classes asObject heir) := by
  have nothing : Requirement.ofDeclared w.classes asObject heir.generic = [] := by
    unfold Requirement.ofDeclared
    rw [show heir.generic.id = q from hid', h.members]
    rfl
  have own : (Requirement.protocols w.classes heir).flatMap
        (Requirement.ofDeclared w.classes asObject) =
      (((w.classes.decl q).mro.filterMap Ancestor.class?).filter w.classes.isProtocol).flatMap
        (Requirement.ofDeclared w.classes asObject) := by
    unfold Requirement.protocols
    rw [List.filterMap_cons, Ancestor.class?, List.filter_cons, hid']
    split
    · rw [List.flatMap_cons, nothing, List.nil_append]
    · rfl
  unfold Requirement.all
  rw [own]
  refine Requirement.rel_nearest (fun _ _ hr => hr.name) ?_
  refine List.rel_flatMap (h.rel_protocols hm apart portable hid) fun c d hcd => ?_
  unfold Requirement.ofDeclared
  rw [h.declarer_id hcd]
  refine List.forall₂_map_left_iff.2 (List.forall₂_map_right_iff.2 (List.forall₂_same.2 ?_))
  exact fun e _ => ⟨rfl, rfl, hcd⟩

section

variable {protocol : ClassTy} (hid : protocol.id = view.id) (self : ClassTy)
include hid

omit hm apart portable in
private theorem scope_of_solves_self {scope : String}
    (solves : ((Solution.forScope (w.classes.decl protocol.id).scope).withSelf w.classes protocol
      self).solves scope = true) : scope = (w.classes.decl view.id).scope := by
  have added : ((Solution.forScope (w.classes.decl protocol.id).scope).addScope
      (w.classes.decl protocol.id).scope).solves scope = true := solves
  rw [hid] at added
  rcases Fragment.solves_addScope added with first | same
  · exact (Fragment.solves_addScope first).resolve_left (by simp [Solution.solves, Solution.empty])
  · exact same

omit hm apart portable in
include h in
private theorem get?_self {v : TypeVar} (param : v ∈ (w.classes.decl view.id).params) :
    ((Solution.forScope (w.classes.decl protocol.id).scope).withSelf w.classes protocol self).get? v =
      none := by
  have keys := h.renamed.nodup_map ClassTable.Renamed.name_and_scope_of_key (.inl rfl)
  rw [ClassTable.ownVars, List.map_cons, List.nodup_cons] at keys
  have other : v.key ≠ (w.classes.selfVar protocol).key := by
    intro same
    refine keys.1 (List.mem_map.2 ⟨v, param, same.trans ?_⟩)
    rw [ClassTable.selfVar, ClassTable.selfVar, hid]
    rfl
  unfold Solution.withSelf
  dsimp only
  rw [Solution.get?_insert, if_neg other, Solution.get?, Fragment.entries_addScope,
    Solution.forScope, Fragment.entries_addScope]
  rfl

private theorem substitute_self {t : Ty} (ht : w.classes.WrittenIn view.id t) (inf : Inference) :
    t.substitute w.classes ((Solution.forScope (w.classes.decl protocol.id).scope).withSelf w.classes
      protocol self) false inf = (t, inf) := by
  have shut := (h.replaces hm apart portable).over_of ht
  refine Ty.substitute_eq_self (fun c kept opens => ?_) (fun v hv => ?_) shut inf
  · have solves := opens.2
    rw [Bool.or_eq_false_iff, Bool.not_eq_false'] at solves
    refine kept ⟨opens.1, ?_⟩
    rw [solves.1, Bool.false_or, Bool.not_eq_false', solves_ofClass, h.id]
    refine ⟨scope_of_solves_self hid self solves.2, fun unnamed => ?_⟩
    rw [unnamed] at solves
    simp [Solution.solves] at solves
  · by_cases param : v ∈ (w.classes.decl view.id).params
    · unfold Substitution.ofVar
      rw [h.get?_self hid self param]
      split <;> rfl
    · have foreign : w.classes.Foreign view.id q v.scope := apart.foreign (.start (.var hv param))
      exact Fragment.ofVar_eq_var
        (Bool.eq_false_iff.2 fun solves => foreign.1 (scope_of_solves_self hid self solves))

end

omit portable in
private theorem sameClass_eq_false {c d : ClassTy} (known : m.classes c.id)
    (hid : d.id = view.id ∨ d.id = q) :
    c.sameClass d = false := by
  have foreign := h.foreign_decl hm apart known
  refine beq_false_of_ne fun same => ?_
  rcases hid with hid | hid <;> rw [same, hid] at foreign
  · exact foreign.1 rfl
  · exact foreign.2.1 rfl

omit portable in
private theorem isPending_eq_false (choice : StackChoice) {c p : ClassTy}
    (hp : p.id = view.id ∨ p.id = q) :
    isPending s.inference (pendingOn choice s) ⟨c, p⟩ = false := by
  refine List.any_eq_false.2 fun e here => ?_
  have here : e ∈ s.pending ++ s.lent := by
    cases choice
    · exact List.mem_append_left _ here
    · exact List.mem_append_right _ here
  have known : m.classes e.protocol.id := (h.known_iff hm).2 ⟨_, rfl, .start (.asked here)⟩
  rw [Pairing.same_of_id_ne (beq_eq_false_iff_ne.1 (h.sameClass_eq_false hm apart known hp)),
    Bool.and_false]
  exact Bool.false_ne_true

section

variable {protocol heir : ClassTy} (hid : protocol.id = view.id) (hid' : heir.id = q)
include hid hid'

/-- What the protocol asks for and what the heir asks for is the same. -/
theorem asked (self : ClassTy) (asObject : Bool) {r r' : Requirement}
    (hr : m.Corresponds view.id base r r')
    (here : r ∈ Requirement.all w.classes asObject protocol) :
    ∃ seen, m.Asked w (.of w protocol self asObject) (.of w heir self asObject) seen r r' := by
  have hw := h.fixes hm apart
  have declared := (Requirement.declared_of_mem_all here).2
  obtain ⟨owner, name, member⟩ := r
  obtain ⟨owner', name', member'⟩ := r'
  obtain ⟨rfl, rfl, declarer⟩ := hr
  dsimp only at declarer declared
  cases declarer with
  | inherited twin =>
    refine ⟨_, Pairing.asked_of_owner hw rfl rfl (fun t ht => ?_) twin ?_⟩
    · exact hw.decl twin.known (.member ⟨declared, ht⟩)
    · have known : m.classes owner'.id := twin.id ▸ twin.known
      change owner'.sameClass heir = owner.sameClass protocol
      rw [h.sameClass_eq_false hm apart known (.inr hid'),
        h.sameClass_eq_false hm apart twin.known (.inl hid)]
  | own id bare =>
    have replaces := h.replaces hm apart portable
    have holds := h.holds_start hm
    refine ⟨w.classes.WrittenIn view.id, rfl, rfl, fun {t} typed => ?_, fun ht inf => ?_,
      fun {d c a f} hd property known here => ?_⟩
    · rw [id] at declared
      have ht : w.classes.WrittenIn view.id t := .member declared typed
      have own : owner.sameClass protocol = true := beq_iff_eq.2 (id.trans hid.symm)
      have other : base.sameClass heir = false := by
        refine beq_false_of_ne fun same => h.renamed.other ?_
        rw [← hid', ← same, h.id]
      unfold Requirement.seenFrom
      rw [Match.of, Match.of, own, other]
      refine Pairing.runs_gives ?_ (Pairing.gives_pure ht)
      exact Pairing.runs_lift (replaces.both_seen holds h.over_base ht (portable.nests ht))
    · rw [Match.of, h.substitute_self hm apart portable hid self ht]
      exact ht
    · obtain ⟨x, instance_x, property⟩ := Option.bind_eq_some_iff.1 property
      rw [Fragment.eq_of_asInstance? instance_x] at hd
      split at property
      · cases property
        have hf : w.classes.WrittenIn view.id (.function f) := .accessor hd here
        have plain : f.specialize w.classes owner = pure f := by
          unfold FunctionTy.specialize memberSolution
          rw [bare]
          rfl
        rw [plain]
        exact replaces.both_seenFunction holds h.over_base hf (portable.nests hf)
      · cases property

omit apart portable in
private theorem self_twin {c : ClassTy} (hc : c.Twin m c) (asObject : Bool) :
    (Match.of w protocol c asObject).self.Twin m (Match.of w heir c asObject).self := by
  have key : (w.classes.selfVar heir).key = m.naming.key (w.classes.selfVar protocol).key := by
    have key := h.renamed.key_self (h.naming_eq hm)
    rw [← hid, ← hid'] at key
    exact key
  have scope : m.naming.scope (w.classes.decl protocol.id).scope = (w.classes.decl heir.id).scope := by
    rw [h.naming_eq hm, hid, hid']
    exact h.renamed.scope_naming
  have solving := (Solution.Twin.forScope m (w.classes.decl protocol.id).scope).addScope
    (w.classes.decl protocol.id).scope
  rw [scope] at solving
  exact solving.insert_of_key key (.some (ClassTy.Twin.toInstance hc))

omit apart portable in
private theorem protocolTwin
    (args : Option.Rel (List.Forall₂ (Option.Rel (Ty.Twin m))) protocol.args heir.args) :
    m.ProtocolTwin w protocol heir := by
  refine ⟨⟨?_, args⟩, ?_, ?_⟩
  · rw [hid, hid', eq_comm, ← List.forall₂_eq_eq_eq, List.forall₂_map_left_iff,
      List.forall₂_map_right_iff]
    exact h.renamed.params.imp fun v u same => by rw [same]
  · rw [h.naming_eq hm, hid, hid']
    exact h.renamed.scope_naming.symm
  · rw [hid, hid']
    exact h.renamed.rel_ownParams (h.naming_eq hm)

variable {j : Judge} (hj : m.Respects j j) {c : ClassTy} (hc : c.Twin m c)
  (args : Option.Rel (List.Forall₂ (Option.Rel (Ty.Twin m))) protocol.args heir.args)
include hj hc args

theorem agrees_matchMembers (mode : Mode) (asObject : Bool) :
    m.Agrees (matchMembers w j mode asObject protocol c) (matchMembers w j mode asObject heir c) := by
  have hw := h.fixes hm apart
  unfold matchMembers
  split
  · refine Pairing.runs_bind Pairing.runs_inference fun inf inf' _ => ?_
    have other {d : ClassTy} (hd : d.id = view.id ∨ d.id = q) : c.id ≠ d.id :=
      beq_eq_false_iff_ne.1 (h.sameClass_eq_false hm apart hc.known hd)
    rw [Pairing.same_of_id_ne (other (.inl hid)).symm, Pairing.same_of_id_ne (other (.inr hid')).symm]
    exact Pairing.agrees_pure false
  · refine Pairing.agrees_meetAll hj hw mode (h.protocolTwin hm hid hid' args) ?_
    have each := (List.forall₂_and_left _ _).2
      ⟨fun r here => here, h.rel_requirements hm apart portable asObject hid hid'⟩
    refine each.imp fun r r' hr => ?_
    obtain ⟨seen, asked⟩ := h.asked hm apart portable hid hid' c asObject hr.2 hr.1
    exact Pairing.agrees_matchMember
      (Pairing.matchTwin_of hw hc asObject (h.self_twin hm hid hid' hc asObject)) hw hj asked

private theorem ends_matchClass (choice : StackChoice) (mode : Mode) (asObject : Bool) :
    Pairing.Ends (· = ·) (exec (matchClass w j choice mode asObject protocol c) s).1
      (exec (matchClass w j choice mode asObject heir c) s).1 := by
  have entered {p : ClassTy} (hp : p.id = view.id ∨ p.id = q) :
      exec (matchClass w j choice mode asObject p c) s =
        exec (whilePending choice ⟨⟨c.toClassObject, p.toClassObject⟩, asObject⟩
          (matchMembers w j mode asObject p.toClassObject c.toClassObject)) s := by
    have idle := h.isPending_eq_false hm apart choice (c := c.toClassObject) (p := p.toClassObject) hp
    unfold matchClass
    rw [exec_bind_of_ok (exec_get s), idle]
    rfl
  rw [entered (.inl hid), entered (.inr hid')]
  have object : protocol.toClassObject.id = view.id := hid
  have object' : heir.toClassObject.id = q := hid'
  have members := h.agrees_matchMembers hm apart portable object object' hj hc.toClassObject args
    mode asObject
  have unknown {p : ClassTy} (hp : p.id = view.id ∨ p.id = q) : ¬ m.classes p.id := fun known =>
    beq_eq_false_iff_ne.1 (h.sameClass_eq_false hm apart known hp) rfl
  exact (Pairing.agrees_whilePending choice (.foreign (unknown (.inl hid)) (unknown (.inr hid')))
    members s s (h.meets hm apart)).1

end

end ClassTable.ExtendedBy

end

private theorem heir_compared_alike {w : World} {q : ClassId} {view candidate base : ClassTy}
    {s : CheckState}
    (heir : w.classes.ExtendedBy view.id q base) (portable : w.classes.Portable view.id q)
    (apart : s.Apart w q view candidate)
    (identified : (s.heirs w view candidate heir.renamed.naming).Identifies w w)
    (choice : StackChoice) (depth : Int) (mode : Mode) (asObject : Bool) :
    (exec (conformsFrom w choice depth mode asObject { view with id := q } candidate) s).1 =
      (exec (conformsFrom w choice depth mode asObject view candidate) s).1 := by
  have shares := heir.shares rfl apart
  have respects := Pairing.respects_judge (heir.fixes rfl apart) identified
  unfold conformsFrom
  cases levelsAt depth with
  | zero => rfl
  | succ n =>
    refine (heir.ends_matchClass rfl apart portable rfl rfl (respects n) (shares.twin (.start .candidate))
      ?_ choice mode asObject).eq
    refine rel_option_self fun given hargs => List.forall₂_same.2 fun o here => ?_
    refine rel_option_self fun t ht => shares.twin (.start (.argument ?_))
    rwa [ClassTy.argList, hargs, Option.getD_some, ← ht]

/-- A protocol that declares nothing itself, and extends another one with its own parameters for type
arguments, is satisfied by the same classes. No comparison tells the two apart, if nothing else has to do
with them and which types are one object does not depend on how their variables are called. What they ask for may mention the protocols themselves if nothing is solved for: then both
comparisons answer, and if one of them succeeds, without passing the last level and with nothing taken to
hold but what was in progress under the same view, then so does the other. -/
theorem inheritance_transparent {w : World} {view candidate : ClassTy} {q : ClassId}
    (asObject : Bool) :
    (∀ {base : ClassTy} {s : CheckState} (heir : w.classes.ExtendedBy view.id q base),
      w.classes.Portable view.id q → s.Apart w q view candidate →
      (s.heirs w view candidate heir.renamed.naming).Identifies w w →
      ∀ (choice : StackChoice) (depth : Int) (mode : Mode),
        (exec (conformsFrom w choice depth mode asObject { view with id := q } candidate) s).1 =
          (exec (conformsFrom w choice depth mode asObject view candidate) s).1) ∧
    ∀ {F : Fragment}, F.Covers w → ¬ F.wide → F.ids view.id → F.ids q → w.classes.Heir q view.id →
      F.HasClass candidate → ∀ (choice choice' : StackChoice) {mode mode' : Mode},
      mode.invariant = false → mode'.invariant = false → ∀ {s s' : CheckState},
      s.inference = F.inf → s'.inference = F.inf → ∃ b b' t t',
        exec (conformsFrom w choice 0 mode asObject (.ofId view.id) candidate) s = (.ok b, t) ∧
        exec (conformsFrom w choice' 0 mode' asObject (.ofId q) candidate) s' = (.ok b', t') ∧
        (s.SoundUntil F.inf t → b = true → b' = true) ∧
        (s'.SoundUntil F.inf t' → b' = true → b = true) := by
  refine ⟨fun heir portable apart identified choice depth mode => ?_, fun hw hf hp hq heir hc choice choice' => ?_⟩
  · exact heir_compared_alike heir portable apart identified choice depth mode asObject
  · exact heir_satisfied_alike hw hf hp hq heir hc asObject choice choice'

namespace Sample

/-- A generic protocol whose method yields a value of its parameter, an heir of it, and a class whose
method yields a value of the class. -/
def extended : World :=
  ofDecls [object,
    generic .invariant (protocolOf "P" [method "next" none [] (.var (parameter .invariant "P"))]),
    { generic .invariant (protocolOf "Q" []) with
      mro := [.resolved (viewOf 1 (.var (parameter .invariant "Q")))] },
    classOf "C" [method "next" none [] (instanceOf 3)]]

private theorem extendedBy_extended :
    extended.classes.ExtendedBy 1 2 (viewOf 1 (.var (parameter .invariant "Q"))) where
  renamed := {
    other := by decide
    named := by rintro id (rfl | rfl) <;> decide
    params := .cons rfl .nil
    free := by
      intro v hv
      rw [List.mem_singleton.1 (show v ∈ [parameter .invariant "P"] from hv)]
      exact ⟨rfl, rfl⟩
    own := by
      rintro id (rfl | rfl) v hv
      · rw [List.mem_singleton.1 (show v ∈ [parameter .invariant "P"] from hv)]
        rfl
      · rw [List.mem_singleton.1 (show v ∈ [parameter .invariant "Q"] from hv)]
        rfl
    distinct := by rintro id (rfl | rfl) <;> decide }
  id := rfl
  args := rfl
  members := rfl
  mro := rfl

private theorem writtenIn_extended {t : Ty} (h : extended.classes.WrittenIn 1 t) :
    t = .function (function none [] (.declared (.var (parameter .invariant "P")))) ∨
      t = .var (parameter .invariant "P") := by
  induction h with
  | member here typed =>
    cases List.mem_singleton.1 here
    cases typed
    exact .inl rfl
  | ancestor h => cases h
  | part _ part ih =>
    rcases ih with rfl | rfl
    · cases part with
      | param here typed =>
        rw [List.mem_singleton.1 here] at typed
        cases typed
      | declared ret =>
        cases ret
        exact .inr rfl
      | found ret => cases ret
    · cases part with
      | bound h => cases h
  | accessor _ _ ih =>
    rcases ih with ih | ih <;> cases ih

private theorem portable_extended : extended.classes.Portable 1 2 where
  foreign h := by
    rcases writtenIn_extended h with h | h <;> cases h
    exact extendedBy_extended.renamed.foreign_empty
  settled h := by
    rcases writtenIn_extended h with h | h <;> cases h
    intro cell outcome ret
    cases ret
  built h := by
    rcases writtenIn_extended h with h | h <;> cases h
  nests {t} h := by
    have var (n : Nat) : (Ty.var (parameter .invariant "P")).Nests extended.classes [] (n + 1) :=
      .var fun σ τs h => by cases h
    rcases writtenIn_extended h with rfl | rfl
    · refine .function (fun p hp => ?_) (var 13)
      rw [List.mem_singleton.1 hp]
      exact .unknown _ _
    · exact var 14

private theorem reached_extended {t : Ty} (h : extended.Reaches
      ((CheckState.mk .start #[] [] [] none none []).Begins extended.classes (viewOf 1 (instanceOf 3))
        (.ofId 3)) t) :
    t = .function (function none [] (.declared (instanceOf 3))) ∨
      ∃ c : ClassTy, t = .cls c ∧ c.args = none ∧ (c.id = 0 ∨ c.id = 3 ∨ c.id = 10) := by
  induction h with
  | start h =>
    cases h with
    | candidate => exact .inr ⟨_, rfl, rfl, .inr (.inl rfl)⟩
    | argument h =>
      rw [Option.some.inj (List.mem_singleton.1 h)]
      exact .inr ⟨_, rfl, rfl, .inr (.inl rfl)⟩
    | solution h => cases h
    | tried here => cases here
    | asked here => cases here
    | cls h => rcases writtenIn_extended h with h | h <;> cases h
    | module h => rcases writtenIn_extended h with h | h <;> cases h
    | var h other =>
      rcases writtenIn_extended h with h | h <;> cases h
      exact absurd (List.mem_singleton_self _) other
  | part _ part ih =>
    rcases ih with rfl | ⟨c, rfl, bare, -⟩
    · cases part with
      | param here typed =>
        rw [List.mem_singleton.1 here] at typed
        cases typed
      | declared ret =>
        cases ret
        exact .inr ⟨_, rfl, rfl, .inr (.inl rfl)⟩
      | found ret => cases ret
    · cases part with
      | argument here =>
        rw [ClassTy.argList, bare] at here
        cases here
  | @decl c _ _ h ih =>
    rcases ih with ih | ⟨_, ⟨⟩, -, id⟩
    · cases ih
    · have only : ∀ e ∈ (extended.classes.decl c.id).members.entries,
          e = method "next" none [] (instanceOf 3) := by
        rcases id with id | id | id <;> rw [id] <;> intro e here
        · cases here
        · exact List.mem_singleton.1 here
        · cases here
      obtain ⟨mro, params, metaclass, accessors⟩ : (extended.classes.decl c.id).mro = [] ∧ (extended.classes.decl c.id).params = [] ∧
          (extended.classes.decl c.id).metaclass = none ∧
          ∀ a : Accessor, a.of (extended.classes.decl c.id) = none := by
        rcases id with id | id | id <;> rw [id] <;>
          exact ⟨rfl, rfl, rfl, fun a => by cases a <;> rfl⟩
      cases h with
      | ancestor h =>
        rw [mro] at h
        cases h
      | member h =>
        obtain ⟨here, declares⟩ := h
        cases only _ here
        cases declares with
        | annotated here typed =>
          rw [List.mem_singleton.1 here] at typed
          cases typed
          exact .inl rfl
        | inferred here typed =>
          rw [List.mem_singleton.1 here] at typed
          cases typed
        | synthesized h => cases h
      | param h =>
        rw [params] at h
        cases h
      | metaclass h =>
        rw [metaclass] at h
        cases h
      | accessor h =>
        rw [accessors] at h
        cases h
  | module _ here ih =>
    rcases ih with h | ⟨_, h, -⟩ <;> cases h
  | object => exact .inr ⟨_, rfl, rfl, .inl rfl⟩
  | typedDict => exact .inr ⟨_, rfl, rfl, .inr (.inr rfl)⟩

private theorem apart_extended : CheckState.Apart ⟨.start, #[], [], [], none, none, []⟩ extended 2 (viewOf 1 (instanceOf 3)) (.ofId 3) where
  foreign {t} h := by
    rcases reached_extended h with rfl | ⟨c, rfl, -, hc⟩
    · exact extendedBy_extended.renamed.foreign_empty
    · change extended.classes.Foreign 1 2 (extended.classes.decl c.id).scope
      rcases hc with hc | hc | hc <;> rw [hc] <;> exact ⟨by decide, by decide, by decide⟩
  scopes h := by cases h
  keys h := by cases h

/-- A protocol whose method yields another value of the protocol, an heir of it, and a class whose
method yields a value of the class. -/
def heirs : World :=
  ofDecls [object, protocolOf "P" [method "next" none [] (instanceOf 1)],
    { protocolOf "Q" [] with mro := [.resolved (.ofId 1)] },
    classOf "C" [method "next" none [] (instanceOf 3)]]

private theorem covers_heirs : plainTypes.Covers heirs := by
  have next : ∀ id, ∀ e ∈ [method "next" none [] (instanceOf id)],
      plainTypes.HasMember (e.2.effectiveType .start) := by
    intro id e he
    rw [List.mem_singleton.1 he]
    exact hasMember_method _ id
  refine covers_ofDecls ?_ fun id d hd e he => .inl ?_
  · simp only [List.forall_mem_cons]
    exact ⟨simple_object, simple_protocolOf _ _, (simple_protocolOf _ _).derived _ [1],
      simple_classOf _ _, fun _ h => nomatch h⟩
  · match id with
    | 0 | 2 =>
      cases hd
      cases he
    | 1 =>
      cases hd
      exact next 1 e he
    | 3 =>
      cases hd
      exact next 3 e he
    | n + 4 => cases hd

private theorem heir_heirs : heirs.classes.Heir 2 1 := ⟨rfl, rfl⟩

end Sample

/-- A class satisfies the heir of a generic protocol whose method yields a value of its parameter, and
the heir of one whose method yields another value of the protocol, because it satisfies these. -/
theorem inheritance_transparent_of_samples :
    (exec (conformsFrom Sample.extended .own 0 .default false
      { Sample.viewOf 1 (Sample.instanceOf 3) with id := 2 } (.ofId 3))
        ⟨.start, #[], [], [], none, none, []⟩).1.toOption = some true ∧
    ∃ t t', (Sample.compare 1 3).alone Sample.heirs .start = (.ok true, t) ∧
      (Sample.compare 2 3).alone Sample.heirs .start = (.ok true, t') := by
  constructor
  · rw [(inheritance_transparent false).1 Sample.extendedBy_extended Sample.portable_extended
      Sample.apart_extended (fun _ _ => .inl rfl) .own 0 .default]
    decide +kernel
  · have sound : (Sample.compare 1 3).SoundAlone Sample.heirs .start := by decide +kernel
    obtain ⟨u, run, until_u⟩ := sound.run
    obtain ⟨b, b', t, t', h, h', upward, -⟩ :=
      (@inheritance_transparent Sample.heirs (.ofId 1) (.ofId 3) 2 false).2 Sample.covers_heirs id
        trivial trivial Sample.heir_heirs (Sample.hasClass_ofId 3) .own .own
        (rfl : Mode.default.invariant = false) (rfl : Mode.default.invariant = false)
        (rfl : CheckState.inference ⟨.start, #[], [], [], none, none, []⟩ = .start)
        (rfl : CheckState.inference ⟨.start, #[], [], [], none, none, []⟩ = .start)
    have same : (Sample.compare 1 3).alone Sample.heirs .start = (.ok b, t) := h
    cases run.symm.trans same
    cases upward until_u rfl
    exact ⟨u, t', h, h'⟩

end Conformance
