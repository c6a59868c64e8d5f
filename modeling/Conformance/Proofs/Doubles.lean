import Conformance.Proofs.StaticMethods
import Conformance.Proofs.Pairs

/-!
# Doubles

Two classes that no type of a fragment mentions are doubles if they declare the same members, where a
method that returns its receiver returns an instance of its own class. Of what a protocol of the
fragment asks for, they have the same: the types that are compared differ at most in the one class
standing for the other as the type of an instance or as what a function returns.
-/

namespace Conformance

open Check

/-! ## Checks that answer at once -/

namespace Fragment

def Prompt {α β : Type} (F : Fragment) (E : α → β → Prop) (act : Check α) (act' : Check β) : Prop :=
  ∃ a b, F.Alike act (pure a) ∧ F.Alike act' (pure b) ∧ E a b

section

variable {F : Fragment} {L : Link F} {ρ : Regime} {α β γ δ : Type} {E : α → β → Prop}
  {D : γ → δ → Prop} {act : Check α} {act' : Check β}

theorem Alike.pure_bind {a : α} (h : F.Alike act (pure a)) (k : α → Check γ) :
    F.Alike (act >>= k) (k a) := by
  intro s hs
  rw [exec_bind_of_ok (h s hs)]

theorem prompt_pure {a : α} {b : β} (h : E a b) : F.Prompt E (pure a) (pure b) :=
  ⟨a, b, .refl _, .refl _, h⟩

theorem Prompt.bind {k : α → Check γ} {k' : β → Check δ} (h : F.Prompt E act act')
    (hk : ∀ a b, E a b → F.Prompt D (k a) (k' b)) : F.Prompt D (act >>= k) (act' >>= k') := by
  obtain ⟨a, b, ha, hb, related⟩ := h
  obtain ⟨c, d, hc, hd, related'⟩ := hk a b related
  exact ⟨c, d, (ha.pure_bind k).trans hc, (hb.pure_bind k').trans hd, related'⟩

/-- Two runs that begin alike follow each other as those do that they are like. -/
theorem Alike.sim {α : Type} {R : α → Prop} {E : α → α → Prop} {act act' act₁ act₁' : Check α}
    (h : F.Alike act act₁) (h' : F.Alike act' act₁') (linked : L.Sim ρ R E act₁ act₁') :
    L.Sim ρ R E act act' := by
  refine ⟨fun s hs => ?_, fun s hs => ?_, fun hs run run' clean => ?_⟩
  · rw [h s hs]
    exact linked.left s hs
  · rw [h' s hs]
    exact linked.right s hs
  · rw [h _ hs.left] at run
    rw [h' _ hs.right] at run'
    exact linked.link hs run run' clean

/-- Both go on from related answers. -/
theorem Prompt.agrees {k : α → Check Bool} {k' : β → Check Bool} (h : F.Prompt E act act')
    (hk : ∀ a b, E a b → L.Agrees ρ (k a) (k' b)) : L.Agrees ρ (act >>= k) (act' >>= k') := by
  obtain ⟨a, b, ha, hb, related⟩ := h
  exact (ha.pure_bind k).sim (hb.pure_bind k') (hk a b related)

private theorem prompt_lift {m : StateM Inference α} {m' : StateM Inference β} {a : α} {b : β}
    (h : F.Steady (· = a) m) (h' : F.Steady (· = b) m') (related : E a b) :
    F.Prompt E (lift m) (lift m') :=
  ⟨a, b, .lift h, .lift h', related⟩

end

end Fragment

/-! ## Types of doubles -/

/-- An instance of the one class stands for one of the other, or both are one type of the fragment. -/
inductive Ty.StandsFor (F : Fragment) (a b : ClassId) : Ty → Ty → Prop
  | same {t : Ty} (h : F.Has t) : Ty.StandsFor F a b t t
  | instances : Ty.StandsFor F a b (Builtin.instanceOf (.ofId a)) (Builtin.instanceOf (.ofId b))

/-- The two functions take the same arguments, and what they return stands for each other. -/
structure FunctionTy.StandsFor (F : Fragment) (a b : ClassId) (f g : FunctionTy) : Prop where
  params : g.params = f.params
  kind : g.kind = f.kind
  typed : ∀ p ∈ f.params, F.HasOption p.type
  settled : ∀ cell outcome, f.ret ≠ .deferred cell outcome
  settled' : ∀ cell outcome, g.ret ≠ .deferred cell outcome
  ret : Ty.StandsFor F a b (F.inf.returnType f) (F.inf.returnType g)

/-- What is compared for doubles: the same, or instances or functions that stand for each other. -/
inductive Ty.Doubles (F : Fragment) (a b : ClassId) : Ty → Ty → Prop
  | base {t u : Ty} (h : Ty.StandsFor F a b t u) : Ty.Doubles F a b t u
  | function {f g : FunctionTy} (h : FunctionTy.StandsFor F a b f g) :
      Ty.Doubles F a b (.function f) (.function g)

/-- The types of two members of one name, given the variables that stand for the receivers: the same,
the same function declared again, or functions that return their receivers. -/
inductive Ty.Redeclared (F : Fragment) (v u : TypeVar) (name : String) : Ty → Ty → Prop
  | same {t : Ty} (h : F.HasMember t) : Ty.Redeclared F v u name t t
  | again {f : FunctionTy} (h : F.HasMember (.function f)) (scope : String) :
      Ty.Redeclared F v u name (.function f) (.function { f with scope := scope })
  | receiver {f g : FunctionTy} (uncalled : name ≠ "__call__") (h : F.ReturnsSelf v f)
      (h' : F.ReturnsSelf u g) (params : g.params = f.params) (kind : g.kind = f.kind) :
      Ty.Redeclared F v u name (.function f) (.function g)

/-- The two members are declared in the same way. -/
structure Member.Redeclared (F : Fragment) (v u : TypeVar) (name : String) (m n : Member) : Prop where
  flags : n.flags = m.flags
  isFinal : n.isFinal = m.isFinal
  type : Ty.Redeclared F v u name (m.effectiveType F.inf) (n.effectiveType F.inf)

namespace World

variable (F : Fragment) (w : World)

/-- A class that no type of the fragment mentions. -/
structure Outside (id : ClassId) : Prop where
  unmentioned : ¬ F.ids id
  apart : ∀ v, F.vars v → v.scope ≠ (w.classes.decl id).scope
  unpromoted : id ≠ Builtin.int.id ∧ id ≠ Builtin.float.id
  noProperty : w.classes.isProperty (.ofId id) = false
  ordinary : w.classes.isTypedDict (.ofId id) = false

/-- Two classes apart from the fragment have the same ancestors, which belong to it, and declare the
same members. What is asked for is one object with both of two functions that stand for each other or
with neither. -/
structure Doubles (a b : ClassId) : Prop where
  left : w.Outside F a
  right : w.Outside F b
  mro : (w.classes.decl b).mro = (w.classes.decl a).mro
  inherited : ∀ c, Ancestor.resolved c ∈ (w.classes.decl a).mro → F.HasClass c ∧
    ∀ e ∈ (w.classes.decl c.id).members.entries,
      Member.Redeclared F (w.classes.selfVar c) (w.classes.selfVar c) e.1 e.2 e.2
  own : List.Forall₂ (fun e e' => e'.1 = e.1 ∧ Member.Redeclared F (w.classes.selfVar (.ofId a))
      (w.classes.selfVar (.ofId b)) e.1 e.2 e'.2)
    (w.classes.decl a).members.entries (w.classes.decl b).members.entries
  shared {t : Ty} {f g : FunctionTy} (asked : F.Has t) (h : f.StandsFor F a b g) :
    w.identity.identical t (.function g) = w.identity.identical t (.function f)

end World

section

variable {F : Fragment} {v u : TypeVar} {name : String}

theorem Ty.StandsFor.symm {a b : ClassId} {t t' : Ty} (h : Ty.StandsFor F a b t t') :
    Ty.StandsFor F b a t' t := by
  cases h with
  | same h => exact .same h
  | instances => exact .instances

theorem Fragment.HasFunction.withScope {f : FunctionTy} (h : F.HasFunction f) (scope : String) :
    F.HasFunction { f with scope := scope } := .function h.params h.declared h.settled

theorem Fragment.HasMember.withScope {f : FunctionTy} (h : F.HasMember (.function f))
    (scope : String) : F.HasMember (.function { f with scope := scope }) := by
  refine ⟨HasFunction.withScope h.has scope, ?_, fun _ h => nomatch h⟩
  rintro _ ⟨⟩
  exact h.function f rfl

theorem FunctionTy.StandsFor.symm {a b : ClassId} {f g : FunctionTy} (h : f.StandsFor F a b g) :
    g.StandsFor F b a f where
  params := h.params.symm
  kind := h.kind.symm
  typed := h.params ▸ h.typed
  settled := h.settled'
  settled' := h.settled
  ret := h.ret.symm

theorem Ty.Redeclared.symm {t t' : Ty} (h : Ty.Redeclared F v u name t t') :
    Ty.Redeclared F u v name t' t := by
  cases h with
  | same has => exact .same has
  | @again f has scope =>
    have renewed := has.withScope scope
    cases f with
    | mk _ _ _ _ declared => exact .again renewed declared
  | receiver uncalled h h' params kind => exact .receiver uncalled h' h params.symm kind.symm

theorem Member.Redeclared.symm {m n : Member} (h : m.Redeclared F v u name n) :
    n.Redeclared F u v name m := ⟨h.flags.symm, h.isFinal.symm, h.type.symm⟩

end

namespace World.Doubles

variable {F : Fragment} {w : World} {a b : ClassId} (h : w.Doubles F a b)
include h

theorem symm : w.Doubles F b a where
  left := h.right
  right := h.left
  mro := h.mro.symm
  inherited := h.mro ▸ h.inherited
  own := by
    refine (h.own.imp fun e e' alike => ?_).flip
    obtain ⟨named, member⟩ := alike
    exact ⟨named.symm, named ▸ member.symm⟩
  shared asked stands := (h.shared asked stands.symm).symm

/-- Doubles are doubles whatever class stands for typed dictionaries. -/
theorem withTypedDict (d : ClassTy) : (w.withTypedDict d).Doubles F a b where
  left := ⟨h.left.unmentioned, h.left.apart, h.left.unpromoted, h.left.noProperty, h.left.ordinary⟩
  right :=
    ⟨h.right.unmentioned, h.right.apart, h.right.unpromoted, h.right.noProperty, h.right.ordinary⟩
  mro := h.mro
  inherited := h.inherited
  own := h.own
  shared := h.shared

end World.Doubles

namespace Fragment

variable {F : Fragment} {w : World} {a b : ClassId} {name : String}

/-! ## Members of doubles -/

private theorem alike_inference : F.Alike inference (pure F.inf) := by
  intro s hs
  rw [exec_inference, hs.inference]
  rfl

theorem alike_demand {f : FunctionTy} (settled : ∀ cell outcome, f.ret ≠ .deferred cell outcome) :
    F.Alike (demand f) (pure ()) := by
  intro s _
  rw [exec_demand, demand_eq settled]
  rfl

private theorem alike_demandPlain {t : Ty}
    (settled : ∀ f, t = .function f → ∀ cell outcome, f.ret ≠ .deferred cell outcome) :
    F.Alike (Match.demandPlain t) (pure ()) := by
  cases t with
  | function f => exact alike_demand (settled f rfl)
  | _ => exact .refl _

section

variable (hw : F.Scopes w) (hf : ¬ F.wide)
include hw hf

private theorem untouched_of_idle {σ : Solution} (idle : F.Idle (some σ)) : F.Untouched w σ :=
  ⟨fun v hv => ofVar_eq_var (idle v hv), fun hi => .inl (hw.params_eq_nil hf hi)⟩

/-- The receiver of a class apart from the fragment stands for nothing in its types. -/
theorem untouched_withSelf {owner : ClassTy}
    (apart : ∀ v, F.vars v → v.scope ≠ (w.classes.decl owner.id).scope) (self : ClassTy) :
    F.Untouched w
      ((Solution.forScope (w.classes.decl owner.id).scope).withSelf w.classes owner self) :=
  untouched_of_idle hw hf (idle_addScope (idle_forScope apart) apart)

omit hw hf in
private theorem ofClass_of_bare {owner : ClassTy} (bare : owner.args = none) :
    Solution.ofClass w.classes owner = .forScope (w.classes.decl owner.id).scope := by
  unfold Solution.ofClass
  rw [bare]

section

variable {owner : ClassTy} (bare : owner.args = none)
  (apart : ∀ v, F.vars v → v.scope ≠ (w.classes.decl owner.id).scope) (self : ClassTy)
include bare apart

private theorem steady_specialize_self {t : Ty} (has : F.Has t) :
    F.Steady (· = t) (t.specialize w.classes owner (some self)) := by
  refine steady_specialize_eq fun σ hσ n => ?_
  cases hσ
  rw [ofClass_of_bare bare]
  exact steady_ofTyAt_eq (untouched_withSelf hw hf apart self) n has

private theorem steady_specialize_returnsSelf {f : FunctionTy}
    (h : F.ReturnsSelf (w.classes.selfVar owner) f) :
    F.Steady (· = .function { f with ret := .declared (.cls self.toInstance) })
      ((Ty.function f).specialize w.classes owner (some self)) := by
  obtain ⟨u, declared, whole, key, scope⟩ := h.ret
  have untouched := untouched_withSelf hw hf apart self
  have recorded : ((Solution.forScope (w.classes.decl owner.id).scope).withSelf w.classes owner
      self).isEmpty = false := isEmpty_insert _ _ _
  have params := steady_mapM_eq fun p hp => steady_ofParam_eq fun t ht =>
    steady_ofTyAt_eq untouched 14 (h.params p hp t ht)
  have replaced : F.Steady (· = .declared (.cls self.toInstance)) (Substitution.ofReturn
      (Substitution.ofTyAt w.classes
        ((Solution.forScope (w.classes.decl owner.id).scope).withSelf w.classes owner self) false 14)
      f) := by
    unfold Substitution.ofReturn
    rw [declared]
    exact steady_bind (steady_pure (ofVar_withSelf _ whole key scope h.scope))
      fun t (ht : t = .cls self.toInstance) => steady_pure (congrArg Return.declared ht)
  unfold Ty.specialize memberSolution
  dsimp only
  rw [ofClass_of_bare bare]
  unfold Ty.substitute
  rw [recorded]
  refine steady_bind (P := (· = { f with ret := .declared (.cls self.toInstance) })) ?_
    fun g hg => steady_pure (congrArg Ty.function hg)
  exact steady_bind params fun ps hps => steady_bind replaced fun ret hret =>
    steady_pure (by rw [hps, hret])

end

end

end Fragment

/-! ## Bound members of doubles -/

/-- What a member is compared as that is reached through an instance. -/
def Ty.reached (t : Ty) : StateM Inference Ty :=
  match t.bound? with
  | some bound => bound.dropSpecRest
  | none => pure t

namespace FunctionTy.StandsFor

variable {F : Fragment} {a b : ClassId} {f g : FunctionTy}

theorem withScope (h : F.HasFunction f) (scope : String) :
    f.StandsFor F a b { f with scope := scope } :=
  ⟨rfl, rfl, h.params, h.settled, h.settled, .same (h.returnType F.inf)⟩

variable (h : f.StandsFor F a b g)
include h

theorem withParams {ps : List Param} (hp : ∀ p ∈ ps, F.HasOption p.type) :
    FunctionTy.StandsFor F a b { f with params := ps } { g with params := ps } :=
  ⟨rfl, h.kind, hp, h.settled, h.settled', h.ret⟩

theorem withoutReceiver : f.withoutReceiver.StandsFor F a b g.withoutReceiver := by
  have params := h.params
  have kind := h.kind
  unfold FunctionTy.withoutReceiver
  rw [kind]
  split
  · exact h
  · unfold FunctionTy.withoutFirst
    rw [params]
    split
    · exact h
    · rename_i first rest list
      split
      · exact h
      · exact h.withParams fun p hp => h.typed p (list ▸ List.mem_cons_of_mem first hp)

theorem dropSpecRest :
    ∃ f₁ g₁, F.Steady (· = f₁) f.dropSpecRest ∧ F.Steady (· = g₁) g.dropSpecRest ∧
      f₁.StandsFor F a b g₁ := by
  have params := h.params
  have kept (f : FunctionTy) : F.Steady (· = f) (pure f) := Fragment.steady_pure rfl
  have dropped (ps : List Param) {f : FunctionTy}
      (settled : ∀ cell outcome, f.ret ≠ .deferred cell outcome) :
      F.Steady (· = { f with params := ps }) (Inference.withParams f ps) :=
    Fragment.steady_bind ⟨f.ret, Fragment.renew_eq settled F.inf, rfl⟩
      fun ret (hret : f.ret = ret) => Fragment.steady_pure (by rw [hret])
  unfold FunctionTy.dropSpecRest
  rw [params]
  split
  · rename_i last beforeLast rest list
    split
    · refine ⟨_, _, dropped _ h.settled, dropped _ h.settled', h.withParams fun p hp => ?_⟩
      refine h.typed p (List.mem_reverse.1 (list ▸ ?_))
      exact List.mem_cons_of_mem _ (List.mem_cons_of_mem _ (List.mem_reverse.1 hp))
    · exact ⟨f, g, kept f, kept g, h⟩
  · exact ⟨f, g, kept f, kept g, h⟩

end FunctionTy.StandsFor

/-- The types of two members of doubles: no receiver of either is annotated. -/
structure Ty.DoubleMembers (F : Fragment) (a b : ClassId) (t u : Ty) : Prop where
  doubles : Ty.Doubles F a b t u
  unannotated : t.Unannotated
  unannotated' : u.Unannotated

namespace Fragment

variable {F : Fragment} {w : World} {a b : ClassId} {t u : Ty} {j j' : Judge}

private theorem settled_methods (h : F.Has t) :
    ∀ f ∈ t.methods, ∀ cell outcome, f.ret ≠ .deferred cell outcome := by
  intro f hf
  cases h with
  | function params ret settled =>
    cases List.mem_singleton.1 hf
    exact settled
  | overloaded each => exact HasFunction.settled (each f hf)
  | _ => cases hf

end Fragment

theorem Ty.Doubles.settled {F : Fragment} {a b : ClassId} {t u : Ty} (h : t.Doubles F a b u) :
    (∀ f ∈ t.methods, ∀ cell outcome, f.ret ≠ .deferred cell outcome) ∧
      ∀ f ∈ u.methods, ∀ cell outcome, f.ret ≠ .deferred cell outcome := by
  cases h with
  | base h =>
    cases h with
    | same has => exact ⟨Fragment.settled_methods has, Fragment.settled_methods has⟩
    | instances => exact ⟨fun _ hf => (nomatch hf), fun _ hf => (nomatch hf)⟩
  | function h =>
    refine ⟨fun f hf => ?_, fun f hf => ?_⟩
    · cases List.mem_singleton.1 hf
      exact h.settled
    · cases List.mem_singleton.1 hf
      exact h.settled'

theorem Ty.Doubles.isCallable {F : Fragment} {a b : ClassId} {t u : Ty} (h : t.Doubles F a b u) :
    u.isCallable = t.isCallable := by
  cases h with
  | base h => cases h <;> rfl
  | function => rfl

/-- Members whose types are found out on demand are not redeclared. -/
theorem Ty.Redeclared.settled {F : Fragment} {v u : TypeVar} {name : String} {t t' : Ty}
    (h : Ty.Redeclared F v u name t t') :
    (∀ f, t = .function f → ∀ cell outcome, f.ret ≠ .deferred cell outcome) ∧
      ∀ f, t' = .function f → ∀ cell outcome, f.ret ≠ .deferred cell outcome := by
  have returned {v : TypeVar} {f : FunctionTy} (self : F.ReturnsSelf v f) (cell : CellId)
      (outcome : Outcome) : f.ret ≠ .deferred cell outcome := by
    obtain ⟨u, declared, -⟩ := self.ret
    rw [declared]
    exact fun h => nomatch h
  cases h with
  | same has =>
    refine ⟨?_, ?_⟩ <;>
    · rintro f rfl
      exact Fragment.HasFunction.settled has.has
  | again has scope =>
    have settled := Fragment.HasFunction.settled has.has
    refine ⟨?_, ?_⟩ <;>
    · rintro _ ⟨⟩
      exact settled
  | receiver uncalled self self' params kind =>
    refine ⟨?_, ?_⟩
    · rintro _ ⟨⟩
      exact returned self
    · rintro _ ⟨⟩
      exact returned self'

namespace Fragment

variable {F : Fragment} {w : World} {a b : ClassId} {t u : Ty} {j j' : Judge}

private theorem unannotated_methods (h : t.Unannotated) : ∀ f ∈ t.methods, f.Unannotated := by
  intro f hf
  cases t with
  | function g =>
    cases List.mem_singleton.1 hf
    exact h
  | overloaded fs => exact h f hf
  | _ => cases hf

theorem HasMember.unannotated (hf : ¬ F.wide) (h : F.HasMember t) : t.Unannotated := by
  cases t with
  | function f => exact (h.function f rfl).resolve_left hf
  | overloaded fs => exact fun f mem => (h.overloaded fs rfl f mem).resolve_left hf
  | _ => trivial

private theorem alike_bind
    (settled : ∀ f ∈ t.methods, ∀ cell outcome, f.ret ≠ .deferred cell outcome)
    (unannotated : t.Unannotated) {owner : Option ClassTy}
    (bare : ∀ c, owner = some c → c.args = none) (c : ClassTy) :
    F.Alike (bind w j (.of (.cls c.toInstance)) t owner) (pure t.bound?) := by
  refine fun s hs => exec_bind_method c hs.inference fun f hf => ?_
  refine ⟨fun d hd σ hσ => ?_, settled f hf, unannotated_methods unannotated f hf⟩
  unfold memberSolution at hσ
  rw [bare d hd] at hσ
  cases hσ

private theorem alike_boundOr
    (settled : ∀ f ∈ t.methods, ∀ cell outcome, f.ret ≠ .deferred cell outcome)
    (unannotated : t.Unannotated) {owner : Option ClassTy}
    (bare : ∀ c, owner = some c → c.args = none) (c : ClassTy) :
    F.Alike (Match.boundOr w j (.of (.cls c.toInstance)) t owner) (lift t.reached) := by
  refine ((alike_bind settled unannotated bare c).pure_bind _).trans ?_
  unfold Ty.reached
  cases t.bound? <;> exact .refl _

private theorem steady_reached (h : F.Has t) : F.Steady F.Has t.reached := by
  have bound := has_withoutReceiver h
  unfold Ty.withoutReceiver at bound
  unfold Ty.reached
  cases reached : t.bound? with
  | some b =>
    rw [reached] at bound
    exact steady_dropSpecRest bound
  | none => exact steady_pure h

private theorem prompt_reached (h : t.Doubles F a b u) :
    F.Prompt (Ty.Doubles F a b) (lift t.reached) (lift u.reached) := by
  cases h with
  | base h =>
    cases h with
    | same has =>
      obtain ⟨v, hv, has⟩ := steady_reached has
      exact prompt_lift ⟨v, hv, rfl⟩ ⟨v, hv, rfl⟩ (.base (.same has))
    | instances => exact prompt_pure (.base .instances)
  | function h =>
    obtain ⟨f, g, hf, hg, same⟩ := h.withoutReceiver.dropSpecRest
    exact prompt_lift (steady_bind hf fun _ h => steady_pure (congrArg Ty.function h))
      (steady_bind hg fun _ h => steady_pure (congrArg Ty.function h)) (.function same)

private theorem rel_bound? (h : t.Doubles F a b u) :
    Option.Rel (Ty.Doubles F a b) t.bound? u.bound? := by
  cases h with
  | base h =>
    cases h with
    | same has =>
      have bound := has_withoutReceiver has
      unfold Ty.withoutReceiver at bound
      revert bound
      generalize t.bound? = bound
      intro has
      cases bound with
      | none => exact .none
      | some b => exact .some (.base (.same has))
    | instances => exact .some (.base .instances)
  | function h => exact .some (.function h.withoutReceiver)

section

variable {owner owner' : Option ClassTy} (bare : ∀ c, owner = some c → c.args = none)
  (bare' : ∀ c, owner' = some c → c.args = none) (c c' : ClassTy)
include bare bare'

private theorem prompt_boundOr (h : t.DoubleMembers F a b u) :
    F.Prompt (Ty.Doubles F a b) (Match.boundOr w j (.of (.cls c.toInstance)) t owner)
      (Match.boundOr w j' (.of (.cls c'.toInstance)) u owner') := by
  obtain ⟨settled, settled'⟩ := h.doubles.settled
  obtain ⟨x, y, hx, hy, related⟩ := prompt_reached h.doubles
  exact ⟨x, y, (alike_boundOr settled h.unannotated bare c).trans hx,
    (alike_boundOr settled' h.unannotated' bare' c').trans hy, related⟩

private theorem prompt_boundOr_same (has : F.Has t) (unannotated : t.Unannotated) :
    F.Prompt (fun d d' => d' = d ∧ F.Has d) (Match.boundOr w j (.of (.cls c.toInstance)) t owner)
      (Match.boundOr w j' (.of (.cls c'.toInstance)) t owner') := by
  obtain ⟨d, hd, reached⟩ := steady_reached has
  have ended : F.Alike (lift t.reached) (pure d) := .lift ⟨d, hd, rfl⟩
  have settled := settled_methods has
  exact ⟨d, d, (alike_boundOr settled unannotated bare c).trans ended,
    (alike_boundOr settled unannotated bare' c').trans ended, rfl, reached⟩

end

end Fragment

/-- Members that do not return their receivers are compared as they are declared. -/
theorem Ty.Redeclared.members {F : Fragment} {v v' : TypeVar} {name : String} {a b : ClassId}
    {t u : Ty} (h : Ty.Redeclared F v v' name t u) (hf : ¬ F.wide) (called : ¬ name ≠ "__call__") :
    t.DoubleMembers F a b u := by
  cases h with
  | same has => exact ⟨.base (.same has.has), has.unannotated hf, has.unannotated hf⟩
  | @again f has scope =>
    have unannotated : f.Unannotated := has.unannotated hf
    exact ⟨.function (.withScope has.has scope), unannotated, unannotated⟩
  | receiver uncalled => exact absurd uncalled called

/-! ## What doubles have -/

/-- The same was found in two doubles: a member of which nothing is known, or members that are declared
alike, where neither class that declares one has type arguments or solves for the fragment. -/
inductive FoundMember.Doubles (F : Fragment) (w : World) (name : String) :
    FoundMember → FoundMember → Prop
  | unknown {found : FoundMember} (owner : found.owner = none) : FoundMember.Doubles F w name found found
  | declared {found found' : FoundMember} {o o' : ClassTy} (owner : found.owner = some o)
      (owner' : found'.owner = some o') (bare : o.args = none) (bare' : o'.args = none)
      (apart : ∀ v, F.vars v → v.scope ≠ (w.classes.decl o.id).scope)
      (apart' : ∀ v, F.vars v → v.scope ≠ (w.classes.decl o'.id).scope)
      (member : Member.Redeclared F (w.classes.selfVar o) (w.classes.selfVar o') name found.member
        found'.member) : FoundMember.Doubles F w name found found'

namespace FoundMember.Doubles

variable {F : Fragment} {w : World} {name : String} {found found' : FoundMember}
  (h : found.Doubles F w name found')
include h

theorem flags : found'.member.flags = found.member.flags := by
  cases h with
  | unknown => rfl
  | declared _ _ _ _ _ _ member => exact member.flags

theorem isFinal : found'.member.isFinal = found.member.isFinal := by
  cases h with
  | unknown => rfl
  | declared _ _ _ _ _ _ member => exact member.isFinal

theorem bare : (∀ c, found.owner = some c → c.args = none) ∧
    ∀ c, found'.owner = some c → c.args = none := by
  cases h with
  | unknown none =>
    have nothing : ∀ c, found.owner = some c → c.args = Option.none := by simp [none]
    exact ⟨nothing, nothing⟩
  | declared owner owner' bare bare' =>
    rw [owner, owner']
    exact ⟨fun _ h => Option.some.inj h ▸ bare, fun _ h => Option.some.inj h ▸ bare'⟩

end FoundMember.Doubles

/-- The matches look at two doubles in the same way. -/
structure Match.Doubles (F : Fragment) (w : World) (a b : ClassId) (m m' : Match) : Prop where
  protocol : m'.protocol = m.protocol
  instances : m.asObject = false
  instances' : m'.asObject = false
  candidate : m.candidate = .ofId a
  candidate' : m'.candidate = .ofId b
  self : F.Untouched w m.self
  self' : F.Untouched w m'.self

/-- Doubles have no literal types. -/
theorem Match.Doubles.modes {F : Fragment} {w : World} {a b : ClassId} {m m' : Match}
    (h : m.Doubles F w a b m') : m.mode = .default ∧ m'.mode = .default := by
  unfold Match.mode
  rw [h.candidate, h.candidate']
  exact ⟨rfl, rfl⟩

namespace Fragment

variable {F : Fragment} {w : World} {a b : ClassId} {name : String} {j j' : Judge}

private theorem rel_find?_of_redeclared {v u : TypeVar} {es es' : List (String × Member)}
    (h : List.Forall₂ (fun e e' => e'.1 = e.1 ∧ Member.Redeclared F v u e.1 e.2 e'.2) es es') :
    Option.Rel (Member.Redeclared F v u name) (es.lookup name) (es'.lookup name) := by
  induction h with
  | nil => exact .none
  | @cons e e' _ _ alike _ ih =>
    obtain ⟨named, member⟩ := alike
    rw [List.lookup_cons, List.lookup_cons, named]
    cases same : name == e.1 with
    | true => exact .some (beq_iff_eq.1 same ▸ member)
    | false => exact ih

section

variable (hw : F.Covers w) (hf : ¬ F.wide)
include hw hf

private theorem doubles_memberOf (hd : w.Doubles F a b) (name : String) :
    Option.Rel (FoundMember.Doubles F w name) (w.classes.memberOf a name)
      (w.classes.memberOf b name) := by
  -- what neither declares is found in the same ancestor
  have rest : Option.Rel (FoundMember.Doubles F w name)
      (w.classes.findIn name (w.classes.decl a).mro)
      (w.classes.findIn name (w.classes.decl a).mro) := by
    cases present : w.classes.findIn name (w.classes.decl a).mro with
    | none => exact .none
    | some found =>
      refine .some ?_
      cases owner : found.owner with
      | none => exact .unknown owner
      | some o =>
        obtain ⟨among, declared⟩ := declared_of_findIn present owner
        obtain ⟨has, members⟩ := hd.inherited o among
        have bare := (has.narrow.resolve_left hf).1
        have apart := hw.apart.resolve_left hf has.ids
        exact .declared owner owner bare bare apart apart (members _ declared)
  have own : Option.Rel (Member.Redeclared F (w.classes.selfVar (.ofId a))
      (w.classes.selfVar (.ofId b)) name) ((w.classes.decl a).members.find? name)
      ((w.classes.decl b).members.find? name) := rel_find?_of_redeclared hd.own
  unfold ClassTable.memberOf ClassTable.findIn
  rw [hd.mro]
  dsimp only [ClassTy.ofId]
  revert own
  generalize (w.classes.decl a).members.find? name = x
  generalize (w.classes.decl b).members.find? name = y
  intro own
  cases own with
  | none => exact rest
  | @some m n member =>
    dsimp only
    unfold FoundMember.of?
    rw [member.flags]
    have declared (isInstanceMember isClassVar : Bool) :
        FoundMember.Doubles F w name ⟨m, some (.ofId a), isInstanceMember, isClassVar⟩
          ⟨n, some (.ofId b), isInstanceMember, isClassVar⟩ :=
      .declared rfl rfl rfl rfl hd.left.apart hd.right.apart member
    cases m.flags.inInstance with
    | true => exact .some (declared _ _)
    | false =>
      cases m.flags.inClass with
      | true => exact .some (declared _ _)
      | false => exact rest

private theorem prompt_redeclared {o o' : ClassTy} (bare : o.args = none) (bare' : o'.args = none)
    (apart : ∀ v, F.vars v → v.scope ≠ (w.classes.decl o.id).scope)
    (apart' : ∀ v, F.vars v → v.scope ≠ (w.classes.decl o'.id).scope) {t u : Ty}
    (h : Ty.Redeclared F (w.classes.selfVar o) (w.classes.selfVar o') name t u) :
    F.Prompt (Ty.DoubleMembers F a b) (lift (t.specialize w.classes o (some (.ofId a))))
      (lift (u.specialize w.classes o' (some (.ofId b)))) := by
  have scopes := hw.toScopes
  cases h with
  | same has =>
    have unannotated := has.unannotated hf
    exact prompt_lift (steady_specialize_self scopes hf bare apart _ has.has)
      (steady_specialize_self scopes hf bare' apart' _ has.has)
      ⟨.base (.same has.has), unannotated, unannotated⟩
  | @again f has scope =>
    have unannotated : f.Unannotated := has.unannotated hf
    exact prompt_lift (steady_specialize_self scopes hf bare apart _ has.has)
      (steady_specialize_self scopes hf bare' apart' _ (has.withScope scope).has)
      ⟨.function (.withScope has.has scope), unannotated, unannotated⟩
  | @receiver f g uncalled self self' params kind =>
    have unannotated : f.Unannotated := self.bindable.resolve_left hf
    have unannotated' : g.Unannotated := self'.bindable.resolve_left hf
    refine prompt_lift (steady_specialize_returnsSelf scopes hf bare apart _ self)
      (steady_specialize_returnsSelf scopes hf bare' apart' _ self')
      ⟨.function ?_, unannotated, unannotated'⟩
    exact ⟨params, kind, self.params, fun _ _ h => (nomatch h), fun _ _ h => (nomatch h), .instances⟩

/-- What is called where an instance of a double is called. -/
theorem prompt_boundCall (hd : w.Doubles F a b) :
    F.Prompt (Option.Rel (Ty.Doubles F a b)) (boundCall w j (Builtin.instanceOf (.ofId a)))
      (boundCall w j' (Builtin.instanceOf (.ofId b))) := by
  have looked (id : ClassId) : F.Alike
      (lift (w.classes.lookup (ClassTy.ofId id).toInstance "__call__"))
      (pure (w.classes.memberOf id "__call__")) := by
    have same : w.classes.lookup (ClassTy.ofId id).toInstance "__call__" =
        w.classes.lookup (.ofId id) "__call__" := rfl
    rw [same, lookup_ofId]
    exact .lift (steady_pure rfl)
  have typed {found : FoundMember} {o : ClassTy} (owner : found.owner = some o)
      (bare : o.args = none) :
      F.Alike (lift (w.classes.typeOf found)) (pure (found.member.effectiveType F.inf)) := by
    refine .lift ?_
    unfold ClassTable.typeOf
    rw [owner]
    refine steady_bind (steady_get rfl) fun inf (hinf : F.inf = inf) => ?_
    rw [← hinf, Ty.specialize, memberSolution, bare]
    exact steady_pure rfl
  refine Prompt.bind ⟨_, _, looked a, looked b, doubles_memberOf hw hf hd "__call__"⟩ ?_
  intro x y found
  cases found with
  | none => exact prompt_pure .none
  | some found =>
    obtain ⟨given, given'⟩ := found.bare
    cases found with
    | unknown owner =>
      dsimp only
      rw [owner]
      exact prompt_pure .none
    | declared owner owner' bare bare' apart apart' member =>
      have called := member.type.members (a := a) (b := b) hf fun h => h rfl
      dsimp only
      rw [owner] at given ⊢
      rw [owner'] at given' ⊢
      refine Prompt.bind (E := Ty.DoubleMembers F a b)
        ⟨_, _, typed owner bare, typed owner' bare', called⟩ fun t u called => ?_
      obtain ⟨settled, settled'⟩ := called.doubles.settled
      rw [called.doubles.isCallable]
      split
      · exact ⟨_, _, alike_bind settled called.unannotated given _,
          alike_bind settled' called.unannotated' given' _, rel_bound? called.doubles⟩
      · exact prompt_pure .none

variable {m m' : Match} (hm : m.Doubles F w a b m')
include hm

theorem prompt_find (hd : w.Doubles F a b) (name : String) :
    F.Prompt (Option.Rel fun p q => p.2 = false ∧ q.2 = false ∧ p.1.Doubles F w name q.1)
      (m.find w name) (m'.find w name) := by
  refine ⟨_, _, fun s _ => exec_find hm.instances hm.candidate name s,
    fun s _ => exec_find hm.instances' hm.candidate' name s, ?_⟩
  have found := doubles_memberOf hw hf hd name
  revert found
  generalize w.classes.memberOf a name = x
  generalize w.classes.memberOf b name = y
  intro found
  cases found with
  | none => exact .none
  | some h => exact .some ⟨rfl, rfl, h⟩

theorem prompt_foundType {found found' : FoundMember} (h : found.Doubles F w name found') :
    F.Prompt (Ty.DoubleMembers F a b) (m.foundType w found) (m'.foundType w found') := by
  unfold Match.foundType
  cases h with
  | unknown owner =>
    rw [owner]
    exact prompt_pure ⟨.base (.same .unknown), trivial, trivial⟩
  | declared owner owner' bare bare' apart apart' member =>
    rw [owner, owner', hm.candidate, hm.candidate']
    dsimp only
    obtain ⟨settled, settled'⟩ := member.type.settled
    obtain ⟨x, y, hx, hy, related⟩ :=
      prompt_redeclared (a := a) (b := b) hw hf bare bare' apart apart' member.type
    refine ⟨x, y, ?_, ?_, related⟩
    · refine (alike_inference.pure_bind _).trans (((alike_demandPlain settled).pure_bind _).trans hx)
    · refine (alike_inference.pure_bind _).trans (((alike_demandPlain settled').pure_bind _).trans hy)

omit hw in
/-- What is asked for is compared as the same in both, what was found as types that stand for each
other. -/
theorem prompt_comparedTypes {found found' : FoundMember} (h : found.Doubles F w name found')
    {dest source source' : Ty} (has : F.HasMember dest)
    (related : source.DoubleMembers F a b source') :
    F.Prompt (fun p q => q.1 = p.1 ∧ F.Has p.1 ∧ p.2.Doubles F a b q.2)
      (m.comparedTypes w j found false dest source)
      (m'.comparedTypes w j' found' false dest source') := by
  obtain ⟨bare, bare'⟩ := h.bare
  have substituted {m : Match} (self : F.Untouched w m.self) :
      F.Alike (lift (dest.substitute w.classes m.self false)) (pure dest) :=
    .lift (Fixes.substitute fun n => steady_ofTyAt_eq self n has.has)
  have receiver : m.receiver = .of (.cls m.candidate.toInstance) := by
    rw [Match.receiver, hm.instances]
    rfl
  have receiver' : m'.receiver = .of (.cls m'.candidate.toInstance) := by
    rw [Match.receiver, hm.instances']
    rfl
  unfold Match.comparedTypes
  rw [related.doubles.isCallable, receiver, receiver']
  split
  · exact ⟨_, _, (substituted hm.self).pure_bind _, (substituted hm.self').pure_bind _, rfl, has.has,
      related.doubles⟩
  · refine Prompt.bind (E := fun d d' => d' = dest ∧ d = dest) ⟨dest, dest, substituted hm.self,
      substituted hm.self', rfl, rfl⟩ ?_
    rintro _ _ ⟨rfl, rfl⟩
    refine (prompt_boundOr bare bare' _ _ related).bind fun s s' hs => ?_
    refine (prompt_boundOr_same bare bare' _ _ has.has (has.unannotated hf)).bind ?_
    rintro d _ ⟨rfl, has⟩
    exact prompt_pure ⟨rfl, has, hs⟩

end

end Fragment

end Conformance
