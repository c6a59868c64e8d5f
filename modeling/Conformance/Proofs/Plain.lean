import Conformance.Proofs.Closure
import Conformance.Session

/-!
# Plain worlds

A plain type mentions no type variable and no return type that is to be found out. Where every class
is declared by plain types, without type parameters and without annotated receivers, substitution
changes nothing but the methods that return their receiver, and looking members up finds what is
written.
-/

namespace Conformance

/-- The type mentions no type variable and no return type that is to be found out. Its unions are of
a kind, and its modules have tables that are allowed. -/
inductive Ty.PlainWith (unions : List Ty → Prop) (tables : TableId → Prop) : Ty → Prop
  | unknown : Ty.PlainWith unions tables .unknown
  | any : Ty.PlainWith unions tables .any
  | noneObject : Ty.PlainWith unions tables .noneObject
  | module (name : String) {table : TableId} (allowed : tables table) :
      Ty.PlainWith unions tables (.module name table)
  | cls {c : ClassTy} (args : ∀ t ∈ c.argList, ∀ u, t = some u → Ty.PlainWith unions tables u) :
      Ty.PlainWith unions tables (.cls c)
  | function {f : FunctionTy}
      (params : ∀ p ∈ f.params, ∀ u, p.type = some u → Ty.PlainWith unions tables u)
      (ret : ∀ u, f.ret = .declared u → Ty.PlainWith unions tables u)
      (settled : ∀ cell outcome, f.ret ≠ .deferred cell outcome) :
      Ty.PlainWith unions tables (.function f)
  | overloaded {fs : List FunctionTy} (each : ∀ f ∈ fs, Ty.PlainWith unions tables (.function f)) :
      Ty.PlainWith unions tables (.overloaded fs)
  | union {ts : List Ty} (each : ∀ t ∈ ts, Ty.PlainWith unions tables t) (kind : unions ts) :
      Ty.PlainWith unions tables (.union ts)

/-- A plain type with unions of any kind. -/
abbrev Ty.Plain (tables : TableId → Prop) : Ty → Prop := Ty.PlainWith (fun _ => True) tables

def FunctionTy.Unannotated (f : FunctionTy) : Prop :=
  f.kind = .staticMethod ∨ ∀ p ∈ f.params.head?, p.type = none

/-- No receiver of a function or of an overload is annotated. -/
def Ty.Unannotated : Ty → Prop
  | .function f => f.Unannotated
  | .overloaded fs => ∀ f ∈ fs, f.Unannotated
  | _ => True

section

variable (inf : Inference) (tables : TableId → Prop)

/-- A type that is declared in a class: plain, its unions as they are built, and no receiver
annotated. -/
structure Ty.PlainMember (t : Ty) : Prop where
  plain : t.PlainWith (Fragment.Built inf) tables
  unannotated : t.Unannotated

/-- A plain type that is bound to a receiver without a comparison. -/
structure Ty.Bindable (t : Ty) : Prop where
  plain : t.Plain tables
  unannotated : t.Unannotated

/-- A method that returns an instance of its receiver's class and is plain otherwise. -/
structure FunctionTy.ReturnsReceiver (d : ClassDecl) (f : FunctionTy) : Prop where
  params : ∀ p ∈ f.params, ∀ u, p.type = some u → u.PlainWith (Fragment.Built inf) tables
  unannotated : f.Unannotated
  ret : ∃ v, f.ret = .declared (.var v) ∧ v.name = "Self@" ++ d.name ∧ v.scope = d.scope ∧
    v.access = .whole
  scope : d.scope ≠ ""

/-- The class has no type parameters, and what it declares is plain. Outside of protocols a method
may return its receiver. -/
structure ClassDecl.Plain (d : ClassDecl) : Prop where
  params : d.params = []
  mro : ∀ c, Ancestor.resolved c ∈ d.mro → (Ty.cls c).Plain tables
  metaclass : ∀ c, d.metaclass.bind Ty.asClassObject? = some c → (Ty.cls c).Plain tables
  accessors : ∀ (a : Accessor) (f : FunctionTy), a.of d = some f →
    (Ty.function f).PlainMember inf tables
  members : ∀ e ∈ d.members.entries, (e.2.effectiveType inf).PlainMember inf tables ∨
    d.flags.protocol = false ∧ e.1 ≠ "__call__" ∧
      ∃ f, e.2.effectiveType inf = .function f ∧ f.ReturnsReceiver inf tables d

/-- All classes are plain, and so are the members of the modules that are allowed. -/
structure World.Plain (w : World) : Prop where
  classes : ∀ id, (w.classes.decl id).Plain inf tables
  typedDict : (Ty.cls w.typedDict).Plain tables
  modules : ∀ table, tables table → ∀ e ∈ (w.moduleMembers table).entries,
    (e.2.effectiveType inf).Plain tables

end

/-- The classes of the session are plain, and so are the members of the modules that are allowed. -/
def Session.Plain (s : Session) (tables : TableId → Prop) : Prop :=
  s.world.Plain s.inference tables

variable {inf : Inference} {tables : TableId → Prop} {unions : List Ty → Prop} {w : World}

/-! ## Plain types -/

theorem Ty.PlainWith.toPlain {t : Ty} (h : t.PlainWith unions tables) : t.Plain tables := by
  induction h with
  | unknown => exact .unknown
  | any => exact .any
  | noneObject => exact .noneObject
  | module name allowed => exact .module name allowed
  | cls _ ih => exact .cls ih
  | function _ _ settled params ret => exact .function params ret settled
  | overloaded _ ih => exact .overloaded ih
  | union _ _ ih => exact .union ih trivial

namespace Ty.Plain

theorem typeOrUnknown {p : Param} (h : ∀ u, p.type = some u → u.Plain tables) :
    p.typeOrUnknown.Plain tables := by
  unfold Param.typeOrUnknown
  cases hp : p.type with
  | none => exact .unknown
  | some t => exact h t hp

section

variable {c : ClassTy}

theorem args (h : (Ty.cls c).Plain tables) : ∀ t ∈ c.argList, ∀ u, t = some u → u.Plain tables := by
  cases h
  assumption

theorem toInstance (h : (Ty.cls c).Plain tables) : (Ty.cls c.toInstance).Plain tables :=
  .cls h.args

theorem toClassObject (h : (Ty.cls c).Plain tables) : (Ty.cls c.toClassObject).Plain tables :=
  .cls h.args

end

section

variable {f : FunctionTy}

theorem params (h : (Ty.function f).Plain tables) :
    ∀ p ∈ f.params, ∀ u, p.type = some u → u.Plain tables := by
  cases h
  assumption

theorem settled (h : (Ty.function f).Plain tables) :
    ∀ cell outcome, f.ret ≠ .deferred cell outcome := by
  cases h
  assumption

theorem declared (h : (Ty.function f).Plain tables) :
    ∀ t, f.ret = .declared t → t.Plain tables := by
  cases h
  assumption

theorem returnType (h : (Ty.function f).Plain tables) (inf : Inference) :
    (inf.returnType f).Plain tables := by
  have settled := h.settled
  have declared := h.declared
  unfold Inference.returnType
  cases hr : f.ret with
  | declared t => exact declared t hr
  | undeclared => exact .unknown
  | deferred cell outcome => exact absurd hr (settled cell outcome)

theorem withParams (h : (Ty.function f).Plain tables) {params : List Param}
    (hp : ∀ p ∈ params, ∀ u, p.type = some u → u.Plain tables) :
    (Ty.function { f with params := params }).Plain tables :=
  .function hp h.declared h.settled

theorem withParams_eq (h : (Ty.function f).Plain tables) (params : List Param) (inf : Inference) :
    Inference.withParams f params inf = ({ f with params := params }, inf) := by
  change (({ f with params := params, ret := (Inference.renew f.ret inf).1 } : FunctionTy),
    (Inference.renew f.ret inf).2) = _
  rw [Fragment.renew_eq h.settled]

end

end Ty.Plain

/-! ## Substitution -/

namespace Fragment

def ofPlain (inf : Inference) : Fragment := ⟨inf, True, fun _ => True, fun _ => False⟩

private theorem has_ofPlain {t : Ty} (h : t.PlainWith (Built inf) tables) :
    (ofPlain inf).Has t := by
  induction h with
  | unknown => exact .unknown
  | any => exact .any
  | noneObject => exact .noneObject
  | module name _ => exact .module name _
  | cls _ args => exact .cls trivial (.inl trivial) args
  | function _ _ settled params ret => exact .function params ret settled
  | overloaded _ each => exact .overloaded each
  | union _ built each => exact .union each built

end Fragment

private theorem Solution.entries_ofClass {classes : ClassTable} {c : ClassTy}
    (h : (classes.decl c.id).params = []) : (Solution.ofClass classes c).entries = [] := by
  unfold Solution.ofClass
  dsimp only
  rw [h]
  cases c.args <;> exact Fragment.entries_addScope _ _

private theorem isEmpty_of_memberSolution {classes : ClassTable} {owner : ClassTy}
    (h : (classes.decl owner.id).params = []) {σ : Solution}
    (hσ : memberSolution classes owner none = some σ) : σ.isEmpty = true := by
  unfold memberSolution at hσ
  split at hσ
  · rename_i self
    cases self
  · split at hσ
    · cases hσ
      rw [Solution.isEmpty, Solution.entries_ofClass h]
      rfl
    · cases hσ

theorem ClassTy.specialize_eq {classes : ClassTable} {owner : ClassTy}
    (h : (classes.decl owner.id).params = []) (c : ClassTy) :
    c.specialize classes owner = pure c := by
  unfold ClassTy.specialize
  split
  · rename_i σ hσ
    simp [ClassTy.substitute, isEmpty_of_memberSolution h hσ]
  · rfl

private theorem Ty.substitute_of_isEmpty {classes : ClassTable} {σ : Solution}
    (h : σ.isEmpty = true)
    (t : Ty) : t.substitute classes σ false = pure t := by
  simp [Ty.substitute, h]

namespace World.Plain

variable (hw : w.Plain inf tables)
include hw

theorem untouched (σ : Solution) : (Fragment.ofPlain inf).Untouched w σ :=
  ⟨fun _ h => (nomatch h), fun {id} _ => .inl (hw.classes id).params⟩

/-- Substitution changes nothing in what a class declares. -/
theorem substitute_eq {t : Ty} (ht : t.PlainWith (Fragment.Built inf) tables) (σ : Solution) :
    t.substitute w.classes σ false inf = (t, inf) := by
  unfold Ty.substitute
  split
  · rfl
  · obtain ⟨u, hu, rfl⟩ := Fragment.steady_ofTyAt_eq (hw.untouched σ) Ty.levels
      (Fragment.has_ofPlain ht)
    exact hu

theorem substituteFunction_eq {f : FunctionTy}
    (hf : (Ty.function f).PlainWith (Fragment.Built inf) tables) (σ : Solution) :
    f.substitute w.classes σ inf = (f, inf) := by
  have same := hw.substitute_eq hf σ
  rw [Ty.substitute_function] at same
  obtain ⟨result, state⟩ := Prod.mk.inj same
  exact Prod.ext (Ty.function.inj result) state

theorem specialize_eq (t : Ty) (owner : ClassTy) :
    t.specialize w.classes owner none = pure t := by
  unfold Ty.specialize
  split
  · rename_i σ hσ
    exact Ty.substitute_of_isEmpty (isEmpty_of_memberSolution (hw.classes owner.id).params hσ) t
  · rfl

theorem specializeFunction_eq (f : FunctionTy) (owner : ClassTy) :
    f.specialize w.classes owner = pure f := by
  unfold FunctionTy.specialize
  split
  · rename_i σ hσ
    rw [FunctionTy.substitute,
      if_pos (isEmpty_of_memberSolution (hw.classes owner.id).params hσ)]
  · rfl

theorem specializeClass_eq (c owner : ClassTy) : c.specialize w.classes owner = pure c :=
  ClassTy.specialize_eq (hw.classes owner.id).params c

/-- The receiver's class takes the place of the variable that stands for it, and nothing else
changes. -/
theorem specialize_returnsReceiver {f : FunctionTy} {owner : ClassTy}
    (hf : f.ReturnsReceiver inf tables (w.classes.decl owner.id)) (c : ClassTy) :
    (Fragment.ofPlain inf).Steady (· = .function { f with ret := .declared (.cls c.toInstance) })
      ((Ty.function f).specialize w.classes owner (some c)) := by
  obtain ⟨v, hret, name, scope, whole⟩ := hf.ret
  have key : v.key = (w.classes.selfVar owner).key := by
    rw [TypeVar.key, name, scope]
    rfl
  have becomes : Substitution.ofVar ((Solution.ofClass w.classes owner).withSelf w.classes owner c)
      false v = .cls c.toInstance :=
    Fragment.ofVar_withSelf _ whole key scope hf.scope
  have recorded :
      ((Solution.ofClass w.classes owner).withSelf w.classes owner c).isEmpty = false :=
    Fragment.isEmpty_insert _ _ _
  change (Fragment.ofPlain inf).Steady _ ((Ty.function f).substitute w.classes _ false)
  generalize (Solution.ofClass w.classes owner).withSelf w.classes owner c = σ
    at becomes recorded ⊢
  have sub : ∀ t, (Fragment.ofPlain inf).Has t →
      (Fragment.ofPlain inf).Steady (· = t) (Substitution.ofTyAt w.classes σ false 14 t) :=
    fun t ht => Fragment.steady_ofTyAt_eq (hw.untouched σ) 14 ht
  have params : (Fragment.ofPlain inf).Steady (· = f.params)
      (f.params.mapM (Substitution.ofParam (Substitution.ofTyAt w.classes σ false 14))) :=
    Fragment.steady_mapM_eq fun p hp => Fragment.steady_ofParam_eq fun u hu =>
      sub u (Fragment.has_ofPlain (hf.params p hp u hu))
  have returned : (Fragment.ofPlain inf).Steady (· = .declared (.cls c.toInstance))
      (Substitution.ofReturn (Substitution.ofTyAt w.classes σ false 14) f) := by
    unfold Substitution.ofReturn
    rw [hret]
    exact Fragment.steady_bind (Fragment.steady_pure becomes) fun t ht =>
      Fragment.steady_pure (congrArg Return.declared ht)
  have function : (Fragment.ofPlain inf).Steady
      (· = { f with ret := .declared (.cls c.toInstance) })
      (Substitution.ofFunction (Substitution.ofTyAt w.classes σ false 14) f) :=
    Fragment.steady_bind params fun ps (hps : ps = f.params) =>
      Fragment.steady_bind returned fun ret (hr : ret = _) => Fragment.steady_pure (by rw [hps, hr])
  unfold Ty.substitute
  rw [recorded]
  exact Fragment.steady_bind function fun g (hg : g = _) => Fragment.steady_pure (congrArg _ hg)

end World.Plain

/-! ## Members -/

theorem Ty.PlainMember.bindable {t : Ty} (h : t.PlainMember inf tables) : t.Bindable tables :=
  ⟨h.plain.toPlain, h.unannotated⟩

private theorem Ty.bindable_unknown : Ty.unknown.Bindable tables := ⟨.unknown, trivial⟩

theorem Ty.steady_dropSpecRest {t : Ty} (h : t.Plain tables) :
    (Fragment.ofPlain inf).Steady (Ty.Plain tables) t.dropSpecRest := by
  unfold Ty.dropSpecRest
  split
  · rename_i f
    refine Fragment.steady_bind (P := fun g => (Ty.function g).Plain tables) ?_ fun g hg =>
      Fragment.steady_pure hg
    unfold FunctionTy.dropSpecRest
    split
    · rename_i last beforeLast rest hr
      split
      · refine ⟨_, h.withParams_eq rest.reverse inf, h.withParams fun p hp => h.params p ?_⟩
        rw [← List.mem_reverse, hr]
        exact List.mem_cons_of_mem _ (List.mem_cons_of_mem _ (List.mem_reverse.1 hp))
      · exact Fragment.steady_pure h
    · exact Fragment.steady_pure h
  · exact Fragment.steady_pure h

/-- The member stands in the body of its class, if its class is known. -/
def FoundMember.DeclaredIn (w : World) (name : String) (found : FoundMember) : Prop :=
  ∀ owner, found.owner = some owner →
    (name, found.member) ∈ (w.classes.decl owner.id).members.entries

namespace World.Plain

variable (hw : w.Plain inf tables)
include hw

theorem steady_lookup (c : ClassTy) (name : String) :
    (Fragment.ofPlain inf).Steady (fun r => ∀ found, r = some found → found.DeclaredIn w name)
      (w.classes.lookup c name) := by
  unfold ClassTable.lookup
  dsimp only
  split
  · rename_i found hf
    refine Fragment.steady_pure ?_
    rintro _ ⟨⟩ owner ho
    exact (Fragment.declared_of_findIn hf ho).2
  · split
    · exact Fragment.steady_pure fun _ h => nomatch h
    · rename_i found hf
      split
      · rename_i unknown
        refine Fragment.steady_pure ?_
        rintro _ ⟨⟩ owner ho
        cases unknown.symm.trans ho
      · rename_i owner ho
        rw [hw.specializeClass_eq, pure_bind]
        refine Fragment.steady_pure ?_
        rintro _ ⟨⟩ _ ⟨⟩
        exact (Fragment.declared_of_findIn hf ho).2

variable {id : ClassId} {name : String} {m : Member}
  (declared : (name, m) ∈ (w.classes.decl id).members.entries)
include declared

/-- What a protocol asks for is a member of it. -/
theorem required (hp : (w.classes.decl id).flags.protocol = true) {t : Ty}
    (ht : m.declaredType = some t) : t.PlainMember inf tables := by
  have effective : m.effectiveType inf = t := by
    unfold Member.effectiveType
    rw [ht]
  rcases (hw.classes id).members _ declared with member | ⟨other, -⟩
  · exact effective ▸ member
  · rw [hp] at other
    cases other

theorem settled {f : FunctionTy} (hf : m.effectiveType inf = .function f) (cell : CellId)
    (outcome : Outcome) : f.ret ≠ .deferred cell outcome := by
  rcases (hw.classes id).members _ declared with member | ⟨-, -, g, hg, returns⟩
  · have plain := member.plain.toPlain
    rw [hf] at plain
    exact plain.settled cell outcome
  · cases hf.symm.trans hg
    obtain ⟨v, hret, -⟩ := returns.ret
    rw [hret]
    exact fun h => nomatch h

end World.Plain

namespace World.Plain

variable (hw : w.Plain inf tables) {owner : ClassTy} {m : Member}
include hw

/-- A member as a candidate sees it is plain and binds without a comparison. -/
theorem steady_seen {name : String}
    (declared : (name, m) ∈ (w.classes.decl owner.id).members.entries) {c : ClassTy}
    (hc : (Ty.cls c).Plain tables) :
    (Fragment.ofPlain inf).Steady (Ty.Bindable tables)
      ((m.effectiveType inf).specialize w.classes owner (some c)) := by
  rcases (hw.classes owner.id).members _ declared with member | ⟨-, -, f, hf, returns⟩
  · exact ⟨_, hw.substitute_eq member.plain _, member.bindable⟩
  · rw [hf]
    refine Fragment.steady_imp (hw.specialize_returnsReceiver returns c) ?_
    rintro _ rfl
    refine ⟨.function (fun p hp u hu => (returns.params p hp u hu).toPlain) ?_
        (fun _ _ h => nomatch h),
      returns.unannotated⟩
    rintro _ ⟨⟩
    exact hc.toInstance

/-- The call method of a class is plain and binds without a comparison. -/
theorem steady_typeOf_call {found : FoundMember} (h : found.DeclaredIn w "__call__") :
    (Fragment.ofPlain inf).Steady (Ty.Bindable tables) (w.classes.typeOf found) := by
  unfold ClassTable.typeOf
  split
  · exact Fragment.steady_pure Ty.bindable_unknown
  · rename_i owner ho
    refine Fragment.steady_bind (Fragment.steady_get (P := (· = inf)) rfl) ?_
    rintro _ rfl
    rw [hw.specialize_eq]
    rcases (hw.classes owner.id).members _ (h owner ho) with member | ⟨-, other, -⟩
    · exact Fragment.steady_pure member.bindable
    · exact absurd rfl other

end World.Plain

/-! ## Telling plain sessions -/

def Return.isPlain (sub : Ty → Bool) : Return → Bool
  | .declared t => sub t
  | .undeclared => true
  | .deferred _ _ => false

/-- The type is plain to a number of levels and has no unions. -/
def Ty.isPlainAt : Nat → Ty → Bool
  | 0, _ => false
  | _ + 1, .unknown | _ + 1, .any | _ + 1, .noneObject | _ + 1, .module _ _ => true
  | n + 1, .cls c => c.argList.all fun t => t.all (isPlainAt n)
  | n + 1, .function f =>
    (f.params.all fun p => p.type.all (isPlainAt n)) && f.ret.isPlain (isPlainAt n)
  | n + 1, .overloaded fs => fs.all fun f => isPlainAt n (.function f)
  | _ + 1, .var _ | _ + 1, .union _ => false

def Ty.isPlain (t : Ty) : Bool := t.isPlainAt Ty.levels

def FunctionTy.isUnannotated (f : FunctionTy) : Bool :=
  f.kind == .staticMethod || f.params.head?.all (·.type.isNone)

def Ty.isPlainMember (t : Ty) : Bool :=
  t.isPlain &&
    match t with
    | .function f => f.isUnannotated
    | .overloaded fs => fs.all (·.isUnannotated)
    | _ => true

def FunctionTy.isReturningReceiver (d : ClassDecl) (f : FunctionTy) : Bool :=
  (f.params.all fun p => p.type.all (·.isPlain)) && f.isUnannotated && d.scope != "" &&
    match f.ret with
    | .declared (.var v) => v.name == "Self@" ++ d.name && v.scope == d.scope && v.access == .whole
    | _ => false

def ClassDecl.isPlain (inf : Inference) (d : ClassDecl) : Bool :=
  d.params.isEmpty && d.mro.all (fun a => a.class?.all fun c => (Ty.cls c).isPlain) &&
    ((d.metaclass.bind Ty.asClassObject?).all fun c => (Ty.cls c).isPlain) &&
    (Accessor.all.all fun a => (a.of d).all fun f => (Ty.function f).isPlainMember) &&
    d.members.entries.all fun e =>
      (e.2.effectiveType inf).isPlainMember ||
        !d.flags.protocol && e.1 != "__call__" &&
          (e.2.effectiveType inf).asFunction?.any (·.isReturningReceiver d)

def World.isPlain (w : World) (inf : Inference) : Bool :=
  w.classes.decls.all (·.isPlain inf) && (Ty.cls w.typedDict).isPlain &&
    w.modules.all fun members => members.entries.all fun e => (e.2.effectiveType inf).isPlain

private theorem Ty.plainWith_of_isPlainAt {n : Nat} {t : Ty} (h : t.isPlainAt n = true) :
    t.PlainWith unions fun _ => True := by
  induction n generalizing t with
  | zero => cases h
  | succ n ih =>
    have option {o : Option Ty} (h : o.all (isPlainAt n) = true) :
        ∀ u, o = some u → u.PlainWith unions fun _ => True := by
      rintro u rfl
      exact ih h
    cases t with
    | unknown => exact .unknown
    | any => exact .any
    | noneObject => exact .noneObject
    | module name table => exact .module name trivial
    | cls c => exact .cls fun t ht => option (List.all_eq_true.1 h t ht)
    | function f =>
      obtain ⟨params, ret⟩ := Bool.and_eq_true_iff.1 h
      refine .function (fun p hp => option (List.all_eq_true.1 params p hp)) (fun u hu => ?_)
        fun cell outcome hd => ?_
      · rw [hu] at ret
        exact ih ret
      · rw [hd] at ret
        cases ret
    | overloaded fs => exact .overloaded fun f hf => ih (List.all_eq_true.1 h f hf)
    | var v => cases h
    | union ts => cases h

private theorem Ty.plainWith_of_isPlain {t : Ty} (h : t.isPlain = true) :
    t.PlainWith unions fun _ => True :=
  plainWith_of_isPlainAt h

private theorem FunctionTy.unannotated_of_isUnannotated {f : FunctionTy}
    (h : f.isUnannotated = true) :
    f.Unannotated := by
  rcases Bool.or_eq_true_iff.1 h with static | unannotated
  · exact .inl (beq_iff_eq.1 static)
  · refine .inr fun p hp => ?_
    rw [Option.mem_def.1 hp] at unannotated
    exact Option.isNone_iff_eq_none.1 unannotated

theorem Ty.plainMember_of_isPlainMember {t : Ty} (h : t.isPlainMember = true) :
    t.PlainMember inf fun _ => True := by
  obtain ⟨plain, unannotated⟩ := Bool.and_eq_true_iff.1 h
  refine ⟨plainWith_of_isPlain plain, ?_⟩
  cases t with
  | function f => exact FunctionTy.unannotated_of_isUnannotated unannotated
  | overloaded fs =>
    exact fun f hf => FunctionTy.unannotated_of_isUnannotated (List.all_eq_true.1 unannotated f hf)
  | _ => trivial

private theorem FunctionTy.returnsReceiver_of_isReturningReceiver {d : ClassDecl} {f : FunctionTy}
    (h : f.isReturningReceiver d = true) : f.ReturnsReceiver inf (fun _ => True) d := by
  simp only [isReturningReceiver, Bool.and_eq_true, bne_iff_ne] at h
  obtain ⟨⟨⟨params, unannotated⟩, scope⟩, ret⟩ := h
  refine ⟨fun p hp u hu => ?_, unannotated_of_isUnannotated unannotated, ?_, scope⟩
  · have plain := List.all_eq_true.1 params p hp
    rw [hu] at plain
    exact Ty.plainWith_of_isPlain plain
  · split at ret
    · rename_i v hv
      simp only [Bool.and_eq_true, beq_iff_eq] at ret
      exact ⟨v, hv, ret.1.1, ret.1.2, ret.2⟩
    · cases ret

theorem ClassDecl.plain_of_isPlain {d : ClassDecl} (h : d.isPlain inf = true) :
    d.Plain inf fun _ => True := by
  simp only [isPlain, Bool.and_eq_true] at h
  obtain ⟨⟨⟨⟨params, mro⟩, metaclass⟩, accessors⟩, members⟩ := h
  refine ⟨List.isEmpty_iff.1 params, fun c hc => ?_, fun c hc => ?_, fun a f hf => ?_,
    fun e he => ?_⟩
  · exact Ty.plainWith_of_isPlain (List.all_eq_true.1 mro _ hc)
  · rw [hc] at metaclass
    exact Ty.plainWith_of_isPlain metaclass
  · have accessor := List.all_eq_true.1 accessors a (by cases a <;> decide)
    rw [hf] at accessor
    exact Ty.plainMember_of_isPlainMember accessor
  · rcases Bool.or_eq_true_iff.1 (List.all_eq_true.1 members e he) with member | returning
    · exact .inl (Ty.plainMember_of_isPlainMember member)
    · simp only [Bool.and_eq_true, Bool.not_eq_true', bne_iff_ne] at returning
      obtain ⟨⟨ordinary, name⟩, returning⟩ := returning
      refine .inr ⟨ordinary, name, ?_⟩
      cases ht : e.2.effectiveType inf with
      | function f =>
        rw [ht] at returning
        exact ⟨f, rfl, FunctionTy.returnsReceiver_of_isReturningReceiver returning⟩
      | _ =>
        rw [ht] at returning
        cases returning

theorem World.plain_of_isPlain (h : w.isPlain inf = true) : w.Plain inf fun _ => True := by
  simp only [isPlain, Bool.and_eq_true] at h
  obtain ⟨⟨classes, typedDict⟩, modules⟩ := h
  refine ⟨fun id => ?_, Ty.plainWith_of_isPlain typedDict, fun table _ e he => ?_⟩
  · rcases Nat.lt_or_ge id w.classes.decls.size with here | beyond
    · rw [ClassTable.decl, ← Array.getElem_eq_getD (h := here)]
      exact ClassDecl.plain_of_isPlain (Array.all_eq_true.1 classes id here)
    · rw [ClassTable.decl_of_size_le beyond]
      exact ClassDecl.plain_of_isPlain rfl
  · rcases Nat.lt_or_ge table w.modules.size with here | beyond
    · rw [moduleMembers, ← Array.getElem_eq_getD (h := here)] at he
      have entries := Array.all_eq_true.1 modules table here
      exact Ty.plainWith_of_isPlain (List.all_eq_true.1 entries e he)
    · rw [moduleMembers, Array.getD_eq_getD_getElem?, Array.getElem?_eq_none beyond] at he
      cases he

/-- The classes that every session starts with are plain. -/
theorem Session.plain_start : Session.start.Plain fun _ => True :=
  World.plain_of_isPlain (by decide +kernel)

end Conformance
