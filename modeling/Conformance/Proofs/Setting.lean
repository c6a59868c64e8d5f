import Conformance.Proofs.Plain

/-!
# What two runs share

Two runs of a comparison are put beside each other in a plain world. A setting says which return
types were found out, which types take part, and which comparisons may be in progress in the first
run and not in the second.
-/

namespace Conformance

/-- Each class that the type mentions is mentioned as an instance. -/
inductive Ty.Bare : Ty → Prop
  | unknown : Ty.Bare .unknown
  | any : Ty.Bare .any
  | noneObject : Ty.Bare .noneObject
  | var (v : TypeVar) : Ty.Bare (.var v)
  | module (name : String) (table : TableId) : Ty.Bare (.module name table)
  | cls {c : ClassTy} (instances : c.isInstance = true)
      (args : ∀ t ∈ c.argList, ∀ u, t = some u → Ty.Bare u) : Ty.Bare (.cls c)
  | function {f : FunctionTy} (params : ∀ p ∈ f.params, ∀ u, p.type = some u → Ty.Bare u)
      (ret : ∀ u, f.ret = .declared u → Ty.Bare u) : Ty.Bare (.function f)
  | overloaded {fs : List FunctionTy} (each : ∀ f ∈ fs, Ty.Bare (.function f)) :
      Ty.Bare (.overloaded fs)
  | union {ts : List Ty} (each : ∀ t ∈ ts, Ty.Bare t) : Ty.Bare (.union ts)

/-- What is declared mentions classes as instances only. -/
structure World.Bare (inf : Inference) (tables : TableId → Prop) (w : World) : Prop where
  mro : ∀ id c, Ancestor.resolved c ∈ (w.classes.decl id).mro →
    ∀ t ∈ c.argList, ∀ u, t = some u → u.Bare
  accessors : ∀ (a : Accessor) id f, a.of (w.classes.decl id) = some f → (Ty.function f).Bare
  members : ∀ id, ∀ e ∈ (w.classes.decl id).members.entries, (e.2.effectiveType inf).Bare
  typedDict : (Ty.cls w.typedDict.toInstance).Bare
  modules : ∀ table, tables table → ∀ e ∈ (w.moduleMembers table).entries,
    (e.2.effectiveType inf).Bare

/-- What the two runs share, and what may set them apart. -/
structure Setting where
  inf : Inference
  tables : TableId → Prop
  /-- Class objects are mentioned, too. -/
  objects : Prop
  /-- What may be in progress in the first run alone. -/
  spare : StackChoice → Pending → Prop

namespace Setting

variable {K : Setting} {w : World}

/-- The type takes part. -/
structure Has (K : Setting) (t : Ty) : Prop where
  plain : t.Plain K.tables
  bare (narrow : ¬ K.objects) : t.Bare

def HasOption (K : Setting) (o : Option Ty) : Prop := ∀ t, o = some t → K.Has t

structure Binds (K : Setting) (t : Ty) : Prop extends K.Has t where
  unannotated : t.Unannotated

/-- What is declared takes part. -/
structure Covers (K : Setting) (w : World) : Prop where
  plain : w.Plain K.inf K.tables
  bare (narrow : ¬ K.objects) : w.Bare K.inf K.tables

theorem has_unknown : K.Has .unknown := ⟨.unknown, fun _ => .unknown⟩

theorem hasOption_none : K.HasOption none := fun _ h => nomatch h

theorem hasOption_some {t : Ty} (h : K.Has t) : K.HasOption (some t) := by
  rintro _ ⟨⟩
  exact h

theorem binds_unknown : K.Binds .unknown := ⟨has_unknown, trivial⟩

namespace Has

theorem typeOrUnknown {p : Param} (h : K.HasOption p.type) : K.Has p.typeOrUnknown := by
  unfold Param.typeOrUnknown
  cases hp : p.type with
  | none => exact has_unknown
  | some t => exact h t hp

theorem overloads {fs : List FunctionTy} (h : K.Has (.overloaded fs)) :
    ∀ f ∈ fs, K.Has (.function f) := by
  refine fun f hf => ⟨?_, fun narrow => ?_⟩
  · cases h.plain with
    | overloaded each => exact each f hf
  · cases h.bare narrow with
    | overloaded each => exact each f hf

theorem overloaded {fs : List FunctionTy} (h : ∀ f ∈ fs, K.Has (.function f)) :
    K.Has (.overloaded fs) :=
  ⟨.overloaded fun f hf => (h f hf).plain,
    fun narrow => .overloaded fun f hf => (h f hf).bare narrow⟩

theorem alternatives {ts : List Ty} (h : K.Has (.union ts)) : ∀ t ∈ ts, K.Has t := by
  refine fun t ht => ⟨?_, fun narrow => ?_⟩
  · cases h.plain with
    | union each _ => exact each t ht
  · cases h.bare narrow with
    | union each => exact each t ht

section

variable {c : ClassTy}

theorem args (h : K.Has (.cls c)) : ∀ o ∈ c.argList, K.HasOption o := by
  refine fun o ho u hu => ⟨h.plain.args o ho u hu, fun narrow => ?_⟩
  cases h.bare narrow with
  | cls _ args => exact args o ho u hu

theorem toInstance (h : K.Has (.cls c)) : K.Has (.cls c.toInstance) := by
  refine ⟨h.plain.toInstance, fun narrow => ?_⟩
  cases h.bare narrow with
  | cls _ args => exact .cls rfl args

theorem objects (h : K.Has (.cls c)) (object : c.isInstance = false) : K.objects := by
  refine Classical.not_not.1 fun narrow => ?_
  cases h.bare narrow with
  | cls instances => cases instances.symm.trans object

end

section

variable {f : FunctionTy}

theorem params (h : K.Has (.function f)) : ∀ p ∈ f.params, K.HasOption p.type := by
  refine fun p hp u hu => ⟨h.plain.params p hp u hu, fun narrow => ?_⟩
  cases h.bare narrow with
  | function params _ => exact params p hp u hu

theorem declared (h : K.Has (.function f)) : ∀ t, f.ret = .declared t → K.Has t := by
  refine fun t ht => ⟨h.plain.declared t ht, fun narrow => ?_⟩
  cases h.bare narrow with
  | function _ ret => exact ret t ht

theorem returnType (h : K.Has (.function f)) (inf : Inference) : K.Has (inf.returnType f) := by
  have settled := h.plain.settled
  have declared := h.declared
  unfold Inference.returnType
  cases hr : f.ret with
  | declared t => exact declared t hr
  | undeclared => exact has_unknown
  | deferred cell outcome => exact absurd hr (settled cell outcome)

theorem withParams (h : K.Has (.function f)) {params : List Param}
    (hp : ∀ p ∈ params, K.HasOption p.type) : K.Has (.function { f with params := params }) :=
  ⟨h.plain.withParams fun p h u hu => (hp p h u hu).plain,
    fun narrow => .function (fun p h u hu => (hp p h u hu).bare narrow)
      fun u hu => (h.declared u hu).bare narrow⟩

theorem steady_dropSpecRest {t : Ty} (h : K.Has t) :
    (Fragment.ofPlain K.inf).Steady K.Has t.dropSpecRest := by
  unfold Ty.dropSpecRest
  split
  · rename_i f
    refine Fragment.steady_bind (P := fun g => K.Has (.function g)) ?_ fun g hg =>
      Fragment.steady_pure hg
    unfold FunctionTy.dropSpecRest
    split
    · rename_i last beforeLast rest hr
      split
      · refine ⟨_, h.plain.withParams_eq rest.reverse K.inf, h.withParams fun p hp => h.params p ?_⟩
        rw [← List.mem_reverse, hr]
        exact List.mem_cons_of_mem _ (List.mem_cons_of_mem _ (List.mem_reverse.1 hp))
      · exact Fragment.steady_pure h
    · exact Fragment.steady_pure h
  · exact Fragment.steady_pure h

end

end Has

/-! ## What is declared -/

namespace Covers

variable (hw : K.Covers w)
include hw

theorem ancestor {id : ClassId} {c : ClassTy} (h : Ancestor.resolved c ∈ (w.classes.decl id).mro) :
    ∀ o ∈ c.argList, K.HasOption o := by
  exact fun o ho u hu => ⟨((hw.plain.classes id).mro c h).args o ho u hu,
    fun narrow => (hw.bare narrow).mro id c h o ho u hu⟩

theorem accessor {a : Accessor} {id : ClassId} {f : FunctionTy}
    (h : a.of (w.classes.decl id) = some f) :
    (Ty.function f).PlainMember K.inf K.tables ∧ K.Binds (.function f) := by
  have member := (hw.plain.classes id).accessors a f h
  exact ⟨member, ⟨member.plain.toPlain, fun narrow => (hw.bare narrow).accessors a id f h⟩,
    member.unannotated⟩

theorem member {id : ClassId} {e : String × Member} (he : e ∈ (w.classes.decl id).members.entries)
    (plain : (e.2.effectiveType K.inf).PlainMember K.inf K.tables) :
    K.Binds (e.2.effectiveType K.inf) :=
  ⟨⟨plain.plain.toPlain, fun narrow => (hw.bare narrow).members id e he⟩, plain.unannotated⟩

/-- What a protocol asks for binds without a comparison. -/
theorem required {id : ClassId} {name : String} {m : Member}
    (declared : (name, m) ∈ (w.classes.decl id).members.entries)
    (hp : (w.classes.decl id).flags.protocol = true) {t : Ty} (ht : m.declaredType = some t) :
    t.PlainMember K.inf K.tables ∧ K.Binds t := by
  have plain := hw.plain.required declared hp ht
  have effective : m.effectiveType K.inf = t := by
    unfold Member.effectiveType
    rw [ht]
  have binds := hw.member declared (effective.symm ▸ plain)
  exact ⟨plain, effective ▸ binds⟩

/-- A member as a candidate sees it binds without a comparison. -/
theorem steady_seen {owner c : ClassTy} {name : String} {m : Member}
    (declared : (name, m) ∈ (w.classes.decl owner.id).members.entries)
    (hc : K.Has (.cls c.toInstance)) :
    (Fragment.ofPlain K.inf).Steady K.Binds
      ((m.effectiveType K.inf).specialize w.classes owner (some c)) := by
  have bare (narrow : ¬ K.objects) := (hw.bare narrow).members owner.id _ declared
  rcases (hw.plain.classes owner.id).members _ declared with member | ⟨-, -, f, hf, returns⟩
  · exact ⟨_, hw.plain.substitute_eq member.plain _, hw.member declared member⟩
  · dsimp only at bare
    rw [hf] at bare ⊢
    refine Fragment.steady_imp (hw.plain.specialize_returnsReceiver returns c) ?_
    rintro _ rfl
    refine ⟨⟨.function (fun p hp u hu => (returns.params p hp u hu).toPlain) ?_
      (fun _ _ h => nomatch h), fun narrow => ?_⟩, returns.unannotated⟩
    · rintro _ ⟨⟩
      exact hc.plain
    · cases bare narrow with
      | function params _ =>
        refine .function params ?_
        rintro _ ⟨⟩
        exact hc.bare narrow

/-- The call method of a class binds without a comparison. -/
theorem steady_typeOf_call {found : FoundMember} (h : found.DeclaredIn w "__call__") :
    (Fragment.ofPlain K.inf).Steady K.Binds (w.classes.typeOf found) := by
  unfold ClassTable.typeOf
  split
  · exact Fragment.steady_pure binds_unknown
  · rename_i owner ho
    refine Fragment.steady_bind (Fragment.steady_get (P := (· = K.inf)) rfl) ?_
    rintro _ rfl
    rw [hw.plain.specialize_eq]
    rcases (hw.plain.classes owner.id).members _ (h owner ho) with member | ⟨-, other, -⟩
    · exact Fragment.steady_pure (hw.member (h owner ho) member)
    · exact absurd rfl other

theorem moduleMember {table : TableId} (ht : K.tables table) {e : String × Member}
    (he : e ∈ (w.moduleMembers table).entries) : K.Has (e.2.effectiveType K.inf) :=
  ⟨hw.plain.modules table ht e he, fun narrow => (hw.bare narrow).modules table ht e he⟩

theorem typedDict : K.Has (.cls w.typedDict.toInstance) :=
  ⟨hw.plain.typedDict.toInstance, fun narrow => (hw.bare narrow).typedDict⟩

end Covers

end Setting

/-! ## Telling bare sessions -/

/-- The type is bare to a number of levels. -/
def Ty.isBareAt : Nat → Ty → Bool
  | 0, _ => false
  | _ + 1, .unknown | _ + 1, .any | _ + 1, .noneObject | _ + 1, .module _ _ | _ + 1, .var _ => true
  | n + 1, .cls c => c.isInstance && c.argList.all fun t => t.all (isBareAt n)
  | n + 1, .function f =>
    (f.params.all fun p => p.type.all (isBareAt n)) && f.ret.isPlain (isBareAt n)
  | n + 1, .overloaded fs => fs.all fun f => isBareAt n (.function f)
  | n + 1, .union ts => ts.all (isBareAt n)

def Ty.isBare (t : Ty) : Bool := t.isBareAt Ty.levels

def ClassDecl.isBare (inf : Inference) (d : ClassDecl) : Bool :=
  (d.mro.all fun a => a.class?.all fun c => c.argList.all fun t => t.all (·.isBare)) &&
    (Accessor.all.all fun a => (a.of d).all fun f => (Ty.function f).isBare) &&
    d.members.entries.all fun e => (e.2.effectiveType inf).isBare

def World.isBare (w : World) (inf : Inference) : Bool :=
  w.classes.decls.all (·.isBare inf) && (Ty.cls w.typedDict.toInstance).isBare &&
    w.modules.all fun members => members.entries.all fun e => (e.2.effectiveType inf).isBare

variable {inf : Inference} {w : World}

private theorem Ty.bare_of_isBareAt {n : Nat} {t : Ty} (h : t.isBareAt n = true) : t.Bare := by
  induction n generalizing t with
  | zero => cases h
  | succ n ih =>
    have option {o : Option Ty} (h : o.all (isBareAt n) = true) : ∀ u, o = some u → u.Bare := by
      rintro u rfl
      exact ih h
    cases t with
    | unknown => exact .unknown
    | any => exact .any
    | noneObject => exact .noneObject
    | module name table => exact .module name table
    | var v => exact .var v
    | cls c =>
      obtain ⟨instances, args⟩ := Bool.and_eq_true_iff.1 h
      exact .cls instances fun t ht => option (List.all_eq_true.1 args t ht)
    | function f =>
      obtain ⟨params, ret⟩ := Bool.and_eq_true_iff.1 h
      refine .function (fun p hp => option (List.all_eq_true.1 params p hp)) fun u hu => ?_
      rw [hu] at ret
      exact ih ret
    | overloaded fs => exact .overloaded fun f hf => ih (List.all_eq_true.1 h f hf)
    | union ts => exact .union fun t ht => ih (List.all_eq_true.1 h t ht)

theorem Ty.bare_of_isBare {t : Ty} (h : t.isBare = true) : t.Bare := bare_of_isBareAt h

theorem World.bare_of_isBare (h : w.isBare inf = true) : w.Bare inf fun _ => True := by
  simp only [isBare, Bool.and_eq_true] at h
  obtain ⟨⟨classes, typedDict⟩, modules⟩ := h
  have decl (id : ClassId) : (w.classes.decl id).isBare inf = true := by
    rcases Nat.lt_or_ge id w.classes.decls.size with here | beyond
    · rw [ClassTable.decl, ← Array.getElem_eq_getD (h := here)]
      exact Array.all_eq_true.1 classes id here
    · rw [ClassTable.decl_of_size_le beyond]
      rfl
  refine ⟨fun id c hc t ht u hu => ?_, fun a id f hf => ?_, fun id e he => ?_,
    Ty.bare_of_isBare typedDict, fun table _ e he => ?_⟩
  · have mro := (Bool.and_eq_true_iff.1 (Bool.and_eq_true_iff.1 (decl id)).1).1
    have bare := List.all_eq_true.1 (List.all_eq_true.1 mro _ hc) t ht
    rw [hu] at bare
    exact Ty.bare_of_isBare bare
  · have accessors := (Bool.and_eq_true_iff.1 (Bool.and_eq_true_iff.1 (decl id)).1).2
    have bare := List.all_eq_true.1 accessors a (by cases a <;> decide)
    rw [hf] at bare
    exact Ty.bare_of_isBare bare
  · have members := (Bool.and_eq_true_iff.1 (decl id)).2
    exact Ty.bare_of_isBare (List.all_eq_true.1 members e he)
  · rcases Nat.lt_or_ge table w.modules.size with here | beyond
    · rw [moduleMembers, ← Array.getElem_eq_getD (h := here)] at he
      exact Ty.bare_of_isBare (List.all_eq_true.1 (Array.all_eq_true.1 modules table here) e he)
    · rw [moduleMembers, Array.getD_eq_getD_getElem?, Array.getElem?_eq_none beyond] at he
      cases he

/-- The classes that every session starts with are bare. -/
theorem Session.bare_start : Session.start.world.Bare Session.start.inference fun _ => True :=
  World.bare_of_isBare (by decide +kernel)

end Conformance
