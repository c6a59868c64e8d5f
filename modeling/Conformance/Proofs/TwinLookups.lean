import Conformance.Proofs.Twins
import Conformance.Proofs.Closure

/-!
# Substitution and lookups in twin runs

What is written in the classes and modules is its own twin. Then what is substituted in twins, and
what is looked up in twins, are twins.
-/

namespace Conformance

/-! ## Types that are written in a world -/

/-- A type is written in a declaration of the member, or stands for its declarations. -/
inductive Member.Declares (m : Member) : Ty → Prop
  | annotated {d : Declaration} {t : Ty} (here : d ∈ m.declarations) (h : d.annotation = some t) :
      m.Declares t
  | inferred {d : Declaration} {t : Ty} (here : d ∈ m.declarations) (h : d.inferred = some t) :
      m.Declares t
  | synthesized {t : Ty} (h : m.synthesized = some t) : m.Declares t

/-- A type is written for a member of the table. -/
inductive MemberTable.Declares (members : MemberTable) : Ty → Prop
  | mk {e : String × Member} {t : Ty} (here : e ∈ members.entries) (h : e.2.Declares t) :
      members.Declares t

/-- A type is written where the class is declared. -/
inductive ClassDecl.Declares (d : ClassDecl) : Ty → Prop
  | ancestor {c : ClassTy} (h : .resolved c ∈ d.mro) : d.Declares (.cls c)
  | member {t : Ty} (h : d.members.Declares t) : d.Declares t
  | param {v : TypeVar} (h : v ∈ d.params) : d.Declares (.var v)
  | metaclass {t : Ty} (h : d.metaclass = some t) : d.Declares t
  | accessor {a : Accessor} {f : FunctionTy} (h : a.of d = some f) : d.Declares (.function f)

/-- The two solutions solve the same scopes and have found twins. -/
structure Solution.Twin (m : Pairing) (σ τ : Solution) : Prop where
  scopes : τ.scopes = σ.scopes.map m.naming.scope
  entries : List.Forall₂
    (fun e e' => e'.1 = m.naming.key e.1 ∧ Option.Rel (Ty.Twin m) e.2 e'.2) σ.entries τ.entries

namespace Pairing

/-- What the runs may come across in the world is known to both alike. -/
structure Fixes (m : Pairing) (w : World) : Prop where
  decl {id : ClassId} {t : Ty} (known : m.classes id) (h : (w.classes.decl id).Declares t) :
    t.Twin m t
  module {table : TableId} {t : Ty} (known : m.modules table)
    (h : (w.moduleMembers table).Declares t) : t.Twin m t
  self {c : ClassTy} (known : m.classes c.id) :
    TypeVar.Alike m (w.classes.selfVar c) (w.classes.selfVar c)
  object : (Builtin.instanceOf Builtin.object).Twin m (Builtin.instanceOf Builtin.object)
  typedDict : w.typedDict.Twin m w.typedDict

def FixesMember (m : Pairing) (mem : Member) : Prop := ∀ t, mem.Declares t → t.Twin m t

/-- The two computations yield related results and hand out the same cells. -/
def Both {α β : Type} (m : Pairing) (R : α → β → Prop) (act : StateM Inference α)
    (act' : StateM Inference β) : Prop :=
  ∀ inf inf', m.Holds inf inf' → R (act inf).1 (act' inf').1 ∧ m.Holds (act inf).2 (act' inf').2

variable {m : Pairing}

section

variable {α β γ δ : Type} {R : α → β → Prop} {S : γ → δ → Prop}

private theorem both_pure {a : α} {b : β} (h : R a b) : m.Both R (pure a) (pure b) :=
  fun _ _ holds => ⟨h, holds⟩

private theorem both_get : m.Both m.Holds get get := fun _ _ holds => ⟨holds, holds⟩

private theorem both_bind {act : StateM Inference α} {act' : StateM Inference β}
    {k : α → StateM Inference γ} {k' : β → StateM Inference δ} (h : m.Both R act act')
    (hk : ∀ a b, R a b → m.Both S (k a) (k' b)) : m.Both S (act >>= k) (act' >>= k') := by
  intro inf inf' holds
  obtain ⟨first, holds⟩ := h inf inf' holds
  exact hk _ _ first _ _ holds

private theorem both_mapM {as : List α} {bs : List β} (h : List.Forall₂ R as bs)
    {f : α → StateM Inference γ} {g : β → StateM Inference δ}
    (hf : ∀ a b, R a b → m.Both S (f a) (g b)) :
    m.Both (List.Forall₂ S) (as.mapM f) (bs.mapM g) := by
  induction h with
  | nil => exact both_pure .nil
  | cons hab _ ih =>
    rw [List.mapM_cons, List.mapM_cons]
    refine both_bind (hf _ _ hab) fun c d first => ?_
    exact both_bind ih fun cs ds rest => both_pure (.cons first rest)

end

/-! ## Copies of functions -/

def Return (m : Pairing) (r r' : Return) : Prop :=
  ∀ f g : FunctionTy, f.ret = r → g.ret = r' → f.Returns m g

private theorem isOpen_congr {f g : FunctionTy} (h : g.ret = f.ret) (inf : Inference) :
    inf.isOpen g = inf.isOpen f := by
  rw [Inference.isOpen, Inference.isOpen, h]

theorem returnType_congr {f g : FunctionTy} (h : g.ret = f.ret) (inf : Inference) :
    inf.returnType g = inf.returnType f := by
  rw [Inference.returnType, Inference.returnType, h]

private theorem return_of_ret {f g : FunctionTy} (h : f.Returns m g) : m.Return f.ret g.ret := by
  intro f' g' hf hg
  cases h with
  | declared ret ret' twin => exact .declared (hf.trans ret) (hg.trans ret') twin
  | undeclared ret ret' => exact .undeclared (hf.trans ret) (hg.trans ret')
  | deferred ret ret' cell outcome => exact .deferred (hf.trans ret) (hg.trans ret') cell outcome
  | known loose found found' twin =>
    rw [← isOpen_congr hf] at found
    rw [← isOpen_congr hg] at found'
    rw [← returnType_congr hf, ← returnType_congr hg] at twin
    exact .known loose found found' twin

private theorem renew_of_found {f : FunctionTy} {inf : Inference} (found : inf.isOpen f = false) :
    Inference.renew f.ret inf = (f.ret, inf) := by
  unfold Inference.isOpen at found
  split at found
  · rename_i cell outcome hr
    rw [Bool.not_eq_false'] at found
    rw [hr]
    change (if inf.isSettled cell then _ else _ : StateM Inference Conformance.Return) inf = _
    rw [if_pos found]
    rfl
  · rename_i other
    exact Fragment.renew_eq other inf

theorem renew_of_open {cell : CellId} {outcome : Outcome} {inf : Inference}
    (h : inf.isSettled cell = false) : Inference.renew (.deferred cell outcome) inf =
      (.deferred inf.settled.size outcome, (Inference.newCell inf).2) := by
  change (if inf.isSettled cell then _ else _ : StateM Inference Conformance.Return) inf = _
  rw [h]
  rfl

private theorem both_renew {f g : FunctionTy} (h : f.Returns m g) :
    m.Both m.Return (Inference.renew f.ret) (Inference.renew g.ret) := by
  intro inf inf' holds
  cases hopen : inf.isOpen f with
  | false =>
    rw [renew_of_found hopen, renew_of_found ((holds.isOpen_eq h).trans hopen)]
    exact ⟨return_of_ret h, holds⟩
  | true =>
    have hopen' := (holds.isOpen_eq h).trans hopen
    cases h with
    | declared ret => simp [Inference.isOpen, ret] at hopen
    | undeclared ret => simp [Inference.isOpen, ret] at hopen
    | known loose found => simp [holds.left.isOpen_eq_false found] at hopen
    | @deferred _ _ c c' o o' ret ret' cell outcome =>
      have left : inf.isSettled c = false := by simpa [Inference.isOpen, ret] using hopen
      have right : inf'.isSettled c' = false := by simpa [Inference.isOpen, ret'] using hopen'
      rw [ret, ret', renew_of_open left, renew_of_open right]
      exact ⟨fun f g hf hg => .deferred hf hg holds.next outcome, holds.newCell⟩

theorem both_withParams {f g : FunctionTy} (h : f.Twin m g) {ps qs : List Param}
    (hp : List.Forall₂ (Param.Twin m) ps qs) :
    m.Both (FunctionTy.Twin m) (Inference.withParams f ps) (Inference.withParams g qs) := by
  refine both_bind (both_renew h.ret) fun r r' hr => both_pure ?_
  exact h.withSignature hp (hr _ _ rfl rfl)

/-! ## Substitution -/

section

variable {sub sub' : Ty → StateM Inference Ty}

/-- Substitution in twins yields twins. -/
structure Substitutes (m : Pairing) (sub sub' : Ty → StateM Inference Ty) : Prop where
  twin {t u : Ty} (h : t.Twin m u) : m.Both (Ty.Twin m) (sub t) (sub' u)
  unknown : sub .unknown = pure .unknown
  unknown' : sub' .unknown = pure .unknown

variable (hs : m.Substitutes sub sub')
include hs

private theorem both_ofOption {a b : Option Ty} (h : Option.Rel (Ty.Twin m) a b) :
    m.Both (Option.Rel (Ty.Twin m)) (Substitution.ofOption sub a) (Substitution.ofOption sub' b) := by
  cases h with
  | none => exact both_pure .none
  | some h => exact both_bind (hs.twin h) fun t u ht => both_pure (.some ht)

private theorem both_ofParam {p q : Param} (h : p.Twin m q) :
    m.Both (Param.Twin m) (Substitution.ofParam sub p) (Substitution.ofParam sub' q) := by
  have annotated := h.annotated
  have keep {a b : Option Ty} (written : m.loose ∨ b.isSome = a.isSome)
      (type : (a.getD .unknown).Twin m (b.getD .unknown)) :
      m.Both (Param.Twin m) (pure { p with type := a }) (pure { q with type := b }) :=
    both_pure (.mk h.kind h.name h.hasDefault written type)
  unfold Substitution.ofParam
  generalize p.type = a at annotated
  generalize q.type = b at annotated
  cases annotated with
  | both ht =>
    simp only [Substitution.ofOption, bind_assoc, pure_bind]
    exact both_bind (hs.twin ht) fun t u ht => keep (.inr rfl) ht
  | neither => exact keep (.inr rfl) .unknown
  | left loose =>
    simp only [Substitution.ofOption, hs.unknown, pure_bind]
    exact keep (.inl loose) .unknown
  | right loose =>
    simp only [Substitution.ofOption, hs.unknown', pure_bind]
    exact keep (.inl loose) .unknown

omit hs in
/-- What becomes of a return type that was found out before is known from then on. -/
theorem ofReturn_of_found (unknown : sub .unknown = pure .unknown) {f : FunctionTy}
    {now inf : Inference} (later : now.Later inf) (found : now.isOpen f = false) :
    (Substitution.ofReturn sub f inf).2 = (sub (now.returnType f) inf).2 ∧
      ∀ g : FunctionTy, g.ret = (Substitution.ofReturn sub f inf).1 → ∀ other : Inference,
        other.isOpen g = false ∧ other.returnType g = (sub (now.returnType f) inf).1 := by
  have settled := later.isOpen_eq_false found
  rw [← later.returnType_eq found]
  cases hr : f.ret with
  | declared t =>
    have run : Substitution.ofReturn sub f inf = (.declared (sub t inf).1, (sub t inf).2) := by
      rw [Substitution.ofReturn, hr]
      rfl
    have value : inf.returnType f = t := by rw [Inference.returnType, hr]
    rw [run, value]
    refine ⟨rfl, fun g hg other => ?_⟩
    rw [Inference.isOpen, Inference.returnType, hg]
    exact ⟨rfl, rfl⟩
  | undeclared =>
    have run : Substitution.ofReturn sub f inf = (.undeclared, inf) := by
      rw [Substitution.ofReturn, hr]
      rfl
    have value : inf.returnType f = .unknown := by rw [Inference.returnType, hr]
    rw [run, value, unknown]
    refine ⟨rfl, fun g hg other => ?_⟩
    rw [Inference.isOpen, Inference.returnType, hg]
    exact ⟨rfl, rfl⟩
  | deferred cell outcome =>
    have run : Substitution.ofReturn sub f inf =
        (.declared (sub (inf.returnType f) inf).1, (sub (inf.returnType f) inf).2) := by
      rw [Substitution.ofReturn, hr]
      change (if inf.isOpen f then _ else _ : StateM Inference Conformance.Return) inf = _
      rw [settled]
      rfl
    rw [run]
    refine ⟨rfl, fun g hg other => ?_⟩
    rw [Inference.isOpen, Inference.returnType, hg]
    exact ⟨rfl, rfl⟩

private theorem both_ofReturn {f g : FunctionTy} (h : f.Returns m g) :
    m.Both m.Return (Substitution.ofReturn sub f) (Substitution.ofReturn sub' g) := by
  cases h with
  | declared ret ret' twin =>
    rw [Substitution.ofReturn, Substitution.ofReturn, ret, ret']
    refine both_bind (hs.twin twin) fun t u ht => both_pure ?_
    exact fun f g hf hg => .declared hf hg ht
  | undeclared ret ret' =>
    rw [Substitution.ofReturn, Substitution.ofReturn, ret, ret']
    exact both_pure fun f g hf hg => .undeclared hf hg
  | deferred ret ret' cell outcome =>
    have returns : f.Returns m g := .deferred ret ret' cell outcome
    have renewed := both_renew returns
    rw [Substitution.ofReturn, Substitution.ofReturn]
    rw [ret, ret'] at renewed ⊢
    refine both_bind both_get fun inf inf' holds => ?_
    rw [holds.isOpen_eq returns]
    split
    · exact renewed
    · refine both_bind (hs.twin (holds.returnType returns)) fun t u ht => both_pure ?_
      exact fun f g hf hg => .declared hf hg ht
  | known loose found found' twin =>
    intro inf inf' holds
    obtain ⟨left, known⟩ := ofReturn_of_found hs.unknown holds.left found
    obtain ⟨right, known'⟩ := ofReturn_of_found hs.unknown' holds.right found'
    obtain ⟨ht, after⟩ := hs.twin twin inf inf' holds
    rw [left, right]
    refine ⟨fun f' g' hf hg => ?_, after⟩
    have first := known f' hf m.left
    have second := known' g' hg m.right
    refine .known loose first.1 second.1 ?_
    rw [first.2, second.2]
    exact ht

private theorem both_ofFunction {f g : FunctionTy} (h : f.Twin m g) :
    m.Both (FunctionTy.Twin m) (Substitution.ofFunction sub f) (Substitution.ofFunction sub' g) := by
  refine both_bind (both_mapM h.params fun p q hp => both_ofParam hs hp) fun ps qs hp => ?_
  refine both_bind (both_ofReturn hs h.ret) fun r r' hr => both_pure ?_
  exact h.withSignature hp (hr _ _ rfl rfl)

end

end Pairing

/-! ## Solutions -/

namespace Solution.Twin

variable {m : Pairing} {σ τ : Solution}

theorem solves (h : σ.Twin m τ) (scope : String) :
    τ.solves (m.naming.scope scope) = σ.solves scope := by
  have given : (σ.scopes.map m.naming.scope).contains (m.naming.scope scope) =
      σ.scopes.contains scope := by
    rw [Bool.eq_iff_iff, List.contains_iff_mem, List.contains_iff_mem,
      List.mem_map_of_injective m.naming.scope.injective]
  rw [Solution.solves, Solution.solves, h.scopes, m.naming.isEmpty_scope, given]

theorem any_solves {σ τ : Option Solution} (h : Option.Rel (Solution.Twin m) σ τ) (scope : String) :
    τ.any (·.solves (m.naming.scope scope)) = σ.any (·.solves scope) := by
  cases h with
  | none => rfl
  | some h => exact h.solves scope

theorem isEmpty (h : σ.Twin m τ) : τ.isEmpty = σ.isEmpty := by
  have entries := h.entries
  rw [Solution.isEmpty, Solution.isEmpty]
  generalize σ.entries = es at entries
  generalize τ.entries = es' at entries
  cases entries <;> rfl

theorem addScope (h : σ.Twin m τ) (scope : String) :
    (σ.addScope scope).Twin m (τ.addScope (m.naming.scope scope)) := by
  unfold Solution.addScope
  rw [h.solves, m.naming.isEmpty_scope]
  split
  · exact h
  · exact ⟨by rw [h.scopes, List.map_append, List.map_singleton], h.entries⟩

theorem empty (m : Pairing) : Solution.empty.Twin m .empty := ⟨rfl, .nil⟩

theorem forScope (m : Pairing) (scope : String) :
    (Solution.forScope scope).Twin m (.forScope (m.naming.scope scope)) :=
  (empty m).addScope scope

theorem insert_of_key (h : σ.Twin m τ) {v u : TypeVar} (key : u.key = m.naming.key v.key)
    {a b : Option Ty} (ht : Option.Rel (Ty.Twin m) a b) :
    (σ.insert v a).Twin m (τ.insert u b) := by
  refine ⟨h.scopes, ?_⟩
  change List.Forall₂ _ (Solution.update v.key a σ.entries) (Solution.update u.key b τ.entries)
  rw [key]
  have entries := h.entries
  generalize σ.entries = es at entries
  generalize τ.entries = es' at entries
  induction entries with
  | nil => exact .cons ⟨rfl, ht⟩ .nil
  | cons he hes ih =>
    simp only [Solution.update, he.1, EmbeddingLike.apply_eq_iff_eq]
    split
    · exact .cons ⟨rfl, ht⟩ hes
    · exact .cons he ih

theorem insert (h : σ.Twin m τ) {v u : TypeVar} (hv : v.Twin m u) {a b : Option Ty}
    (ht : Option.Rel (Ty.Twin m) a b) : (σ.insert v a).Twin m (τ.insert u b) :=
  h.insert_of_key hv.key ht

theorem get? (h : σ.Twin m τ) {v u : TypeVar} (hv : v.Twin m u) :
    Option.Rel (Ty.Twin m) (σ.get? v) (τ.get? u) := by
  rw [Solution.get?, Solution.get?, hv.key]
  have entries := h.entries
  generalize σ.entries = es at entries
  generalize τ.entries = es' at entries
  induction entries with
  | nil => exact .none
  | @cons e e' es es' he hes ih =>
    obtain ⟨key, a⟩ := e
    obtain ⟨key', b⟩ := e'
    obtain ⟨same, twin⟩ := he
    dsimp only at same
    subst same
    have found : (m.naming.key v.key == m.naming.key key) = (v.key == key) := by
      rw [Bool.eq_iff_iff, beq_iff_eq, beq_iff_eq, EmbeddingLike.apply_eq_iff_eq]
    rw [List.lookup_cons, List.lookup_cons, found]
    split
    · exact twin
    · exact ih

end Solution.Twin

namespace Pairing

variable {m : Pairing} {w : World} {σ τ : Solution} {c d : ClassTy}

section

variable (hw : m.Fixes w)
include hw

theorem rel_params {id : ClassId} (known : m.classes id) :
    List.Forall₂ (TypeVar.Twin m) (w.classes.decl id).params (w.classes.decl id).params :=
  List.forall₂_same.2 fun _ hv => hw.decl known (.param hv)

/-- The scope of a class that is come across keeps its name. -/
theorem scope_decl {id : ClassId} (known : m.classes id) :
    m.naming.scope (w.classes.decl id).scope = (w.classes.decl id).scope :=
  (hw.self (c := .ofId id) known).scope.symm

theorem forScope_decl {id : ClassId} (known : m.classes id) :
    (Solution.forScope (w.classes.decl id).scope).Twin m
      (.forScope (w.classes.decl id).scope) := by
  have twin := Solution.Twin.forScope m (w.classes.decl id).scope
  rwa [scope_decl hw known] at twin

private theorem ofClass_twin (h : c.Twin m d) :
    (Solution.ofClass w.classes c).Twin m (Solution.ofClass w.classes d) := by
  have go : ∀ {vs : List TypeVar} {as bs : List (Option Ty)} {σ τ : Solution},
      List.Forall₂ (TypeVar.Twin m) vs vs → List.Forall₂ (Option.Rel (Ty.Twin m)) as bs →
      σ.Twin m τ → (Solution.ofClass.go σ vs as).Twin m (Solution.ofClass.go τ vs bs) := by
    intro vs
    induction vs with
    | nil => exact fun _ _ hσ => hσ
    | cons v vs ih =>
      intro as bs σ τ hv ha hσ
      obtain ⟨hv, hvs⟩ := List.forall₂_cons.1 hv
      cases ha with
      | nil => exact ih hvs .nil (hσ.insert hv (.some .unknown))
      | cons hab hrest => exact ih hvs hrest (hσ.insert hv hab)
  have args := h.args
  unfold Solution.ofClass
  rw [h.id]
  generalize c.args = as at args
  generalize d.args = bs at args
  cases args with
  | none => exact forScope_decl hw h.known
  | some args => exact go (rel_params hw h.known) args (forScope_decl hw h.known)

omit hw in
private theorem selfVar_eq (h : c.Twin m d) : w.classes.selfVar d = w.classes.selfVar c := by
  rw [ClassTable.selfVar, ClassTable.selfVar, TypeVar.self, TypeVar.self, h.id, h.generic_eq]

private theorem selfVar_twin (known : m.classes c.id) :
    (w.classes.selfVar c).Twin m (w.classes.selfVar c) :=
  .var (hw.self known) (.some (ClassTy.twin_generic known).toInstance)

theorem withSelf_twin (hσ : σ.Twin m τ) (h : c.Twin m d) {s s' : ClassTy} (hs : s.Twin m s') :
    (σ.withSelf w.classes c s).Twin m (τ.withSelf w.classes d s') := by
  have self := selfVar_twin hw h.known
  have solving := hσ.addScope (w.classes.selfVar c).scope
  rw [← self.scope] at solving
  unfold Solution.withSelf
  rw [selfVar_eq h]
  exact solving.insert self (.some hs.toInstance)

private theorem rel_memberSolution (h : c.Twin m d) {s s' : Option ClassTy}
    (hs : Option.Rel (ClassTy.Twin m) s s') :
    Option.Rel (Solution.Twin m) (memberSolution w.classes c s) (memberSolution w.classes d s') := by
  have class_twin := ofClass_twin hw h
  unfold memberSolution
  cases hs with
  | some hs => exact .some (withSelf_twin hw class_twin h hs)
  | none =>
    dsimp only
    rw [rel_option_isSome h.args]
    split
    · exact .some class_twin
    · exact .none

/-! ## Substitution in twins -/

private theorem both_ofClassTy {sub sub' : Ty → StateM Inference Ty} (hs : m.Substitutes sub sub')
    (hσ : σ.Twin m τ) (h : c.Twin m d) :
    m.Both (ClassTy.Twin m) (Substitution.ofClassTy w.classes σ sub c)
      (Substitution.ofClassTy w.classes τ sub' d) := by
  have args := h.args
  unfold Substitution.ofClassTy
  cases hc : c.args with
  | some as =>
    cases hd : d.args with
    | none =>
      rw [hc, hd] at args
      cases args
    | some bs =>
      rw [hc, hd] at args
      cases args with
      | some args =>
        refine both_bind (both_mapM args fun a b hab => both_ofOption hs hab) fun as bs hab => ?_
        exact both_pure (.cls { h.alike with } (.some hab))
  | none =>
    cases hd : d.args with
    | some bs =>
      rw [hc, hd] at args
      cases args
    | none =>
      have solves := hσ.solves (w.classes.decl c.id).scope
      rw [scope_decl hw h.known] at solves
      dsimp only
      rw [h.id, solves]
      split
      · exact both_pure h
      · refine both_bind (both_mapM (rel_params hw h.known) fun v u hv => both_ofOption hs (.some hv))
          fun as bs hab => both_pure ?_
        exact ClassTy.twin_withArgs h hab true

omit hw in
/-- Classes without arguments take twins for arguments if their parameters are twins and their scopes
correspond. -/
theorem both_opened {sub sub' : Ty → StateM Inference Ty} (hs : m.Substitutes sub sub')
    (hσ : σ.Twin m τ) (bare : c.args = none) (bare' : d.args = none)
    (scope : (w.classes.decl d.id).scope = m.naming.scope (w.classes.decl c.id).scope)
    (params : List.Forall₂ (TypeVar.Twin m) (w.classes.decl c.id).params
      (w.classes.decl d.id).params) :
    m.Both (fun c d => Option.Rel (List.Forall₂ (Option.Rel (Ty.Twin m))) c.args d.args)
      (Substitution.ofClassTy w.classes σ sub c) (Substitution.ofClassTy w.classes τ sub' d) := by
  have solves := hσ.solves (w.classes.decl c.id).scope
  have generic : (w.classes.decl d.id).params.isEmpty = (w.classes.decl c.id).params.isEmpty := by
    rw [Bool.eq_iff_iff, List.isEmpty_iff_length_eq_zero, List.isEmpty_iff_length_eq_zero,
      params.length_eq]
  unfold Substitution.ofClassTy
  rw [bare, bare']
  dsimp only
  rw [scope, solves, generic]
  split
  · exact both_pure (by rw [bare, bare']; exact .none)
  · refine both_bind (both_mapM params fun v u hv => both_ofOption hs (.some hv)) fun as bs hab => ?_
    exact both_pure (.some hab)

omit hw in
private theorem ofVar_twin (hσ : σ.Twin m τ) (unsolvedUnknown : Bool) {v u : TypeVar}
    (hv : v.Twin m u) :
    (Substitution.ofVar σ unsolvedUnknown v).Twin m (Substitution.ofVar τ unsolvedUnknown u) := by
  have found := hσ.get? hv
  unfold Substitution.ofVar
  rw [hv.access, hv.scope, hσ.solves]
  split
  · exact hv
  · generalize σ.get? v = a at found
    generalize τ.get? u = b at found
    cases found with
    | some ht => exact ht
    | none =>
      dsimp only
      split
      · exact .unknown
      · exact hv

theorem substitutes_ofTyAt (hσ : σ.Twin m τ) (unsolvedUnknown : Bool) (n : Nat) :
    m.Substitutes (Substitution.ofTyAt w.classes σ unsolvedUnknown n)
      (Substitution.ofTyAt w.classes τ unsolvedUnknown n) := by
  induction n with
  | zero => exact ⟨fun h => both_pure h, rfl, rfl⟩
  | succ n ih =>
    refine ⟨fun {t u} h => ?_, rfl, rfl⟩
    have itself := h
    unfold Substitution.ofTyAt
    cases h with
    | var alike bound => exact both_pure (ofVar_twin hσ unsolvedUnknown (.var alike bound))
    | cls alike args =>
      refine both_bind (both_ofClassTy hw ih hσ (.cls alike args)) ?_
      exact fun c d h => both_pure h
    | function h => exact both_bind (both_ofFunction ih h) fun f g h => both_pure (.function h)
    | overloaded h =>
      refine both_bind (both_mapM h fun f g h => both_ofFunction ih h) fun fs gs h => ?_
      exact both_pure (.overloaded h)
    | union h =>
      refine both_bind (both_mapM h fun t u h => ih.twin h) fun ts us h => ?_
      refine both_bind both_get fun inf inf' holds => both_pure (holds.rel_combine ?_)
      rw [List.forall₂_map_left_iff, List.forall₂_map_right_iff]
      exact h.imp fun _ _ h => .some h
    | _ => exact both_pure itself

theorem both_substitute (hσ : σ.Twin m τ) (unsolvedUnknown : Bool) {t u : Ty} (h : t.Twin m u) :
    m.Both (Ty.Twin m) (t.substitute w.classes σ unsolvedUnknown)
      (u.substitute w.classes τ unsolvedUnknown) := by
  unfold Ty.substitute
  rw [hσ.isEmpty]
  split
  · exact both_pure h
  · exact (substitutes_ofTyAt hw hσ _ _).twin h

theorem both_substituteFunction (hσ : σ.Twin m τ) {f g : FunctionTy} (h : f.Twin m g) :
    m.Both (FunctionTy.Twin m) (f.substitute w.classes σ) (g.substitute w.classes τ) := by
  unfold FunctionTy.substitute
  rw [hσ.isEmpty]
  split
  · exact both_pure h
  · exact both_ofFunction (substitutes_ofTyAt hw hσ _ _) h

private theorem both_substituteClass (hσ : σ.Twin m τ) (unsolvedUnknown : Bool) (h : c.Twin m d) :
    m.Both (ClassTy.Twin m) (c.substitute w.classes σ unsolvedUnknown)
      (d.substitute w.classes τ unsolvedUnknown) := by
  unfold ClassTy.substitute
  rw [hσ.isEmpty]
  split
  · exact both_pure h
  · exact both_ofClassTy hw (substitutes_ofTyAt hw hσ _ _) hσ h

section

variable {owner owner' : ClassTy} (ho : owner.Twin m owner')
include ho

theorem both_specialize {s s' : Option ClassTy} (hs : Option.Rel (ClassTy.Twin m) s s') {t u : Ty}
    (h : t.Twin m u) :
    m.Both (Ty.Twin m) (t.specialize w.classes owner s) (u.specialize w.classes owner' s') := by
  have solution := rel_memberSolution hw ho hs
  unfold Ty.specialize
  generalize memberSolution w.classes owner s = a at solution
  generalize memberSolution w.classes owner' s' = b at solution
  cases solution with
  | some hσ => exact both_substitute hw hσ _ h
  | none => exact both_pure h

theorem both_specializeFunction {f g : FunctionTy} (h : f.Twin m g) :
    m.Both (FunctionTy.Twin m) (f.specialize w.classes owner) (g.specialize w.classes owner') := by
  have solution := rel_memberSolution hw ho .none
  unfold FunctionTy.specialize
  generalize memberSolution w.classes owner none = a at solution
  generalize memberSolution w.classes owner' none = b at solution
  cases solution with
  | some hσ => exact both_substituteFunction hw hσ h
  | none => exact both_pure h

theorem both_specializeClass (h : c.Twin m d) :
    m.Both (ClassTy.Twin m) (c.specialize w.classes owner) (d.specialize w.classes owner') := by
  have solution := rel_memberSolution hw ho .none
  unfold ClassTy.specialize
  generalize memberSolution w.classes owner none = a at solution
  generalize memberSolution w.classes owner' none = b at solution
  cases solution with
  | some hσ => exact both_substituteClass hw hσ _ h
  | none => exact both_pure h

end

end

/-! ## Members -/

/-- The same member, whose types are their own twins, under twin owners. -/
structure Found (m : Pairing) (found found' : FoundMember) : Prop where
  member : found'.member = found.member
  fixes : m.FixesMember found.member
  owner : Option.Rel (ClassTy.Twin m) found.owner found'.owner

private theorem found_unresolved : m.Found .unresolved .unresolved := by
  refine ⟨rfl, fun t ht => ?_, .none⟩
  cases ht with
  | annotated here => cases here
  | inferred here => cases here
  | synthesized h =>
    cases h
    exact .unknown

private theorem found_of? {mem : Member} (fixes : m.FixesMember mem) (h : c.Twin m d) :
    Option.Rel m.Found (FoundMember.of? mem c) (FoundMember.of? mem d) := by
  unfold FoundMember.of?
  split
  · exact .some ⟨rfl, fixes, .some h⟩
  · split
    · exact .some ⟨rfl, fixes, .some h⟩
    · exact .none

/-- Entries of a linearization that are twins, if their class is known. -/
inductive Entry (m : Pairing) : Ancestor → Ancestor → Prop
  | resolved {c d : ClassTy} (h : c.Twin m d) : m.Entry (.resolved c) (.resolved d)
  | unresolved (t : Option Ty) (mark : Nat) : m.Entry (.unresolved t mark) (.unresolved t mark)

section

variable (hw : m.Fixes w)
include hw

theorem rel_mro {id : ClassId} (known : m.classes id) :
    List.Forall₂ m.Entry (w.classes.decl id).mro (w.classes.decl id).mro := by
  refine List.forall₂_same.2 fun a ha => ?_
  cases a with
  | resolved c => exact .resolved (hw.decl known (.ancestor ha))
  | unresolved t mark => exact .unresolved t mark

private theorem rel_findIn (name : String) {as bs : List Ancestor}
    (h : List.Forall₂ m.Entry as bs) :
    Option.Rel m.Found (w.classes.findIn name as) (w.classes.findIn name bs) := by
  induction h with
  | nil => exact .none
  | cons entry _ ih =>
    cases entry with
    | unresolved t mark => exact .some found_unresolved
    | @resolved c d h =>
      unfold ClassTable.findIn
      rw [h.id]
      cases hm : (w.classes.decl c.id).members.find? name with
      | none => exact ih
      | some mem =>
        have fixes : m.FixesMember mem := fun t ht =>
          hw.decl h.known (.member ⟨Fragment.MemberTable.mem_of_find? hm, ht⟩)
        have found := found_of? fixes h
        dsimp only
        generalize FoundMember.of? mem c = a at found
        generalize FoundMember.of? mem d = b at found
        cases found with
        | none => exact ih
        | some found => exact .some found

theorem both_lookup (h : c.Twin m d) (name : String) :
    m.Both (Option.Rel m.Found) (w.classes.lookup c name) (w.classes.lookup d name) := by
  have own := rel_findIn hw name (.cons (.resolved h.toClassObject) .nil)
  have inherited := rel_findIn hw name (rel_mro hw h.known)
  unfold ClassTable.lookup
  rw [h.id]
  dsimp only
  generalize w.classes.findIn name [.resolved c.toClassObject] = a at own
  generalize w.classes.findIn name [.resolved d.toClassObject] = b at own
  cases own with
  | some found => exact both_pure (.some found)
  | none =>
    dsimp only
    cases hf : w.classes.findIn name (w.classes.decl c.id).mro with
    | none => exact both_pure .none
    | some found =>
      rw [hf] at inherited
      cases inherited with
      | some found =>
        have owner := found.owner
        dsimp only
        cases ho : FoundMember.owner _ with
        | none => exact both_pure (.some found)
        | some o =>
          rw [ho] at owner
          cases owner with
          | some ho =>
            refine both_bind (both_specializeClass hw h ho) fun o o' ho => both_pure (.some ?_)
            exact ⟨rfl, found.fixes, .some ho⟩

end

theorem FixesMember.declaredType {mem : Member} (fixes : m.FixesMember mem) {t : Ty}
    (h : mem.declaredType = some t) : t.Twin m t := by
  unfold Member.declaredType at h
  split at h
  · rename_i d hd
    have here : d ∈ mem.declarations :=
      (List.mem_filter.1 (List.mem_of_getLast? hd)).1
    cases h
    unfold Declaration.declaredType
    cases ha : d.annotation with
    | some t => exact fixes t (.annotated here ha)
    | none =>
      cases hi : d.inferred with
      | some t => exact fixes t (.inferred here hi)
      | none => exact .unknown
  · exact fixes t (.synthesized h)

theorem FixesMember.effectiveType {mem : Member} (fixes : m.FixesMember mem) {inf inf' : Inference}
    (holds : m.Holds inf inf') : (mem.effectiveType inf).Twin m (mem.effectiveType inf') := by
  unfold Member.effectiveType
  cases hd : mem.declaredType with
  | some t => exact fixes.declaredType hd
  | none =>
    refine holds.rel_combine ?_
    refine List.forall₂_same.2 fun a ha => ?_
    obtain ⟨d, here, rfl⟩ := List.mem_map.1 ha
    cases hi : d.inferred with
    | none => exact .none
    | some t => exact .some (fixes t (.inferred here hi))

theorem both_typeOf (hw : m.Fixes w) {found found' : FoundMember} (h : m.Found found found') :
    m.Both (Ty.Twin m) (w.classes.typeOf found) (w.classes.typeOf found') := by
  have owner := h.owner
  unfold ClassTable.typeOf
  rw [h.member]
  generalize found.owner = a at owner
  generalize found'.owner = b at owner
  cases owner with
  | none => exact both_pure .unknown
  | some ho =>
    refine both_bind both_get fun inf inf' holds => ?_
    exact both_specialize hw ho .none (h.fixes.effectiveType holds)

private theorem isSpecRest_eq {p q : Param} (h : p.Twin m q) (kind : ParamKind) (access : Access) :
    q.isSpecRest kind access = p.isSpecRest kind access := by
  have annotated := h.annotated
  rw [Param.isSpecRest, Param.isSpecRest, h.kind]
  congr 1
  generalize p.type = a at annotated
  generalize q.type = b at annotated
  cases annotated with
  | both ht =>
    cases ht with
    | var alike bound => simp only [alike.access]
    | _ => rfl
  | _ => rfl

theorem both_dropSpecRest {t u : Ty} (h : t.Twin m u) :
    m.Both (Ty.Twin m) t.dropSpecRest u.dropSpecRest := by
  have functions {f g : FunctionTy} (h : f.Twin m g) :
      m.Both (FunctionTy.Twin m) f.dropSpecRest g.dropSpecRest := by
    have params : List.Forall₂ (Param.Twin m) f.params.reverse g.params.reverse :=
      List.forall₂_reverse_iff.2 h.params
    unfold FunctionTy.dropSpecRest
    generalize f.params.reverse = ps at params
    generalize g.params.reverse = qs at params
    cases params with
    | nil => exact both_pure h
    | cons last rest =>
      cases rest with
      | nil => exact both_pure h
      | cons beforeLast rest =>
        dsimp only
        rw [isSpecRest_eq beforeLast, isSpecRest_eq last]
        split
        · exact both_withParams h (List.forall₂_reverse_iff.2 rest)
        · exact both_pure h
  have itself := h
  unfold Ty.dropSpecRest
  cases h with
  | function h => exact both_bind (functions h) fun f g h => both_pure (.function h)
  | _ => exact both_pure itself

end Pairing

end Conformance
