import Conformance.Assign.Basic

/-!
# Fragments of the types

A fragment is a part of the types of a world that comparisons do not lead out of: whatever is
substituted, looked up or bound within it stays in it. Its unions are as they are built. No return
type of a fragment is to be found out, so within it nothing that a session keeps about return types
changes. A narrow fragment has no type arguments, none of its type variables is solved for, and no
receiver is annotated, so nothing in it is ever substituted.
-/

namespace Conformance

structure Fragment where
  /-- What a session keeps about return types. -/
  inf : Inference
  /-- There may be type arguments, declared receivers and type variables that are solved for. -/
  wide : Prop
  ids : ClassId → Prop
  vars : TypeVar → Prop

namespace Fragment

/-- The members of a union as it is built: none of them a union or a type of anything, and no two of
them the same. -/
structure Built (inf : Inference) (ts : List Ty) : Prop where
  single : ∀ t ∈ ts, t.alternatives = [t] ∧ t.isAnyOrUnknown = false
  distinct : Ty.distinct inf ts = ts
  several : 1 < ts.length

/-- The type belongs to the fragment. -/
inductive Has (F : Fragment) : Ty → Prop
  | unknown : Has F .unknown
  | any : Has F .any
  | noneObject : Has F .noneObject
  | module (name : String) (table : TableId) : Has F (.module name table)
  | cls {c : ClassTy} (id : F.ids c.id) (narrow : F.wide ∨ c.args = none ∧ c.explicit = false)
      (args : ∀ t ∈ c.argList, ∀ u, t = some u → Has F u) : Has F (.cls c)
  | function {f : FunctionTy} (params : ∀ p ∈ f.params, ∀ u, p.type = some u → Has F u)
      (ret : ∀ u, f.ret = .declared u → Has F u)
      (settled : ∀ cell outcome, f.ret ≠ .deferred cell outcome) : Has F (.function f)
  | overloaded {fs : List FunctionTy} (each : ∀ f ∈ fs, Has F (.function f)) :
      Has F (.overloaded fs)
  | var {v : TypeVar} (here : F.vars v) (bound : ∀ u, v.bound = some u → Has F u) : Has F (.var v)
  | union {ts : List Ty} (each : ∀ t ∈ ts, Has F t) (built : Built F.inf ts) : Has F (.union ts)

section

variable (F : Fragment)

def HasOption (t : Option Ty) : Prop := ∀ u, t = some u → F.Has u

def HasClass (c : ClassTy) : Prop := F.Has (.cls c)

def HasFunction (f : FunctionTy) : Prop := F.Has (.function f)

def Idle (σ : Option Solution) : Prop := ∀ v, F.vars v → σ.any (·.solves v.scope) = false

/-- What was found belongs to the fragment; in a narrow one nothing is put in the place of its
variables. -/
structure HasSolution (σ : Solution) : Prop where
  found : ∀ e ∈ σ.entries, F.HasOption e.2
  kept : F.wide ∨ σ.entries = [] ∨ F.Idle (some σ)

/-- What is being solved for belongs to the fragment. -/
structure Solving (σ : Option Solution) : Prop where
  has : ∀ τ, σ = some τ → F.HasSolution τ
  idle : F.wide ∨ F.Idle σ

def Bindable (f : FunctionTy) : Prop :=
  F.wide ∨ f.kind = .staticMethod ∨ ∀ p ∈ f.params.head?, p.type = none

/-- A type of the fragment that may be bound to a receiver. -/
structure HasMember (t : Ty) : Prop where
  has : F.Has t
  function : ∀ f, t = .function f → F.Bindable f
  overloaded : ∀ fs, t = .overloaded fs → ∀ f ∈ fs, F.Bindable f

end

/-- A computation that only asks about cells changes nothing there, and its result has a
property. -/
def Steady {α : Type} (F : Fragment) (P : α → Prop) (m : StateM Inference α) : Prop :=
  ∃ a, m F.inf = (a, F.inf) ∧ P a

variable {F : Fragment}

section

variable {α β : Type} {P : α → Prop} {Q : β → Prop}

theorem steady_pure {a : α} (h : P a) : F.Steady P (pure a) := ⟨a, rfl, h⟩

theorem steady_get {P : Inference → Prop} (h : P F.inf) : F.Steady P get := ⟨F.inf, rfl, h⟩

theorem steady_bind {m : StateM Inference α} {k : α → StateM Inference β} (h : F.Steady P m)
    (hk : ∀ a, P a → F.Steady Q (k a)) : F.Steady Q (m >>= k) := by
  obtain ⟨a, ha, hp⟩ := h
  obtain ⟨b, hb, hq⟩ := hk a hp
  refine ⟨b, ?_, hq⟩
  change k (m F.inf).1 (m F.inf).2 = _
  rw [ha]
  exact hb

theorem steady_imp {P' : α → Prop} {m : StateM Inference α} (h : F.Steady P m)
    (hp : ∀ a, P a → P' a) : F.Steady P' m := by
  obtain ⟨a, ha, h⟩ := h
  exact ⟨a, ha, hp a h⟩

theorem steady_mapM {f : α → StateM Inference β} {as : List α}
    (h : ∀ a ∈ as, F.Steady Q (f a)) : F.Steady (fun bs => ∀ b ∈ bs, Q b) (as.mapM f) := by
  induction as with
  | nil => exact steady_pure fun b hb => nomatch hb
  | cons a as ih =>
    rw [List.mapM_cons]
    refine steady_bind (h a List.mem_cons_self) fun b hb => ?_
    refine steady_bind (ih fun a' ha' => h a' (List.mem_cons_of_mem a ha')) fun bs hbs => ?_
    refine steady_pure fun b' hb' => ?_
    rcases List.mem_cons.1 hb' with rfl | hb'
    · exact hb
    · exact hbs b' hb'

theorem steady_mapM_eq {f : α → StateM Inference α} {as : List α}
    (h : ∀ a ∈ as, F.Steady (· = a) (f a)) : F.Steady (· = as) (as.mapM f) := by
  induction as with
  | nil => exact steady_pure rfl
  | cons a as ih =>
    rw [List.mapM_cons]
    refine steady_bind (h a List.mem_cons_self) fun b hb => ?_
    refine steady_bind (ih fun a' ha' => h a' (List.mem_cons_of_mem a ha')) fun bs hbs => ?_
    exact steady_pure (by rw [hb, hbs])

end

theorem hasOption_none : F.HasOption none := fun _ h => nomatch h

theorem hasOption_some {t : Ty} (h : F.Has t) : F.HasOption (some t) := by
  rintro _ ⟨⟩
  exact h

/-! ## Classes -/

section

variable {c : ClassTy}

theorem HasClass.ids (h : F.HasClass c) : F.ids c.id := by
  cases h
  assumption

theorem HasClass.narrow (h : F.HasClass c) : F.wide ∨ c.args = none ∧ c.explicit = false := by
  cases h
  assumption

theorem HasClass.args (h : F.HasClass c) : ∀ t ∈ c.argList, F.HasOption t := by
  cases h
  assumption

theorem HasClass.toInstance (h : F.HasClass c) : F.HasClass c.toInstance :=
  .cls h.ids h.narrow h.args

theorem HasClass.toClassObject (h : F.HasClass c) : F.HasClass c.toClassObject :=
  .cls h.ids h.narrow h.args

theorem HasClass.withLiteral (h : F.HasClass c) (literal : Option String) :
    F.HasClass (c.withLiteral literal) :=
  .cls h.ids h.narrow h.args

theorem HasClass.generic (h : F.HasClass c) : F.HasClass c.generic :=
  .cls h.ids (.inr ⟨rfl, rfl⟩) fun _ ht => nomatch ht

theorem hasClass_withArgs (hi : F.ids c.id) (hw : F.wide) {args : List (Option Ty)}
    (ha : ∀ t ∈ args, F.HasOption t) (explicit : Bool) : F.HasClass (c.withArgs args explicit) :=
  .cls hi (.inl hw) ha

end

/-! ## Functions -/

section

variable {f : FunctionTy}

theorem HasFunction.params (h : F.HasFunction f) : ∀ p ∈ f.params, F.HasOption p.type := by
  cases h
  assumption

theorem HasFunction.settled (h : F.HasFunction f) :
    ∀ cell outcome, f.ret ≠ .deferred cell outcome := by
  cases h
  assumption

theorem HasFunction.declared (h : F.HasFunction f) : ∀ t, f.ret = .declared t → F.Has t := by
  cases h
  assumption

theorem HasFunction.returnType (h : F.HasFunction f) (inf : Inference) :
    F.Has (inf.returnType f) := by
  have settled := h.settled
  have declared := h.declared
  unfold Inference.returnType
  cases hr : f.ret with
  | declared t => exact declared t hr
  | undeclared => exact .unknown
  | deferred cell outcome => exact absurd hr (settled cell outcome)

theorem Has.typeOrUnknown {p : Param} (h : F.HasOption p.type) : F.Has p.typeOrUnknown := by
  unfold Param.typeOrUnknown
  cases hp : p.type with
  | none => exact .unknown
  | some t => exact h t hp

theorem renew_eq {ret : Return} (h : ∀ cell outcome, ret ≠ .deferred cell outcome)
    (inf : Inference) : Inference.renew ret inf = (ret, inf) := by
  cases ret with
  | deferred cell outcome => exact absurd rfl (h cell outcome)
  | _ => rfl

theorem steady_withParams (h : F.HasFunction f) {params : List Param}
    (hp : ∀ p ∈ params, F.HasOption p.type) :
    F.Steady (fun g => F.HasFunction g) (Inference.withParams f params) := by
  refine steady_bind ⟨f.ret, renew_eq h.settled F.inf, rfl⟩ fun ret hret => ?_
  refine steady_pure ?_
  cases hret
  exact .function hp h.declared h.settled

theorem demand_eq (h : ∀ cell outcome, f.ret ≠ .deferred cell outcome) (inf : Inference) :
    (Inference.demand f).run inf = (.ok (), inf) := by
  unfold Inference.demand
  cases hr : f.ret with
  | deferred cell outcome => exact absurd hr (h cell outcome)
  | _ => rfl

end

/-! ## Unions -/

section

variable {inf : Inference}

theorem Built.combine_eq {ts : List Ty} (h : Built inf ts) :
    Ty.combine inf (ts.map some) = .union ts := by
  have given : (ts.map some).filterMap id = ts := by
    simp only [List.filterMap_map, Function.comp_def, id_eq, List.filterMap_some]
  have proper : ts.find? Ty.isAnyOrUnknown = none :=
    List.find?_eq_none.2 fun t ht => by simp [(h.single t ht).2]
  have flat : ∀ us : List Ty, (∀ t ∈ us, t.alternatives = [t]) →
      us.flatMap Ty.alternatives = us := by
    intro us hus
    induction us with
    | nil => rfl
    | cons u us ih =>
      simp only [List.flatMap_cons, hus u List.mem_cons_self, List.singleton_append,
        List.cons.injEq, true_and]
      exact ih fun t ht => hus t (List.mem_cons_of_mem u ht)
  have several := h.several
  simp only [Ty.combine, given, proper, flat ts fun t ht => (h.single t ht).1, h.distinct]
  match ts with
  | _ :: _ :: _ => rfl

/-- The members of a union are no unions. -/
theorem Built.not_union {ts : List Ty} (h : Built inf ts) {t : Ty} (ht : t ∈ ts) (us : List Ty) :
    t ≠ .union us := by
  rintro rfl
  have size := congrArg sizeOf (h.single _ ht).1
  simp only [Ty.alternatives, List.cons.sizeOf_spec, List.nil.sizeOf_spec, Ty.union.sizeOf_spec] at size
  omega

theorem pairwise_distinct (ts : List Ty) :
    (Ty.distinct inf ts).Pairwise fun t u => t.same inf u = false := by
  have folded : ∀ us found : List Ty, found.Pairwise (fun t u => t.same inf u = false) →
      (us.foldl (Ty.insertDistinct inf) found).Pairwise fun t u => t.same inf u = false := by
    intro us
    induction us with
    | nil => exact fun _ h => h
    | cons u us ih =>
      intro found h
      refine ih _ ?_
      unfold Ty.insertDistinct
      split
      · exact h
      · rename_i new
        refine List.pairwise_append.2 ⟨h, List.pairwise_singleton _ _, fun t ht v hv => ?_⟩
        rw [List.mem_singleton.1 hv]
        exact Bool.eq_false_iff.2 fun same => new (List.any_eq_true.2 ⟨t, ht, same⟩)
  exact folded ts [] List.Pairwise.nil

theorem distinct_of_pairwise {ts : List Ty} (h : ts.Pairwise fun t u => t.same inf u = false) :
    Ty.distinct inf ts = ts := by
  have folded : ∀ us found : List Ty, (found ++ us).Pairwise (fun t u => t.same inf u = false) →
      us.foldl (Ty.insertDistinct inf) found = found ++ us := by
    intro us
    induction us with
    | nil => exact fun found _ => (List.append_nil found).symm
    | cons u us ih =>
      intro found h
      have new : found.any (fun t => t.same inf u) = false := by
        refine List.any_eq_false.2 fun t ht => ?_
        simp [(List.pairwise_append.1 h).2.2 t ht u List.mem_cons_self]
      have added : Ty.insertDistinct inf found u = found ++ [u] := by
        simp [Ty.insertDistinct, new]
      rw [List.foldl_cons, added, ih _ (by simpa using h)]
      simp
  exact folded ts [] h

theorem alternatives_eq_self {t : Ty} (h : ∀ ts, t ≠ .union ts) : t.alternatives = [t] := by
  cases t with
  | union ts => exact absurd rfl (h ts)
  | _ => rfl

end

private theorem has_of_mem_alternatives {t u : Ty} (h : F.Has t) (hu : u ∈ t.alternatives) :
    F.Has u ∧ u.alternatives = [u] ∧ (t.isAnyOrUnknown = false → u.isAnyOrUnknown = false) := by
  unfold Ty.alternatives at hu
  split at hu
  · cases h with
    | union each built =>
      exact ⟨each u hu, (built.single u hu).1, fun _ => (built.single u hu).2⟩
  · rename_i plain
    rw [List.mem_singleton] at hu
    subst hu
    exact ⟨h, alternatives_eq_self plain, id⟩

private theorem mem_foldl_insertDistinct {inf : Inference} {t : Ty} (ts : List Ty) {found : List Ty}
    (h : t ∈ ts.foldl (Ty.insertDistinct inf) found) : t ∈ found ∨ t ∈ ts := by
  induction ts generalizing found with
  | nil => exact .inl h
  | cons u us ih =>
    rcases ih h with h | h
    · unfold Ty.insertDistinct at h
      split at h
      · exact .inl h
      · rw [List.mem_append, List.mem_singleton] at h
        rcases h with h | rfl
        · exact .inl h
        · exact .inr List.mem_cons_self
    · exact .inr (List.mem_cons_of_mem u h)

theorem mem_of_mem_distinct {inf : Inference} {ts : List Ty} {t : Ty}
    (h : t ∈ Ty.distinct inf ts) : t ∈ ts :=
  (mem_foldl_insertDistinct ts h).resolve_left List.not_mem_nil

def AlternativeOf (types : List (Option Ty)) (u : Ty) : Prop :=
  ∃ t, some t ∈ types ∧ t.isAnyOrUnknown = false ∧ u ∈ t.alternatives

/-- What is combined is unknown, or one of the types, or one of their alternatives, or the union of
several of these that are apart. -/
theorem combine_cases {P : Ty → Prop} {inf : Inference} {types : List (Option Ty)}
    (unknown : P .unknown) (given : ∀ t, some t ∈ types → P t)
    (single : ∀ u, AlternativeOf types u → P u)
    (union : ∀ us, (∀ u ∈ us, AlternativeOf types u) →
      us.Pairwise (fun t u => t.same inf u = false) → 1 < us.length → P (.union us)) :
    P (Ty.combine inf types) := by
  unfold Ty.combine
  dsimp only
  split
  · rename_i t ht
    exact given t (by simpa using List.mem_of_find?_eq_some ht)
  · rename_i proper
    have alternative : ∀ u ∈ Ty.distinct inf ((types.filterMap id).flatMap Ty.alternatives),
        AlternativeOf types u := by
      intro u hu
      obtain ⟨t, ht, hut⟩ := List.mem_flatMap.1 (mem_of_mem_distinct hu)
      exact ⟨t, by simpa using ht, Bool.eq_false_iff.2 (List.find?_eq_none.1 proper t ht), hut⟩
    have apart := @pairwise_distinct inf ((types.filterMap id).flatMap Ty.alternatives)
    generalize Ty.distinct inf _ = us at alternative apart
    rcases us with _ | ⟨u, _ | ⟨v, vs⟩⟩
    · exact unknown
    · exact single u (alternative u List.mem_cons_self)
    · exact union _ alternative apart (Nat.succ_lt_succ (Nat.succ_pos _))

/-- What is built of types of the fragment belongs to it. -/
theorem has_combine {types : List (Option Ty)} (h : ∀ t ∈ types, F.HasOption t) :
    F.Has (Ty.combine F.inf types) := by
  have alternative {u : Ty} : AlternativeOf types u →
      F.Has u ∧ u.alternatives = [u] ∧ u.isAnyOrUnknown = false := by
    rintro ⟨t, ht, proper, hu⟩
    obtain ⟨has, single, any⟩ := has_of_mem_alternatives (h _ ht t rfl) hu
    exact ⟨has, single, any proper⟩
  refine combine_cases .unknown (fun t ht => h _ ht t rfl) (fun u hu => (alternative hu).1)
    fun us each apart several => ?_
  exact .union (fun t ht => (alternative (each t ht)).1)
    ⟨fun t ht => (alternative (each t ht)).2, distinct_of_pairwise apart, several⟩

/-! ## Solutions -/

section

variable {σ : Solution}

theorem hasSolution_empty : F.HasSolution .empty :=
  ⟨fun _ h => (nomatch h), .inr (.inl rfl)⟩

theorem entries_addScope (σ : Solution) (scope : String) :
    (σ.addScope scope).entries = σ.entries := by
  unfold Solution.addScope
  split <;> rfl

theorem hasSolution_of_entries (h : σ.entries = []) : F.HasSolution σ :=
  ⟨by simp [h], .inr (.inl h)⟩

theorem hasSolution_forScope (scope : String) : F.HasSolution (.forScope scope) :=
  hasSolution_of_entries (entries_addScope _ _)

theorem solves_addScope {σ : Solution} {scope other : String}
    (h : (σ.addScope scope).solves other = true) : σ.solves other = true ∨ other = scope := by
  unfold Solution.addScope at h
  split at h
  · exact .inl h
  · unfold Solution.solves at h ⊢
    simp only [Bool.and_eq_true, List.contains_eq_mem, decide_eq_true_eq, List.mem_append,
      List.mem_singleton] at h ⊢
    exact h.2.imp (⟨h.1, ·⟩) id

theorem idle_addScope {scope : String} (h : F.Idle (some σ))
    (hs : ∀ v, F.vars v → v.scope ≠ scope) : F.Idle (some (σ.addScope scope)) := by
  refine fun v hv => Bool.eq_false_iff.2 fun hsolves => ?_
  rcases solves_addScope hsolves with hsolves | hscope
  · exact absurd hsolves (Bool.eq_false_iff.1 (h v hv))
  · exact hs v hv hscope

theorem idle_forScope {scope : String} (h : ∀ v, F.vars v → v.scope ≠ scope) :
    F.Idle (some (.forScope scope)) :=
  idle_addScope (fun _ _ => by simp [Solution.solves, Solution.empty]) h

/-- Solving for a scope that no variable of the fragment belongs to. -/
theorem solving_forScope {scope : String} (h : F.wide ∨ ∀ v, F.vars v → v.scope ≠ scope) :
    F.Solving (some (.forScope scope)) :=
  ⟨fun _ hσ => Option.some.inj hσ ▸ hasSolution_forScope scope, h.imp id idle_forScope⟩

/-- A variable of the fragment is solved for in a wide fragment only. -/
theorem Solving.wide {σ : Option Solution} (h : F.Solving σ) {v : TypeVar} (hv : F.Has (.var v))
    (hs : σ.any (·.solves v.scope) = true) : F.wide := by
  refine h.idle.resolve_right fun idle => ?_
  cases hv with
  | var here _ =>
    rw [idle v here] at hs
    cases hs

theorem solving_none : F.Solving none :=
  ⟨fun _ h => (nomatch h), .inr fun _ _ => rfl⟩

theorem mem_update {key : String} {t : Option Ty} {es : List (String × Option Ty)}
    {e : String × Option Ty} (h : e ∈ Solution.update key t es) : e = (key, t) ∨ e ∈ es := by
  induction es with
  | nil => exact .inl (List.mem_singleton.1 h)
  | cons e' es ih =>
    unfold Solution.update at h
    split at h
    · rcases List.mem_cons.1 h with rfl | h
      · exact .inl rfl
      · exact .inr (List.mem_cons_of_mem _ h)
    · rcases List.mem_cons.1 h with rfl | h
      · exact .inr List.mem_cons_self
      · rcases ih h with h | h
        · exact .inl h
        · exact .inr (List.mem_cons_of_mem _ h)

theorem HasSolution.insert (h : F.HasSolution σ) (hk : F.wide ∨ F.Idle (some σ)) (v : TypeVar)
    {t : Option Ty} (ht : F.HasOption t) : F.HasSolution (σ.insert v t) := by
  refine ⟨fun e he => ?_, hk.imp id .inr⟩
  rcases mem_update he with rfl | he
  · exact ht
  · exact h.found e he

theorem mem_entries_of_get? {v : TypeVar} {t : Ty} (ht : σ.get? v = some t) :
    ∃ e ∈ σ.entries, e.2 = some t := by
  unfold Solution.get? at ht
  rw [Option.join_eq_some_iff] at ht
  have mem : ∀ es : List (String × Option Ty), es.lookup v.key = some (some t) →
      ∃ e ∈ es, e.2 = some t := by
    intro es
    induction es with
    | nil => exact fun h => nomatch h
    | cons e es ih =>
      intro hl
      rw [List.lookup_cons] at hl
      split at hl
      · exact ⟨e, List.mem_cons_self, Option.some.inj hl⟩
      · obtain ⟨e', he', h'⟩ := ih hl
        exact ⟨e', List.mem_cons_of_mem e he', h'⟩
  exact mem _ ht

theorem HasSolution.get? (h : F.HasSolution σ) {v : TypeVar} {t : Ty} (ht : σ.get? v = some t) :
    F.Has t := by
  obtain ⟨e, he, h'⟩ := mem_entries_of_get? ht
  exact h.found e he t h'

/-- The parameters of a class are given its arguments, or nothing is known of them. -/
theorem mem_entries_ofClass {classes : ClassTable} {c : ClassTy} {e : String × Option Ty}
    (h : e ∈ (Solution.ofClass classes c).entries) : e.2 = some .unknown ∨ e.2 ∈ c.argList := by
  have filled : ∀ (vs : List TypeVar) (ts : List (Option Ty)) (σ : Solution),
      e ∈ (Solution.ofClass.go σ vs ts).entries →
        e ∈ σ.entries ∨ e.2 = some .unknown ∨ e.2 ∈ ts := by
    intro vs
    induction vs with
    | nil => exact fun _ _ h => .inl h
    | cons v vs ih =>
      intro ts σ h
      cases ts with
      | nil =>
        rcases ih _ _ h with h | h | h
        · rcases mem_update h with rfl | h
          · exact .inr (.inl rfl)
          · exact .inl h
        · exact .inr (.inl h)
        · cases h
      | cons t ts =>
        rcases ih _ _ h with h | h | h
        · rcases mem_update h with rfl | h
          · exact .inr (.inr List.mem_cons_self)
          · exact .inl h
        · exact .inr (.inl h)
        · exact .inr (.inr (List.mem_cons_of_mem t h))
  have none_yet : (Solution.forScope (classes.decl c.id).scope).entries = [] :=
    entries_addScope _ _
  unfold Solution.ofClass at h
  dsimp only at h
  split at h
  · rw [none_yet] at h
    cases h
  · rename_i ts hts
    rcases filled _ _ _ h with h | h
    · rw [none_yet] at h
      cases h
    · rw [ClassTy.argList, hts]
      exact h

theorem hasSolution_ofClass {classes : ClassTable} {c : ClassTy} (h : F.HasClass c) :
    F.HasSolution (.ofClass classes c) := by
  rcases h.narrow with hf | ⟨none_given, -⟩
  · refine ⟨fun e he => ?_, .inl hf⟩
    rcases mem_entries_ofClass he with unknown | given
    · exact unknown ▸ hasOption_some .unknown
    · exact h.args _ given
  · unfold Solution.ofClass
    rw [none_given]
    exact hasSolution_forScope _

/-- Letting the receiver stand for a class of the fragment. -/
theorem HasSolution.withSelf {classes : ClassTable} (h : F.HasSolution σ) {c self : ClassTy}
    (hk : F.wide ∨ F.Idle (some σ) ∧ ∀ v, F.vars v → v.scope ≠ (classes.decl c.id).scope)
    (hs : F.HasClass self) : F.HasSolution (σ.withSelf classes c self) := by
  have kept : F.wide ∨ F.Idle (some (σ.addScope (classes.selfVar c).scope)) :=
    hk.imp id fun hk => idle_addScope hk.1 hk.2
  have added : F.HasSolution (σ.addScope (classes.selfVar c).scope) :=
    ⟨(entries_addScope σ _).symm ▸ h.found, kept.imp id .inr⟩
  exact added.insert kept _ (hasOption_some hs.toInstance)

end

end Fragment

end Conformance
