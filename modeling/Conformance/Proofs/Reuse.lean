import Conformance.Proofs.Sample
import Conformance.Proofs.Solved

/-!
# Using what was found

What a comparison finds for the variables of its destination may be put in their places, for
destinations in which each variable, once a type was found for it, occurs only where the same type is
demanded, and for regular sources: the comparison still holds where nothing is solved for.
-/

namespace Conformance

open Check

namespace Fragment

variable {F : Fragment} {w : World} {K : Kinds} {σ : Solution} {l : List Pending}
  {occs : List Occurrence}

/-! ## Functions -/

private theorem findIn_absent {classes : ClassTable} {name : String} {ancestors : List Ancestor}
    (h : ∀ c, Ancestor.resolved c ∈ ancestors → (classes.decl c.id).members.find? name = none) :
    classes.findIn name ancestors = none ∨
      classes.findIn name ancestors = some FoundMember.unresolved := by
  induction ancestors with
  | nil => exact .inl rfl
  | cons a rest ih =>
    cases a with
    | unresolved t mark => exact .inr rfl
    | resolved c =>
      rw [ClassTable.findIn, h c List.mem_cons_self]
      exact ih fun d hd => h d (List.mem_cons_of_mem _ hd)

section

variable (hw : F.Covers w)
  (calls : ∀ id, F.ids id → (w.classes.decl id).members.find? "__call__" = none)
include hw calls

private theorem exec_calledType (j : Judge) {t : Ty} (h : F.Has t) (s : CheckState) :
    exec (calledType w j t) s = (.ok t, s) := by
  unfold calledType
  split
  · have bound : exec (boundCall w j t) s = (.ok none, s) := by
      unfold boundCall
      cases t with
      | cls c =>
        have own : w.classes.findIn "__call__" [.resolved c.toClassObject] = none := by
          rw [ClassTable.findIn, show c.toClassObject.id = c.id from rfl,
            calls c.id (HasClass.ids h)]
          rfl
        have looked : ∀ r, w.classes.findIn "__call__" (w.classes.decl c.id).mro = r →
            (∀ found, r = some found → found.owner = none) →
              w.classes.lookup c "__call__" s.inference = (r, s.inference) := by
          intro r hr owner
          unfold ClassTable.lookup
          rw [own]
          dsimp only
          rw [hr]
          cases r with
          | none => rfl
          | some found =>
            dsimp only
            rw [owner found rfl]
            rfl
        rcases findIn_absent fun d hd => calls d.id (HasClass.ids (hw.mro (HasClass.ids h) d hd))
          with absent | unresolved
        · have none_found := looked none absent fun _ h => by cases h
          exact (exec_bind_of_ok (exec_lift_of_eq none_found)).trans rfl
        · have found := looked _ unresolved fun _ h => by cases h; rfl
          exact (exec_bind_of_ok (exec_lift_of_eq found)).trans rfl
      | _ => rfl
    exact (exec_bind_of_ok bound).trans rfl
  · rfl

end

section

variable {n k : Nat} (ih : F.SettledAt w K σ l n k) {m : Mode} (ahead : m.reverse = false)
include ih ahead

private theorem settles_step {found : Param → List Occurrence} {step : ParamStep}
    (h : step.Mentions
      (fun p => F.Occurs w K σ m.forParams p.typeOrUnknown (found p) ∧
        (K.branches → F.Whole p.typeOrUnknown))
      fun p => F.Has p.typeOrUnknown ∧ Regular w K p.typeOrUnknown)
    (once : FoundOnce (step.listed found)) :
    F.Settles σ l (step.listed found) (step.run w (judge w n) m)
      fun ρ => (step.mapDest (F.fillParam w ρ k)).run w (judge w n) m := by
  cases step with
  | fault wording values => exact Settles.of_declines (declines_refuse _ _)
  | compare index dest source =>
    have settled := ih h.1.1 once h.2.1 h.2.2 fun branches => h.1.2 (h.2.2.branches_of branches)
    have behind : m.forParams.reverse = true := by simp [Mode.forParams, ahead]
    simp only [Judge.compare, behind, if_true] at settled
    simp only [ParamStep.mapDest, ParamStep.run, typeOrUnknown_fillParam]
    exact settled.child.explained.child

variable {f : FunctionTy} {found : Param → List Occurrence} {ret : List Occurrence}
  (params : ∀ p ∈ f.params, F.Occurs w K σ m.forParams p.typeOrUnknown (found p))
  (args : ∀ p, (ParamGroups.ofList f.params).args = some p → found p = [])
  (kwargs : ∀ p, (ParamGroups.ofList f.params).kwargs = some p → found p = [])
  (settled : ∀ cell outcome, f.ret ≠ .deferred cell outcome)
  (returned : F.Occurs w K σ m.forReturn (F.inf.returnType f) ret)
  (whole : K.branches → (∀ p ∈ f.params, F.Whole p.typeOrUnknown) ∧ F.Whole (F.inf.returnType f))
  (once : FoundOnce (((ParamGroups.ofList f.params).positional ++
    (ParamGroups.ofList f.params).keywordOnly).flatMap found ++ ret))
include params args kwargs settled returned whole once

private theorem settles_assignFunction {g : FunctionTy} (hg : F.HasFunction g)
    (hr : Regular w K (.function g)) :
    F.Settles σ l (((ParamGroups.ofList f.params).positional ++
        (ParamGroups.ofList f.params).keywordOnly).flatMap found ++ ret)
      (assignFunction w (judge w n) m f g)
      fun ρ => assignFunction w (judge w n) m (F.fillFunction w ρ k f) g := by
  let dest := ParamGroups.ofList f.params
  let source := ParamGroups.ofList g.params
  have demanded : ∀ {f : FunctionTy}, (∀ cell outcome, f.ret ≠ .deferred cell outcome) →
      ∀ s, exec (demand f) s = (.ok (), s) :=
    fun h s => by rw [exec_demand, demand_eq h]
  have inside : ((ParamStep.plan dest source).map (ParamStep.listed found)).flatten.Sublist
      ((dest.positional ++ dest.keywordOnly).flatMap found) :=
    ParamStep.sublist_plan found args kwargs source
  have steps : ∀ step ∈ ParamStep.plan dest source, step.Mentions
      (fun p => F.Occurs w K σ m.forParams p.typeOrUnknown (found p) ∧
        (K.branches → F.Whole p.typeOrUnknown))
      fun p => F.Has p.typeOrUnknown ∧ Regular w K p.typeOrUnknown :=
    ParamStep.mentions_plan
      (ParamGroups.all_ofList fun p hp => ⟨params p hp, fun branches => (whole branches).1 p hp⟩)
      (ParamGroups.all_ofList fun p hp => ⟨.typeOrUnknown (hg.params p hp),
        .typeOrUnknown (hr.params p hp)⟩)
  have compared : F.Settles σ l ((dest.positional ++ dest.keywordOnly).flatMap found)
      (Check.allOf (ParamStep.run w (judge w n) m) (ParamStep.plan dest source))
      fun ρ => Check.allOf (ParamStep.run w (judge w n) m)
        (ParamStep.plan (.ofList (F.fillFunction w ρ k f).params) source) := by
    have once := (List.pairwise_append.1 once).1.sublist inside
    have planned : ∀ ρ : Solution,
        ParamStep.plan (.ofList (F.fillFunction w ρ k f).params) source =
          (ParamStep.plan dest source).map (ParamStep.mapDest (F.fillParam w ρ k)) := fun ρ => by
      rw [fillFunction, ParamGroups.ofList_map (φ := F.fillParam w ρ k) fun _ => rfl,
        ParamStep.plan_map (φ := F.fillParam w ρ k) fun _ => rfl]
    simp only [planned, allOf_map]
    refine (Settles.allOf (List.forall₂_map_right_iff.2 (List.forall₂_same.2 fun step hs => ?_))
      once).mono fun o ho => inside.subset ho
    exact settles_step ih ahead (steps step hs) (FoundOnce.of_mem once (List.mem_map_of_mem hs))
  have answered : F.Settles σ l ret
      (assignReturn w (judge w n) m (F.inf.returnType f) (F.inf.returnType g))
      fun ρ => assignReturn w (judge w n) m (F.inf.returnType (F.fillFunction w ρ k f))
        (F.inf.returnType g) := by
    have result := ih returned (List.pairwise_append.1 once).2.1 (hg.returnType F.inf)
      (hr.returnType hg.settled F.inf)
      fun branches => (whole ((hr.returnType hg.settled F.inf).branches_of branches)).2
    simp only [compare_ahead _ (show m.forReturn.reverse = false from ahead)] at result
    simp only [returnType_fillFunction k settled]
    exact result.child.explained.child
  refine Settles.after (fun _ => demanded settled _)
    (fun ρ _ _ => demanded (settled_fillFunction k settled) _) ?_
  refine Settles.after (fun _ => demanded hg.settled _) (fun _ _ _ => demanded hg.settled _) ?_
  refine compared.seq (declines_bind fun _ => declines_bind fun _ => declines_no) ?_ once
  refine Settles.after (b := F.inf) (fun h => by rw [exec_inference, h.inference])
    (fun _ _ h => by rw [exec_inference, h.inference]) ?_
  exact answered.last (fun ret => pure (true && ret)) (fun _ ret => pure (true && ret)) declines_no
    rfl fun _ => rfl

variable (hw : F.Covers w) (ha : F.Apart w σ) (up : F.SettledAt w K σ l n (k + 1))
  (loose : m.invariant = false)
  (calls : ∀ id, F.ids id → (w.classes.decl id).members.find? "__call__" = none)
include hw ha up loose calls

private theorem settles_function {s : Ty} (hs : F.Has s) (hr : Regular w K s)
    (single : s.branches = false) :
    F.Settles σ l (((ParamGroups.ofList f.params).positional ++
        (ParamGroups.ofList f.params).keywordOnly).flatMap found ++ ret)
      ((judge w (n + 1)).compare m (some (.function f)) (some s))
      fun ρ => (judge w (n + 1)).compare m (some (F.fill w ρ (k + 1) (.function f))) (some s) := by
  have occurs : F.Occurs w K σ m (.function f) _ :=
    .function ahead loose params args kwargs settled returned whole calls
  have filled : ∀ ρ : Solution, ρ.scopes = σ.scopes →
      F.fill w ρ (k + 1) (.function f) = .function (F.fillFunction w ρ k f) :=
    fun ρ hρ => fill_function ha hρ occurs
  refine settles_assign ahead (fun one ρ hρ => ha.fill_eq hρ _ (one ▸ hs)) ?_
  refine settles_assignTy ahead (fun _ h => nomatch h) (fun ρ hρ v h => ?_) rfl fun _ => ?_
  · rw [filled ρ hρ] at h
    cases h
  · unfold assignProper
    simp only [loose, Bool.false_eq_true, if_false]
    have called : F.Settles σ l (((ParamGroups.ofList f.params).positional ++
          (ParamGroups.ofList f.params).keywordOnly).flatMap found ++ ret)
        (assignToCallable w (judge w n) m (.function f) s)
        fun ρ => assignToCallable w (judge w n) m (.function (F.fillFunction w ρ k f)) s := by
      refine Settles.after (fun _ => exec_calledType hw calls _ hs _)
        (fun _ _ _ => exec_calledType hw calls _ hs _) ?_
      cases s with
      | function g =>
        exact settles_assignFunction ih ahead params args kwargs settled returned whole once hs hr
      | overloaded => cases single
      | _ => exact Settles.of_declines (declines_mismatch _ _ _)
    cases s with
    | union us => cases single
    | var u =>
      obtain ⟨has, regular, whole'⟩ := boundOf_regular hw hs hr
      have settled := up occurs once has regular
        fun branches => by rw [whole'] at branches; cases branches
      simp only [compare_ahead _ ahead] at settled
      exact settled
    | _ =>
      refine called.imp fun ρ hρ accepts => ?_
      rw [filled ρ hρ]
      exact accepts

end

/-! ## Any number of levels -/

section

variable (hw : F.Covers w) (hf : F.wide) (ha : F.Apart w σ)
include hw hf ha

private theorem settles_ground (n k : Nat) {m : Mode} {d s : Ty} (hd : F.Has d) (hs : F.Has s) :
    F.Settles σ l occs ((judge w n).compare m (some d) (some s))
      fun ρ => (judge w n).compare m (some (F.fill w ρ k d)) (some s) := by
  have follows := fun {d s : Ty} (hd : F.Has d) (hs : F.Has s) =>
    (follows_itself hw n).assign (Regime.modes_refl .idle m) (hasOption_some hd) (hasOption_some hs)
  have agrees : F.beside.Agrees .idle ((judge w n).compare m (some d) (some s))
      ((judge w n).compare m (some d) (some s)) := by
    unfold Judge.compare
    split
    · exact follows hs hd
    · exact follows hd hs
  refine ((Settles.of_agrees hf ha agrees).mono fun _ ho => nomatch ho).imp fun ρ hρ accepts => ?_
  rw [ha.fill_eq hρ k hd]
  exact accepts

private theorem settledAt (hk : F.RegularIn w K) {n k : Nat} (fewer : n ≤ k)
    (bounded : k ≤ Ty.levels) :
    F.SettledAt w K σ l n k := by
  induction n generalizing k with
  | zero =>
    intro m d s occs _ _ _ _ _
    have cut : ∀ a b, (judge w 0).compare m a b = cutOff := fun a b => ite_self cutOff
    simp only [cut]
    refine Settles.still (fun hs he => ?_) fun _ _ => Accepts.cutOff
    cases he
    exact ⟨hs.inference, hs.pending, hs.solving, hs.scopes, hs.has⟩
  | succ n ih =>
    intro m d s occs occurs once hs hr branching
    obtain ⟨k, rfl⟩ : ∃ k', k = k' + 1 := ⟨k - 1, by omega⟩
    have below : F.SettledAt w K σ l n k := ih (by omega) (by omega)
    have up : F.SettledAt w K σ l n (k + 1) := ih (by omega) bounded
    by_cases hd : F.Has d
    · exact settles_ground hw hf ha (n + 1) (k + 1) hd hs
    · have single : s.branches = true → ∃ v, d = .var v := fun h => (branching h).resolve_left hd
      cases occurs with
      | ground h => exact absurd h hd
      | var solved open_ bound exact => exact settles_var hw hf ha n k solved open_ bound exact hs hr
      | arguments ahead loose given nominal enough each whole =>
        exact settles_arguments hw hk ha below up ahead loose given nominal enough each whole once hs
          hr (Bool.eq_false_iff.2 fun h => nomatch single h)
      | places ahead strict given each whole =>
        exact settles_places ha below (by omega) ahead strict given each whole once hs hr
      | function ahead loose params args kwargs settled returned whole calls =>
        exact settles_function below ahead params args kwargs settled returned whole once hw ha up
          loose calls hs hr (Bool.eq_false_iff.2 fun h => nomatch single h)

end

private theorem substitute_eq_fill (ha : F.Apart w σ) {ρ : Solution} (hρ : ρ.scopes = σ.scopes)
    {m : Mode}
    {t : Ty} (h : F.Occurs w K σ m t occs) :
    (t.substitute w.classes ρ false).run F.inf = (F.fill w ρ Ty.levels t, F.inf) := by
  unfold Ty.substitute
  rw [Bool.not_false, Bool.and_true]
  split
  · rename_i empty
    rw [fill_of_empty ha hρ (List.isEmpty_iff.1 empty) _ h]
    rfl
  · exact (h.steady ha hρ Ty.levels).eq.1

end Fragment

/-! ## Comparisons that are started on their own -/

section

variable {F : Fragment} {w : World} {K : Kinds} {σ : Solution} {occs : List Occurrence}

/-- The types that a comparison finds may be put in the places of the variables of its destination:
where nothing is solved for, the source is still accepted. -/
theorem found_types_fit (hw : F.Covers w) (hf : F.wide) (hk : F.RegularIn w K) (ha : F.Apart w σ)
    (blank : σ.entries = []) {dest source : Ty} (occurs : F.Occurs w K σ .default dest occs)
    (once : FoundOnce occs) (hs : F.Has source) (hr : Regular w K source)
    (whole : source.branches = true → F.Whole dest) {s t : CheckState}
    (inference : s.inference = F.inf) (solving : s.solving = some σ)
    (he : exec ((judgeAt w 0).assign .default (some dest) (some source)) s = (.ok true, t)) :
    ∃ ρ dest', t.solving = some ρ ∧
      (dest.substitute w.classes ρ false).run t.inference = (dest', t.inference) ∧
      ∀ s' : CheckState, s'.inference = t.inference → s'.pending = t.pending → s'.solving = none →
        ∃ t', exec ((judgeAt w 0).assign .default (some dest') (some source)) s' =
          (.ok true, t') := by
  have settled := Fragment.settledAt (l := s.pending) hw hf ha hk (Nat.le_refl Ty.levels)
    (Nat.le_refl _) occurs once hs hr whole
  have seeks : F.Seeks σ s.pending s σ :=
    ⟨inference, rfl, solving, rfl, Fragment.hasSolution_of_entries blank⟩
  have fresh : Fragment.Fresh σ occs σ := fun v _ _ _ _ _ => by simp [Solution.get?, blank]
  obtain ⟨ρ, found, -, accepts⟩ := settled.run seeks fresh he
  refine ⟨ρ, F.fill w ρ Ty.levels dest, found.solving, ?_, fun s' inf pending none => ?_⟩
  · rw [found.inference]
    exact Fragment.substitute_eq_fill ha found.scopes occurs
  · have rests : F.Rests s.pending s' :=
      ⟨inf.trans found.inference, pending.trans found.pending, none⟩
    obtain ⟨t', accepted, -⟩ := accepts ρ ⟨found.scopes, fun _ _ _ h => h⟩ s' rests
    exact ⟨t', accepted⟩

end

namespace Sample

def boxDecls : List ClassDecl :=
  [object, classOf "A" [], generic .invariant (classOf "Box" [])]

def boxWorld : World := ofDecls boxDecls

def content : TypeVar := parameter .invariant "Box"

/-- Every class may be mentioned, and the parameter of the generic one. -/
def boxTypes : Fragment where
  inf := .start
  wide := True
  ids _ := True
  vars v := v = content

structure Bare (d : ClassDecl) : Prop where
  params : d.params = [] ∨ d.params = [content] ∧ d.scope = "Box"
  metaclass : d.metaclass = none
  accessors : ∀ a : Accessor, a.of d = none
  mro : d.mro = []
  members : d.members.entries = []

private theorem bare_boxes (id : ClassId) : Bare (boxWorld.classes.decl id) := by
  rw [boxWorld, decl_ofDecls]
  match id with
  | 2 => exact ⟨.inr ⟨rfl, rfl⟩, rfl, fun a => by cases a <;> rfl, rfl, rfl⟩
  | 0 | 1 | n + 3 => exact ⟨.inl rfl, rfl, fun a => by cases a <;> rfl, rfl, rfl⟩

private theorem has_content : boxTypes.Has (.var content) := .var rfl fun _ h => nomatch h

private theorem hasClass_boxes {c : ClassTy} (h : ∀ t ∈ c.argList, boxTypes.HasOption t) :
    boxTypes.HasClass c := .cls trivial (.inl trivial) h

private theorem covers_boxes : boxTypes.Covers boxWorld where
  params {id} _ v hv := by
    rcases (bare_boxes id).params with none | ⟨one, -⟩
    · rw [none] at hv
      cases hv
    · rw [one] at hv
      exact ⟨trivial, List.mem_singleton.1 hv ▸ has_content⟩
  apart := .inl trivial
  object := trivial
  typedDict := hasClass_boxes fun _ h => nomatch h
  mro {id} _ c hc := by
    rw [(bare_boxes id).mro] at hc
    cases hc
  metaclass {c} _ m hm := by
    rw [ClassTable.metaclass?, (bare_boxes c.id).metaclass] at hm
    cases hm
  accessors {id} _ a f hf := by
    rw [(bare_boxes id).accessors a] at hf
    cases hf
  members {id} _ e he := by
    rw [(bare_boxes id).members] at he
    cases he
  modules table e he := nomatch he

def plainKinds : Kinds := ⟨False, False⟩

private theorem regularIn_boxes : boxTypes.RegularIn boxWorld plainKinds where
  params {id} _ v hv := by
    rcases (bare_boxes id).params with none | ⟨one, -⟩
    · rw [none] at hv
      cases hv
    · rw [one] at hv
      cases List.mem_singleton.1 hv
      exact .var (fun _ h => nomatch h) fun _ h => nomatch h
  mro {id} _ c hc := by
    rw [(bare_boxes id).mro] at hc
    cases hc
  metaclass {c} _ m hm := by
    rw [ClassTable.metaclass?, (bare_boxes c.id).metaclass] at hm
    cases hm

/-- A variable of a scope of its own. -/
def wanted : TypeVar := parameter .invariant "S"

private theorem apart_boxes : boxTypes.Apart boxWorld (.forScope "S") where
  idle := by
    rintro v rfl
    rfl
  keys := by
    rintro u solved v rfl same
    have scope : u.scope = "S" := by
      simp only [Solution.solves, Solution.forScope, Bool.and_eq_true] at solved
      exact List.mem_singleton.1 (List.contains_iff_mem.1 solved.2)
    rw [TypeVar.key, TypeVar.key, scope, show content.scope = "Box" from rfl] at same
    have last := congrArg (fun key : String => key.toList.getLast?) same
    simp at last
  classes {id} _ := by
    rcases (bare_boxes id).params with none | ⟨-, box⟩
    · exact .inl none
    · exact .inr (by rw [box]; rfl)

def mapping (t u : Ty) : FunctionTy :=
  ⟨"f", [⟨.simple, "__a", some t, false⟩], .declared u, .staticMethod, ""⟩

/-- A function that puts a value into a box. -/
def boxing (t : Ty) : FunctionTy := mapping t (.cls (viewOf 2 t).toInstance)

/-- The comparison of a type with one in which a type is to be found for the variable. -/
def seek (dest source : Ty) : Except InferenceError Bool × CheckState :=
  exec ((judgeAt boxWorld 0).assign .default (some dest) (some source))
    ⟨.start, #[], [], [], some (.forScope "S"), none, []⟩

private theorem has_boxing {t : Ty} (h : boxTypes.Has t) : boxTypes.Has (.function (boxing t)) := by
  refine .function (fun p hp u hu => ?_) (fun u hu => ?_) fun _ _ h => nomatch h
  · cases List.mem_singleton.1 hp
    cases hu
    exact h
  · cases hu
    refine hasClass_boxes fun o ho => ?_
    rw [List.mem_singleton.1 ho]
    exact Fragment.hasOption_some h

private theorem regular_boxing {t : Ty} (h : Regular boxWorld plainKinds t) :
    Regular boxWorld plainKinds (.function (boxing t)) := by
  refine .function (fun p hp u hu => ?_) (fun u hu => ?_) ⟨List.nodup_nil, fun _ h => nomatch h⟩
  · cases List.mem_singleton.1 hp
    cases hu
    exact h
  · cases hu
    refine .cls (fun o ho u hu => ?_) (Nat.le_refl 1) (.inl rfl)
    cases List.mem_singleton.1 ho
    cases hu
    exact h

private theorem occurs_boxing : boxTypes.Occurs boxWorld plainKinds (.forScope "S") .default
    (.function (boxing (.var wanted))) [⟨wanted.key, true⟩, ⟨wanted.key, false⟩] := by
  have occurs : ∀ {m : Mode}, boxTypes.Occurs boxWorld plainKinds (.forScope "S") m
      (.var wanted) [⟨wanted.key, m.reverse || !m.invariant⟩] :=
    .var rfl rfl (fun _ h => nomatch h) fun _ => .inr id
  have box : boxTypes.Occurs boxWorld plainKinds (.forScope "S") Mode.default.forReturn
      (.cls (viewOf 2 (.var wanted)).toInstance)
      ((List.range [some (Ty.var wanted)].length).flatMap fun _ => [⟨wanted.key, false⟩]) := by
    refine .arguments rfl rfl rfl rfl (Nat.le_refl 1) (fun i t ht => ?_) fun h => h.elim
    match i with
    | 0 =>
      cases ht
      exact occurs
    | i + 1 => cases ht
  have taken : ∀ p ∈ (boxing (.var wanted)).params,
      boxTypes.Occurs boxWorld plainKinds (.forScope "S") Mode.default.forParams
        p.typeOrUnknown [⟨wanted.key, true⟩] := by
    intro p hp
    cases List.mem_singleton.1 hp
    exact occurs
  have function := Fragment.Occurs.function rfl rfl taken (fun _ h => nomatch h)
    (fun _ h => nomatch h) (fun _ _ h => nomatch h) box (fun h => h.elim) fun id _ => by
      rw [MemberTable.find?, (bare_boxes id).members]
      rfl
  exact function

end Sample

-- a variable for which another type may be found later: the parameter does not fit any more
example :
    let dest := Ty.function (Sample.mapping (.var Sample.wanted) (.var Sample.wanted))
    let source := Ty.function (Sample.mapping (Sample.instanceOf 1) (Sample.instanceOf 0))
    let found := (Sample.seek dest source).2.solving.getD .empty
    let filled := (dest.substitute Sample.boxWorld.classes found false).run .start
    (Sample.seek dest source).1.toOption = some true ∧
      (exec ((judgeAt Sample.boxWorld 0).assign .default (some filled.1) (some source))
        ⟨.start, #[], [], [], none, none, []⟩).1.toOption = some false := by
  decide +kernel

/-- The type of a parameter is found, and demanded as the content of a box. -/
theorem found_type_of_box :
    ∃ t ρ dest',
      Sample.seek (.function (Sample.boxing (.var Sample.wanted)))
        (.function (Sample.boxing (Sample.instanceOf 1))) = (.ok true, t) ∧
      t.solving = some ρ ∧
      ((Ty.function (Sample.boxing (.var Sample.wanted))).substitute
        Sample.boxWorld.classes ρ false).run t.inference = (dest', t.inference) ∧
      ∀ s' : CheckState, s'.inference = t.inference → s'.pending = t.pending → s'.solving = none →
        ∃ t', exec ((judgeAt Sample.boxWorld 0).assign .default (some dest')
          (some (.function (Sample.boxing (Sample.instanceOf 1))))) s' = (.ok true, t') := by
  have accepted : (Sample.seek (.function (Sample.boxing (.var Sample.wanted)))
      (.function (Sample.boxing (Sample.instanceOf 1)))).1.toOption = some true := by
    decide +kernel
  have has : Sample.boxTypes.Has (Sample.instanceOf 1) :=
    Sample.hasClass_boxes fun _ h => nomatch h
  have regular : Regular Sample.boxWorld Sample.plainKinds (Sample.instanceOf 1) :=
    .cls (fun _ h => nomatch h) (Nat.zero_le _) (.inl rfl)
  have once : FoundOnce [⟨Sample.wanted.key, true⟩, ⟨Sample.wanted.key, false⟩] := by
    simp [FoundOnce]
  generalize he : Sample.seek _ _ = e at accepted
  obtain ⟨answer, t⟩ := e
  cases answer with
  | error => cases accepted
  | ok b =>
    cases accepted
    obtain ⟨ρ, dest', found, filled, works⟩ := found_types_fit Sample.covers_boxes trivial
      Sample.regularIn_boxes Sample.apart_boxes rfl Sample.occurs_boxing once
      (Sample.has_boxing has) (Sample.regular_boxing regular) (fun h => nomatch h) rfl rfl he
    exact ⟨t, ρ, dest', rfl, found, filled, works⟩

end Conformance
