import Conformance.Proofs.Layers

/-!
# Specialization along a chain of bases

A session that is built up in layers keeps with each class what its base brings along. So the
ancestors of a view of a class with one base are those of the base as it is seen through the view. They
coincide; that they are the same can fail, since a union may collapse before the type arguments of
the view are put in or after that.
-/

namespace Conformance


/-! ## Sessions -/

namespace Session

private theorem layered_start : Session.start.catalog.Layered (Builtin.all.map ClassTy.id) := by
  have facts : Session.start.classes.size = 11 ∧ Session.start.catalog.nextScope = 11 ∧
      ∀ id < 11,
        let d := Session.start.classes.decl id
        d.scope = Catalog.scopeName d.fullName id ∧ d.params.isEmpty = true ∧
          (∀ a ∈ d.bases ++ d.mro, a.IsBare) ∧
          ∀ b ∈ Ancestor.ids d.bases, Ancestor.ids d.bases = [b] →
            Ancestor.ids d.mro = b :: Ancestor.ids (Session.start.classes.decl b).mro := by
    decide +kernel
  obtain ⟨size, next, each⟩ := facts
  have all : Builtin.all.map ClassTy.id = List.range Session.start.classes.size := by
    rw [size]
    rfl
  rw [← size] at each
  rw [all]
  exact Catalog.layered_of_bare (all ▸ ancestral_start) (next.trans size.symm)
    (fun id hid => (each id hid).1) (fun id hid => (each id hid).2.1)
    (fun id hid => (each id hid).2.2.1) fun id hid => (each id hid).2.2.2

variable {s t : Session} {fixed : List ClassId}

theorem Aside.beside (step : Aside s t) : s.catalog.Beside t.catalog := by
  cases step with
  | asked asked => exact asked.catalog ▸ .refl _
  | addClass name flags moduleName => exact Catalog.beside_addClass _ name flags moduleName
  | functionScope name =>
    have refl := Catalog.Beside.refl s.catalog
    exact { refl with
      next := Nat.le_succ _
      fresh := fun id hid new => absurd hid (Nat.not_lt_of_le new) }
  | addParam c name variance bound =>
    refine Catalog.beside_modify _ c (fun _ => rfl) (fun _ => rfl) (fun _ => rfl) fun v hv => ?_
    refine (List.mem_append.1 hv).imp_right fun here => ?_
    rw [List.mem_singleton.1 here]
    rfl
  | addParamSpec c name =>
    refine Catalog.beside_modify _ c (fun _ => rfl) (fun _ => rfl) (fun _ => rfl) fun v hv => ?_
    refine (List.mem_append.1 hv).imp_right fun here => ?_
    rw [List.mem_singleton.1 here]
    rfl
  | addMember c name m =>
    rw [catalog_addMember]
    unfold Catalog.addMember?
    cases (s.catalog.classes.decl c.id).members.insert? name m with
    | none => exact .refl _
    | some members =>
      exact Catalog.beside_modify _ c (fun _ => rfl) (fun _ => rfl) (fun _ => rfl) fun v => .inl
  | addModule => exact .refl _
  | addModuleMember table name m =>
    unfold Session.addModuleMember
    simp only [StateT.run_bind, StateT.run_get, pure_bind]
    split <;> exact .refl _
  | setOptions => exact .refl _

/-- A session in which each class is given its bases once, and after the classes that these mention,
apart from itself. From then on it is given no more parameters. The list has the classes that were
given their bases. -/
inductive Layered : List ClassId → Session → Prop
  | start : Layered (Builtin.all.map ClassTy.id) .start
  | aside {fixed : List ClassId} {s t : Session} (h : Layered fixed s) (step : Aside s t)
      (params : ∀ id ∈ fixed, (t.classes.decl id).params = (s.classes.decl id).params) :
      Layered fixed t
  | finalizeClass {fixed : List ClassId} {s : Session} (h : Layered fixed s) (c : ClassTy)
      (bases : List (Option Ty)) (metaclass : Option Ty) (declared : c.id < s.classes.size)
      (fresh : c.id ∉ fixed) (writes : s.catalog.Writes (c.id :: fixed) fixed bases) :
      Layered (c.id :: fixed) ((finalizeClass c bases metaclass).run s).2
  | setBases {fixed : List ClassId} {s : Session} (h : Layered fixed s) (c : ClassTy)
      (bases : List (Option Ty)) (declared : c.id < s.classes.size) (fresh : c.id ∉ fixed)
      (writes : s.catalog.Writes (c.id :: fixed) fixed bases) :
      Layered (c.id :: fixed) ((setBases c bases).run s).2
  | declareClass {fixed : List ClassId} {s : Session} (h : Layered fixed s) (name : String)
      (bases : List (Option Ty)) (writes : s.catalog.Writes fixed fixed bases) :
      Layered (s.classes.size :: fixed) ((declareClass name bases).run s).2
  | declareProtocol {fixed : List ClassId} {s : Session} (h : Layered fixed s) (name : String)
      (bases : List (Option Ty)) (writes : s.catalog.Writes fixed fixed bases) :
      Layered (s.classes.size :: fixed) ((declareProtocol name bases).run s).2
  | declareProperty {fixed : List ClassId} {s : Session} (h : Layered fixed s)
      (getter setter deleter : Option FunctionTy) :
      Layered (s.classes.size :: fixed) ((declareProperty getter setter deleter).run s).2
  /-- The class that takes the place of other parameters may be declared on the way. -/
  | checkVariance {fixed : List ClassId} {s t : Session} (h : Layered fixed s) (protocol : ClassTy)
      (l : Location) (left : ((ExceptT.run (checkVariance protocol l)).run s).2 = t) :
      Layered (List.range' s.classes.size (t.classes.size - s.classes.size) ++ fixed) t

/-- However a session was built up in layers, its catalog is layered. -/
theorem Layered.catalog (h : Layered fixed s) :
    s.catalog.Layered fixed ∧ ∀ id ∈ Builtin.all.map ClassTy.id, id ∈ fixed := by
  induction h with
  | start => exact ⟨layered_start, fun id hid => hid⟩
  | aside h step params ih => exact ⟨ih.1.beside step.beside params, ih.2⟩
  | @finalizeClass fixed s h c bases metaclass declared fresh writes ih =>
    obtain ⟨layered, rooted⟩ := ih
    refine ⟨?_, fun id hid => List.mem_cons_of_mem _ (rooted id hid)⟩
    rw [catalog_finalizeClass]
    exact Catalog.layered_finalize layered (rooted 0 (by decide)) declared fresh writes _ _
  | @setBases fixed s h c bases declared fresh writes ih =>
    obtain ⟨layered, rooted⟩ := ih
    refine ⟨?_, fun id hid => List.mem_cons_of_mem _ (rooted id hid)⟩
    rw [catalog_setBases]
    exact Catalog.layered_setBases layered fresh writes declared _
  | @declareClass fixed s h name bases writes ih =>
    obtain ⟨layered, rooted⟩ := ih
    refine ⟨?_, fun id hid => List.mem_cons_of_mem _ (rooted id hid)⟩
    rw [Session.declareClass, catalog_declaring]
    exact Catalog.layered_declareClass layered (rooted 0 (by decide)) name .none writes _
  | @declareProtocol fixed s h name bases writes ih =>
    obtain ⟨layered, rooted⟩ := ih
    refine ⟨?_, fun id hid => List.mem_cons_of_mem _ (rooted id hid)⟩
    rw [Session.declareProtocol, catalog_declaring]
    refine Catalog.layered_declareClass layered (rooted 0 (by decide)) name _ (fun t ht => ?_) _
    rcases List.mem_append.1 ht with ht | ht
    · exact writes t ht
    · exact Catalog.writes_of_objects (List.forall_mem_singleton.2 (rooted 7 (by decide))) t ht
  | @declareProperty fixed s h getter setter deleter ih =>
    obtain ⟨layered, rooted⟩ := ih
    refine ⟨?_, fun id hid => List.mem_cons_of_mem _ (rooted id hid)⟩
    rw [Session.declareProperty, catalog_declaring]
    have writes : s.catalog.Writes fixed fixed [some (.cls Builtin.property)] :=
      Catalog.writes_of_objects (List.forall_mem_singleton.2 (rooted 6 (by decide)))
    have declared := Catalog.layered_declareClass layered (rooted 0 (by decide)) "property"
      { ClassFlags.none with property := true } writes s.inference
    unfold Catalog.declareProperty
    generalize s.catalog.declareClass "property" { ClassFlags.none with property := true }
      [some (.cls Builtin.property)] = act at declared ⊢
    exact Catalog.Layered.modify declared _ (fun _ => rfl) (fun _ => rfl) (fun _ => rfl) fun _ => rfl
  | @checkVariance fixed s t h protocol l left ih =>
    obtain ⟨layered, rooted⟩ := ih
    refine ⟨?_, fun id hid => List.mem_append_right _ (rooted id hid)⟩
    rcases left ▸ catalog_checkVariance protocol l s with same | ⟨-, inf, declared⟩
    · have nothing : t.classes.size - s.classes.size = 0 := by
        rw [Session.classes, same]
        exact Nat.sub_self _
      rw [nothing, same]
      exact layered
    · have one : t.classes.size - s.classes.size = 1 := by
        have declaredObject : 0 < s.catalog.classes.size :=
          layered.declared 0 (rooted 0 (by decide))
        have sizes := (Catalog.bases_declareClass declaredObject "__varianceDummy" .none inf).1
        rw [← declared] at sizes
        exact Nat.sub_eq_of_eq_add' sizes
      have nothing : s.catalog.Writes fixed fixed [] := fun _ ht => absurd ht List.not_mem_nil
      rw [one, declared]
      exact Catalog.layered_declareClass layered (rooted 0 (by decide)) _ _ nothing _

/-! ## Declaring generic classes -/

def addParams (c : ClassTy) (names : List String) (s : Session) : Session :=
  names.foldl (fun s name => ((addParam c name .invariant none).run s).2) s

/-- Declares a class with its parameters and its bases. -/
def declareGeneric (name : String) (params : List String) (bases : List (Option Ty))
    (s : Session) : Session :=
  let c := ClassTy.ofId s.classes.size
  ((finalizeClass c bases none).run (addParams c params ((addClass name .none "").run s).2)).2

private theorem layered_addParams (h : Layered fixed s) {c : ClassTy} (fresh : c.id ∉ fixed)
    (names : List String) : Layered fixed (addParams c names s) := by
  induction names generalizing s with
  | nil => exact h
  | cons name names ih =>
    refine ih (h.aside (.addParam c name .invariant none s) fun id hid => ?_)
    have other : c.id ≠ id := by
      rintro rfl
      exact fresh hid
    exact congrArg ClassDecl.params
      ((ClassTable.decl_modify ..).trans (if_neg fun here => other here.1))

private theorem params_addParams {c : ClassTy} (declared : c.id < s.classes.size)
    (names : List String) :
    let t := addParams c names s
    t.classes.size = s.classes.size ∧
      (t.classes.decl c.id).params = (s.classes.decl c.id).params ++
        names.map fun name => .make name (s.classes.decl c.id).scope .invariant none := by
  induction names generalizing s with
  | nil => exact ⟨rfl, (List.append_nil _).symm⟩
  | cons name names ih =>
    let t := ((addParam c name .invariant none).run s).2
    have size : t.classes.size = s.classes.size := ClassTable.size_modify ..
    have here : t.classes.decl c.id = { s.classes.decl c.id with
        params := (s.classes.decl c.id).params ++
          [.make name (s.classes.decl c.id).scope .invariant none] } :=
      (ClassTable.decl_modify ..).trans (if_pos ⟨rfl, declared⟩)
    obtain ⟨sizes, params⟩ := ih (s := t) (size.symm ▸ declared)
    refine ⟨sizes.trans size, params.trans ?_⟩
    rw [here]
    exact List.append_assoc ..

private theorem size_addClass (name : String) (s : Session) :
    ((addClass name .none "").run s).2.classes.size = s.classes.size + 1 :=
  ClassTable.size_push ..

private theorem declared_addParams (name : String) (params : List String) (s : Session) :
    let c := ClassTy.ofId s.classes.size
    c.id < (addParams c params ((addClass name .none "").run s).2).classes.size := by
  intro c
  have declared : c.id < ((addClass name .none "").run s).2.classes.size :=
    size_addClass name s ▸ Nat.lt_succ_self _
  exact (params_addParams declared params).1 ▸ declared

private theorem layered_declareGeneric (h : Layered fixed s) (name : String) (params : List String)
    (bases : List (Option Ty)) {n : Nat}
    (counts : s.classes.size = n ∧ s.catalog.nextScope = n)
    (given : ∀ b, some (.cls b) ∈ bases → b.isInstance = false → b.id ∈ fixed)
    (made : ∀ V : Vocabulary, (∀ c, c.id ∈ n :: fixed → V.classes c) →
      (∀ p ∈ params, V.vars (.make p (Catalog.scopeName name n) .invariant none)) →
      (∀ t, V.vague t) → ∀ t, some t ∈ bases → t.Over V) :
    Layered (n :: fixed) (declareGeneric name params bases s) := by
  obtain ⟨rfl, next⟩ := counts
  let c := ClassTy.ofId s.classes.size
  let added := ((addClass name .none "").run s).2
  have fresh : c.id ∉ fixed := fun here => Nat.lt_irrefl _ (h.catalog.1.declared _ here)
  have old : Layered fixed added := h.aside (.addClass name .none "" s) fun id hid =>
    congrArg ClassDecl.params ((ClassTable.decl_push ..).trans
      (if_neg (Nat.ne_of_lt (h.catalog.1.declared id hid))))
  have declared : c.id < added.classes.size := size_addClass name s ▸ Nat.lt_succ_self _
  have new : added.classes.decl c.id =
      .fresh name name (Catalog.scopeName name s.classes.size) .none :=
    (ClassTable.decl_push ..).trans ((if_pos rfl).trans (next ▸ rfl))
  have list := (params_addParams declared params).2
  have here := declared_addParams name params s
  have ready := layered_addParams old fresh params
  rw [new] at list
  refine ready.finalizeClass c bases none here fresh fun t ht => ⟨?_, ?_⟩
  · refine made _ (fun _ here => here) (fun p hp => ?_) (fun _ => trivial) t ht
    refine Catalog.vars_of_mem_params (c := c) ready.catalog.1.numbered ?_ List.mem_cons_self _ ?_
    · exact List.forall_mem_cons.2 ⟨here, ready.catalog.1.declared⟩
    · exact list ▸ List.mem_append_right _ (List.mem_map_of_mem hp)
  · rintro b rfl object
    exact given b ht object

private theorem bases_declareGeneric (name : String) (params : List String) {base : ClassTy}
    (object : base.isInstance = false) (s : Session) :
    ((declareGeneric name params [some (.cls base)] s).classes.decl s.classes.size).bases =
      [.resolved base] := by
  unfold declareGeneric Session.classes
  rw [catalog_finalizeClass]
  exact Catalog.bases_finalize (declared_addParams name params s) object none _

/-! ## Two ways to specialize the ancestors of a class -/

private theorem coincides_of_tallies {o o' : Option Ty} (tallies : Option.Rel Ty.Tallies o o') :
    Option.Rel Ty.Coincides o o' := by
  cases tallies with
  | none => exact .none
  | some h => exact .some h.coincides

private theorem same_of_tallies {arity : ClassId → Nat} {only : Ty} {o o' : Option Ty}
    (tallies : Option.Rel Ty.Tallies o o') (made : ∀ t, o = some t → t.Over (.single arity only))
    (over' : ∀ t, o' = some t → t.Over (.single arity only)) (inf : Inference) :
    Option.Rel (fun t u => t.same inf u = true) o o' := by
  cases tallies with
  | none => exact .none
  | @some t u h =>
    have same := coincideSame (Nat.le_refl _) t u (made t rfl) (over' u rfl) h.left h.right _
      (Nat.lt_succ_self _) (h.coincides _)
    exact .some (((made t rfl).same_eq (over' u rfl) inf .start).trans same)

/-- The ancestors of a view of a class with one base are those of the base as it is seen through the
view: they coincide, and they are the same where only one of the two types of anything is mentioned.
The class is mentioned in its base with type arguments throughout, or else with arguments that are not
all unknown where it has any; and all types are nested within the levels that are looked at. -/
theorem specialization_composes (h : Layered fixed s) {view base : ClassTy}
    (single : (s.classes.decl view.id).bases = [.resolved base])
    (special : view.args.isSome = true) (settled : (Ty.cls view).Over .all)
    (mentions : (Ty.cls base).Over (.given view.id) ∨ (Ty.cls base).Over (.known view.id))
    (nests : (Ty.cls base).Nests s.classes [.ofClass s.classes view] Ty.levels)
    (nestsEach : ∀ a ∈ (s.classes.decl base.id).mro, ∀ t, a.toTy = some t →
      t.Nests s.classes (solutionsThrough s.classes base view) Ty.levels) (inf : Inference) :
    let seen := view.specializeBase s.classes base inf
    let ancestors := (s.classes.lineage view inf).1.tail
    let composed := (s.classes.lineage seen.1 seen.2).1
    List.Forall₂ (fun a b => Option.Rel Ty.Coincides a.toTy b.toTy) ancestors composed ∧
      ∀ (arity : ClassId → Nat) (only : Ty),
        (∀ a ∈ ancestors ++ composed, ∀ t, a.toTy = some t → t.Over (.single arity only)) →
          List.Forall₂ (fun a b => Option.Rel (fun t u => t.same inf u = true) a.toTy b.toTy)
            ancestors composed := by
  obtain ⟨layered, -⟩ := h.catalog
  have descends : s.classes.Descends view.id base := layered.descends view.id base single
  have scopes : s.classes.DistinctScopes := layered.numbered.distinct
  have overMro : ∀ id c, .resolved c ∈ (s.classes.decl id).mro → (Ty.cls c).Over .all :=
    fun id c hc => (layered.entries id _ hc _ rfl).all
  have overBase : (Ty.cls base).Over .all := mentions.elim Ty.Over.all Ty.Over.all
  have overSeen : (Ty.cls (base.through s.classes view)).Over .all := by
    rw [ClassTy.cls_through special]
    exact overBase.fillAt (finds_ofClass settled trivial) _
  have tallies : List.Forall₂ Ancestor.Tallies
      ((s.classes.decl view.id).mro.map fun a => a.through s.classes view)
      (.resolved (base.through s.classes view).toClassObject ::
        (s.classes.decl base.id).mro.map fun a =>
          a.through s.classes (base.through s.classes view)) := by
    rcases mentions with given | known
    · exact tallies_lineage scopes layered.numbered.own descends
        (Vocabulary.tolerates_given view.id) rfl special settled given nests nestsEach
    · exact tallies_lineage scopes layered.numbered.own descends
        (Vocabulary.tolerates_known view.id) rfl special settled known nests nestsEach
  dsimp only
  rw [specializeBase_eq scopes special overBase settled descends.other,
    lineage_eq scopes (overMro _) settled, lineage_eq scopes (overMro _) overSeen,
    ClassTy.id_through]
  refine ⟨tallies.imp fun a b h => coincides_of_tallies h, fun arity only made => ?_⟩
  exact forall₂_imp_mem tallies fun a ha b hb h => same_of_tallies h
    (made a (List.mem_append_left _ ha)) (made b (List.mem_append_right _ hb)) inf

def parameter (className : String) (number : Nat) (name : String) : Ty :=
  .var (.make name (Catalog.scopeName className number) .invariant none)

/-- The class object of a class with type arguments. -/
def viewOf (id : ClassId) (args : List Ty) : ClassTy := (ClassTy.ofId id).withArgs (args.map some) true

/-- `E[D[T]]` -/
def nestedBase : ClassTy := viewOf 12 [.cls (viewOf 13 [parameter "D" 13 "T"])]

/-- Classes `Base[X]` and `E[X](Base[X])`. -/
def unary : Session :=
  declareGeneric "E" ["X"] [some (.cls (viewOf 11 [parameter "E" 12 "X"]))]
    (declareGeneric "Base" ["X"] [] start)

/-- These, and `D[T](E[D[T]])`. -/
def nested : Session := declareGeneric "D" ["T"] [some (.cls nestedBase)] unary

private theorem over_viewOf {V : Vocabulary} {id : ClassId} {args : List Ty}
    (here : V.classes (viewOf id args)) (made : ∀ t ∈ args, t.Over V) :
    (Ty.cls (viewOf id args)).Over V := by
  refine .cls here fun o ho t ht => ?_
  obtain ⟨u, hu, rfl⟩ := List.mem_map.1 (show o ∈ args.map some from ho)
  exact Option.some.inj ht ▸ made u hu

private theorem layered_heir (h : Layered fixed s) (name : String) (params : List String)
    (base : ClassTy)
    {n : Nat} (counts : s.classes.size = n ∧ s.catalog.nextScope = n) (given : base.id ∈ fixed)
    (made : ∀ V : Vocabulary, (∀ c, c.id ∈ n :: fixed → V.classes c) →
      (∀ p ∈ params, V.vars (.make p (Catalog.scopeName name n) .invariant none)) →
      (∀ t, V.vague t) → (Ty.cls base).Over V) :
    Layered (n :: fixed) (declareGeneric name params [some (.cls base)] s) := by
  refine layered_declareGeneric h name params _ counts (fun b hb _ => ?_)
    fun V classes vars vague t ht => ?_
  · cases List.mem_singleton.1 hb
    exact given
  · cases List.mem_singleton.1 ht
    exact made V classes vars vague

private theorem layered_base :
    Layered (11 :: Builtin.all.map ClassTy.id) (declareGeneric "Base" ["X"] [] start) :=
  layered_declareGeneric .start _ _ _ (n := 11) (by decide +kernel) nofun nofun

private theorem layered_nested : Layered ([13, 12, 11] ++ Builtin.all.map ClassTy.id) nested := by
  have e := layered_heir layered_base (n := 12) "E" ["X"] (viewOf 11 [parameter "E" 12 "X"])
    (by decide +kernel) (by decide) fun V classes vars _ =>
      over_viewOf (classes _ (by decide)) (List.forall_mem_singleton.2 (.var (vars "X" (by decide))))
  refine layered_heir (s := unary) e "D" ["T"] nestedBase (by decide +kernel) (by decide)
    fun V classes vars _ => ?_
  refine over_viewOf (classes _ (by decide)) (List.forall_mem_singleton.2 ?_)
  refine over_viewOf (classes _ (by decide)) (List.forall_mem_singleton.2 ?_)
  exact .var (vars "T" (by decide))

/-- `D[int]` -/
def nestedView : ClassTy := viewOf 13 [Builtin.instanceOf Builtin.int]

private theorem bases_last {name : String} {params : List String} {base : ClassTy} {n : Nat}
    (object : base.isInstance = false) (size : s.classes.size = n) :
    ((declareGeneric name params [some (.cls base)] s).classes.decl n).bases = [.resolved base] :=
  size ▸ bases_declareGeneric name params object s

/-- A class that mentions itself in its base, two steps below a class with a parameter. -/
theorem specialization_composes_nested :
    let seen := nestedView.specializeBase nested.classes nestedBase nested.inference
    let ancestors := (nested.classes.lineage nestedView nested.inference).1.tail
    let composed := (nested.classes.lineage seen.1 seen.2).1
    (nested.classes.decl 13).bases = [.resolved nestedBase] ∧ ancestors.length = 3 ∧
      List.Forall₂ (fun a b => Option.Rel Ty.Coincides a.toTy b.toTy) ancestors composed ∧
      ∀ (arity : ClassId → Nat) (only : Ty),
        (∀ a ∈ ancestors ++ composed, ∀ t, a.toTy = some t → t.Over (.single arity only)) →
          List.Forall₂ (fun a b => Option.Rel (fun t u => t.same nested.inference u = true)
            a.toTy b.toTy) ancestors composed := by
  have only : (nested.classes.decl 13).bases = [.resolved nestedBase] :=
    @bases_last unary "D" ["T"] nestedBase 13 rfl (by decide +kernel)
  have settled : (Ty.cls nestedView).Over .all := by
    refine over_viewOf trivial (List.forall_mem_singleton.2 ?_)
    exact .cls trivial nofun
  have mentions : (Ty.cls nestedBase).Over (.given 13) := by
    refine over_viewOf nofun (List.forall_mem_singleton.2 ?_)
    exact over_viewOf (fun _ bare => nomatch bare) (List.forall_mem_singleton.2 (.var trivial))
  have deep : (nested.classes.decl nestedBase.id).mro.all (fun a => a.toTy.all fun t =>
      t.nestsWithin nested.classes (solutionsThrough nested.classes nestedBase nestedView)
        Ty.levels) = true := by
    decide +kernel
  have nests : (Ty.cls nestedBase).Nests nested.classes [.ofClass nested.classes nestedView]
      Ty.levels := nests_of_nestsWithin (by decide +kernel)
  have nestsEach : ∀ a ∈ (nested.classes.decl nestedBase.id).mro, ∀ t, a.toTy = some t →
      t.Nests nested.classes (solutionsThrough nested.classes nestedBase nestedView)
        Ty.levels := by
    intro a ha t ht
    have here := List.all_eq_true.1 deep a ha
    rw [ht] at here
    exact nests_of_nestsWithin here
  have composed := @specialization_composes nested _ layered_nested nestedView nestedBase only rfl
    settled (.inl mentions) nests nestsEach nested.inference
  exact ⟨only, by decide +kernel, composed⟩

/-- Classes `Base[X]` and `E[X, Y](Base[X | Y])`. -/
def binary : Session :=
  declareGeneric "E" ["X", "Y"]
    [some (.cls (viewOf 11 [.union [parameter "E" 12 "X", parameter "E" 12 "Y"]]))]
    (declareGeneric "Base" ["X"] [] start)

/-- These, and `D[T]` with the given base. -/
def joining (base : ClassTy) : Session := declareGeneric "D" ["T"] [some (.cls base)] binary

/-- Which of the ancestors of the view are the same as those of the base as seen through the view. -/
def sameness (s : Session) (view base : ClassTy) : List Bool :=
  let seen := view.specializeBase s.classes base s.inference
  List.zipWith (fun a b => sameOption (Ty.same s.inference) a.toTy b.toTy)
    (s.classes.lineage view s.inference).1.tail (s.classes.lineage seen.1 seen.2).1

private theorem layered_joining {base : ClassTy} (given : base.id = 12)
    (made : ∀ V : Vocabulary, (∀ c, c.id ∈ [13, 12, 11] ++ Builtin.all.map ClassTy.id → V.classes c) →
      V.vars (.make "T" (Catalog.scopeName "D" 13) .invariant none) → (∀ t, V.vague t) →
      (Ty.cls base).Over V) :
    Layered ([13, 12, 11] ++ Builtin.all.map ClassTy.id) (joining base) := by
  have e := layered_heir layered_base (n := 12) "E" ["X", "Y"]
    (viewOf 11 [.union [parameter "E" 12 "X", parameter "E" 12 "Y"]]) (by decide +kernel)
    (by decide) fun V classes vars _ => by
      refine over_viewOf (classes _ (by decide)) (List.forall_mem_singleton.2 (.union ?_ ⟨?_, rfl, by decide⟩))
      · exact List.forall_mem_cons.2 ⟨.var (vars "X" (by decide)),
          List.forall_mem_singleton.2 (.var (vars "Y" (by decide)))⟩
      · exact List.forall_mem_cons.2 ⟨⟨rfl, rfl⟩, List.forall_mem_singleton.2 ⟨rfl, rfl⟩⟩
  refine layered_heir (s := binary) e "D" ["T"] base (by decide +kernel) (given ▸ List.mem_cons_self)
    fun V classes vars => ?_
  exact made V classes (vars "T" (by decide))

/-- `E[T, Unknown]`: of the two types of anything the first one is left. -/
def vagueBase : ClassTy := viewOf 12 [parameter "D" 13 "T", .unknown]

/-- `E[D, D[Unknown]]`: the two are the same until `D` gets its own parameter as its argument. -/
def bareBase : ClassTy := viewOf 12 [.cls (.ofId 13), .cls (viewOf 13 [.unknown])]

/-- Which type of anything is left of a union, and whether a class without arguments is told from one
with unknown arguments, depends on when the union is built. -/
theorem specialization_depends_on_order :
    (Layered ([13, 12, 11] ++ Builtin.all.map ClassTy.id) (joining vagueBase) ∧
      ((joining vagueBase).classes.decl 13).bases = [.resolved vagueBase] ∧
      sameness (joining vagueBase) (viewOf 13 [.any]) vagueBase = [true, false, true]) ∧
    Layered ([13, 12, 11] ++ Builtin.all.map ClassTy.id) (joining bareBase) ∧
      ((joining bareBase).classes.decl 13).bases = [.resolved bareBase] ∧
      sameness (joining bareBase) (viewOf 13 [Builtin.instanceOf Builtin.int]) bareBase =
        [true, false, true] := by
  have size : binary.classes.size = 13 := by decide +kernel
  refine ⟨⟨layered_joining rfl fun V classes var vague => ?_,
    @bases_last binary "D" ["T"] vagueBase 13 rfl size, by decide +kernel⟩,
    layered_joining rfl fun V classes var vague => ?_,
    @bases_last binary "D" ["T"] bareBase 13 rfl size, by decide +kernel⟩
  · refine over_viewOf (classes _ (by decide)) (List.forall_mem_cons.2 ⟨.var var, ?_⟩)
    exact List.forall_mem_singleton.2 (.unknown (vague _))
  · refine over_viewOf (classes _ (by decide))
      (List.forall_mem_cons.2 ⟨.cls (classes _ (by decide)) nofun, List.forall_mem_singleton.2 ?_⟩)
    refine over_viewOf (classes _ (by decide)) (List.forall_mem_singleton.2 ?_)
    exact .unknown (vague _)

end Session

end Conformance
