import Conformance.Proofs.Cutting
import Conformance.Proofs.Linearization

/-!
# Inherited conformance

A class that adds nothing to its only base satisfies the protocols that the base satisfies. The two
comparisons do not go step by step: where that of the base takes its own pair to hold, that of the
heir has to make the comparison, further down and with other comparisons in progress.
-/

namespace Conformance

open Check CheckState

variable {inf : Inference} {tables : TableId → Prop} {w : World}

/-! ## Views of a class -/

/-- A class object that is seen without type arguments or with unknown ones. -/
structure ClassTy.ViewOf (c : ClassTy) (id : ClassId) : Prop where
  id : c.id = id
  object : c.isInstance = false
  literal : c.literal = none
  args : ∀ o ∈ c.argList, o = some .unknown

namespace ClassTy.ViewOf

variable {c d : ClassTy} {id : ClassId}

theorem ofId (id : ClassId) : (ClassTy.ofId id).ViewOf id := ⟨rfl, rfl, rfl, fun _ h => nomatch h⟩

theorem generic (h : c.ViewOf id) : c.generic = .ofId id := by
  obtain ⟨i, instances, args, explicit, literal⟩ := c
  obtain ⟨rfl, rfl, rfl, -⟩ := h
  rfl

theorem same (h : c.ViewOf id) (h' : d.ViewOf id) (inf : Inference) :
    (Ty.cls c).same inf (.cls d) = true := by
  have view : c.sameClass d = true := beq_iff_eq.2 (h.id.trans h'.id.symm)
  have objects : c.isInstance = d.isInstance := h.object.trans h'.object.symm
  have literals : c.literal = d.literal := h.literal.trans h'.literal.symm
  change sameClassTy _ c d = true
  simp only [sameClassTy, view, objects, literals, beq_self_eq_true, Bool.true_and]
  refine List.all_eq_true.2 fun p hp => ?_
  obtain ⟨left, right⟩ := forall_mem_padPairs (P := (· = some .unknown)) (Q := (· = some .unknown))
    rfl rfl h.args h'.args p hp
  rw [left, right]
  rfl

/-- What is the same as a class without type arguments is a view of it. -/
theorem of_same (h : (Ty.cls (.ofId id)).same inf (.cls c) = true) : c.ViewOf id := by
  change sameClassTy _ (ClassTy.ofId id) c = true at h
  simp only [sameClassTy, Bool.and_eq_true, beq_iff_eq, ClassTy.sameClass] at h
  obtain ⟨⟨⟨view, object⟩, literal⟩, args⟩ := h
  refine ⟨view.symm, object.symm, literal.symm, fun o ho => ?_⟩
  have padded : padPairs (ClassTy.ofId id).argList c.argList =
      c.argList.map fun o => (some .unknown, o) := rfl
  rw [padded] at args
  have same := List.all_eq_true.1 args _ (List.mem_map_of_mem ho)
  cases o with
  | none => cases same
  | some t =>
    cases t with
    | unknown => rfl
    | _ => cases same

theorem toClassObject_eq (h : c.ViewOf id) : c.toClassObject = c := by
  obtain ⟨i, instances, args, explicit, literal⟩ := c
  obtain ⟨-, rfl, -, -⟩ := h
  rfl

private theorem hasLiteral_eq_false (h : c.ViewOf id) : (Ty.cls c).hasLiteral true = false := by
  change (c.isInstance && c.literal.isSome || true && c.argList.any _) = false
  rw [h.object, Bool.false_and, Bool.false_or, Bool.true_and]
  refine List.any_eq_false.2 fun o ho => ?_
  rw [h.args o ho]
  exact Bool.false_ne_true

end ClassTy.ViewOf

/-! ## The members of heirs -/

/-- The same member was found in views of one class. -/
structure FoundMember.Alike (f g : FoundMember) : Prop where
  member : g.member = f.member
  owner : g.owner.map (·.id) = f.owner.map (·.id)

private theorem FoundMember.alike_refl (r : Option FoundMember) :
    Option.Rel FoundMember.Alike r r := by
  cases r with
  | none => exact .none
  | some f => exact .some ⟨rfl, rfl⟩

namespace ClassTable

variable {classes : ClassTable} {name : String}

private theorem alike_findIn_view {c d : ClassTy} (h : d.id = c.id) (rest : List Ancestor) :
    Option.Rel FoundMember.Alike (classes.findIn name (.resolved c :: rest))
      (classes.findIn name (.resolved d :: rest)) := by
  unfold findIn
  rw [h]
  cases (classes.decl c.id).members.find? name with
  | none => exact FoundMember.alike_refl _
  | some m =>
    have alike : Option.Rel FoundMember.Alike (FoundMember.of? m c) (FoundMember.of? m d) := by
      unfold FoundMember.of?
      split
      · exact .some ⟨rfl, congrArg some h⟩
      · split
        · exact .some ⟨rfl, congrArg some h⟩
        · exact .none
    dsimp only
    revert alike
    generalize FoundMember.of? m c = found
    generalize FoundMember.of? m d = found'
    intro alike
    cases alike with
    | none => exact FoundMember.alike_refl _
    | some same => exact .some same

private theorem findIn_append (as bs : List Ancestor) :
    classes.findIn name (as ++ bs) = (classes.findIn name as).or (classes.findIn name bs) := by
  induction as with
  | nil => rfl
  | cons a as ih =>
    cases a with
    | unresolved t mark => rfl
    | resolved c =>
      rw [List.cons_append, findIn, findIn, ih]
      split
      · rfl
      · split <;> rfl

private theorem findIn_of_seen {as : List Ancestor} {a : Ancestor} (seen : as.any (·.same a) = true)
    (h : classes.findIn name as = none) : classes.findIn name [a] = none := by
  obtain ⟨b, hb, same⟩ := List.any_eq_true.1 seen
  have passed : classes.findIn name [b] = none := by
    obtain ⟨before, after, rfl⟩ := List.append_of_mem hb
    rw [findIn_append, Option.or_eq_none_iff] at h
    rw [← List.singleton_append, findIn_append, Option.or_eq_none_iff] at h
    exact h.2.1
  cases a with
  | unresolved t mark =>
    cases b with
    | unresolved u mark' => cases passed
    | resolved c => cases same
  | resolved d =>
    cases b with
    | unresolved u mark' => cases passed
    | resolved c =>
      have alike : Option.Rel FoundMember.Alike (classes.findIn name [.resolved c])
          (classes.findIn name [.resolved d]) := alike_findIn_view (beq_iff_eq.1 same).symm []
      rw [passed] at alike
      cases h : classes.findIn name [.resolved d] with
      | none => rfl
      | some found =>
        rw [h] at alike
        cases alike

private theorem findIn_appendMissing (found : List Ancestor) (lists : List (List Ancestor)) :
    classes.findIn name (Ancestor.appendMissing found lists) =
      classes.findIn name (found ++ lists.flatten) := by
  unfold Ancestor.appendMissing
  generalize lists.flatten = as
  induction as generalizing found with
  | nil => rw [List.foldl_nil, List.append_nil]
  | cons a as ih =>
    rw [List.foldl_cons, ih]
    split
    · rename_i seen
      rw [findIn_append, findIn_append found, ← List.singleton_append, findIn_append [a]]
      cases h : classes.findIn name found with
      | none => simp [findIn_of_seen seen h]
      | some f => rfl
    · rw [List.append_assoc, List.singleton_append]

private theorem findIn_merge_one (found as : List Ancestor) :
    classes.findIn name (Ancestor.merge found [as, []]).1 = classes.findIn name (found ++ as) := by
  induction as generalizing found with
  | nil =>
    rw [Ancestor.merge_of_empty (by simp), List.append_nil]
  | cons a as ih =>
    cases h : Ancestor.nextHead [a :: as, []] with
    | none =>
      rw [Ancestor.merge]
      split
      · rename_i b hb
        cases h.symm.trans hb
      · rw [findIn_appendMissing]
        simp
    | some b =>
      have first : b = a := by
        have among := List.mem_of_find?_eq_some h
        simpa using among
      subst first
      have left : Ancestor.dropHeads b [b :: as, []] = [as, []] := by
        simp [Ancestor.dropHeads, Ancestor.dropHead, Ancestor.same_self]
      rw [Ancestor.merge_of_nextHead h, left, ih, List.append_assoc, List.singleton_append]

private theorem findIn_merge_base (a : Ancestor) (as : List Ancestor) :
    classes.findIn name (Ancestor.merge [] ([a :: as] ++ [[a]])).1 =
      classes.findIn name (a :: as) := by
  rw [List.singleton_append]
  cases h : Ancestor.nextHead [a :: as, [a]] with
  | none =>
    rw [Ancestor.merge]
    split
    · rename_i b hb
      cases h.symm.trans hb
    · have flat : [] ++ [a :: as, [a]].flatten = (a :: as) ++ [a] := by simp
      rw [findIn_appendMissing, flat, findIn_append]
      cases h : classes.findIn name (a :: as) with
      | some found => rfl
      | none =>
        have seen : (a :: as).any (·.same a) = true :=
          List.any_eq_true.2 ⟨a, List.mem_cons_self, Ancestor.same_self a⟩
        rw [findIn_of_seen seen h]
        rfl
  | some b =>
    have first : b = a := by
      have among := List.mem_of_find?_eq_some h
      simpa using among
    subst first
    have left : Ancestor.dropHeads b [b :: as, [b]] = [as, []] := by
      simp [Ancestor.dropHeads, Ancestor.dropHead, Ancestor.same_self]
    rw [Ancestor.merge_of_nextHead h, left, findIn_merge_one]
    rfl

/-- A class without members of its own that has one base, and the ancestors that this base gives it
now. -/
structure SoleHeir (classes : ClassTable) (inf : Inference) (heir base : ClassId) : Prop where
  members : (classes.decl heir).members.entries = []
  bases : ∃ b : ClassTy, b.id = base ∧ b.isInstance = false ∧
    (classes.decl heir).bases = [.resolved b]
  current : (((classes.linearize heir) inf).1.1.decl heir).mro = (classes.decl heir).mro

private theorem steady_lineage_of_params {F : Fragment} {b : ClassTy}
    (object : b.isInstance = false)
    (h : (classes.decl b.id).params = []) :
    F.Steady (· = .resolved b :: (classes.decl b.id).mro) (classes.lineage b) := by
  have view : b.toClassObject = b := by
    obtain ⟨id, instances, args, explicit, literal⟩ := b
    cases object
    rfl
  unfold lineage
  refine Fragment.steady_bind (Fragment.steady_mapM_eq fun a _ => ?_)
    fun as (has : as = (classes.decl b.id).mro) => Fragment.steady_pure (by rw [has, view])
  cases a with
  | resolved c =>
    dsimp only
    rw [ClassTy.specialize_eq h]
    exact Fragment.steady_pure rfl
  | unresolved t mark => exact Fragment.steady_pure rfl

private theorem steady_linearize_one {F : Fragment} {id : ClassId} (hid : id < classes.size)
    {b : ClassTy}
    (bases : (classes.decl id).bases = [.resolved b]) (object : b.isInstance = false)
    (params : (classes.decl b.id).params = []) (other : id ≠ b.id) :
    F.Steady (fun r => (r.1.decl id).mro = (Ancestor.merge []
      ([.resolved b :: (classes.decl b.id).mro] ++ [[.resolved b]])).1) (classes.linearize id) := by
  unfold linearize
  generalize hc : (classes.modify id fun d => { d with mro := [] }) = cleared
  have kept : cleared.decl b.id = classes.decl b.id := by
    rw [← hc, decl_modify, if_neg fun h => other h.1]
  have own : (cleared.decl id).bases = [.resolved b] := by
    rw [← hc, decl_modify, if_pos ⟨rfl, hid⟩]
    exact bases
  have size : cleared.size = classes.size := by
    rw [← hc, size_modify]
  have lineages : F.Steady (· = [.resolved b :: (classes.decl b.id).mro])
      ((cleared.decl id).bases.mapM cleared.lineageOfBase) := by
    rw [own, List.mapM_cons, List.mapM_nil, ← kept]
    refine Fragment.steady_bind (steady_lineage_of_params object (kept ▸ params))
      fun l (hl : l = _) => Fragment.steady_pure (congrArg (fun l => [l]) hl)
  refine Fragment.steady_bind lineages fun lists (hl : lists = _) => Fragment.steady_pure ?_
  rw [hl, own, decl_modify, if_pos ⟨rfl, size ▸ hid⟩]

end ClassTable

/-! ## Matching heirs -/

/-- The class has the members of another one: it is a view of that or the only heir that is meant. -/
inductive ClassTy.Follows (classes : ClassTable) (inf : Inference) (c : ClassTy) (id : ClassId) : Prop
  | view (h : c.ViewOf id)
  | heir {heir : ClassId} (h : c.ViewOf heir) (inherits : classes.SoleHeir inf heir id)

theorem ClassTy.Follows.viewed {classes : ClassTable} {c : ClassTy} {id : ClassId}
    (h : c.Follows classes inf id) : ∃ heir, c.ViewOf heir := by
  cases h with
  | view h => exact ⟨_, h⟩
  | heir h => exact ⟨_, h⟩

/-- No method of the class or of its ancestors returns its receiver. -/
def World.Selfless (inf : Inference) (tables : TableId → Prop) (w : World) (id : ClassId) : Prop :=
  ∀ c, Ancestor.resolved c ∈ .resolved (.ofId id) :: (w.classes.decl id).mro →
    ∀ e ∈ (w.classes.decl c.id).members.entries, (e.2.effectiveType inf).PlainMember inf tables

private theorem World.Plain.lookup_eq (hw : w.Plain inf tables) (c : ClassTy) (name : String) :
    w.classes.lookup c name =
      pure (w.classes.findIn name (.resolved c.toClassObject :: (w.classes.decl c.id).mro)) := by
  have first : w.classes.findIn name (.resolved c.toClassObject :: (w.classes.decl c.id).mro) =
      (w.classes.findIn name [.resolved c.toClassObject]).or
        (w.classes.findIn name (w.classes.decl c.id).mro) := by
    rw [ClassTable.findIn, ClassTable.findIn]
    split
    · rfl
    · split <;> rfl
  rw [first]
  unfold ClassTable.lookup
  dsimp only
  cases w.classes.findIn name [.resolved c.toClassObject] with
  | some found => rfl
  | none =>
    cases w.classes.findIn name (w.classes.decl c.id).mro with
    | none => rfl
    | some found =>
      obtain ⟨member, owner, inInstance, classVar⟩ := found
      cases owner with
      | none => rfl
      | some owner =>
        dsimp only
        rw [hw.specializeClass_eq]
        rfl

private theorem World.Plain.alike_findIn (hw : w.Plain inf tables) {c : ClassTy} {id : ClassId}
    (h : c.Follows w.classes inf id) (name : String) :
    Option.Rel FoundMember.Alike
      (w.classes.findIn name (.resolved (.ofId id) :: (w.classes.decl id).mro))
      (w.classes.findIn name (.resolved c :: (w.classes.decl c.id).mro)) := by
  cases h with
  | view h =>
    rw [h.id]
    exact ClassTable.alike_findIn_view h.id _
  | heir h inherits =>
    rename_i heir
    by_cases self : heir = id
    · rw [h.id, self]
      exact ClassTable.alike_findIn_view (h.id.trans self) _
    · obtain ⟨b, rfl, object, bases⟩ := inherits.bases
      have hid : heir < w.classes.size := by
        by_contra beyond
        rw [ClassTable.decl_of_size_le (Nat.le_of_not_lt beyond)] at bases
        cases bases
      obtain ⟨r, run, order⟩ := ClassTable.steady_linearize_one (F := .ofPlain inf) hid bases object
        (hw.classes b.id).params self
      have none : (w.classes.decl c.id).members.find? name = none := by
        rw [h.id, MemberTable.find?, inherits.members]
        rfl
      have current := inherits.current
      rw [show w.classes.linearize heir inf = (r, inf) from run, order] at current
      have found : w.classes.findIn name (.resolved c :: (w.classes.decl c.id).mro) =
          w.classes.findIn name (.resolved b :: (w.classes.decl b.id).mro) := by
        rw [ClassTable.findIn, none, h.id, ← current]
        exact ClassTable.findIn_merge_base _ _
      rw [found]
      exact ClassTable.alike_findIn_view (c := .ofId b.id) (d := b) rfl _

section

variable {K : Setting} (hw : K.Covers w)
include hw

private theorem answers_find (m : Match) (instances : m.asObject = false) (name : String) :
    Answers K ((w.classes.findIn name
      (.resolved m.candidate.toClassObject :: (w.classes.decl m.candidate.id).mro)).map
        fun found => (found, false)) (m.find w name) := by
  have onMetaclass : Answers K none (m.findOnMetaclass w name) := by
    unfold Match.findOnMetaclass
    rw [instances]
    split <;> exact .of_always (.pure none)
  refine onMetaclass.bind ?_
  dsimp only
  rw [hw.plain.lookup_eq]
  exact Answers.bind (.lift (Fragment.steady_pure (P := (· = _)) rfl)) (.of_always (.pure _))

/-- A class is matched as the class is whose members it has. -/
theorem Match.beside_of {p p' c : ClassTy} {id : ClassId} (h : c.Follows w.classes K.inf id)
    (selfless : w.Selfless K.inf K.tables id) (ordinary : w.classes.isTypedDict (.ofId id) = false)
    (ordinary' : w.classes.isTypedDict c = false) :
    Match.Beside K w (.of w p (.ofId id) false) (.of w p' c false) := by
  obtain ⟨_, view⟩ := h.viewed
  have first : (Match.of w p (.ofId id) false).candidate = .ofId id := by
    simp [Match.of, ordinary]
  have second : (Match.of w p' c false).candidate = c := by
    simp [Match.of, ordinary']
  refine ⟨rfl, ?_, ?_, ?_, fun name => ?_⟩
  · rw [Match.mode, Match.mode, first, second, view.hasLiteral_eq_false,
      (ClassTy.ViewOf.ofId id).hasLiteral_eq_false]
  · rw [first, second]
    exact view.object
  · rw [first]
    exact ⟨.cls fun _ h => absurd h List.not_mem_nil,
      fun _ => .cls rfl fun _ h => absurd h List.not_mem_nil⟩
  · refine Lockstep.of_answers (answers_find hw _ rfl name) (answers_find hw _ rfl name) ?_
    rw [first, second, view.toClassObject_eq]
    have declared : ∀ found, w.classes.findIn name
        (.resolved (.ofId id) :: (w.classes.decl id).mro) = some found →
        ∀ owner, found.owner = some owner →
          (name, found.member) ∈ (w.classes.decl owner.id).members.entries ∧
            (found.member.effectiveType K.inf).PlainMember K.inf K.tables := by
      intro found hf owner ho
      obtain ⟨among, declared⟩ := Fragment.declared_of_findIn hf ho
      exact ⟨declared, selfless owner among _ declared⟩
    have alike := hw.plain.alike_findIn h name
    change Option.Rel _ ((w.classes.findIn name (.resolved (.ofId id) ::
      (w.classes.decl id).mro)).map _) _
    revert alike declared
    generalize w.classes.findIn name (.resolved (.ofId id) :: _) = r
    generalize w.classes.findIn name (.resolved c :: _) = r'
    intro declared alike
    cases alike with
    | none => exact .none
    | some same =>
      exact .some ⟨same.member, same.owner, rfl, fun owner ho => (declared _ rfl owner ho).1,
        .inr fun owner ho => (declared _ rfl owner ho).2⟩

private theorem accepts_matchClass {j j' : Judge} (hj : UpholdsTypes K j j')
    {choice : StackChoice} {mode mode' : Mode} (hm : mode.invariant = false)
    (hm' : mode'.invariant = false) {p id : ClassId} {protocol c : ClassTy}
    (hp : protocol.ViewOf p) (hc : c.Follows w.classes K.inf id)
    (selfless : w.Selfless K.inf K.tables id)
    (ordinary : w.classes.isTypedDict (.ofId id) = false)
    (ordinary' : w.classes.isTypedDict c = false) {t t' : CheckState}
    (fresh : isPending t.inference (pendingOn choice t) ⟨.ofId id, .ofId p⟩ = false)
    (below : (t.enteringOn choice (.of false (.ofId p) (.ofId id))).Below K
      (t'.enteringOn choice (.of false protocol c)))
    (accepted : (exec (matchClass w j choice mode false (.ofId p) (.ofId id)) t).1 = .ok true) :
    ∃ u, exec (matchClass w j' choice mode' false protocol c) t' = (.ok true, u) ∧ t'.Resumes u := by
  obtain ⟨_, view⟩ := hc.viewed
  have parts : Upholds K (matchMembers w j mode false (.ofId p) (.ofId id))
      (matchMembers w j' mode' false protocol.toClassObject c.toClassObject) := by
    have same : protocol.generic = (ClassTy.ofId p).generic := hp.generic
    rw [hp.toClassObject_eq, view.toClassObject_eq]
    unfold matchMembers
    rw [hm, hm']
    exact upholds_matchAll hw hj (Match.beside_of hw hc selfless ordinary ordinary') mode mode' false
      same
  obtain ⟨b, b', u, u', hu, hu', hb, kept, kept'⟩ := parts _ _ below
  obtain ⟨v, hv, -⟩ := Upholds.answers_whilePending hu kept
  obtain ⟨v', hv', right⟩ := Upholds.answers_whilePending hu' kept'
  have first : b = true := by
    rw [Link.exec_matchClass] at accepted
    dsimp only at accepted
    rw [if_neg] at accepted
    · exact Except.ok.inj ((congrArg Prod.fst hv).symm.trans accepted)
    · exact Bool.eq_false_iff.1 fresh
  subst first
  have second : b' = true := by
    cases b' with
    | true => rfl
    | false => exact absurd hb (by decide)
  subst second
  rw [Link.exec_matchClass]
  dsimp only
  split
  · exact ⟨_, rfl, rfl, rfl, rfl⟩
  · exact ⟨v', hv', right⟩

end

theorem matchClass_toInstance (j : Judge) (choice : StackChoice) (mode : Mode) (asObject : Bool)
    (protocol c : ClassTy) : matchClass w j choice mode asObject protocol c.toInstance =
      matchClass w j choice mode asObject protocol c := rfl

/-! ## Settings for an heir -/

namespace Setting

/-- Class objects are not mentioned, and some comparisons may be in progress in the first run
alone. -/
def narrow (inf : Inference) (tables : TableId → Prop) (spare : StackChoice → Pending → Prop) :
    Setting := ⟨inf, tables, False, spare⟩

def pairOn (choice : StackChoice) (id p : ClassId) (other : StackChoice) (entry : Pending) : Prop :=
  other = choice ∧ entry.candidate.ViewOf id ∧ entry.protocol.ViewOf p

variable {spare : StackChoice → Pending → Prop}

private theorem covers_narrow (plain : w.Plain inf tables) (bare : w.Bare inf tables) :
    (narrow inf tables spare).Covers w :=
  ⟨plain, fun _ => bare⟩

end Setting

/-- Nothing is in progress. -/
structure CheckState.Outermost (s : CheckState) : Prop where
  pending : s.pending = []
  lent : s.lent = []

namespace CheckState

variable {choice : StackChoice} {id p : ClassId} {t t' : CheckState}

theorem Outermost.pendingOn_eq (h : t.Outermost) (choice : StackChoice) :
    Check.pendingOn choice t = [] := by
  cases choice
  · exact h.pending
  · exact h.lent

theorem Outermost.isPending_eq (h : t.Outermost) (inf : Inference) (choice : StackChoice)
    (entry : Pending) : isPending inf (Check.pendingOn choice t) entry = false := by
  rw [h.pendingOn_eq]
  rfl

private theorem Outermost.pairOn_of_isPending (h : t.Outermost) {other : StackChoice}
    {entry : Pending}
    (pending : isPending inf (Check.pendingOn other
      (t.enteringOn choice (.of false (.ofId p) (.ofId id)))) entry = true) :
    Setting.pairOn choice id p other entry := by
  rw [pendingOn_enteringOn, h.pendingOn_eq] at pending
  split at pending
  · rename_i same
    obtain ⟨e, he, alike⟩ := List.any_eq_true.1 pending
    cases List.mem_singleton.1 he
    obtain ⟨candidate, protocol⟩ := Bool.and_eq_true_iff.1 alike
    exact ⟨same, .of_same candidate, .of_same protocol⟩
  · cases pending

end CheckState

section

variable (plain : w.Plain inf tables) (bare : w.Bare inf tables) {base p : ClassId}
  (selfless : w.Selfless inf tables base) (ordinary : w.classes.isTypedDict (.ofId base) = false)
  {t : CheckState} (ht : t.inference = inf)
  (outermost : t.Outermost) {choice : StackChoice} {mode : Mode} (hm : mode.invariant = false)
  {top : Nat} (accepted : (exec (matchClass w (judge w top) choice mode false (.ofId p)
    (.ofId base)) t).1 = .ok true)
include plain bare selfless ordinary ht outermost hm accepted

private theorem grants_pairOn (other : StackChoice) {l : Nat} (hl : l ≤ top) :
    (Setting.narrow inf tables (Setting.pairOn choice base p)).Grants w other (judge w l) := by
  let K : Setting := .narrow inf tables fun _ _ => False
  have hw : K.Covers w := Setting.covers_narrow plain bare
  have nothing : ∀ l < top, K.Grants w .own (judge w l) := fun _ _ _ _ _ _ _ spare => spare.elim
  have hj := (upholdsJudge_judge hw nothing hl (Nat.le_refl top)).types
  intro mode' asObject protocol candidate compares spare s hs
  obtain ⟨rfl, hc, hp⟩ := spare
  obtain ⟨hm', rfl, -⟩ := compares.narrow.resolve_left id
  have below : (t.enteringOn other (.of false (.ofId p) (.ofId base))).Below K
      (s.enteringOn other (.of false protocol candidate)) := by
    refine ⟨(inference_enteringOn ..).trans ht, (inference_enteringOn ..).trans hs,
      fun choice entry pending => .inl ?_⟩
    obtain ⟨rfl, candidate, protocol⟩ := outermost.pairOn_of_isPending pending
    rw [pendingOn_enteringOn, if_pos rfl]
    exact List.any_eq_true.2 ⟨_, List.mem_cons_self,
      Bool.and_eq_true_iff.2 ⟨hc.same candidate _, hp.same protocol _⟩⟩
  have same : w.classes.isTypedDict candidate.toClassObject = false := by
    rw [ClassTable.isTypedDict, hc.id]
    exact ordinary
  have accepts : ∃ u, exec (matchClass w (judge w l) other mode' false protocol.toClassObject
      candidate.toClassObject) s = (.ok true, u) ∧ s.Resumes u :=
    accepts_matchClass hw hj hm hm' hp (.view hc) selfless ordinary same (outermost.isPending_eq _ _ _)
      below accepted
  exact accepts

end

/-- A class that adds nothing to its only base satisfies every protocol that the base satisfies: if
the comparison of the base accepts at the outermost level with nothing in progress, that of the heir
accepts at every level, whatever is in progress there. -/
theorem conformance_is_inherited {s : Session} {tables : TableId → Prop} (plain : s.Plain tables)
    (bare : s.world.Bare s.inference tables) {base heir : ClassId}
    (inherits : s.world.classes.SoleHeir s.inference heir base)
    (selfless : s.world.Selfless s.inference tables base)
    (ordinary : s.world.classes.isTypedDict (.ofId base) = false)
    (ordinary' : s.world.classes.isTypedDict (.ofId heir) = false) {t t' : CheckState}
    (ht : t.inference = s.inference) (outermost : t.Outermost) (ht' : t'.inference = s.inference)
    (choice : StackChoice) {mode : Mode} (hm : mode.invariant = false) {depth : Int}
    (deeper : 0 ≤ depth) (p : ClassId)
    (accepted : (exec (conformsFrom s.world choice 0 mode false (.ofId p)
      (ClassTy.ofId base).toInstance) t).1 = .ok true) :
    (exec (conformsFrom s.world choice depth mode false (.ofId p)
      (ClassTy.ofId heir).toInstance) t').1 = .ok true := by
  let K : Setting := .narrow s.inference tables (Setting.pairOn choice base p)
  have hw : K.Covers s.world := Setting.covers_narrow plain bare
  have outer : (exec (matchClass s.world (judge s.world (levelsAt 1)) choice mode false (.ofId p)
      (.ofId base)) t).1 = .ok true := by
    rw [conformsFrom_eq, if_neg (by decide), matchClass_toInstance] at accepted
    exact accepted
  have granted (l : Nat) (hl : l < levelsAt 1) : K.Grants s.world .own (judge s.world l) :=
    grants_pairOn plain bare selfless ordinary ht outermost hm outer .own (Nat.le_of_lt hl)
  have below : (t.enteringOn choice (.of false (.ofId p) (.ofId base))).Below K
      (t'.enteringOn choice (.of false (.ofId p) (.ofId heir))) :=
    ⟨(inference_enteringOn ..).trans ht, (inference_enteringOn ..).trans ht',
      fun _ _ pending => .inr (outermost.pairOn_of_isPending pending)⟩
  have fewer : levelsAt depth ≤ levelsAt 1 + 1 := levelsAt_anti deeper
  unfold conformsFrom
  generalize levelsAt depth = l at fewer
  cases l with
  | zero => rfl
  | succ l =>
    dsimp only
    rw [matchClass_toInstance]
    have hj := (upholdsJudge_judge hw granted (Nat.le_of_succ_le_succ fewer)
      (Nat.le_refl (levelsAt 1))).types
    have accepts : ∃ u, exec (matchClass s.world (judge s.world l) choice mode false (.ofId p)
        (.ofId heir)) t' = (.ok true, u) ∧ t'.Resumes u :=
      accepts_matchClass hw hj hm hm (.ofId p) (.heir (.ofId heir) inherits) selfless ordinary
        ordinary' (outermost.isPending_eq _ _ _) below outer
    obtain ⟨u, hu, -⟩ := accepts
    exact congrArg Prod.fst hu

namespace Sample

/-- A class without members of its own that derives from one class. -/
def derived (name : String) (base : ClassId) : ClassDecl :=
  { classOf name [] with
    bases := [.resolved (.ofId base)]
    mro := [.resolved (.ofId base)] }

end Sample

/-- The method of a protocol returns an instance of the protocol, that of a class its own instance. An
heir of the class is compared as the class is, where the class takes its own pair to hold. -/
theorem conformance_is_inherited_by_method :
    let s := Session.ofDecls #[Sample.object,
      Sample.protocolOf "P" [Sample.method "f" none [] (Sample.instanceOf 1)],
      Sample.classOf "C" [Sample.method "f" none [] (Sample.instanceOf 2)],
      Sample.derived "D" 2]
    let start : CheckState := ⟨s.inference, #[], [], [], none, none, []⟩
    let fits (id : ClassId) :=
      (exec (conformsFrom s.world .own 0 .default false (.ofId 1) (ClassTy.ofId id).toInstance)
        start).1
    s.Plain (fun _ => True) ∧ s.world.Bare s.inference (fun _ => True) ∧
      s.world.classes.SoleHeir s.inference 3 2 ∧ s.world.Selfless s.inference (fun _ => True) 2 ∧
      start.Outermost ∧ fits 2 = .ok true ∧ fits 3 = .ok true := by
  intro s start fits
  have plain : s.Plain fun _ => True := World.plain_of_isPlain (by decide +kernel)
  have bare : s.world.Bare s.inference fun _ => True := World.bare_of_isBare (by decide +kernel)
  have heir : s.world.classes.SoleHeir s.inference 3 2 := by
    have bases : (s.world.classes.decl 3).bases = [.resolved (.ofId 2)] := rfl
    obtain ⟨r, run, order⟩ := ClassTable.steady_linearize_one (F := .ofPlain s.inference)
      (by decide : 3 < s.world.classes.size) bases rfl rfl (by decide)
    have merged : Ancestor.merge [] ([.resolved (.ofId 2)] :: [[.resolved (.ofId 2)]]) =
        ([] ++ [.resolved (.ofId 2)], true) :=
      Ancestor.merge_sublists (List.pairwise_singleton _ _) (by simp) []
    refine ⟨rfl, ⟨_, rfl, rfl, rfl⟩, ?_⟩
    rw [show s.world.classes.linearize 3 s.inference = (r, s.inference) from run, order]
    exact congrArg Prod.fst merged
  have selfless : s.world.Selfless s.inference (fun _ => True) 2 := by
    intro c hc e he
    obtain ⟨rfl⟩ := Ancestor.resolved.inj (List.mem_singleton.1 hc)
    cases List.mem_singleton.1 he
    exact Ty.plainMember_of_isPlainMember (by decide +kernel)
  have accepted : fits 2 = .ok true := by decide +kernel
  exact ⟨plain, bare, heir, selfless, ⟨rfl, rfl⟩, accepted,
    conformance_is_inherited plain bare heir selfless rfl rfl rfl ⟨rfl, rfl⟩ rfl .own rfl
      (Int.le_refl 0) 1 accepted⟩

namespace Sample

def classObject (id : ClassId) : Ty := .cls (.ofId id)

def property (ret : Ty) : ClassDecl :=
  { classOf "property" [] with
    flags := { ClassFlags.none with property := true }
    getter := some (function none [] (.declared ret)) }

/-- The class object of the class is what a property yields. -/
def heldByProperty : World :=
  ofDecls [object,
    protocolOf "P" [final "m" (instanceOf 4), field "__class_getitem__" (instanceOf 0)],
    classOf "C" [final "m" (instanceOf 5)], derived "D" 2, property (instanceOf 1),
    property (classObject 2)]

end Sample

/-- A protocol that its own property leads back to, under the view of the class object, accepts the class
and refuses the heir. -/
example :
    ((Sample.compare 1 2).alone Sample.heldByProperty .start).1.toOption = some true ∧
      ((Sample.compare 1 3).alone Sample.heldByProperty .start).1.toOption = some false := by
  decide +kernel

end Conformance
