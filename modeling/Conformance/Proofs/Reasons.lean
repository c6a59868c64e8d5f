import Conformance.Proofs.Sample
import Conformance.Proofs.Tree

/-!
# Answers and their reasons

A comparison that is explained says something exactly where its answer is no. The tree that it
writes grows by at most three levels for each level of the comparison, so all of it is shown, and a
check that fails reports one error with a note.
-/

namespace Conformance

open Check

variable {α β : Type}

/-- What a check with an answer adds to the explanation is related to the answer. -/
def Adds (R : α → Explanation → Prop) (act : Check α) : Prop :=
  ∀ s e a t, s.notes = some e → exec act s = (.ok a, t) →
    ∃ new, t.notes = some (e.append new) ∧ R a new

def Quiet (act : Check α) : Prop := ∀ s, (exec act s).2.notes = s.notes

def Accounts (d : Nat) (act : Check Bool) : Prop :=
  Adds (fun yes new => new.isEmpty = yes ∧ new.height ≤ d) act

def AccountsForYes (d : Nat) (act : Check Bool) : Prop :=
  Adds (fun yes new => (yes = true → new.isEmpty = true) ∧ new.height ≤ d) act

/-- The end of a check whose first part was answered: the answer is yes if that was and nothing more
is said. -/
def Joins (d : Nat) (first : Bool) (act : Check Bool) : Prop :=
  Adds (fun yes new => yes = (first && new.isEmpty) ∧ new.height ≤ d) act

def Refuses (d : Nat) (act : Check Bool) : Prop :=
  Adds (fun yes new => yes = false ∧ new.isEmpty = false ∧ new.height ≤ d) act

def Tells (act : Check Unit) : Prop := Adds (fun _ new => new.isEmpty = false ∧ new.height = 0) act

/-! ## Putting checks together -/

section

variable {R : α → Explanation → Prop} {R' : β → Explanation → Prop}

private theorem adds_pure {a : α} (h : R a .empty) : Adds R (pure a) := by
  rintro s e _ _ hs ⟨⟩
  exact ⟨.empty, by rw [hs, Explanation.append_empty], h⟩

private theorem adds_of_quiet {act : Check α} (h : Quiet act) :
    Adds (fun _ new => new = .empty) act := by
  intro s e a t hs run
  have same := h s
  rw [run, hs] at same
  exact ⟨.empty, by rw [same, Explanation.append_empty], rfl⟩

private theorem adds_imp {Q : α → Explanation → Prop} {act : Check α} (h : Adds R act)
    (imp : ∀ a new, R a new → Q a new) : Adds Q act := by
  intro s e a t hs run
  obtain ⟨new, told, r⟩ := h s e a t hs run
  exact ⟨new, told, imp a new r⟩

private theorem adds_bind {act : Check α} {k : α → Check β} {K : α → β → Explanation → Prop}
    (h : Adds R act) (hk : ∀ a, Adds (K a) (k a))
    (join : ∀ a new b new', R a new → K a b new' → R' b (new.append new')) :
    Adds R' (act >>= k) := by
  intro s e b t hs run
  rw [exec_bind] at run
  rcases first : exec act s with ⟨_ | a, s'⟩
  · rw [first] at run
    nomatch run
  · rw [first] at run
    obtain ⟨new, told, r⟩ := h s e a s' hs first
    obtain ⟨new', told', r'⟩ := hk a s' _ b t told run
    exact ⟨new.append new', by rw [told', Explanation.append_assoc], join a new b new' r r'⟩

private theorem adds_after {act : Check α} {k : α → Check β} (h : Quiet act)
    (hk : ∀ a, Adds R' (k a)) : Adds R' (act >>= k) := by
  refine adds_bind (adds_of_quiet h) hk ?_
  rintro a _ b new rfl r
  rwa [Explanation.empty_append]

private theorem adds_solvingFor {act : Check α} (σ : Option Solution) (h : Adds R act) :
    Adds R (solvingFor σ act) := by
  intro s e a t hs run
  obtain ⟨answered, rfl⟩ := Prod.mk.inj run
  exact h { s with solving := σ } e a (exec act { s with solving := σ }).2 hs
    (Prod.ext answered rfl)

end

theorem quiet_sequential : Sequential fun _ act => Quiet act where
  holds_pure _ _ := rfl
  holds_bind {_ _ act _} h hk s := by
    have first := h s
    rw [exec_bind]
    rcases hr : exec act s with ⟨_ | a, t⟩ <;> rw [hr] at first
    · exact first
    · exact (hk a t).trans first
  holds_inference _ := rfl
  holds_lift _ _ := rfl
  holds_demand f s := by rw [exec_demand]

private theorem quiet_silently (act : Check α) : Quiet (silently act) := fun _ => rfl

private theorem quiet_solution : Quiet solution := fun _ => rfl

private theorem quiet_solve (v : TypeVar) (t : Ty) : Quiet (solve v t) := fun _ => rfl

private theorem quiet_trace (w : World) (line : CheckState → TraceLine) : Quiet (trace w line) := by
  intro s
  rw [exec_trace]
  cases w.verbose with
  | true => rfl
  | false => rfl

theorem quiet_receives (j : Judge) : Receives (fun _ act => Quiet act) j :=
  fun _ _ _ => quiet_silently _

theorem tells_tell (wording : Wording) (values : Inference → List (String × String)) :
    Tells (tell wording values) := by
  rintro s e a t hs run
  obtain ⟨-, rfl⟩ := Prod.mk.inj run
  refine ⟨.ofMessage (wording.format (values s.inference)), ?_, rfl, rfl⟩
  rw [← Explanation.addMessage_eq]
  obtain ⟨_, _, _, _, _, notes, _⟩ := s
  cases hs
  rfl

private theorem tells_bind {first second : Check Unit} (h : Tells first) (h' : Tells second) :
    Tells (first >>= fun _ => second) := by
  refine adds_bind h (fun _ => h') ?_
  rintro _ new _ new' ⟨he, hh⟩ ⟨-, hh'⟩
  simp [he, hh, hh']

/-! ## Answers -/

section

variable {d : Nat} {act yes no : Check Bool}

private theorem Refuses.accounts (h : Refuses d act) : Accounts d act :=
  adds_imp h fun _ _ ⟨answer, told, height⟩ => ⟨told.trans answer.symm, height⟩

theorem Refuses.joins {first : Bool} (h : Refuses d act) : Joins d first act :=
  adds_imp h fun _ _ ⟨answer, told, height⟩ => ⟨by simp [answer, told], height⟩

theorem Accounts.joins (h : Accounts d act) : Joins d true act :=
  adds_imp h fun _ _ ⟨told, height⟩ => ⟨told.symm, height⟩

theorem Accounts.mono {d' : Nat} (h : Accounts d act) (hd : d ≤ d') : Accounts d' act :=
  adds_imp h fun _ _ ⟨told, height⟩ => ⟨told, Nat.le_trans height hd⟩

private theorem Accounts.forYes (h : Accounts d act) : AccountsForYes d act :=
  adds_imp h fun _ _ ⟨told, height⟩ => ⟨told.trans, height⟩

private theorem accounts_true : Accounts d (pure true) := adds_pure ⟨rfl, Nat.zero_le _⟩

private theorem joins_pure (first : Bool) : Joins d first (pure first) :=
  adds_pure ⟨(Bool.and_true first).symm, Nat.zero_le _⟩

private theorem refuses_refuse (wording : Wording) (values : Inference → List (String × String)) :
    Refuses d (refuse wording values) := by
  refine adds_bind (tells_tell wording values) (fun _ => adds_pure (R := fun yes new =>
    yes = false ∧ new = .empty) ⟨rfl, rfl⟩) ?_
  rintro _ new _ _ ⟨he, hh⟩ ⟨rfl, rfl⟩
  simp [he, hh]

private theorem refuses_mismatch (w : World) (source dest : Ty) :
    Refuses d (mismatch w source dest) :=
  refuses_refuse _ _

private theorem accounts_bind {k : Bool → Check Bool} (h : Accounts d act)
    (hk : ∀ first, Joins d first (k first)) : Accounts d (act >>= k) := by
  refine adds_bind h hk ?_
  rintro first new yes new' ⟨he, hh⟩ ⟨rfl, hh'⟩
  rw [Explanation.isEmpty_append, Explanation.height_append, he]
  exact ⟨rfl, Nat.max_le.2 ⟨hh, hh'⟩⟩

private theorem joins_and {first : Bool} (h : Accounts d act) :
    Joins d first (act >>= fun second => pure (first && second)) := by
  refine adds_bind h (fun second => adds_pure (R := fun yes new =>
    yes = (first && second) ∧ new = .empty) ⟨rfl, rfl⟩) ?_
  rintro second new _ _ ⟨rfl, hh⟩ ⟨rfl, rfl⟩
  simp [hh]

private theorem accounts_ite (h : Accounts d act) (hy : Accounts d yes) (hn : Joins d false no) :
    Accounts d (do if ← act then yes else no) :=
  accounts_bind h fun
    | true => hy.joins
    | false => hn

private theorem accounts_allOf {f : α → Check Bool} {as : List α} (h : ∀ a ∈ as, Accounts d (f a)) :
    Accounts d (allOf f as) := by
  induction as with
  | nil => exact accounts_true
  | cons a as ih =>
    refine accounts_bind (h a List.mem_cons_self) fun first => joins_and (ih fun b hb => ?_)
    exact h b (List.mem_cons_of_mem a hb)

private theorem accounts_child (h : Accounts d act) : Accounts (d + 1) (child act) := by
  intro s e yes t hs run
  have entered : ({ s with notes := s.notes.map fun _ => .empty } : CheckState) =
      { s with notes := some .empty } := by rw [hs]; rfl
  rw [child, exec_within, entered] at run
  obtain ⟨answered, rfl⟩ := Prod.mk.inj run
  obtain ⟨new, told, he, hh⟩ := h _ .empty yes (exec act { s with notes := some .empty }).2 rfl
    (Prod.ext answered rfl)
  refine ⟨.ofChild new, ?_, by simpa using ⟨he, hh⟩⟩
  rw [Explanation.empty_append] at told
  simp only [hs, told, Option.map_some, Option.getD_some, Explanation.addChild_eq]

private theorem accounts_explained {messages : Check Unit} (h : AccountsForYes d act)
    (hm : Tells messages) : Accounts d (explained act messages) := by
  refine adds_bind (K := fun a b new => a = b ∧ (a = false → new.isEmpty = false) ∧
    (a = true → new.isEmpty = true) ∧ new.height = 0) h (fun answer => ?_) ?_
  · cases answer
    · refine adds_bind hm (fun _ => adds_pure (R := fun yes new => yes = false ∧ new = .empty)
        ⟨rfl, rfl⟩) ?_
      rintro _ new _ _ ⟨he, hh⟩ ⟨rfl, rfl⟩
      simp [he, hh]
    · exact adds_pure (by simp)
  · rintro (_ | _) new b new' ⟨he, hh⟩ ⟨rfl, he', he'', hh'⟩
    · simp [he' rfl, hh, hh']
    · simp [he rfl, he'' rfl, hh, hh']

private theorem accountsForYes_false : AccountsForYes d (pure false) :=
  adds_pure ⟨Bool.noConfusion, Nat.zero_le _⟩

end

/-- The judge accounts for its answers. Only types that need not be the same are compared with
protocols. -/
structure Judge.Accounts (j : Judge) (d : Nat) : Prop where
  assign : ∀ mode dest source, Conformance.Accounts d (j.assign mode dest source)
  conforms : ∀ mode asObject protocol candidate, mode.invariant = false →
    Conformance.Accounts d (j.conforms mode asObject protocol candidate)
  moduleConforms : ∀ mode protocol name table,
    Conformance.Accounts d (j.moduleConforms mode protocol name table)

section

variable {w : World} {j : Judge} {d : Nat} (hj : j.Accounts d)
include hj

/-! ## Variables and type arguments -/

omit hj in
private theorem quiet_accepts (dest source : Ty) : Quiet (j.accepts dest source) := quiet_silently _

private theorem accounts_fitsBound (mode : Mode) (v : TypeVar) (candidate : Ty) :
    Accounts (d + 1) (fitsBound w j mode v candidate) := by
  unfold fitsBound
  split
  · exact accounts_true
  · split
    · exact accounts_true
    · exact accounts_explained
        (accounts_child (adds_solvingFor none (hj.assign _ _ _))).forYes (tells_tell _ _)

omit hj in
private theorem accounts_widen (v : TypeVar) (existing candidate : Ty) :
    Accounts d (widen j v existing candidate) := by
  refine adds_after (quiet_accepts _ _) fun covered => ?_
  split
  · exact accounts_true
  · refine adds_after (quiet_accepts _ _) fun wider => ?_
    split
    · exact adds_after (quiet_solve _ _) fun _ => accounts_true
    · refine adds_after quiet_sequential.holds_inference fun inf => ?_
      exact adds_after (quiet_solve _ _) fun _ => accounts_true

omit hj in
private theorem accounts_narrow (v : TypeVar) (existing candidate : Ty) :
    Accounts d (narrow w j v existing candidate) := by
  refine adds_after (quiet_accepts _ _) fun covers => ?_
  split
  · exact accounts_true
  · refine adds_after (quiet_accepts _ _) fun narrower => ?_
    split
    · exact adds_after (quiet_solve _ _) fun _ => accounts_true
    · exact (refuses_refuse _ _).accounts

private theorem accounts_solveVar (mode : Mode) (v : TypeVar) (t : Ty) :
    Accounts (d + 1) (solveVar w j mode v t) := by
  refine accounts_bind (accounts_fitsBound hj _ _ _) fun
    | false => joins_pure false
    | true => Accounts.joins ?_
  refine adds_after quiet_solution fun σ => ?_
  split
  · exact adds_after (quiet_solve _ _) fun _ => accounts_true
  · split
    · refine adds_after quiet_sequential.holds_inference fun inf => ?_
      split
      · exact accounts_true
      · exact (refuses_refuse _ _).accounts
    · split
      · exact accounts_narrow _ _ _
      · exact accounts_widen _ _ _

private theorem accounts_assignArgument (mode : Mode) (p : ArgumentPair) :
    Accounts (d + 2) (p.assign w j mode) := by
  refine accounts_child (accounts_explained (accounts_child ?_).forYes (tells_tell _ _))
  split <;> exact hj.assign _ _ _

private theorem accounts_assignArguments (mode : Mode) (dest source : ClassTy) :
    Accounts (d + 2) (assignArguments w j mode dest source) := by
  unfold assignArguments
  split
  · exact accounts_true
  · exact accounts_allOf fun p _ => accounts_assignArgument hj mode p

private theorem accounts_assignInvariant (mode : Mode) (dest source : Ty) :
    Accounts (d + 1) (assignInvariant w j mode dest source) := by
  refine adds_after quiet_sequential.holds_inference fun inf => ?_
  split
  · exact accounts_true
  · split
    · split
      · refine accounts_ite (accounts_allOf fun p _ => ?_) accounts_true
          (refuses_mismatch _ _ _).joins
        exact accounts_child (hj.assign _ _ _)
      · exact (refuses_mismatch _ _ _).accounts
    · exact (refuses_mismatch _ _ _).accounts

/-! ## Callables and properties -/

private theorem accounts_paramStep (mode : Mode) (step : ParamStep) :
    Accounts (d + 2) (step.run w j mode) := by
  cases step with
  | compare index dest source =>
    exact accounts_child
      (accounts_explained (accounts_child (hj.assign _ _ _)).forYes (tells_tell _ _))
  | fault wording values => exact (refuses_refuse _ _).accounts

private theorem accounts_assignReturn (mode : Mode) (dest source : Ty) :
    Accounts (d + 2) (assignReturn w j mode dest source) :=
  accounts_child (accounts_explained (accounts_child (hj.assign _ _ _)).forYes (tells_tell _ _))

private theorem accounts_assignFunction (mode : Mode) (dest source : FunctionTy) :
    Accounts (d + 2) (assignFunction w j mode dest source) := by
  refine adds_after (quiet_sequential.holds_demand _) fun _ => ?_
  refine adds_after (quiet_sequential.holds_demand _) fun _ => ?_
  refine accounts_bind (accounts_allOf fun step _ => accounts_paramStep hj mode step)
    fun params => ?_
  refine adds_after quiet_sequential.holds_inference fun inf => ?_
  exact joins_and (accounts_assignReturn hj _ _ _)

private theorem accounts_assignToFunction (mode : Mode) (dest : FunctionTy) (source : Ty) :
    Accounts (d + 2) (assignToFunction w j mode dest source) := by
  unfold assignToFunction
  split
  · exact accounts_assignFunction hj _ _ _
  · refine adds_after (quiet_silently _) fun found => ?_
    split
    · exact accounts_true
    · exact (refuses_refuse _ _).accounts
  · exact (refuses_mismatch _ _ _).accounts

private theorem accounts_assignToOverloads (mode : Mode) (source : Ty) (fs : List FunctionTy) :
    Accounts (d + 3) (assignToOverloads w j mode source fs) := by
  induction fs with
  | nil => exact accounts_true
  | cons f fs ih =>
    exact accounts_ite (accounts_child (accounts_assignToFunction hj _ _ _)) ih
      (refuses_refuse _ _).joins

private theorem accounts_assignToCallable (mode : Mode) (dest source : Ty) :
    Accounts (d + 3) (assignToCallable w j mode dest source) := by
  refine adds_after (quiet_sequential.holds_calledType (quiet_receives j) _) fun called => ?_
  split
  · exact (refuses_mismatch _ _ _).accounts
  · split
    · exact (accounts_assignToFunction hj _ _ _).mono (Nat.le_succ _)
    · exact accounts_assignToOverloads hj _ _ _
    · exact (refuses_mismatch _ _ _).accounts

private theorem accountsForYes_compareAccessors (p : PropertyPair) (dest source : FunctionTy) :
    AccountsForYes (d + 1) (p.compare w j dest source) := by
  have binds := fun f => quiet_sequential.holds_bindFunction (w := w) (quiet_receives j)
    (Receiver.of (.cls p.sourceOwner.toInstance)) f none
  refine adds_after (quiet_sequential.holds_demand _) fun _ => ?_
  refine adds_after (quiet_sequential.holds_lift (opens_specializeFunction _ _)) fun source => ?_
  refine adds_after (quiet_sequential.holds_requiredAccessor p dest) fun dest => ?_
  refine adds_after (binds dest) fun boundDest => adds_after (binds source) fun boundSource => ?_
  split
  · exact (accounts_child (hj.assign _ _ _)).forYes
  · exact accountsForYes_false

private theorem accounts_assignAccessor (p : PropertyPair) (accessor : Accessor) :
    Accounts (d + 1) (p.assignAccessor w j accessor) := by
  unfold PropertyPair.assignAccessor
  split
  · exact accounts_true
  · exact (refuses_refuse _ _).accounts
  · exact accounts_explained (accountsForYes_compareAccessors hj _ _ _) (tells_tell _ _)

private theorem accounts_assignProperty (p : PropertyPair) :
    Accounts (d + 1) (assignProperty w j p) :=
  accounts_allOf fun accessor _ => accounts_assignAccessor hj p accessor

/-! ## Protocols -/

private theorem accountsForYes_assignToProperty (m : Match) (r : Requirement) (property : ClassTy)
    (source : Ty) : AccountsForYes (d + 2) (m.assignToProperty w j r property source) := by
  unfold Match.assignToProperty
  split
  · exact (accounts_child (accounts_assignProperty hj _)).forYes
  · refine adds_after (quiet_sequential.holds_getterType _ _) fun t => ?_
    split
    · exact accountsForYes_false
    · exact ((accounts_child (hj.assign _ _ _)).mono (Nat.le_succ _)).forYes

omit hj in
private theorem tells_tellMember (wording : Wording) (r : Requirement) :
    Tells (Match.tellMember wording r) :=
  tells_tell _ _

private theorem accounts_assignMember (m : Match) (r : Requirement) (dest source : Ty) :
    Accounts (d + 2) (m.assignMember w j r dest source) := by
  unfold Match.assignMember
  split
  · exact accounts_explained (accountsForYes_assignToProperty hj _ _ _ _) (tells_tellMember _ _)
  · refine accounts_explained ((accounts_child (hj.assign _ _ _)).mono (Nat.le_succ _)).forYes ?_
    split
    · exact tells_bind (tells_tellMember _ _) (tells_tellMember _ _)
    · exact tells_tellMember _ _

omit hj in
private theorem accounts_agreeOnFinal (r : Requirement) (found : FoundMember) :
    Accounts d (Match.agreeOnFinal r found) := by
  unfold Match.agreeOnFinal
  split
  · exact accounts_true
  · exact (refuses_refuse _ _).accounts

omit hj in
private theorem accounts_agreeOnClassVar (r : Requirement) (found : FoundMember) :
    Accounts d (Match.agreeOnClassVar r found) := by
  unfold Match.agreeOnClassVar
  split
  · exact (refuses_refuse _ _).accounts
  · exact accounts_true

private theorem accounts_matchType (m : Match) (r : Requirement) (found : FoundMember)
    (fromMetaclass : Bool) : Accounts (d + 3) (m.matchType w j r found fromMetaclass) := by
  unfold Match.matchType
  split
  · exact accounts_true
  · refine adds_after (quiet_sequential.holds_seenFrom _ _ _) fun dest => ?_
    refine adds_after (quiet_sequential.holds_foundType _ _) fun source => ?_
    refine adds_after (quiet_sequential.holds_comparedTypes (quiet_receives j) _ _ _ _ _)
      fun types => accounts_child ?_
    exact accounts_bind (accounts_assignMember hj _ _ _ _) fun fits =>
      joins_and (accounts_agreeOnFinal _ _)

private theorem accounts_matchMember (m : Match) (r : Requirement) :
    Accounts (d + 3) (m.matchMember w j r) := by
  refine adds_after (quiet_sequential.holds_find m r.name) fun found => ?_
  split
  · exact (refuses_refuse _ _).accounts
  · exact accounts_bind (accounts_matchType hj _ _ _ _) fun fits =>
      joins_and (accounts_agreeOnClassVar _ _)

private theorem accounts_meetAll (mode : Mode) (protocol : ClassTy) (rs : List Requirement)
    {meets : Requirement → Check Bool} (h : ∀ r, Accounts (d + 3) (meets r)) :
    Accounts (d + 3) (meetAll w j mode protocol rs meets) := by
  have solved : Adds (fun result new => new.isEmpty = result.1 ∧ new.height ≤ d + 3)
      (solvingFor (some (Solution.forScope (w.classes.decl protocol.id).scope)) do
        let met ← allOf meets rs
        let σ ← solution
        pure (met, σ.getD .empty)) := by
    refine adds_solvingFor _ (adds_bind (accounts_allOf fun r _ => h r) (fun met =>
      adds_after quiet_solution fun σ => adds_pure (R := fun (result : Bool × Solution) new =>
        result.1 = met ∧ new = .empty) ⟨rfl, rfl⟩) ?_)
    rintro met new _ _ told ⟨rfl, rfl⟩
    rwa [Explanation.append_empty]
  refine adds_bind (K := fun result yes new => yes = (result.1 && new.isEmpty) ∧
    new.height ≤ d + 3) solved (fun (met, solved) => ?_) ?_
  · dsimp only
    split
    · rename_i met'
      simp only [Bool.and_eq_true] at met'
      rw [met'.1.1]
      refine adds_after (quiet_sequential.holds_lift (opens_substituteClass _ _ _)) fun found => ?_
      exact ((accounts_assignArguments hj _ _ _).mono (Nat.le_succ _)).joins
    · exact joins_pure met
  · rintro result new yes new' ⟨he, hh⟩ ⟨rfl, hh'⟩
    rw [Explanation.isEmpty_append, Explanation.height_append, he]
    exact ⟨rfl, Nat.max_le.2 ⟨hh, hh'⟩⟩

private theorem accounts_matchMembers {mode : Mode} (hm : mode.invariant = false) (asObject : Bool)
    (protocol candidate : ClassTy) :
    Accounts (d + 3) (matchMembers w j mode asObject protocol candidate) := by
  unfold matchMembers
  rw [if_neg (by simp [hm])]
  exact accounts_meetAll hj _ _ _ (accounts_matchMember hj _)

omit hj in
private theorem adds_whilePending {act : Check Bool} (choice : StackChoice) (c : Comparison)
    (h : Accounts d act) : Accounts d (whilePending choice c act) := by
  intro s e yes t hs run
  obtain ⟨answered, rfl⟩ := Prod.mk.inj run
  have told := h (setPendingOn choice { s with history := [] } (c.pair :: pendingOn choice s)) e yes
    (exec act (setPendingOn choice { s with history := [] } (c.pair :: pendingOn choice s))).2
    (by cases choice <;> exact hs) (Prod.ext answered rfl)
  cases choice <;> exact told

private theorem accounts_matchClass (choice : StackChoice) {mode : Mode}
    (hm : mode.invariant = false)
    (asObject : Bool) (protocol candidate : ClassTy) :
    Accounts (d + 3) (matchClass w j choice mode asObject protocol candidate) := by
  refine adds_after (fun _ => rfl) fun s => ?_
  dsimp only
  split
  · exact adds_after (fun _ => rfl) fun _ => accounts_true
  · exact adds_whilePending _ _ (accounts_matchMembers hj hm _ _ _)

private theorem accounts_matchModuleMember (protocol : ClassTy) (members : MemberTable)
    (r : Requirement) :
    Accounts (d + 3) (matchModuleMember w j protocol members r) := by
  unfold matchModuleMember
  split
  · exact (refuses_refuse _ _).accounts
  · split
    · exact accounts_true
    · refine adds_after quiet_sequential.holds_inference fun inf => ?_
      refine adds_after (quiet_sequential.holds_moduleRequiredType (quiet_receives j) _ _ _ _)
        fun dest => ?_
      refine (accounts_child (accounts_explained ?_ (tells_tellMember _ _))).mono (Nat.le_succ _)
      exact (accounts_child (hj.assign _ _ _)).forYes

private theorem accounts_matchModule (mode : Mode) (protocol : ClassTy) (table : TableId) :
    Accounts (d + 3) (matchModule w j mode protocol table) :=
  accounts_meetAll hj _ _ _ (accounts_matchModuleMember hj _ _)

/-! ## Two types -/

section

variable {mode : Mode}

private theorem accounts_assignClassToClass (hm : mode.invariant = false) (dest source : ClassTy) :
    Accounts (d + 3) (assignClassToClass w j mode dest source) := by
  unfold assignClassToClass
  split
  · split
    · exact accounts_true
    · exact (refuses_mismatch _ _ _).accounts
  · split
    · exact accounts_true
    · dsimp only
      split
      · exact accounts_true
      · split
        · exact accounts_true
        · refine adds_after (quiet_sequential.holds_ancestorOf _ _) fun ancestor => ?_
          exact (accounts_assignArguments hj _ _ _).mono (Nat.le_succ _)
      · split
        · exact (hj.conforms _ _ _ _ hm).mono (by omega)
        · exact (refuses_mismatch _ _ _).accounts

private theorem accounts_assignClassObject (hm : mode.invariant = false) (dest source : ClassTy) :
    Accounts d (assignClassObject w j mode dest source) := by
  unfold assignClassObject
  split
  · exact hj.conforms _ _ _ _ hm
  · split
    · exact accounts_true
    · split
      · split
        · exact (refuses_mismatch _ _ _).accounts
        · exact hj.assign _ _ _
      · exact (refuses_mismatch _ _ _).accounts

private theorem accounts_assignCallableToClass (dest : ClassTy) (source : Ty) :
    Accounts d (assignCallableToClass w j mode dest source) := by
  unfold assignCallableToClass
  split
  · refine adds_after (quiet_sequential.holds_boundCall (quiet_receives j) _) fun call => ?_
    split
    · exact hj.assign _ _ _
    · exact (refuses_mismatch _ _ _).accounts
  · exact (refuses_mismatch _ _ _).accounts

private theorem accounts_assignToClass (hm : mode.invariant = false) (dest : ClassTy)
    (source : Ty) :
    Accounts (d + 3) (assignToClass w j mode dest source) := by
  unfold assignToClass
  split
  · exact accounts_true
  · split
    · split
      · exact accounts_assignClassToClass hj hm _ _
      · split
        · exact (accounts_assignClassObject hj hm _ _).mono (by omega)
        · exact (refuses_mismatch _ _ _).accounts
    · split
      · exact (hj.moduleConforms _ _ _ _).mono (by omega)
      · exact (refuses_mismatch _ _ _).accounts
    · exact (accounts_assignCallableToClass hj _ _).mono (by omega)
    · exact (accounts_assignCallableToClass hj _ _).mono (by omega)
    · exact (refuses_mismatch _ _ _).accounts

private theorem accounts_assignToVar (v : TypeVar) (source : Ty) :
    Accounts (d + 1) (assignToVar w j mode v source) := by
  refine adds_after quiet_sequential.holds_inference fun inf => ?_
  refine adds_after quiet_solution fun σ => ?_
  split
  · exact accounts_true
  · split
    · exact accounts_solveVar hj _ _ _
    · split
      · exact accounts_true
      · exact (refuses_mismatch _ _ _).accounts

private theorem accounts_assignFromUnion (dest : Ty) (members : List Ty) :
    Accounts (d + 1) (assignFromUnion w j mode dest members) :=
  accounts_ite (accounts_allOf fun _ _ => accounts_child (hj.assign _ _ _)) accounts_true
    (refuses_mismatch _ _ _).joins

omit hj in
private theorem accounts_assignToUnion (members : List Ty) (source : Ty) :
    Accounts d (assignToUnion w j mode members source) := by
  refine adds_after (quiet_silently _) fun fits => ?_
  split
  · exact accounts_true
  · exact (refuses_mismatch _ _ _).accounts

private theorem accounts_assignByShape (hm : mode.invariant = false) (dest source : Ty) :
    Accounts (d + 3) (assignByShape w j mode dest source) := by
  have same : Accounts (d + 3) (do
      let inf ← inference
      if dest.same inf source then pure true else mismatch w source dest) := by
    refine adds_after quiet_sequential.holds_inference fun inf => ?_
    split
    · exact accounts_true
    · exact (refuses_mismatch _ _ _).accounts
  unfold assignByShape
  cases dest with
  | cls c => exact accounts_assignToClass hj hm _ _
  | function f => exact accounts_assignToCallable hj _ _ _
  | overloaded fs => exact accounts_assignToCallable hj _ _ _
  | noneObject => exact same
  | module name table => exact same
  | _ => exact (refuses_mismatch _ _ _).accounts

private theorem accounts_assignTy (dest source : Ty) :
    Accounts (d + 3) (assignTy w j mode dest source) := by
  refine adds_after quiet_solution fun σ => ?_
  split
  · exact (accounts_solveVar hj _ _ _).mono (by omega)
  · split
    · exact (accounts_assignToVar hj _ _).mono (by omega)
    · split
      · exact accounts_true
      · unfold assignProper
        split
        · exact (accounts_assignInvariant hj _ _ _).mono (by omega)
        · rename_i hm
          split
          · exact (hj.assign _ _ _).mono (by omega)
          · exact (accounts_assignFromUnion hj _ _).mono (by omega)
          · exact accounts_assignToUnion _ _
          · exact accounts_assignByShape hj (by simpa using hm) _ _

private theorem accounts_assignStep (dest source : Option Ty) :
    Accounts (d + 3) (assignStep w j mode dest source) := by
  unfold assignStep
  split
  · split
    · exact accounts_true
    · exact accounts_assignTy hj _ _
  · exact accounts_true

end

end

private theorem accounts_judge (w : World) (n : Nat) : (judge w n).Accounts (3 * n) := by
  induction n with
  | zero =>
    have cut : Accounts 0 cutOff := adds_after (fun _ => rfl) fun _ => accounts_true
    exact ⟨fun _ _ _ => cut, fun _ _ _ _ _ => adds_after (quiet_trace _ _) fun _ => cut,
      fun _ _ _ _ => adds_after (quiet_trace _ _) fun _ => cut⟩
  | succ n ih =>
    refine ⟨fun _ _ _ => accounts_assignStep ih _ _, fun _ _ _ _ hm => ?_, fun _ _ _ _ => ?_⟩
    · exact adds_after (quiet_trace _ _) fun _ => accounts_matchClass ih _ hm _ _ _
    · exact adds_after (quiet_trace _ _) fun _ => accounts_matchModule ih _ _ _

/-! ## Sessions -/

/-- One error was added to a report, with a note if any depth is shown. -/
def Report.FailsWith (before after : Report) (maxDepth : Int) : Prop :=
  ∃ entry, after.entries = before.entries ++ [entry] ∧ after.errors = before.errors + 1 ∧
    entry.severity = .error ∧ (1 ≤ maxDepth → entry.notes ≠ [])

private theorem Report.failsWith_error (r : Report) (l : Location) (message : String) (code : Code)
    (why : Explanation) (maxDepth maxLines : Int)
    (h : 1 ≤ maxDepth → why.lines maxDepth maxLines ≠ []) :
    r.FailsWith ((r.error l message code).addExplanation why maxDepth maxLines) maxDepth := by
  have notes : (r.entryAt .error l message code).notes = [] := by
    unfold entryAt
    split <;> rfl
  have severity : (r.entryAt .error l message code).severity = .error := by
    unfold entryAt
    split <;> rfl
  refine ⟨{ r.entryAt .error l message code with notes := why.lines maxDepth maxLines }, ?_, ?_,
    severity, h⟩ <;>
    simp [addExplanation, addNotes, error, notes]

/-- A check reports nothing where its answer is yes, and one error where it is no. -/
def Session.Reports (s : Session) (check : ExceptT InferenceError SessionM Bool) : Prop :=
  (∀ t, (ExceptT.run check).run s = (.ok true, t) → t.report = s.report) ∧
    ∀ t, (ExceptT.run check).run s = (.ok false, t) →
      s.report.FailsWith t.report s.options.maxDepth

private theorem reports_checkOrReport {s : Session} {l : Location} {code : Code} {wording : Wording}
    {values : Session → List (String × String)} {check : World → Check Bool} {d : Nat}
    (h : Accounts d (check s.world)) (hd : d ≤ Explanation.deepestLevel) :
    s.Reports (Session.checkOrReport l code wording values check) := by
  rcases result : exec (check s.world) (Frame.entering s .plain) with ⟨_ | yes, t⟩
  · constructor <;> intro u ran <;>
      rw [Session.checkOrReport, run_bind, run_lift, Frame.run_check, result] at ran <;> nomatch ran
  · obtain ⟨new, notes, he, hh⟩ := h _ .empty yes t rfl result
    rw [Explanation.empty_append] at notes
    constructor <;> intro u ran <;>
      rw [Session.checkOrReport, run_bind, run_lift, Frame.run_check, result] at ran <;>
      cases yes
    · nomatch ran
    · cases ran
      rfl
    · obtain ⟨-, rfl⟩ := Prod.mk.inj ran
      refine Report.failsWith_error s.report l _ code _ s.options.maxDepth s.options.maxLines ?_
      intro shown
      rw [notes]
      exact Explanation.lines_ne_nil he (Nat.le_trans hh hd) shown _
    · nomatch ran

private theorem accounts_judgeAt (w : World) : (judgeAt w 0).Accounts Explanation.deepestLevel := by
  have levels := accounts_judge w (levelsAt 0)
  have within : 3 * levelsAt 0 ≤ Explanation.deepestLevel := by decide
  exact ⟨fun _ _ _ => (levels.assign _ _ _).mono within,
    fun _ _ _ _ hm => (levels.conforms _ _ _ _ hm).mono within,
    fun _ _ _ _ => (levels.moduleConforms _ _ _ _).mono within⟩

/-- A comparison of two types that is explained adds a message somewhere if its answer is no and
none if it is yes. A check of a session reports one error if its answer is no, with a note if any depth
is shown, whatever the number of lines, and nothing if it is yes. -/
theorem answers_explained (s : Session) :
    (∀ (depth : Int) (mode : Mode) (dest source : Option Ty) (t u : CheckState)
      (sink : Explanation) (yes : Bool), t.notes = some sink →
      exec ((judgeAt s.world depth).assign mode dest source) t = (.ok yes, u) →
        ∃ new, u.notes = some (sink.append new) ∧ new.isEmpty = yes) ∧
    (∀ declared assigned l, s.Reports (Session.checkAssignment declared assigned l)) ∧
    ∀ protocol candidate l, s.Reports (Session.checkProtocol protocol candidate l) := by
  have judged := accounts_judgeAt s.world
  have assignment : ∀ declared assigned l,
      s.Reports (Session.checkAssignment declared assigned l) := fun declared assigned l =>
    reports_checkOrReport (judged.assign _ _ _) (Nat.le_refl _)
  refine ⟨fun depth mode dest source t u sink yes hs run => ?_, assignment,
    fun protocol candidate l => ?_⟩
  · obtain ⟨new, told, he, -⟩ :=
      (accounts_judge s.world _).assign mode dest source t sink yes u hs run
    exact ⟨new, told, he⟩
  · unfold Session.checkProtocol
    split
    · exact reports_checkOrReport (judged.conforms _ _ _ _ rfl) (Nat.le_refl _)
    · exact reports_checkOrReport (judged.moduleConforms _ _ _ _) (Nat.le_refl _)
    · exact assignment _ _ _

/-- An instance of one class, and none of another, may stand where the class is declared. -/
theorem answers_explained_of_two_classes :
    let s := Session.ofDecls #[Sample.object, Sample.classOf "A" [], Sample.classOf "B" []]
    let check (declared assigned : ClassId) := (ExceptT.run (Session.checkAssignment
      (some (Sample.instanceOf declared)) (some (Sample.instanceOf assigned)) .start)).run s
    let told := exec ((judgeAt s.world 0).assign .default (some (Sample.instanceOf 1))
      (some (Sample.instanceOf 2))) (Frame.entering s .plain)
    (check 1 1).1 = .ok true ∧ (check 1 1).2.report = s.report ∧
      (check 1 2).1 = .ok false ∧ s.report.FailsWith (check 1 2).2.report 5 ∧
      ∃ new, told.2.notes = some new ∧ new.isEmpty = false := by
  intro s check told
  have accepted : check 1 1 = (.ok true, (check 1 1).2) := by rfl
  have refused : check 1 2 = (.ok false, (check 1 2).2) := by rfl
  have no : told = (.ok false, told.2) := by rfl
  obtain ⟨new, explained, he⟩ := (answers_explained s).1 0 .default _ _ _ _ .empty false rfl no
  rw [Explanation.empty_append] at explained
  exact ⟨by rfl, ((answers_explained s).2.1 _ _ _).1 _ accepted, by rfl,
    ((answers_explained s).2.1 _ _ _).2 _ refused, new, explained, he⟩

end Conformance
