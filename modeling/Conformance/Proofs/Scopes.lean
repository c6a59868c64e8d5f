import Conformance.Catalog
import Conformance.Proofs.Separators
import Mathlib.Data.List.Nodup

/-!
# Scopes and the variables of their owners

Scopes are numbered as they are handed out, and the number of a scope can be read off its name, where it
follows the last dot. If the names of classes, modules and functions have no at sign then no scope has
one, and the scope of a variable can be read off its key, where it follows the last at sign, whatever
stands before. So no two owners have one scope, and a type that is found for a variable is found for the
variables of the same name and scope alone.
-/

namespace Conformance

/-! ## Names put together -/

private theorem not_mem_toString {c : Char} (h : c.isDigit = false) (n : Nat) :
    c ∉ (toString n).toList := by
  intro here
  rw [Nat.toString_eq_repr, Nat.toList_repr] at here
  rw [Nat.isDigit_of_mem_toDigits (by decide) (by decide) here] at h
  cases h

/-- The number can be read off the name of a scope: it follows the last dot. -/
theorem scopeName_inj {name name' : String} {m n : Nat}
    (h : Catalog.scopeName name m = Catalog.scopeName name' n) : m = n := by
  have same := congrArg String.toList h
  simp only [Catalog.scopeName, String.toList_append, List.append_assoc] at same
  have digits := (append_cons_inj_of_last (not_mem_toString (by decide) m)
    (not_mem_toString (by decide) n) same).2
  rw [Nat.toString_eq_repr, Nat.toString_eq_repr, Nat.toList_repr, Nat.toList_repr] at digits
  rw [← @Nat.ofDigitChars_ten_toDigits m, digits, Nat.ofDigitChars_ten_toDigits]

theorem scopeName_ne_empty (name : String) (n : Nat) : Catalog.scopeName name n ≠ "" := by
  intro h
  have long := congrArg String.toList h
  simp [Catalog.scopeName, String.toList_append] at long

private theorem not_mem_scopeName {name : String} (h : '@' ∉ name.toList) (n : Nat) :
    '@' ∉ (Catalog.scopeName name n).toList := by
  simp only [Catalog.scopeName, String.toList_append, List.mem_append, not_or]
  exact ⟨⟨h, by decide⟩, not_mem_toString (by decide) n⟩

private theorem not_mem_qualified {name moduleName : String} (h : '@' ∉ name.toList)
    (h' : '@' ∉ moduleName.toList) : '@' ∉ (Catalog.qualified moduleName name).toList := by
  unfold Catalog.qualified
  split
  · exact h
  · simp only [String.toList_append, List.mem_append, not_or]
    exact ⟨⟨h', by decide⟩, h⟩

/-- Variables of scopes without an at sign have one key only if they have one name and one scope. -/
theorem TypeVar.key_inj {v w : TypeVar} (hv : '@' ∉ v.scope.toList) (hw : '@' ∉ w.scope.toList) :
    v.key = w.key ↔ v.name = w.name ∧ v.scope = w.scope := by
  refine ⟨fun h => ?_, fun ⟨name, scope⟩ => by rw [key, key, name, scope]⟩
  have same := congrArg String.toList h
  simp only [key, String.toList_append, List.append_assoc] at same
  obtain ⟨name, scope⟩ := append_cons_inj_of_last hv hw same
  exact ⟨String.toList_inj.1 name, String.toList_inj.1 scope⟩

/-! ## Histories of a catalog -/

namespace Catalog

/-- What can be done with a catalog: classes and functions are given scopes, and whatever else there is
to change. -/
inductive Act
  | cls (name : String) (flags : ClassFlags) (moduleName : String)
  | function (name : String)
  | change (f : Catalog → Catalog)

/-- The names have no at sign, and other changes leave the scopes of classes, how many classes there are
and the next number as they are. -/
def Act.Plain : Act → Prop
  | .cls name _ moduleName => '@' ∉ name.toList ∧ '@' ∉ moduleName.toList
  | .function name => '@' ∉ name.toList
  | .change f => ∀ cat, (f cat).nextScope = cat.nextScope ∧
      (f cat).classes.size = cat.classes.size ∧
      ∀ id, ((f cat).classes.decl id).scope = (cat.classes.decl id).scope

def after (cat : Catalog) : Act → Catalog
  | .cls name flags moduleName => (cat.addClass name flags moduleName).2
  | .function name => (cat.functionScope name).2
  | .change f => f cat

/-- The scope that is handed out. -/
def issue? (cat : Catalog) : Act → Option String
  | .cls name flags moduleName =>
    let (c, cat) := cat.addClass name flags moduleName
    some (cat.scopeOf c)
  | .function name => some (cat.functionScope name).1
  | .change _ => none

/-- All scopes that are handed out, in order. -/
def issued (cat : Catalog) : List Act → List String
  | [] => []
  | a :: as => (cat.issue? a).toList ++ (cat.after a).issued as

/-- The catalog after all that was done, from the first to the last. -/
def run (acts : List Act) : Catalog := acts.foldl after empty

/-- The scope of the given number. -/
def Act.scope? (number : Nat) : Act → Option String
  | .cls name _ moduleName => some (scopeName (qualified moduleName name) number)
  | .function name => some (scopeName name number)
  | .change _ => none

/-- The scopes that are handed out if the numbers are those of a word. -/
def issuedByWord : UInt32 → List Act → List String
  | _, [] => []
  | number, a :: as =>
    match a.scope? number.toNat with
    | some scope => scope :: issuedByWord (number + 1) as
    | none => issuedByWord number as

/-- The type parameters of what was given a scope, of whatever name, and what stands for the receivers in
the classes. -/
inductive Owns (acts : List Act) : TypeVar → Prop
  | param {v : TypeVar} (scope : v.scope ∈ empty.issued acts) : Owns acts v
  | self {c : ClassTy} (declared : c.id < (run acts).classes.size) :
      Owns acts ((run acts).classes.selfVar c)

/-- The scopes of the classes, in the order in which these were declared. -/
def classScopes (cat : Catalog) : List String :=
  (List.range cat.classes.size).map fun id => (cat.classes.decl id).scope

variable {cat : Catalog} {a : Act} {acts : List Act}

/-! ### One step -/

private theorem decl_addClass (cat : Catalog) (name : String) (flags : ClassFlags)
    (moduleName : String)
    (id : ClassId) : (cat.addClass name flags moduleName).2.classes.decl id =
      if id = cat.classes.size then
        .fresh name (qualified moduleName name) (scopeName (qualified moduleName name) cat.nextScope) flags
      else cat.classes.decl id :=
  ClassTable.decl_push ..

private theorem issue?_eq (cat : Catalog) (a : Act) : cat.issue? a = a.scope? cat.nextScope := by
  cases a with
  | cls name flags moduleName =>
    have here := decl_addClass cat name flags moduleName cat.classes.size
    rw [if_pos rfl] at here
    exact congrArg (fun d : ClassDecl => some d.scope) here
  | function name => rfl
  | change f => rfl

private theorem nextScope_after (plain : a.Plain) :
    (cat.after a).nextScope = cat.nextScope + (cat.issue? a).toList.length := by
  cases a with
  | cls name flags moduleName => rfl
  | function name => rfl
  | change f => exact (plain cat).1

private theorem exists_name_of_scope? {number : Nat} {scope : String} (plain : a.Plain)
    (h : a.scope? number = some scope) :
    ∃ name : String, '@' ∉ name.toList ∧ scope = scopeName name number := by
  cases a with
  | cls name flags moduleName =>
    exact ⟨_, not_mem_qualified plain.1 plain.2, (Option.some.inj h).symm⟩
  | function name => exact ⟨name, plain, (Option.some.inj h).symm⟩
  | change f => nomatch h

private theorem classScopes_addClass (cat : Catalog) (name : String) (flags : ClassFlags)
    (moduleName : String) : (cat.addClass name flags moduleName).2.classScopes =
      cat.classScopes ++ [scopeName (qualified moduleName name) cat.nextScope] := by
  have size : (cat.addClass name flags moduleName).2.classes.size = cat.classes.size + 1 :=
    ClassTable.size_push ..
  rw [classScopes, classScopes, size, List.range_succ, List.map_append, List.map_singleton,
    decl_addClass, if_pos rfl]
  refine congrArg (· ++ _) (List.map_congr_left fun id here => ?_)
  rw [decl_addClass, if_neg (Nat.ne_of_lt (List.mem_range.1 here))]

private theorem classScopes_after (plain : a.Plain) (cat : Catalog) :
    (cat.after a).classScopes.Sublist (cat.classScopes ++ (cat.issue? a).toList) := by
  cases a with
  | cls name flags moduleName =>
    rw [after, classScopes_addClass, issue?_eq]
    exact List.Sublist.refl _
  | function name => exact List.sublist_append_left ..
  | change f =>
    obtain ⟨-, size, kept⟩ := plain cat
    have same : (f cat).classScopes = cat.classScopes := by
      rw [classScopes, classScopes, size]
      exact List.map_congr_left fun id _ => kept id
    exact same ▸ List.sublist_append_left ..

/-! ### All steps -/

private theorem exists_number_of_mem_issued (plain : ∀ a ∈ acts, a.Plain) {scope : String}
    (h : scope ∈ cat.issued acts) :
    ∃ (name : String) (number : Nat), cat.nextScope ≤ number ∧ '@' ∉ name.toList ∧
      scope = scopeName name number := by
  induction acts generalizing cat with
  | nil => nomatch h
  | cons a as ih =>
    obtain ⟨here, later⟩ := List.forall_mem_cons.1 plain
    rcases List.mem_append.1 h with first | rest
    · rw [Option.mem_toList, issue?_eq] at first
      obtain ⟨name, free, named⟩ := exists_name_of_scope? here first
      exact ⟨name, cat.nextScope, Nat.le_refl _, free, named⟩
    · obtain ⟨name, number, beyond, free, named⟩ := ih later rest
      rw [nextScope_after here] at beyond
      exact ⟨name, number, Nat.le_of_add_right_le beyond, free, named⟩

private theorem nodup_issued (plain : ∀ a ∈ acts, a.Plain) (cat : Catalog) :
    (cat.issued acts).Nodup := by
  induction acts generalizing cat with
  | nil => exact List.nodup_nil
  | cons a as ih =>
    obtain ⟨here, later⟩ := List.forall_mem_cons.1 plain
    rw [issued]
    cases first : cat.issue? a with
    | none => exact ih later _
    | some scope =>
      -- The first scope has the next number, and those handed out later have greater ones.
      refine List.nodup_cons.2 ⟨fun again => ?_, ih later _⟩
      obtain ⟨name, number, beyond, -, named⟩ := exists_number_of_mem_issued later again
      rw [issue?_eq] at first
      obtain ⟨name', -, named'⟩ := exists_name_of_scope? here first
      rw [nextScope_after here, issue?_eq, first, scopeName_inj (named.symm.trans named')] at beyond
      exact absurd beyond (Nat.not_succ_le_self _)

private theorem issuedByWord_eq (plain : ∀ a ∈ acts, a.Plain) {number : UInt32}
    (same : number.toNat = cat.nextScope)
    (few : cat.nextScope + (cat.issued acts).length < UInt32.size) :
    issuedByWord number acts = cat.issued acts := by
  induction acts generalizing cat number with
  | nil => rfl
  | cons a as ih =>
    obtain ⟨here, later⟩ := List.forall_mem_cons.1 plain
    have next : (cat.after a).nextScope = cat.nextScope + (cat.issue? a).toList.length :=
      nextScope_after here
    rw [issued, List.length_append, ← Nat.add_assoc, ← next] at few
    rw [issuedByWord, issued, same, ← issue?_eq]
    cases first : cat.issue? a with
    | none =>
      rw [first] at next
      exact ih later (same.trans next.symm) few
    | some scope =>
      rw [first] at next
      refine congrArg (scope :: ·) (ih later ?_ few)
      rw [UInt32.toNat_add, UInt32.toNat_one, same, next]
      exact Nat.mod_eq_of_lt (Nat.lt_of_le_of_lt (Nat.le_add_right _ _) (next ▸ few))

private theorem classScopes_foldl (plain : ∀ a ∈ acts, a.Plain) (cat : Catalog) :
    (acts.foldl after cat).classScopes.Sublist (cat.classScopes ++ cat.issued acts) := by
  induction acts generalizing cat with
  | nil => exact List.sublist_append_left ..
  | cons a as ih =>
    obtain ⟨here, later⟩ := List.forall_mem_cons.1 plain
    refine (ih later (cat.after a)).trans ?_
    rw [issued, ← List.append_assoc]
    exact (classScopes_after here cat).append_right _

private theorem classScopes_run (plain : ∀ a ∈ acts, a.Plain) :
    (run acts).classScopes.Sublist (empty.issued acts) :=
  classScopes_foldl plain empty

private theorem Owns.scope_mem (plain : ∀ a ∈ acts, a.Plain) {v : TypeVar} (h : Owns acts v) :
    v.scope ∈ empty.issued acts := by
  cases h with
  | param scope => exact scope
  | self declared =>
    exact (classScopes_run plain).subset (List.mem_map_of_mem (List.mem_range.2 declared))

private theorem Owns.not_mem_scope (plain : ∀ a ∈ acts, a.Plain) {v : TypeVar} (h : Owns acts v) :
    '@' ∉ v.scope.toList := by
  obtain ⟨name, number, -, free, named⟩ := exists_number_of_mem_issued plain (h.scope_mem plain)
  rw [named]
  exact not_mem_scopeName free number

/-- As long as a word can count the scopes, none is empty or handed out twice, and each class has one of
its own. A type that is recorded for a variable of these owners is found for the variables of its name and
scope, and what was found for any other stays. -/
theorem solutions_kept_apart (plain : ∀ a ∈ acts, a.Plain)
    (few : (empty.issued acts).length < UInt32.size) :
    issuedByWord 0 acts = empty.issued acts ∧ (empty.issued acts).Nodup ∧
      "" ∉ empty.issued acts ∧ (run acts).classScopes.Sublist (empty.issued acts) ∧
      ∀ v w, Owns acts v → Owns acts w → ∀ (σ : Solution) (t : Option Ty),
        (σ.insert v t).entries.lookup w.key =
            (if v.name = w.name ∧ v.scope = w.scope then some t else σ.entries.lookup w.key) ∧
          (σ.insert v t).get? w =
            if v.name = w.name ∧ v.scope = w.scope then t else σ.get? w := by
  refine ⟨issuedByWord_eq plain rfl (by rwa [empty, Nat.zero_add]), nodup_issued plain empty,
    fun unnamed => ?_, classScopes_run plain, fun v w hv hw σ t => ?_⟩
  · obtain ⟨name, number, -, -, named⟩ := exists_number_of_mem_issued plain unnamed
    exact scopeName_ne_empty name number named.symm
  · have same : w.key = v.key ↔ v.name = w.name ∧ v.scope = w.scope :=
      eq_comm.trans (TypeVar.key_inj (hv.not_mem_scope plain) (hw.not_mem_scope plain))
    simp only [← same]
    exact ⟨Solution.lookup_update .., σ.get?_insert v w t⟩

private theorem plain_addParam (c : ClassTy) (v : TypeVar) :
    (Act.change (·.addParam c v)).Plain := by
  refine fun cat => ⟨rfl, ClassTable.size_modify .., fun id => ?_⟩
  simp only [addParam, modify, ClassTable.decl_modify]
  split <;> rfl

/-- Two classes and a function between them, whose scopes are told apart by the numbers alone. -/
def threeOwners : List Act :=
  [.cls "B.0" .none "A", .change (·.addParam (.ofId 0) (.make "T" "A.B.0.0" .invariant none)),
    .function "A.B.0", .cls "A.B.0" .none ""]

/-- What is found for the parameter of the first class is not found for that of the function, which has
the same name, nor for the receiver in the second class. -/
theorem solutions_of_three_owners :
    (∀ a ∈ threeOwners, a.Plain) ∧ (empty.issued threeOwners).length < UInt32.size ∧
      let σ := Solution.empty.insert (.make "T" "A.B.0.0" .invariant none) (some .noneObject)
      σ.get? (.make "T" "A.B.0.0" .invariant none) = some .noneObject ∧
        σ.get? (.make "T" "A.B.0.1" .invariant none) = none ∧
        σ.get? ((run threeOwners).classes.selfVar (.ofId 1)) = none := by
  have plain : ∀ a ∈ threeOwners, a.Plain := by
    simp only [threeOwners, List.forall_mem_cons, List.not_mem_nil, false_implies, implies_true,
      and_true]
    exact ⟨⟨by decide, by decide⟩, plain_addParam _ _, (by decide : '@' ∉ "A.B.0".toList),
      by decide, by decide⟩
  have few : (empty.issued threeOwners).length < UInt32.size := by decide
  obtain ⟨-, -, -, -, apart⟩ := solutions_kept_apart plain few
  have issued : empty.issued threeOwners = ["A.B.0.0", "A.B.0.1", "A.B.0.2"] := by decide +kernel
  have first : Owns threeOwners (.make "T" "A.B.0.0" .invariant none) := .param (by rw [issued]; decide)
  have second : Owns threeOwners (.make "T" "A.B.0.1" .invariant none) := .param (by rw [issued]; decide)
  have receiver : Owns threeOwners ((run threeOwners).classes.selfVar (.ofId 1)) := .self (by decide)
  refine ⟨plain, few, ?_, ?_, ?_⟩
  · exact (apart _ _ first first .empty _).2.trans (if_pos ⟨rfl, rfl⟩)
  · exact (apart _ _ first second .empty _).2.trans (if_neg (by decide))
  · exact (apart _ _ first receiver .empty _).2.trans (if_neg (by decide))

end Catalog

end Conformance
