import Conformance.Proofs.Plain
import Conformance.Proofs.Scheme

/-!
# Specializations of a protocol

A specialization has the members of its protocol, with its type arguments in the places of the
parameters. Two specializations are compared member by member. Where the members are declared by
schemes, what the comparison comes to depends on how the types of the members use each parameter,
and on how the type arguments in its place meet.
-/

namespace Conformance

open Check

/-- The place of the last parameter that is known by the key of a variable. -/
def slot (v : TypeVar) : List TypeVar → Option Nat
  | [] => none
  | p :: ps =>
    match slot v ps with
    | some i => some (i + 1)
    | none => if v.key = p.key then some 0 else none

/-- The place among the arguments of a class from which a variable is replaced in its members. -/
def World.place (w : World) (c : ClassTy) (v : TypeVar) : Option Nat :=
  let d := w.classes.decl c.id
  if v.access ≠ .whole ∨ !(Solution.forScope d.scope).solves v.scope then none
  else slot v d.params

private theorem slot_lt {v : TypeVar} {ps : List TypeVar} {i : Nat} (h : slot v ps = some i) :
    i < ps.length := by
  induction ps generalizing i with
  | nil => cases h
  | cons p ps ih =>
    rw [slot] at h
    split at h
    · rename_i k hk
      cases h
      exact Nat.succ_lt_succ (ih hk)
    · split at h
      · cases h
        exact Nat.succ_pos _
      · cases h

private theorem slot_eq_none {v : TypeVar} {ps : List TypeVar} (h : v.key ∉ ps.map (·.key)) :
    slot v ps = none := by
  induction ps with
  | nil => rfl
  | cons p ps ih =>
    rw [List.map_cons, List.mem_cons, not_or] at h
    rw [slot, ih h.2]
    exact if_neg h.1

private theorem slot_of_nodup {v : TypeVar} {ps : List TypeVar} {i : Nat}
    (distinct : (ps.map (·.key)).Nodup) (h : ps[i]? = some v) : slot v ps = some i := by
  induction ps generalizing i with
  | nil => cases h
  | cons p ps ih =>
    rw [List.map_cons, List.nodup_cons] at distinct
    rw [slot]
    cases i with
    | succ i => rw [ih distinct.2 h]
    | zero =>
      cases h
      rw [slot_eq_none distinct.1]
      exact if_pos rfl

theorem World.place_lt {w : World} {c : ClassTy} {v : TypeVar} {i : Nat}
    (h : w.place c v = some i) : i < (w.classes.decl c.id).params.length := by
  unfold place at h
  dsimp only at h
  split at h
  · cases h
  · exact slot_lt h

/-- A parameter stands at its own place, unless another one has the same key. -/
theorem World.place_param {w : World} {P : ClassTy} {v : TypeVar} {k : Nat}
    (hv : (w.classes.decl P.id).params[k]? = some v)
    (distinct : ((w.classes.decl P.id).params.map TypeVar.key).Nodup) (whole : v.access = .whole)
    (scope : v.scope = (w.classes.decl P.id).scope) (named : v.scope ≠ "") :
    w.place P v = some k := by
  have own : (Solution.forScope v.scope).solves v.scope = true := by
    simp [Solution.forScope, Solution.addScope, Solution.solves, Solution.empty, named]
  unfold World.place
  dsimp only
  rw [if_neg (by simp [whole, ← scope, own]), slot_of_nodup distinct hv]

private theorem get?_go (v : TypeVar) (σ : Solution) {ps : List TypeVar} {ts : List (Option Ty)}
    (full : ts.length = ps.length) :
    (Solution.ofClass.go σ ps ts).get? v =
      match slot v ps with
      | some i => (ts[i]?).join
      | none => σ.get? v := by
  induction ps generalizing σ ts with
  | nil => rfl
  | cons p ps ih =>
    cases ts with
    | nil => cases full
    | cons t ts =>
      rw [Solution.ofClass.go, ih _ (Nat.succ.inj full), slot]
      cases slot v ps with
      | some i => rfl
      | none =>
        dsimp only
        rw [Solution.get?_insert]
        split <;> rfl

private theorem scopes_go (σ : Solution) (ps : List TypeVar) (ts : List (Option Ty)) :
    (Solution.ofClass.go σ ps ts).scopes = σ.scopes := by
  induction ps generalizing σ ts with
  | nil => rfl
  | cons p ps ih =>
    cases ts with
    | nil => rw [Solution.ofClass.go, ih, Solution.scopes_insert]
    | cons t ts => rw [Solution.ofClass.go, ih, Solution.scopes_insert]

theorem scopes_ofClass (classes : ClassTable) (c : ClassTy) :
    (Solution.ofClass classes c).scopes = (Solution.forScope (classes.decl c.id).scope).scopes := by
  unfold Solution.ofClass
  dsimp only
  split
  · rfl
  · exact scopes_go _ _ _

theorem isEmpty_go {σ : Solution} {ps : List TypeVar} {ts : List (Option Ty)}
    (h : σ.isEmpty = false ∨ ps ≠ []) : (Solution.ofClass.go σ ps ts).isEmpty = false := by
  induction ps generalizing σ ts with
  | nil => exact h.resolve_right fun h => h rfl
  | cons p ps ih =>
    cases ts with
    | nil => exact ih (.inl (Fragment.isEmpty_insert _ _ _))
    | cons t ts => exact ih (.inl (Fragment.isEmpty_insert _ _ _))

/-- The view of a class with these type arguments. -/
def ClassTy.given (c : ClassTy) (ts : List Ty) : ClassTy := c.withArgs (ts.map some) true

variable {w : World} {P : ClassTy} {ts us : List Ty}

/-- What stands for a variable in the members of a specialization. -/
theorem ofVar_given (full : ts.length = (w.classes.decl P.id).params.length) (v : TypeVar) :
    Substitution.ofVar (Solution.ofClass w.classes (P.given ts)) false v =
      ((w.place P v).bind fun i => ts[i]?).getD (.var v) := by
  have solves : (Solution.ofClass w.classes (P.given ts)).solves v.scope =
      (Solution.forScope (w.classes.decl P.id).scope).solves v.scope := by
    rw [Solution.solves, Solution.solves]
    exact congrArg (!v.scope.isEmpty && List.contains · v.scope) (scopes_go _ _ _)
  have found : (Solution.ofClass w.classes (P.given ts)).get? v =
      (slot v (w.classes.decl P.id).params).bind fun i => ts[i]? := by
    have length : (ts.map some).length = (w.classes.decl P.id).params.length := by
      rw [List.length_map, full]
    refine (get?_go v _ length).trans ?_
    cases slot v (w.classes.decl P.id).params with
    | some i => cases hi : ts[i]? <;> simp [hi]
    | none => simp [Solution.forScope, Solution.addScope, Solution.get?, Solution.empty,
        apply_ite Solution.entries]
  unfold Substitution.ofVar World.place
  simp only [solves, found]
  split
  · rfl
  · cases (slot v (w.classes.decl P.id).params).bind fun i => ts[i]? <;> rfl

/-- At each variable of their members two specializations meet in both directions, and they do not
both have a property there. -/
structure World.Compares (w : World) (inf : Inference) (P : ClassTy) (ts us : List Ty)
    (along against equal : TypeVar → Prop) : Prop where
  ahead : ∀ v, Meets w inf 1
    (Substitution.ofVar (Solution.ofClass w.classes (P.given ts)) false v)
    (Substitution.ofVar (Solution.ofClass w.classes (P.given us)) false v) (along v) (equal v)
  back : ∀ v, Meets w inf 1
    (Substitution.ofVar (Solution.ofClass w.classes (P.given us)) false v)
    (Substitution.ofVar (Solution.ofClass w.classes (P.given ts)) false v) (against v) (equal v)
  apart : ∀ v,
    Match.property? w (Substitution.ofVar (Solution.ofClass w.classes (P.given ts)) false v) =
      none ∨
    Match.property? w (Substitution.ofVar (Solution.ofClass w.classes (P.given us)) false v) = none

theorem World.Compares.symm {inf : Inference} {along against equal : TypeVar → Prop}
    (h : w.Compares inf P ts us along against equal) :
    w.Compares inf P us ts against along equal :=
  ⟨h.back, h.ahead, fun v => (h.apart v).symm⟩

/-- Two specializations are compared variable by variable if they are argument by argument. -/
theorem compares_given {inf : Inference} (full : ts.length = (w.classes.decl P.id).params.length)
    (full' : us.length = (w.classes.decl P.id).params.length) {along against equal : Nat → Prop}
    (each : ∀ (i : Nat) (t u : Ty), ts[i]? = some t → us[i]? = some u →
      Meets w inf 1 t u (along i) (equal i) ∧ Meets w inf 1 u t (against i) (equal i) ∧
        (Match.property? w t = none ∨ Match.property? w u = none)) :
    w.Compares inf P ts us (fun v => ∀ i, w.place P v = some i → along i)
      (fun v => ∀ i, w.place P v = some i → against i)
      (fun v => ∀ i, w.place P v = some i → equal i) := by
  have at_var (v : TypeVar) :
      (w.place P v = none ∧
        Substitution.ofVar (Solution.ofClass w.classes (P.given ts)) false v = .var v ∧
        Substitution.ofVar (Solution.ofClass w.classes (P.given us)) false v = .var v) ∨
      ∃ i t u, w.place P v = some i ∧ ts[i]? = some t ∧ us[i]? = some u ∧
        Substitution.ofVar (Solution.ofClass w.classes (P.given ts)) false v = t ∧
        Substitution.ofVar (Solution.ofClass w.classes (P.given us)) false v = u := by
    rw [ofVar_given full, ofVar_given full']
    cases hv : w.place P v with
    | none => exact .inl ⟨rfl, rfl, rfl⟩
    | some i =>
      have hi := World.place_lt hv
      obtain ⟨t, ht⟩ : ∃ t, ts[i]? = some t := ⟨_, List.getElem?_eq_getElem (full ▸ hi)⟩
      obtain ⟨u, hu⟩ : ∃ u, us[i]? = some u := ⟨_, List.getElem?_eq_getElem (full' ▸ hi)⟩
      exact .inr ⟨i, t, u, rfl, ht, hu, by simp [ht], by simp [hu]⟩
  refine ⟨fun v => ?_, fun v => ?_, fun v => ?_⟩ <;>
    rcases at_var v with ⟨hv, dest, source⟩ | ⟨i, t, u, hv, ht, hu, dest, source⟩ <;>
    rw [dest, source]
  · exact (meets_var_self v).iff (by simp [hv]) (by simp [hv])
  · exact (each i t u ht hu).1.iff (by simp [hv]) (by simp [hv])
  · exact (meets_var_self v).iff (by simp [hv]) (by simp [hv])
  · exact (each i t u ht hu).2.1.iff (by simp [hv]) (by simp [hv])
  · exact .inl rfl
  · exact (each i t u ht hu).2.2

/-! ## Members -/

def Member.IsCompared (m : Member) : Prop := m.flags.inClass = true ∧ m.flags.ignored = false

/-- A generic protocol that derives from no other one, and whose members are declared by schemes,
none of them as a property. -/
structure World.Schematic (w : World) (P : ClassTy) : Prop where
  protocol : w.classes.isProtocol P = true
  generic : (w.classes.decl P.id).params ≠ []
  bases : protocolBases w P = []
  names : (w.classes.decl P.id).members.names.Nodup
  specs : ∀ v ∈ (w.classes.decl P.id).params, v.isParamSpec = true → v.variance = .invariant
  members : ∀ e ∈ (w.classes.decl P.id).members.entries, e.2.IsCompared →
    ∀ t, e.2.declaredType = some t →
      t.Scheme w.classes Ty.levels ∧ Match.property? w t = none

instance (m : Member) : Decidable m.IsCompared :=
  inferInstanceAs (Decidable (m.flags.inClass = true ∧ m.flags.ignored = false))

instance (w : World) (P : ClassTy) : Decidable (w.Schematic P) :=
  decidable_of_iff
    (w.classes.isProtocol P = true ∧ (w.classes.decl P.id).params ≠ [] ∧ protocolBases w P = [] ∧
      (w.classes.decl P.id).members.names.Nodup ∧
      (∀ v ∈ (w.classes.decl P.id).params, v.isParamSpec = true → v.variance = .invariant) ∧
      ∀ e ∈ (w.classes.decl P.id).members.entries, e.2.IsCompared → ∀ t ∈ e.2.declaredType,
        t.Scheme w.classes Ty.levels ∧ Match.property? w t = none)
    ⟨fun ⟨protocol, generic, bases, names, specs, members⟩ =>
      ⟨protocol, generic, bases, names, specs, members⟩,
    fun h => ⟨h.protocol, h.generic, h.bases, h.names, h.specs, h.members⟩⟩

/-- What has to hold of the variables of a member, by how its type uses them: a variable may be
assigned again, so its type has to stay the same. -/
def Member.Allows (w : World) (along against equal : TypeVar → Prop) (m : Member) : Prop :=
  m.IsCompared → ∀ t, m.declaredType = some t →
    if m.isMutableVariable then ∀ v, t.Mentions v → equal v else t.Allows w along against equal

private theorem MemberTable.find?_of_mem {table : MemberTable} (distinct : table.names.Nodup)
    {name : String} {m : Member} (h : (name, m) ∈ table.entries) :
    table.find? name = some m := by
  obtain ⟨entries⟩ := table
  simp only [names, find?] at distinct h ⊢
  induction entries with
  | nil => cases h
  | cons e es ih =>
    rw [List.map_cons, List.nodup_cons] at distinct
    rw [List.lookup_cons]
    rcases List.mem_cons.1 h with rfl | h
    · simp
    · have other : name ≠ e.1 := fun eq => distinct.1 (eq ▸ List.mem_map_of_mem h)
      rw [beq_eq_false_iff_ne.2 other]
      exact ih distinct.2 h

section

variable {F : Fragment} {t : Ty} {along against equal : TypeVar → Prop}

theorem property?_cls {c : ClassTy} :
    Match.property? w (.cls c) = none ↔ c.isInstance = false ∨ w.classes.isProperty c = false := by
  simp only [Match.property?, Ty.asInstance?]
  cases c.isInstance <;> simp

private theorem property?_fill {n : Nat} (h : t.Scheme w.classes n)
    (hp : Match.property? w t = none)
    (σ : Solution) : (∃ v, t = .var v ∧ F.fill w σ n t = Substitution.ofVar σ false v) ∨
      Match.property? w (F.fill w σ n t) = none := by
  cases h with
  | var v => exact .inl ⟨v, rfl, rfl⟩
  | noneObject => exact .inr rfl
  | bare bare nongeneric =>
    rw [Ty.Scheme.fill_bare bare nongeneric]
    exact .inr hp
  | @special n c ts given args =>
    have plain : c.isInstance = false ∨ w.classes.isProperty c = false := property?_cls.1 hp
    rw [Ty.Scheme.fill_special given args]
    exact .inr (property?_cls.2 plain)
  | function simple settled params ret =>
    rw [Ty.Scheme.fill_function settled params ret]
    exact .inr rfl

theorem specialize_given (generic : (w.classes.decl P.id).params ≠ []) (t : Ty) :
    t.specialize w.classes (P.given ts) none = Substitution.ofTyAt w.classes
      (Solution.ofClass w.classes (P.given ts)) false Ty.levels t := by
  have recorded : (Solution.ofClass w.classes (P.given ts)).isEmpty = false :=
    isEmpty_go (.inr generic)
  change t.substitute w.classes (Solution.ofClass w.classes (P.given ts)) false = _
  unfold Ty.substitute
  rw [recorded]
  rfl

private theorem lookup_given (distinct : (w.classes.decl P.id).members.names.Nodup) {name : String}
    {m : Member} (declared : (name, m) ∈ (w.classes.decl P.id).members.entries)
    (compared : m.IsCompared) : ∃ found, w.classes.lookup (P.given us) name = pure (some found) ∧
      found.member = m ∧ found.owner = some (P.given us).toClassObject := by
  obtain ⟨found, hf, member, owner⟩ : ∃ found,
      FoundMember.of? m (P.given us).toClassObject = some found ∧ found.member = m ∧
        found.owner = some (P.given us).toClassObject := by
    unfold FoundMember.of?
    cases m.flags.inInstance with
    | true => exact ⟨_, rfl, rfl, rfl⟩
    | false =>
      rw [compared.1]
      exact ⟨_, rfl, rfl, rfl⟩
  refine ⟨found, ?_, member, owner⟩
  have own : w.classes.findIn name [.resolved (P.given us).toClassObject] = some found := by
    have here : (w.classes.decl (P.given us).toClassObject.id).members.find? name = some m :=
      MemberTable.find?_of_mem distinct declared
    rw [ClassTable.findIn, here]
    dsimp only
    rw [hf]
  unfold ClassTable.lookup
  rw [own]

theorem steady_specialize (hP : w.Schematic P) (ht : t.Scheme w.classes Ty.levels) :
    F.Steady (· = F.fill w (Solution.ofClass w.classes (P.given ts)) Ty.levels t)
      (t.specialize w.classes (P.given ts) none) := by
  rw [specialize_given hP.generic]
  exact ⟨_, (ht.steady _).eq.1, rfl⟩

private theorem steady_typeOf (hP : w.Schematic P) {found : FoundMember}
    (owner : found.owner = some (P.given us).toClassObject)
    (declared : found.member.declaredType = some t) (ht : t.Scheme w.classes Ty.levels) :
    F.Steady (· = F.fill w (Solution.ofClass w.classes (P.given us)) Ty.levels t)
      (w.classes.typeOf found) := by
  have effective (inf : Inference) : found.member.effectiveType inf = t := by
    unfold Member.effectiveType
    rw [declared]
  unfold ClassTable.typeOf
  rw [owner]
  refine Fragment.steady_bind (Fragment.steady_get (P := fun _ => True) trivial) fun inf _ => ?_
  rw [effective]
  exact steady_specialize hP ht

private theorem decides_compareMember (hP : w.Schematic P) {name : String} {m : Member}
    (declared : (name, m) ∈ (w.classes.decl P.id).members.entries)
    (h : w.Compares F.inf P ts us along against equal) :
    Decides F.inf (m.Allows w along against equal)
      (compareMember w (judgeAt w 0) (P.given ts) (P.given us) (name, m)) := by
  unfold compareMember
  dsimp only
  split
  · rename_i skipped
    refine .yes fun compared => ?_
    simp [compared.1, compared.2] at skipped
  · rename_i compared
    have compared : m.IsCompared := by simpa [Member.IsCompared] using compared
    obtain ⟨found, hf, member, owner⟩ : ∃ found,
        w.classes.lookup (P.given us) name = pure (some found) ∧ found.member = m ∧
          found.owner = some (P.given us).toClassObject :=
      lookup_given hP.names declared compared
    refine .after (a := some found) (fun s _ => by rw [hf]; rfl) ?_
    cases ht : m.declaredType with
    | none => exact .yes fun _ t ht' => nomatch ht.symm.trans ht'
    | some t =>
      obtain ⟨scheme, ordinary⟩ := hP.members _ declared compared t ht
      obtain ⟨given, source, hg⟩ := steady_typeOf (F := F) hP owner (member ▸ ht) scheme
      obtain ⟨seen, dest, hs⟩ : F.Steady
          (· = F.fill w (Solution.ofClass w.classes (P.given ts)) Ty.levels t)
          (t.specialize w.classes (P.given ts) none) := steady_specialize hP scheme
      refine .after (fun s hs => exec_lift_of_eq (by rw [hs]; exact source)) ?_
      refine .after (fun s hs => exec_lift_of_eq (by rw [hs]; exact dest)) ?_
      have one : Match.property? w seen = none ∨ Match.property? w given = none := by
        rw [hs, hg]
        rcases property?_fill (F := F) scheme ordinary
          (Solution.ofClass w.classes (P.given ts)) with ⟨v, rfl, hv⟩ | none
        · exact h.apart v
        · exact .inl none
      have meets : Meets w F.inf Ty.levels seen given (t.Allows w along against equal)
          (∀ v, t.Mentions v → equal v) := by
        rw [hs, hg]
        exact scheme.meets (Nat.le_refl _) h.ahead h.back
      have decided : Decides F.inf (m.Allows w along against equal)
          ((judge w Ty.levels).assign { Mode.default with invariant := m.isMutableVariable }
            (some seen) (some given)) := by
        have allows : m.Allows w along against equal ↔ if m.isMutableVariable = true
            then ∀ v, t.Mentions v → equal v else t.Allows w along against equal := by
          unfold Member.Allows
          rw [ht]
          exact ⟨fun h => h compared t rfl, fun h _ u hu => Option.some.inj hu ▸ h⟩
        refine Decides.iff ?_ allows.symm
        cases hm : m.isMutableVariable with
        | true => exact meets.strict (Nat.le_refl _) rfl
        | false =>
          rw [if_neg Bool.false_ne_true]
          exact meets.loose (Nat.le_refl _) rfl
      split
      · rename_i both both'
        rcases one with none | none
        · cases none.symm.trans both
        · cases none.symm.trans both'
      · exact decided

private theorem decides_compareMembers {j : Judge} {dest source : ClassTy}
    {es : List (String × Member)}
    {inf : Inference} {p : Member → Prop}
    (h : ∀ e ∈ es, Decides inf (p e.2) (compareMember w j dest source e)) :
    Decides inf (∀ e ∈ es, p e.2) (compareMembers w j dest source es) := by
  induction es with
  | nil => exact .yes (fun _ h => nomatch h)
  | cons e es ih =>
    rw [List.forall_mem_cons] at h
    unfold compareMembers
    refine h.1.bind fun b hb => ?_
    cases b with
    | true => exact (ih h.2).iff (by simp [hb.1 rfl])
    | false => exact .no fun all => by cases hb.2 (all e List.mem_cons_self)

/-- Two specializations of a protocol fit if each member allows what their arguments come to. -/
theorem decides_fitsItself (hP : w.Schematic P)
    (h : w.Compares F.inf P ts us along against equal) :
    Decides F.inf
      (∀ e ∈ (w.classes.decl P.id).members.entries, e.2.Allows w along against equal)
      (fitsItself w (judgeAt w 0) (P.given ts) (P.given us)) := by
  have declared : P.id < w.classes.size := by
    refine Nat.lt_of_not_le fun beyond => hP.generic ?_
    rw [ClassTable.decl_of_size_le beyond]
    rfl
  obtain ⟨height, size⟩ : ∃ height, w.classes.size = height + 1 :=
    Nat.exists_eq_add_of_le' (Nat.zero_lt_of_lt declared)
  unfold fitsItself
  rw [size]
  have own := (decides_compareMembers fun e he =>
    decides_compareMember hP he h).solvingFor unsolving_empty
  have bases : Decides F.inf True
      (allOf (compareBase w (compareSpecializations w (judgeAt w 0) height) (P.given ts)
        (P.given us)) (protocolBases w (P.given ts))) := by
    have none : protocolBases w (P.given ts) = [] := hP.bases
    rw [none]
    exact .yes trivial
  exact (own.silently.both bases).iff (by rw [and_true])

end

end Conformance
