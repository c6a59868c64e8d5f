import Conformance.Proofs.History
import Conformance.Proofs.Precedence
import Conformance.Proofs.Validated

/-!
# Ancestry

The ancestors that are kept with a class are the classes that are reached from it by bases, each of
them once. This does not need an order of the ancestors: where the merge gets stuck, what is left of
its lists is added class by class, and classes that are declared later build on the result.
-/

namespace Conformance

/-! ## What a merge yields, stuck or not -/

namespace Ancestor

theorem any_same_resolved {as : List Ancestor} {c : ClassTy} :
    as.any (·.same (.resolved c)) = true ↔ c.id ∈ ids as := by
  rw [List.any_eq_true, mem_ids]
  constructor
  · rintro ⟨b, hb, same⟩
    obtain ⟨d, rfl, hd⟩ := same_resolved.1 same
    exact ⟨d, hb, hd⟩
  · rintro ⟨d, hd, same⟩
    exact ⟨.resolved d, hd, same_resolved.2 ⟨d, rfl, same⟩⟩

private theorem ids_append (as bs : List Ancestor) : ids (as ++ bs) = ids as ++ ids bs := by
  simp [ids]

private theorem ids_addMissing (found : List Ancestor) (a : Ancestor) (once : (ids found).Nodup) :
    let added := if found.any (·.same a) then found else found ++ [a]
    (ids added).Nodup ∧ ∀ id, id ∈ ids added ↔ id ∈ ids found ∨ id ∈ ids [a] := by
  intro added
  cases a with
  | unresolved t mark =>
    have same : ids added = ids found := by
      dsimp only [added]
      split
      · rfl
      · rw [ids_append, ids_unresolved, ids_nil, List.append_nil]
    rw [same]
    exact ⟨once, by simp⟩
  | resolved c =>
    by_cases seen : c.id ∈ ids found
    · have same : added = found := if_pos (any_same_resolved.2 seen)
      rw [same]
      refine ⟨once, fun id => ⟨.inl, ?_⟩⟩
      rintro (there | new)
      · exact there
      · rwa [List.mem_singleton.1 new]
    · have same : added = found ++ [.resolved c] := if_neg (mt any_same_resolved.1 seen)
      rw [same, ids_append]
      refine ⟨once.append (List.nodup_singleton _) ?_, fun id => List.mem_append⟩
      exact List.disjoint_singleton.2 seen

private theorem ids_appendMissing (found : List Ancestor) (lists : List (List Ancestor))
    (once : (ids found).Nodup) :
    (ids (appendMissing found lists)).Nodup ∧
      ∀ id, id ∈ ids (appendMissing found lists) ↔
        id ∈ ids found ∨ ∃ l ∈ lists, id ∈ ids l := by
  have flat : ∀ id, (∃ l ∈ lists, id ∈ ids l) ↔ id ∈ ids lists.flatten := by
    intro id
    simp only [mem_ids, List.mem_flatten]
    constructor
    · rintro ⟨l, hl, c, hc, rfl⟩
      exact ⟨c, ⟨l, hl, hc⟩, rfl⟩
    · rintro ⟨c, ⟨l, hl, hc⟩, rfl⟩
      exact ⟨l, hl, c, hc, rfl⟩
  simp only [flat]
  unfold appendMissing
  generalize lists.flatten = as
  induction as generalizing found with
  | nil => simpa using once
  | cons a as ih =>
    obtain ⟨still, added⟩ := ids_addMissing found a once
    obtain ⟨final, all⟩ := ih _ still
    rw [List.foldl_cons]
    refine ⟨final, fun id => ?_⟩
    rw [all, added, or_assoc, ← List.mem_append, ← ids_append, List.singleton_append]

private theorem ids_dropHeads {lists : List (List Ancestor)} {a : Ancestor}
    (next : nextHead lists = some a) :
    (∀ l ∈ dropHeads a lists, ∀ id ∈ ids l, id ∉ ids [a]) ∧
      ∀ id, (id ∈ ids [a] ∨ ∃ l ∈ dropHeads a lists, id ∈ ids l) ↔ ∃ l ∈ lists, id ∈ ids l := by
  obtain ⟨free, l₀, hl₀, first⟩ := mem_lists_of_nextHead next
  refine ⟨fun l' hl' id hid => ?_, fun id => ⟨?_, ?_⟩⟩
  · obtain ⟨l, hl, rfl⟩ := List.mem_map.1 hl'
    cases a with
    | unresolved t mark => simp
    | resolved c =>
      intro here
      rw [List.mem_singleton.1 here] at hid
      exact not_mem_ids_of_isFree free hl hid
  · rintro (here | ⟨l', hl', here⟩)
    · obtain ⟨c, hc, same⟩ := mem_ids.1 here
      rw [← List.mem_singleton.1 hc] at first
      exact ⟨l₀, hl₀, mem_ids.2 ⟨c, first, same⟩⟩
    · obtain ⟨l, hl, rfl⟩ := List.mem_map.1 hl'
      exact ⟨l, hl, (ids_dropHead_sublist a l).subset here⟩
  · rintro ⟨l, hl, here⟩
    rcases ids_dropHead a l with same | ⟨c, rfl, more⟩
    · exact .inr ⟨dropHead a l, List.mem_map_of_mem hl, same ▸ here⟩
    · rw [more] at here
      rcases List.mem_cons.1 here with rfl | here
      · exact .inl (by simp)
      · exact .inr ⟨dropHead (.resolved c) l, List.mem_map_of_mem hl, here⟩

private theorem ids_merge (found : List Ancestor) (lists : List (List Ancestor))
    (once : (ids found).Nodup) (fresh : ∀ l ∈ lists, ∀ id ∈ ids l, id ∉ ids found) :
    (ids (merge found lists).1).Nodup ∧
      ∀ id, id ∈ ids (merge found lists).1 ↔ id ∈ ids found ∨ ∃ l ∈ lists, id ∈ ids l := by
  fun_induction merge found lists with
  | case2 found lists stuck => exact ids_appendMissing found lists once
  | case1 found lists a next ih =>
    obtain ⟨gone, same⟩ := ids_dropHeads next
    have single : (ids [a]).Nodup := by
      cases a <;> simp
    have apart : ∀ id ∈ ids found, id ∉ ids [a] := by
      intro id before now
      obtain ⟨l, hl, here⟩ := (same id).1 (.inl now)
      exact fresh l hl id here before
    have fresh' : ∀ l ∈ dropHeads a lists, ∀ id ∈ ids l, id ∉ ids (found ++ [a]) := by
      intro l hl id here
      obtain ⟨l', hl', here'⟩ := (same id).1 (.inr ⟨l, hl, here⟩)
      rw [ids_append, List.mem_append]
      rintro (before | now)
      · exact fresh l' hl' id here' before
      · exact gone l hl id here now
    obtain ⟨nodup, all⟩ := ih (by rw [ids_append]; exact once.append single apart) fresh'
    refine ⟨nodup, fun id => ?_⟩
    rw [all, ids_append, List.mem_append, or_assoc, same]

private theorem mem_of_mem_appendMissing (found : List Ancestor) (lists : List (List Ancestor))
    {a : Ancestor} (h : a ∈ appendMissing found lists) : a ∈ found ∨ ∃ l ∈ lists, a ∈ l := by
  rw [← List.mem_flatten]
  unfold appendMissing at h
  generalize lists.flatten = as at h
  induction as generalizing found with
  | nil => exact .inl h
  | cons b as ih =>
    rw [List.foldl_cons] at h
    rcases ih _ h with before | later
    · split at before
      · exact .inl before
      · rcases List.mem_append.1 before with before | now
        · exact .inl before
        · rw [List.mem_singleton.1 now]
          exact .inr List.mem_cons_self
    · exact .inr (List.mem_cons_of_mem b later)

private theorem mem_of_mem_dropHead {a b : Ancestor} {l : List Ancestor} (h : b ∈ dropHead a l) :
    b ∈ l := by
  cases l with
  | nil => exact h
  | cons c cs =>
    rw [dropHead] at h
    split at h
    · exact List.mem_cons_of_mem c h
    · exact h

/-- A merge adds nothing that is not in its lists. -/
theorem mem_of_mem_merge (found : List Ancestor) (lists : List (List Ancestor)) {a : Ancestor}
    (h : a ∈ (merge found lists).1) : a ∈ found ∨ ∃ l ∈ lists, a ∈ l := by
  fun_induction merge found lists with
  | case2 found lists stuck => exact mem_of_mem_appendMissing found lists h
  | case1 found lists b next ih =>
    rcases ih h with before | ⟨l', hl', here⟩
    · rcases List.mem_append.1 before with before | now
      · exact .inl before
      · obtain ⟨-, l, hl, here⟩ := mem_lists_of_nextHead next
        rw [List.mem_singleton.1 now]
        exact .inr ⟨l, hl, here⟩
    · obtain ⟨l, hl, rfl⟩ := List.mem_map.1 hl'
      exact .inr ⟨l, hl, mem_of_mem_dropHead here⟩

/-- The entry is a class object or an unknown type. -/
def IsPlain : Ancestor → Prop
  | resolved _ => True
  | unresolved t _ => t = some .unknown

private theorem IsPlain.classId?_eq {a : Ancestor} (h : a.IsPlain) :
    a.classId? = a.class?.map ClassTy.id := by
  cases a with
  | resolved c => rfl
  | unresolved t mark =>
    rw [show t = some .unknown from h]
    rfl

end Ancestor

/-! ## Ancestors and bases -/

namespace ClassTable

/-- The second class is a base of the first. -/
def Extends (classes : ClassTable) (c b : ClassId) : Prop :=
  b ∈ Ancestor.ids (classes.decl c).bases

instance (classes : ClassTable) (c b : ClassId) : Decidable (classes.Extends c b) :=
  inferInstanceAs (Decidable (b ∈ Ancestor.ids (classes.decl c).bases))

/-- The classes of a list have their bases, each after those of its bases, and with each class are
kept the classes that are reached from it by bases, each of them once. -/
structure Ancestral (classes : ClassTable) (fixed : List ClassId) : Prop where
  declared : ∀ id ∈ fixed, id < classes.size
  bases : ∀ id b, classes.Extends id b → id ∈ fixed ∧ b ∈ fixed
  plain : ∀ id, ∀ a ∈ (classes.decl id).mro, a.IsPlain
  once : ∀ id, (Ancestor.ids (classes.decl id).mro).Nodup
  mem : ∀ id a, a ∈ Ancestor.ids (classes.decl id).mro ↔ Relation.TransGen classes.Extends id a
  proper : ∀ id, ¬ Relation.TransGen classes.Extends id id

namespace Ancestral

variable {classes : ClassTable} {fixed : List ClassId}

/-- The ancestors depend on nothing but the bases and the ancestors that the declarations say. -/
theorem of_same (h : classes.Ancestral fixed) {other : ClassTable}
    (size : classes.size ≤ other.size)
    (bases : ∀ id, (other.decl id).bases = (classes.decl id).bases)
    (mro : ∀ id, (other.decl id).mro = (classes.decl id).mro) : other.Ancestral fixed := by
  have same : other.Extends = classes.Extends := by
    funext c b
    unfold Extends
    rw [bases]
  refine ⟨fun id hid => Nat.lt_of_lt_of_le (h.declared id hid) size, ?_, ?_, ?_, ?_, ?_⟩
  · rw [same]
    exact h.bases
  · intro id
    rw [mro]
    exact h.plain id
  · intro id
    rw [mro]
    exact h.once id
  · intro id a
    rw [mro, same]
    exact h.mem id a
  · rw [same]
    exact h.proper

private theorem derives_iff (h : classes.Ancestral fixed) (c d : ClassTy) :
    classes.derives c d = true ↔ Relation.ReflTransGen classes.Extends c.id d.id := by
  have listed : (classes.decl c.id).mro.any (·.classId? == some d.id) = true ↔
      d.id ∈ Ancestor.ids (classes.decl c.id).mro := by
    rw [List.any_eq_true, Ancestor.mem_ids]
    constructor
    · rintro ⟨a, ha, found⟩
      rw [beq_iff_eq, (h.plain _ a ha).classId?_eq] at found
      cases a with
      | resolved b => exact ⟨b, ha, Option.some.inj found⟩
      | unresolved t mark => cases found
    · rintro ⟨b, hb, same⟩
      exact ⟨.resolved b, hb, beq_iff_eq.2 (congrArg some same)⟩
  have itself : c.sameClass d = true ↔ d.id = c.id := by
    rw [ClassTy.sameClass, beq_iff_eq, eq_comm]
  unfold derives
  rw [Bool.or_eq_true, listed, itself, h.mem, Relation.reflTransGen_iff_eq_or_transGen]

theorem mem_iff (h : classes.Ancestral fixed) (id a : ClassId) :
    a ∈ Ancestor.ids (classes.decl id).mro ↔
      a ≠ id ∧ Relation.ReflTransGen classes.Extends id a := by
  rw [h.mem, Relation.reflTransGen_iff_eq_or_transGen]
  constructor
  · intro reached
    refine ⟨?_, .inr reached⟩
    rintro rfl
    exact h.proper a reached
  · rintro ⟨other, same | reached⟩
    · exact absurd same other
    · exact reached

end Ancestral

private theorem mem_mro_iff_of_local {classes : ClassTable}
    (first : ∀ c b, classes.Extends c b → b < c)
    (step : ∀ id a, a ∈ Ancestor.ids (classes.decl id).mro ↔
      ∃ b, classes.Extends id b ∧ (a = b ∨ a ∈ Ancestor.ids (classes.decl b).mro))
    (id a : ClassId) :
    a ∈ Ancestor.ids (classes.decl id).mro ↔ Relation.TransGen classes.Extends id a := by
  induction id using Nat.strongRecOn with
  | ind id ih =>
    rw [step, Relation.TransGen.head'_iff]
    refine exists_congr fun b => and_congr_right fun hb => ?_
    rw [ih b (first id b hb), Relation.reflTransGen_iff_eq_or_transGen]

/-! ## Giving a class its bases -/

private theorem isPlain_lineageOfBase (classes : ClassTable) {base : Ancestor}
    (plain : ∀ c, base = .resolved c → ∀ a ∈ (classes.decl c.id).mro, a.IsPlain)
    (inf : Inference) : ∀ a ∈ (classes.lineageOfBase base inf).1, a.IsPlain := by
  cases base with
  | unresolved t mark =>
    intro a ha
    rw [List.mem_singleton.1 (show a ∈ [.unknown] from ha)]
    rfl
  | resolved c =>
    intro a ha
    rcases List.mem_cons.1 (show a ∈ _ :: _ from ha) with rfl | ha
    · trivial
    · have same := map_mapM (g := Ancestor.IsPlain) (h := Ancestor.IsPlain)
        (f := fun a => do
          match a with
          | .resolved b =>
            let b ← b.specialize classes c
            pure (.resolved b)
          | .unresolved _ _ => pure a)
        (fun a inf => by cases a <;> rfl) (classes.decl c.id).mro inf
      have given : a.IsPlain ∈ (classes.decl c.id).mro.map Ancestor.IsPlain := by
        rw [← same]
        exact List.mem_map_of_mem ha
      obtain ⟨b, hb, kind⟩ := List.mem_map.1 given
      rw [← kind]
      exact plain c rfl b hb

private theorem isPlain_lineages (classes : ClassTable)
    (plain : ∀ id, ∀ a ∈ (classes.decl id).mro, a.IsPlain) (bases : List Ancestor)
    (inf : Inference) :
    ∀ l ∈ (bases.mapM classes.lineageOfBase inf).1, ∀ a ∈ l, a.IsPlain := by
  intro l hl
  have brought (base : Ancestor) (inf : Inference) :
      (∀ a ∈ (classes.lineageOfBase base inf).1, a.IsPlain) = True :=
    eq_true (classes.isPlain_lineageOfBase (fun c _ => plain c.id) inf)
  have all := map_mapM (g := fun l : List Ancestor => ∀ a ∈ l, a.IsPlain) (h := fun _ => True)
    brought bases inf
  have here : (∀ a ∈ l, a.IsPlain) ∈ bases.map fun _ => True := by
    rw [← all]
    exact List.mem_map_of_mem hl
  obtain ⟨-, -, same⟩ := List.mem_map.1 here
  exact same ▸ trivial

private theorem mem_precedences (classes : ClassTable) (bs : List Ancestor) (a : ClassId) :
    (∃ ids ∈ bs.map classes.lineageIds ++ [Ancestor.ids bs], a ∈ ids) ↔
      ∃ b ∈ Ancestor.ids bs, a = b ∨ a ∈ Ancestor.ids (classes.decl b).mro := by
  constructor
  · rintro ⟨ids, hids, here⟩
    rcases List.mem_append.1 hids with hids | hids
    · obtain ⟨base, hbase, rfl⟩ := List.mem_map.1 hids
      cases base with
      | unresolved t mark => cases here
      | resolved c =>
        exact ⟨c.id, Ancestor.mem_ids.2 ⟨c, hbase, rfl⟩, List.mem_cons.1 here⟩
    · rw [List.mem_singleton.1 hids] at here
      exact ⟨a, here, .inl rfl⟩
  · rintro ⟨b, hb, here⟩
    obtain ⟨c, hc, rfl⟩ := Ancestor.mem_ids.1 hb
    exact ⟨_, List.mem_append_left _ (List.mem_map_of_mem hc), List.mem_cons.2 here⟩

section

variable {classes : ClassTable} {fixed : List ClassId} {id : ClassId} {bs : List Ancestor}

def withBases (classes : ClassTable) (id : ClassId) (bs : List Ancestor) : ClassTable :=
  (classes.modify id fun d => { d with bases := bs }).modify id fun d => { d with mro := [] }

private theorem size_withBases : (classes.withBases id bs).size = classes.size := by
  simp [withBases]

theorem decl_withBases_of_ne {other : ClassId} (hne : other ≠ id) :
    (classes.withBases id bs).decl other = classes.decl other := by
  simp [withBases, decl_modify, Ne.symm hne]

private theorem decl_withBases_self (declared : id < classes.size) :
    (classes.withBases id bs).decl id = { classes.decl id with bases := bs, mro := [] } := by
  simp [withBases, decl_modify, declared]

/-- What the bases bring along, merged. -/
def brought (classes : ClassTable) (id : ClassId) (bs : List Ancestor) (inf : Inference) :
    List Ancestor :=
  (Ancestor.merge [] ((bs.mapM (classes.withBases id bs).lineageOfBase inf).1 ++ [bs])).1

/-- A class that is given its bases gets them and what they bring along, and no other class is
touched. -/
theorem linearize_withBases (declared : id < classes.size) (bs : List Ancestor) (inf : Inference) :
    let after := ((classes.modify id fun d => { d with bases := bs }).linearize id inf).1.1
    after.size = classes.size ∧ (∀ other, other ≠ id → after.decl other = classes.decl other) ∧
      after.decl id = { classes.decl id with bases := bs, mro := classes.brought id bs inf } := by
  intro after
  have own := @decl_withBases_self classes id bs declared
  have given : ((classes.withBases id bs).decl id).bases = bs := by rw [own]
  have left : after = (classes.withBases id bs).modify id fun d =>
      { d with mro := classes.brought id bs inf } := by
    refine Eq.trans (b := (classes.withBases id bs).modify id fun d => { d with
      mro := (Ancestor.merge [] ((((classes.withBases id bs).decl id).bases.mapM
        (classes.withBases id bs).lineageOfBase inf).1 ++
          [((classes.withBases id bs).decl id).bases])).1 }) rfl ?_
    rw [given]
    rfl
  refine ⟨by simp [left, size_withBases], fun other hne => ?_, ?_⟩
  · rw [left, decl_modify, if_neg fun h => hne h.1.symm, decl_withBases_of_ne hne]
  · rw [left, decl_modify, if_pos ⟨rfl, size_withBases.symm ▸ declared⟩, own]

/-- What is known of the table after a class was given its bases: the others are as they were, and
the class has its bases and the ancestors that these bring along, each of them once. -/
structure Based (classes : ClassTable) (id : ClassId) (bs : List Ancestor)
    (after : ClassTable) : Prop where
  size : after.size = classes.size
  others : ∀ other, other ≠ id → after.decl other = classes.decl other
  bases : (after.decl id).bases = bs
  plain : ∀ a ∈ (after.decl id).mro, a.IsPlain
  once : (Ancestor.ids (after.decl id).mro).Nodup
  mem : ∀ a, a ∈ Ancestor.ids (after.decl id).mro ↔
    ∃ b ∈ Ancestor.ids bs, a = b ∨ a ∈ Ancestor.ids (classes.decl b).mro

/-- The bases bring along themselves and their ancestors, each of them once. -/
theorem ids_brought (apart : id ∉ Ancestor.ids bs) (inf : Inference) :
    (Ancestor.ids (classes.brought id bs inf)).Nodup ∧
      ∀ a, a ∈ Ancestor.ids (classes.brought id bs inf) ↔
        ∃ b ∈ Ancestor.ids bs, a = b ∨ a ∈ Ancestor.ids (classes.decl b).mro := by
  obtain ⟨once, all⟩ := Ancestor.ids_merge []
    ((bs.mapM (classes.withBases id bs).lineageOfBase inf).1 ++ [bs]) List.nodup_nil (by simp)
  refine ⟨once, fun a => (all a).trans ?_⟩
  have merged : ((bs.mapM (classes.withBases id bs).lineageOfBase inf).1 ++ [bs]).map Ancestor.ids =
      bs.map (classes.withBases id bs).lineageIds ++ [Ancestor.ids bs] := by
    rw [List.map_append, map_mapM (classes.withBases id bs).ids_lineageOfBase]
    rfl
  have listed := mem_precedences (classes.withBases id bs) bs a
  rw [← merged] at listed
  have same : ∀ b ∈ Ancestor.ids bs, (classes.withBases id bs).decl b = classes.decl b := by
    intro b hb
    apply decl_withBases_of_ne
    rintro rfl
    exact apart hb
  rw [or_iff_right (by simp), show (∃ l ∈ _, a ∈ Ancestor.ids l) ↔ _ from by simpa using listed]
  refine exists_congr fun b => and_congr_right fun hb => ?_
  rw [same b hb]

private theorem based_linearize (declared : id < classes.size) (apart : id ∉ Ancestor.ids bs)
    (given : ∀ a ∈ bs, a.IsPlain) (plain : ∀ other, ∀ a ∈ (classes.decl other).mro, a.IsPlain)
    (inf : Inference) :
    classes.Based id bs
      ((classes.modify id fun d => { d with bases := bs }).linearize id inf).1.1 := by
  obtain ⟨size, others, own⟩ := linearize_withBases declared bs inf
  obtain ⟨once, all⟩ := @ids_brought classes id bs apart inf
  have kept : ∀ other, ∀ a ∈ ((classes.withBases id bs).decl other).mro, a.IsPlain := by
    intro other a ha
    by_cases same : other = id
    · rw [same, decl_withBases_self declared] at ha
      cases ha
    · rw [decl_withBases_of_ne same] at ha
      exact plain other a ha
  refine ⟨size, others, by rw [own], ?_, by rwa [own], fun a => by rw [own, all]⟩
  rw [own]
  intro a ha
  rcases Ancestor.mem_of_mem_merge [] _ ha with none | ⟨l, hl, here⟩
  · cases none
  · rcases List.mem_append.1 hl with hl | hl
    · exact isPlain_lineages _ kept _ inf l hl a here
    · rw [List.mem_singleton.1 hl] at here
      exact given a here

/-- A class that is given bases among the classes that have theirs joins these. -/
theorem Ancestral.step (h : classes.Ancestral fixed) (fresh : id ∉ fixed)
    (declared : id < classes.size) (known : ∀ b ∈ Ancestor.ids bs, b ∈ fixed)
    {after : ClassTable} (based : classes.Based id bs after) : after.Ancestral (id :: fixed) := by
  have old : ∀ c b, c ≠ id → (after.Extends c b ↔ classes.Extends c b) := by
    intro c b other
    unfold Extends
    rw [based.others c other]
  have new : ∀ b, after.Extends id b ↔ b ∈ Ancestor.ids bs := by
    intro b
    unfold Extends
    rw [based.bases]
  have ne_of_mem : ∀ b ∈ fixed, b ≠ id := by
    rintro b hb rfl
    exact fresh hb
  -- From the other classes the same classes are reached as before.
  have reached : ∀ c a, c ≠ id →
      (Relation.TransGen after.Extends c a ↔ Relation.TransGen classes.Extends c a) := by
    intro c a other
    constructor
    · intro there
      induction there using Relation.TransGen.head_induction_on with
      | single last => exact .single ((old _ _ other).1 last)
      | head first _ ih =>
        have first := (old _ _ other).1 first
        exact .head first (ih (ne_of_mem _ (h.bases _ _ first).2))
    · intro there
      induction there using Relation.TransGen.head_induction_on with
      | single last => exact .single ((old _ _ other).2 last)
      | head first _ ih =>
        exact .head ((old _ _ other).2 first) (ih (ne_of_mem _ (h.bases _ _ first).2))
  have own : ∀ a, Relation.TransGen after.Extends id a ↔
      ∃ b ∈ Ancestor.ids bs, a = b ∨ Relation.TransGen classes.Extends b a := by
    intro a
    rw [Relation.TransGen.head'_iff]
    refine exists_congr fun b => ?_
    rw [new]
    refine and_congr_right fun hb => ?_
    rw [Relation.reflTransGen_iff_eq_or_transGen, reached b a (ne_of_mem b (known b hb))]
  have inside : ∀ c a, Relation.TransGen classes.Extends c a → a ≠ id := by
    intro c a there
    obtain ⟨d, -, last⟩ := Relation.TransGen.tail'_iff.1 there
    exact ne_of_mem a (h.bases _ _ last).2
  refine ⟨?_, ?_, ?_, ?_, ?_, ?_⟩
  · intro c hc
    rw [based.size]
    rcases List.mem_cons.1 hc with rfl | hc
    · exact declared
    · exact h.declared c hc
  · intro c b hb
    by_cases same : c = id
    · subst same
      exact ⟨List.mem_cons_self, List.mem_cons_of_mem _ (known b ((new b).1 hb))⟩
    · obtain ⟨hc, hb⟩ := h.bases c b ((old c b same).1 hb)
      exact ⟨List.mem_cons_of_mem _ hc, List.mem_cons_of_mem _ hb⟩
  · intro c
    by_cases same : c = id
    · exact same ▸ based.plain
    · rw [based.others c same]
      exact h.plain c
  · intro c
    by_cases same : c = id
    · exact same ▸ based.once
    · rw [based.others c same]
      exact h.once c
  · intro c a
    by_cases same : c = id
    · subst same
      rw [based.mem, own]
      simp only [h.mem]
    · rw [based.others c same, h.mem, reached c a same]
  · intro c there
    by_cases same : c = id
    · subst same
      obtain ⟨b, hb, here | there⟩ := (own _).1 there
      · exact ne_of_mem b (known b hb) here.symm
      · exact inside b _ there rfl
    · exact h.proper c ((reached c c same).1 there)

end

private theorem ancestral_of_local {classes : ClassTable}
    (first : ∀ id < classes.size, ∀ b ∈ Ancestor.ids (classes.decl id).bases, b < id)
    (brought : ∀ id < classes.size, Ancestor.ids (classes.decl id).mro =
      (Ancestor.ids (classes.decl id).bases).flatMap fun b =>
        b :: Ancestor.ids (classes.decl b).mro)
    (once : ∀ id < classes.size, (Ancestor.ids (classes.decl id).mro).Nodup)
    (resolved : ∀ id < classes.size, ∀ a ∈ (classes.decl id).mro, a.class?.isSome = true) :
    classes.Ancestral (List.range classes.size) := by
  have none_beyond : ∀ id, ¬ id < classes.size →
      (classes.decl id).bases = [] ∧ (classes.decl id).mro = [] := by
    intro id hid
    rw [decl_of_size_le (Nat.le_of_not_lt hid)]
    exact ⟨rfl, rfl⟩
  have step : ∀ id a, a ∈ Ancestor.ids (classes.decl id).mro ↔
      ∃ b, classes.Extends id b ∧ (a = b ∨ a ∈ Ancestor.ids (classes.decl b).mro) := by
    intro id a
    unfold Extends
    by_cases hid : id < classes.size
    · rw [brought id hid]
      simp
    · simp [none_beyond id hid]
  have earlier : ∀ c b, classes.Extends c b → c < classes.size ∧ b < c := by
    intro c b hb
    by_cases hc : c < classes.size
    · exact ⟨hc, first c hc b hb⟩
    · rw [Extends, (none_beyond c hc).1] at hb
      cases hb
  have below : ∀ c b, Relation.TransGen classes.Extends c b → b < c := by
    intro c b there
    induction there with
    | single last => exact (earlier _ _ last).2
    | tail _ last ih => exact Nat.lt_trans (earlier _ _ last).2 ih
  refine ⟨fun id hid => List.mem_range.1 hid, ?_, ?_, ?_, ?_, fun id there =>
    Nat.lt_irrefl id (below id id there)⟩
  · intro c b hb
    obtain ⟨hc, hlt⟩ := earlier c b hb
    exact ⟨List.mem_range.2 hc, List.mem_range.2 (Nat.lt_trans hlt hc)⟩
  · intro id a ha
    by_cases hid : id < classes.size
    · have some_class := resolved id hid a ha
      cases a with
      | resolved c => trivial
      | unresolved t mark => cases some_class
    · rw [(none_beyond id hid).2] at ha
      cases ha
  · intro id
    by_cases hid : id < classes.size
    · exact once id hid
    · rw [(none_beyond id hid).2]
      exact List.nodup_nil
  · exact mem_mro_iff_of_local (fun c b hb => (earlier c b hb).2) step

end ClassTable

/-! ## Sessions -/

/-- The bases are class objects of the given classes, or unknown. -/
def BasesAmong (given : List ClassId) (bases : List (Option Ty)) : Prop :=
  ∀ t ∈ bases, t = some .unknown ∨
    ∃ b : ClassTy, t = some (.cls b) ∧ b.isInstance = false ∧ b.id ∈ given

namespace Catalog

theorem mem_markBases {mark : Nat} {bases : List (Option Ty)} {a : Ancestor}
    (h : a ∈ markBases mark bases) : ∃ t ∈ bases, ∃ m, a = Ancestor.ofBase t m := by
  induction bases generalizing mark with
  | nil => cases h
  | cons t ts ih =>
    rcases List.mem_cons.1 h with rfl | h
    · exact ⟨t, List.mem_cons_self, mark, rfl⟩
    · obtain ⟨u, hu, found⟩ := ih h
      exact ⟨u, List.mem_cons_of_mem t hu, found⟩

private theorem of_mem_markBases {given : List ClassId} {mark : Nat} {bases : List (Option Ty)}
    (among : BasesAmong given bases) {a : Ancestor} (h : a ∈ markBases mark bases) :
    a.IsPlain ∧ ∀ c, a = .resolved c → c.id ∈ given := by
  obtain ⟨t, ht, m, rfl⟩ := mem_markBases h
  rcases among t ht with rfl | ⟨b, rfl, object, hb⟩
  · exact ⟨rfl, nofun⟩
  · have resolved : Ancestor.ofBase (some (.cls b)) m = .resolved b := by
      simp [Ancestor.ofBase, object]
    rw [resolved]
    refine ⟨trivial, ?_⟩
    rintro c ⟨⟩
    exact hb

variable {cat : Catalog} {fixed : List ClassId} {c : ClassTy} {bases : List (Option Ty)}

private theorem ancestral_setBases (h : cat.classes.Ancestral fixed)
    (declared : c.id < cat.classes.size)
    (fresh : c.id ∉ fixed) (among : BasesAmong fixed bases) (inf : Inference) :
    (cat.setBases c bases inf).1.1.classes.Ancestral (c.id :: fixed) := by
  have known : ∀ b ∈ Ancestor.ids (markBases cat.nextMark bases), b ∈ fixed := by
    intro b hb
    obtain ⟨d, hd, rfl⟩ := Ancestor.mem_ids.1 hb
    exact (of_mem_markBases among hd).2 d rfl
  have based := ClassTable.based_linearize declared (fun here => fresh (known _ here))
    (fun a ha => (of_mem_markBases among ha).1) h.plain inf
  exact h.step fresh declared known based

private theorem ancestral_modify (h : cat.classes.Ancestral fixed) (c : ClassTy)
    {f : ClassDecl → ClassDecl} (keeps : ∀ d, (f d).bases = d.bases ∧ (f d).mro = d.mro) :
    (cat.modify c f).classes.Ancestral fixed := by
  refine h.of_same ?_ (fun id => ?_) fun id => ?_
  · simp [Catalog.modify]
  · simp only [Catalog.modify, ClassTable.decl_modify]
    split
    · exact (keeps _).1
    · rfl
  · simp only [Catalog.modify, ClassTable.decl_modify]
    split
    · exact (keeps _).2
    · rfl

/-- The bases of a class that is finalized: the class of all objects if none are given. -/
theorem finalize_eq (cat : Catalog) (c : ClassTy) (bases : List (Option Ty))
    (metaclass : Option Ty) (inf : Inference) :
    ∃ t, (cat.finalize c bases metaclass inf).1 =
      ((cat.modify c fun d => { d with metaclass := some t }).setBases c
        (if bases.isEmpty && !c.sameClass Builtin.object then [some (.cls Builtin.object)]
          else bases) inf).1.1 := by
  unfold finalize
  dsimp only
  generalize (if bases.isEmpty && !c.sameClass Builtin.object then
    [some (Ty.cls Builtin.object)] else bases) = given
  exact ⟨_, rfl⟩

private theorem ancestral_finalize (h : cat.classes.Ancestral fixed)
    (rooted : Builtin.object.id ∈ fixed)
    (declared : c.id < cat.classes.size) (fresh : c.id ∉ fixed) (among : BasesAmong fixed bases)
    (metaclass : Option Ty) (inf : Inference) :
    (cat.finalize c bases metaclass inf).1.classes.Ancestral (c.id :: fixed) := by
  obtain ⟨t, finalized⟩ := cat.finalize_eq c bases metaclass inf
  rw [finalized]
  have marked := ancestral_modify h c (f := fun d => { d with metaclass := some t })
    fun _ => ⟨rfl, rfl⟩
  refine ancestral_setBases marked ?_ fresh ?_ inf
  · simpa [Catalog.modify] using declared
  · split
    · intro t ht
      rw [List.mem_singleton.1 ht]
      exact .inr ⟨Builtin.object, rfl, rfl, rooted⟩
    · exact among

private theorem ancestral_addClass (h : cat.classes.Ancestral fixed) (name : String)
    (flags : ClassFlags)
    (moduleName : String) : (cat.addClass name flags moduleName).2.classes.Ancestral fixed := by
  have undeclared : cat.classes.decl cat.classes.size = default :=
    ClassTable.decl_of_size_le (Nat.le_refl _)
  refine h.of_same ?_ (fun id => ?_) fun id => ?_
  · simp [addClass]
  · by_cases new : id = cat.classes.size
    · simp [addClass, ClassTable.decl_push, new, undeclared, default, ClassDecl.fresh]
    · simp [addClass, ClassTable.decl_push, new]
  · by_cases new : id = cat.classes.size
    · simp [addClass, ClassTable.decl_push, new, undeclared, default, ClassDecl.fresh]
    · simp [addClass, ClassTable.decl_push, new]

private theorem ancestral_declareClass (h : cat.classes.Ancestral fixed)
    (rooted : Builtin.object.id ∈ fixed) (name : String) (flags : ClassFlags)
    (among : BasesAmong fixed bases) (inf : Inference) :
    (cat.declareClass name flags bases inf).1.2.classes.Ancestral (cat.classes.size :: fixed) := by
  rw [declareClass_eq]
  refine ancestral_finalize (ancestral_addClass h name flags "") rooted ?_ ?_ among none inf
  · simp [addClass, ClassTy.ofId]
  · exact fun here => Nat.lt_irrefl _ (h.declared _ here)

end Catalog

namespace Session

variable {s t : Session} {fixed : List ClassId}

/-- A step that gives no class its bases: a session is asked something, or it adds classes, scopes,
parameters, members and modules. -/
inductive Aside : Session → Session → Prop
  | asked {s t : Session} (h : Asked s t) : Aside s t
  | addClass (name : String) (flags : ClassFlags) (moduleName : String) (s : Session) :
      Aside s ((addClass name flags moduleName).run s).2
  | functionScope (name : String) (s : Session) : Aside s ((functionScope name).run s).2
  | addParam (c : ClassTy) (name : String) (variance : Variance) (bound : Option Ty)
      (s : Session) : Aside s ((addParam c name variance bound).run s).2
  | addParamSpec (c : ClassTy) (name : String) (s : Session) :
      Aside s ((addParamSpec c name).run s).2
  | addMember (c : ClassTy) (name : String) (m : Member) (s : Session) :
      Aside s ((addMember c name m).run s).2
  | addModule (s : Session) : Aside s (addModule.run s).2
  | addModuleMember (table : TableId) (name : String) (m : Member) (s : Session) :
      Aside s ((addModuleMember table name m).run s).2
  | setOptions (options : Options) (s : Session) : Aside s { s with options := options }

/-- A session in which no class was given its bases twice, and each only after these were given
theirs. The list has the classes that were given theirs. -/
inductive Grown : List ClassId → Session → Prop
  | start : Grown (Builtin.all.map ClassTy.id) .start
  | aside {fixed : List ClassId} {s t : Session} (h : Grown fixed s) (step : Aside s t) :
      Grown fixed t
  | finalizeClass {fixed : List ClassId} {s : Session} (h : Grown fixed s) (c : ClassTy)
      (bases : List (Option Ty)) (metaclass : Option Ty) (declared : c.id < s.classes.size)
      (fresh : c.id ∉ fixed) (among : BasesAmong fixed bases) :
      Grown (c.id :: fixed) ((finalizeClass c bases metaclass).run s).2
  | setBases {fixed : List ClassId} {s : Session} (h : Grown fixed s) (c : ClassTy)
      (bases : List (Option Ty)) (declared : c.id < s.classes.size) (fresh : c.id ∉ fixed)
      (among : BasesAmong fixed bases) : Grown (c.id :: fixed) ((setBases c bases).run s).2
  | declareClass {fixed : List ClassId} {s : Session} (h : Grown fixed s) (name : String)
      (bases : List (Option Ty)) (among : BasesAmong fixed bases) :
      Grown (s.classes.size :: fixed) ((declareClass name bases).run s).2
  | declareProtocol {fixed : List ClassId} {s : Session} (h : Grown fixed s) (name : String)
      (bases : List (Option Ty)) (among : BasesAmong fixed bases) :
      Grown (s.classes.size :: fixed) ((declareProtocol name bases).run s).2
  | declareProperty {fixed : List ClassId} {s : Session} (h : Grown fixed s)
      (getter setter deleter : Option FunctionTy) :
      Grown (s.classes.size :: fixed) ((declareProperty getter setter deleter).run s).2
  /-- The class that takes the place of other parameters may be declared on the way. -/
  | checkVariance {fixed : List ClassId} {s t : Session} (h : Grown fixed s) (protocol : ClassTy)
      (l : Location) (left : ((ExceptT.run (checkVariance protocol l)).run s).2 = t) :
      Grown (List.range' s.classes.size (t.classes.size - s.classes.size) ++ fixed) t

theorem catalog_declaring {α : Type} (act : Catalog → StateM Inference (α × Catalog))
    (s : Session) : ((declaring act).run s).2.catalog = (act s.catalog s.inference).1.2 := rfl

theorem catalog_finalizeClass (c : ClassTy) (bases : List (Option Ty)) (metaclass : Option Ty)
    (s : Session) : ((finalizeClass c bases metaclass).run s).2.catalog =
      (s.catalog.finalize c bases metaclass s.inference).1 := by
  rw [finalizeClass, catalog_declaring]
  generalize s.catalog.finalize c bases metaclass = act
  rfl

theorem catalog_setBases (c : ClassTy) (bases : List (Option Ty)) (s : Session) :
    ((setBases c bases).run s).2.catalog = (s.catalog.setBases c bases s.inference).1.1 := by
  rw [setBases, catalog_declaring]
  generalize s.catalog.setBases c bases = act
  rfl

theorem catalog_addMember (c : ClassTy) (name : String) (m : Member) (s : Session) :
    ((addMember c name m).run s).2.catalog = (s.catalog.addMember? c name m).getD s.catalog := by
  rw [addMember, catalog_declaring]
  cases s.catalog.addMember? c name m <;> rfl

theorem Aside.ancestral (step : Aside s t) (h : s.classes.Ancestral fixed) :
    t.classes.Ancestral fixed := by
  cases step with
  | asked asked =>
    have same : t.classes = s.classes := congrArg World.classes asked.onward.world
    rwa [same]
  | addClass name flags moduleName => exact Catalog.ancestral_addClass h name flags moduleName
  | functionScope name => exact h
  | addParam c name variance bound => exact Catalog.ancestral_modify h c fun _ => ⟨rfl, rfl⟩
  | addParamSpec c name => exact Catalog.ancestral_modify h c fun _ => ⟨rfl, rfl⟩
  | addMember c name m =>
    unfold Session.classes
    rw [catalog_addMember]
    unfold Catalog.addMember?
    cases (s.catalog.classes.decl c.id).members.insert? name m with
    | none => exact h
    | some members => exact Catalog.ancestral_modify h c fun _ => ⟨rfl, rfl⟩
  | addModule => exact h
  | addModuleMember table name m =>
    unfold Session.addModuleMember
    simp only [StateT.run_bind, StateT.run_get, pure_bind]
    split <;> exact h
  | setOptions => exact h

/-- A check of variances declares the class that takes the place of other parameters, or none. -/
theorem catalog_checkVariance (protocol : ClassTy) (l : Location) (s : Session) :
    let t := ((ExceptT.run (checkVariance protocol l)).run s).2
    t.catalog = s.catalog ∨ s.placeholder = none ∧
      ∃ inf, t.catalog = (s.catalog.declareClass "__varianceDummy" .none [] inf).1.2 := by
  let R (s t : Session) : Prop :=
    (t.catalog = s.catalog ∧ t.placeholder = s.placeholder) ∨
      s.placeholder = none ∧ t.placeholder ≠ none ∧
        ∃ inf, t.catalog = (s.catalog.declareClass "__varianceDummy" .none [] inf).1.2
  have passed : PassedOn R := by
    refine ⟨fun s => .inl ⟨rfl, rfl⟩, ?_, fun _ _ s => .inl ⟨rfl, rfl⟩, fun s _ => .inl ⟨rfl, rfl⟩⟩
    rintro s t u (⟨same, kept⟩ | ⟨unplaced, placed, declared⟩) (⟨same', kept'⟩ | ⟨unplaced', placed', declared'⟩)
    · exact .inl ⟨same'.trans same, kept'.trans kept⟩
    · exact .inr ⟨kept ▸ unplaced', placed', same ▸ declared'⟩
    · exact .inr ⟨unplaced, kept' ▸ placed, same'.symm ▸ declared⟩
    · exact absurd unplaced' placed
  have placeholder : Leads R (placeholderClass : ExceptT InferenceError SessionM ClassTy) := by
    intro s
    change R s (placeholderClass.run s).2
    rcases hp : s.placeholder with _ | c
    · refine .inr ⟨hp, ?_, s.inference, catalog_placeholderClass hp⟩
      rw [placeholder_placeholderClass]
      nofun
    · have same : (placeholderClass.run s).2 = s := by
        unfold placeholderClass
        simp only [StateT.run_bind, StateT.run_get, pure_bind, hp]
        rfl
      rw [same]
      exact .inl ⟨rfl, rfl⟩
  rcases passed.leads_checkVariance placeholder protocol l s with ⟨same, -⟩ | ⟨none, -, declared⟩
  · exact .inl same
  · exact .inr ⟨none, declared⟩

/-- A session that is asked something declares nothing. -/
theorem Asked.catalog (h : Asked s t) : t.catalog = s.catalog := by
  have reported : ∀ (l : Location) (code : Code) (wording : Wording)
      (values : Session → List (String × String)) (check : World → Check Bool),
      ((ExceptT.run (checkOrReport l code wording values check)).run s).2.catalog = s.catalog := by
    intro l code wording values check
    obtain ⟨report, left⟩ := run_checkOrReport l code wording values check s
    rw [left]
    rfl
  cases h with
  | check | infer | getter | look => rfl
  | checkAssignment declared assigned l => exact reported _ _ _ _ _
  | checkProtocol protocol candidate l =>
    unfold Session.checkProtocol
    split <;> exact reported _ _ _ _ _
  | checkVariance protocol l _ declared =>
    rcases catalog_checkVariance protocol l s with same | ⟨none, -⟩
    · exact same
    · rw [none] at declared
      cases declared

/-- The builtin classes have their bases from the start. -/
theorem ancestral_start :
    Session.start.classes.Ancestral (Builtin.all.map ClassTy.id) := by
  have facts : Session.start.classes.size = 11 ∧
      ∀ id < 11,
        let d := Session.start.classes.decl id
        (∀ b ∈ Ancestor.ids d.bases, b < id) ∧
          (Ancestor.ids d.mro = (Ancestor.ids d.bases).flatMap fun b =>
            b :: Ancestor.ids (Session.start.classes.decl b).mro) ∧
          (Ancestor.ids d.mro).Nodup ∧ ∀ a ∈ d.mro, a.class?.isSome = true := by
    decide +kernel
  obtain ⟨size, each⟩ := facts
  have all : Builtin.all.map ClassTy.id = List.range Session.start.classes.size := by
    rw [size]
    rfl
  rw [all]
  refine ClassTable.ancestral_of_local ?_ ?_ ?_ ?_ <;> rw [size] <;> intro id hid
  · exact (each id hid).1
  · exact (each id hid).2.1
  · exact (each id hid).2.2.1
  · exact (each id hid).2.2.2

/-- However a session was built up, the classes kept with a class are those reached by bases. -/
theorem Grown.ancestral (h : Grown fixed s) :
    s.classes.Ancestral fixed ∧ ∀ id ∈ Builtin.all.map ClassTy.id, id ∈ fixed := by
  induction h with
  | start => exact ⟨ancestral_start, fun id hid => hid⟩
  | aside h step ih => exact ⟨step.ancestral ih.1, ih.2⟩
  | @finalizeClass fixed s h c bases metaclass declared fresh among ih =>
    obtain ⟨ancestral, rooted⟩ := ih
    refine ⟨?_, fun id hid => List.mem_cons_of_mem _ (rooted id hid)⟩
    rw [Session.classes, catalog_finalizeClass]
    exact Catalog.ancestral_finalize ancestral (rooted 0 (by decide)) declared fresh among _ _
  | @setBases fixed s h c bases declared fresh among ih =>
    obtain ⟨ancestral, rooted⟩ := ih
    refine ⟨?_, fun id hid => List.mem_cons_of_mem _ (rooted id hid)⟩
    rw [Session.classes, catalog_setBases]
    exact Catalog.ancestral_setBases ancestral declared fresh among _
  | @declareClass fixed s h name bases among ih =>
    obtain ⟨ancestral, rooted⟩ := ih
    refine ⟨?_, fun id hid => List.mem_cons_of_mem _ (rooted id hid)⟩
    rw [Session.classes, Session.declareClass, catalog_declaring]
    exact Catalog.ancestral_declareClass ancestral (rooted 0 (by decide)) name .none among _
  | @declareProtocol fixed s h name bases among ih =>
    obtain ⟨ancestral, rooted⟩ := ih
    refine ⟨?_, fun id hid => List.mem_cons_of_mem _ (rooted id hid)⟩
    rw [Session.classes, Session.declareProtocol, catalog_declaring]
    refine Catalog.ancestral_declareClass ancestral (rooted 0 (by decide)) name _ ?_ _
    intro t ht
    rcases List.mem_append.1 ht with ht | ht
    · exact among t ht
    · rw [List.mem_singleton.1 ht]
      exact .inr ⟨Builtin.protocol, rfl, rfl, rooted 7 (by decide)⟩
  | @declareProperty fixed s h getter setter deleter ih =>
    obtain ⟨ancestral, rooted⟩ := ih
    refine ⟨?_, fun id hid => List.mem_cons_of_mem _ (rooted id hid)⟩
    rw [Session.classes, Session.declareProperty, catalog_declaring]
    have among : BasesAmong fixed [some (.cls Builtin.property)] := by
      intro t ht
      rw [List.mem_singleton.1 ht]
      exact .inr ⟨Builtin.property, rfl, rfl, rooted 6 (by decide)⟩
    have declared := Catalog.ancestral_declareClass ancestral (rooted 0 (by decide)) "property"
      { ClassFlags.none with property := true } among s.inference
    unfold Catalog.declareProperty
    generalize s.catalog.declareClass "property" { ClassFlags.none with property := true }
      [some (.cls Builtin.property)] = act at declared ⊢
    exact Catalog.ancestral_modify declared _ fun _ => ⟨rfl, rfl⟩
  | @checkVariance fixed s t h protocol l left ih =>
    obtain ⟨ancestral, rooted⟩ := ih
    refine ⟨?_, fun id hid => List.mem_append_right _ (rooted id hid)⟩
    rcases left ▸ catalog_checkVariance protocol l s with same | ⟨-, inf, declared⟩
    · have nothing : t.classes.size - s.classes.size = 0 := by
        rw [Session.classes, same]
        exact Nat.sub_self _
      rw [nothing, Session.classes, same]
      exact ancestral
    · have one : t.classes.size - s.classes.size = 1 := by
        have declaredObject : 0 < s.catalog.classes.size :=
          ancestral.declared 0 (rooted 0 (by decide))
        have sizes := (Catalog.bases_declareClass declaredObject "__varianceDummy" .none inf).1
        rw [← declared] at sizes
        exact Nat.sub_eq_of_eq_add' sizes
      rw [one, Session.classes, declared]
      exact Catalog.ancestral_declareClass ancestral (rooted 0 (by decide)) _ _
        (List.forall_mem_nil _) _

/-- A class derives from another exactly if that is reached from it by zero or more bases, and the
ancestors kept with a class are those that are reached from it, itself left out, each of them once;
whether or not they could be put in an order. -/
theorem ancestry_closes_bases (h : Grown fixed s) :
    (∀ c d : ClassTy, s.classes.derives c d = true ↔
      Relation.ReflTransGen s.classes.Extends c.id d.id) ∧
    ∀ id : ClassId,
      let ancestors := Ancestor.ids (s.classes.decl id).mro
      ancestors.Nodup ∧
        ∀ a, a ∈ ancestors ↔ a ≠ id ∧ Relation.ReflTransGen s.classes.Extends id a := by
  obtain ⟨ancestral, -⟩ := h.ancestral
  exact ⟨ancestral.derives_iff, fun id => ⟨ancestral.once id, ancestral.mem_iff id⟩⟩

/-- Classes `A` and `B`, two classes that have them as bases in opposite orders, and a class with
these two as bases. -/
def disagreeing : Session :=
  let declare (name : String) (bases : List ClassId) (s : Session) : Session :=
    ((declareClass name (bases.map fun id => some (.cls (.ofId id)))).run s).2
  start |> declare "A" [] |> declare "B" [] |> declare "X" [11, 12] |> declare "Y" [12, 11]
    |> declare "Z" [13, 14]

private theorem grown_disagreeing :
    Grown ([15, 14, 13, 12, 11] ++ Builtin.all.map ClassTy.id) disagreeing := by
  have declared {fixed : List ClassId} {s : Session} (h : Grown fixed s) (name : String)
      (bases : List ClassId) {n : Nat} (size : s.classes.size = n)
      (among : ∀ id ∈ bases, id ∈ fixed) :
      Grown (n :: fixed)
        ((declareClass name (bases.map fun id => some (.cls (.ofId id)))).run s).2 := by
    subst size
    refine h.declareClass name _ fun t ht => ?_
    obtain ⟨id, hid, rfl⟩ := List.mem_map.1 ht
    exact .inr ⟨.ofId id, rfl, rfl, among id hid⟩
  have a := declared .start "A" [] (n := 11) (by decide +kernel) (by decide)
  have b := declared a "B" [] (n := 12) (by decide +kernel) (by decide)
  have x := declared b "X" [11, 12] (n := 13) (by decide +kernel) (by decide)
  have y := declared x "Y" [12, 11] (n := 14) (by decide +kernel) (by decide)
  exact declared y "Z" [13, 14] (n := 15) (by decide +kernel) (by decide)

/-- The last class has no order of its ancestors; they are kept with it all the same. -/
theorem ancestry_closes_disagreeing_bases :
    (disagreeing.classes.linearize 15 disagreeing.inference).1.2 = false ∧
      Ancestor.ids (disagreeing.classes.decl 15).mro = [13, 14, 11, 12, 0] ∧
      (∀ c d : ClassTy, disagreeing.classes.derives c d = true ↔
        Relation.ReflTransGen disagreeing.classes.Extends c.id d.id) ∧
      ∀ id : ClassId,
        let ancestors := Ancestor.ids (disagreeing.classes.decl id).mro
        ancestors.Nodup ∧ ∀ a, a ∈ ancestors ↔
          a ≠ id ∧ Relation.ReflTransGen disagreeing.classes.Extends id a :=
  ⟨by decide +kernel, by decide +kernel, ancestry_closes_bases grown_disagreeing⟩

end Session

end Conformance
