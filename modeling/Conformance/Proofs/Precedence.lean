import Conformance.Proofs.Linearization
import Mathlib.Data.List.Basic

/-!
# Orders of ancestors

Each base of a class brings its ancestors in an order, and the bases themselves stand in one. The
merge of these lists yields an order of all ancestors that agrees with each of them, and it gets
stuck only where there is none: where every head stands in some tail, no class can come first.
-/

namespace Conformance

/-- The relation is a strict total order of the classes of a list. -/
structure StrictOrder (r : ClassId → ClassId → Prop) (ids : List ClassId) : Prop where
  irrefl : ∀ a ∈ ids, ¬ r a a
  trans : ∀ a ∈ ids, ∀ b ∈ ids, ∀ c ∈ ids, r a b → r b c → r a c
  total : ∀ a ∈ ids, ∀ b ∈ ids, a ≠ b → r a b ∨ r b a

/-- Some strict total order of all the classes agrees with the order of each list. -/
def Orderable (lists : List (List ClassId)) : Prop :=
  ∃ r, StrictOrder r lists.flatten ∧ ∀ l ∈ lists, l.Pairwise r

/-- The order has each class of the lists once, and follows the order of each list. -/
structure Orders (lists : List (List ClassId)) (order : List ClassId) : Prop where
  once : order.Nodup
  mem : ∀ id, id ∈ order ↔ id ∈ lists.flatten
  follows : ∀ l ∈ lists, l.Sublist order

namespace StrictOrder

variable {r : ClassId → ClassId → Prop} {ids : List ClassId}

theorem mono {ids' : List ClassId} (h : StrictOrder r ids) (sub : ∀ a ∈ ids', a ∈ ids) :
    StrictOrder r ids' where
  irrefl a ha := h.irrefl a (sub a ha)
  trans a ha b hb c hc := h.trans a (sub a ha) b (sub b hb) c (sub c hc)
  total a ha b hb := h.total a (sub a ha) b (sub b hb)

private theorem exists_first (h : StrictOrder r ids) (some_given : ids ≠ []) :
    ∃ a ∈ ids, ∀ b ∈ ids, b ≠ a → r a b := by
  induction ids with
  | nil => exact absurd rfl some_given
  | cons c cs ih =>
    by_cases last : cs = []
    · subst last
      refine ⟨c, by simp, ?_⟩
      intro b hb other
      exact absurd (List.mem_singleton.1 hb) other
    · obtain ⟨a, ha, least⟩ := ih (h.mono fun a ha => List.mem_cons_of_mem c ha) last
      have ha' : a ∈ c :: cs := List.mem_cons_of_mem c ha
      have hc : c ∈ c :: cs := List.mem_cons_self
      by_cases before : r c a
      · refine ⟨c, hc, ?_⟩
        intro b hb other
        have hb' : b ∈ cs := (List.mem_cons.1 hb).resolve_left other
        by_cases same : b = a
        · exact same ▸ before
        · exact h.trans c hc a ha' b hb before (least b hb' same)
      · refine ⟨a, ha', ?_⟩
        intro b hb other
        rcases List.mem_cons.1 hb with rfl | hb
        · exact (h.total b hc a ha' other).resolve_left before
        · exact least b hb other

end StrictOrder

private theorem strictOrder_idxOf (order : List ClassId) :
    StrictOrder (fun a b => order.idxOf a < order.idxOf b) order where
  irrefl a _ := Nat.lt_irrefl _
  trans a _ b _ c _ := Nat.lt_trans
  total a ha b hb other := by
    have apart : order.idxOf a ≠ order.idxOf b := by
      intro same
      exact other ((List.idxOf_inj ha).1 same)
    omega

private theorem pairwise_idxOf {order : List ClassId} (once : order.Nodup) :
    order.Pairwise fun a b => order.idxOf a < order.idxOf b := by
  rw [List.pairwise_iff_getElem]
  intro i j hi hj hij
  simpa [once.idxOf_getElem] using hij

private theorem Orders.orderable {lists : List (List ClassId)} {order : List ClassId}
    (h : Orders lists order) : Orderable lists := by
  refine ⟨fun a b => order.idxOf a < order.idxOf b, ?_, ?_⟩
  · exact (strictOrder_idxOf order).mono fun a ha => (h.mem a).2 ha
  · intro l hl
    exact (pairwise_idxOf h.once).sublist (h.follows l hl)

namespace Ancestor

/-- The classes among the entries. -/
def ids (as : List Ancestor) : List ClassId := (as.filterMap class?).map ClassTy.id

@[simp] theorem ids_nil : ids [] = [] := rfl

@[simp] theorem ids_resolved (c : ClassTy) (as : List Ancestor) :
    ids (.resolved c :: as) = c.id :: ids as := rfl

@[simp] theorem ids_unresolved (t : Option Ty) (mark : Nat) (as : List Ancestor) :
    ids (.unresolved t mark :: as) = ids as := rfl

theorem same_resolved {b : Ancestor} {c : ClassTy} :
    b.same (.resolved c) = true ↔ ∃ d, b = .resolved d ∧ d.id = c.id := by
  cases b <;> simp [same, ClassTy.sameClass]

/-- What is taken off a list is nothing that counts, or the class that comes first in it. -/
theorem ids_dropHead (a : Ancestor) (l : List Ancestor) :
    ids (dropHead a l) = ids l ∨
      ∃ c, a = .resolved c ∧ ids l = c.id :: ids (dropHead a l) := by
  cases l with
  | nil => exact .inl rfl
  | cons b bs =>
    by_cases taken : b.same a = true
    · simp only [dropHead, taken, if_true]
      cases a with
      | resolved c =>
        obtain ⟨d, rfl, hd⟩ := same_resolved.1 taken
        exact .inr ⟨c, rfl, by simp [hd]⟩
      | unresolved t mark =>
        cases b with
        | resolved d => simp [same] at taken
        | unresolved u mark' => exact .inl rfl
    · simp [dropHead, taken]

theorem ids_dropHead_sublist (a : Ancestor) (l : List Ancestor) :
    (ids (dropHead a l)).Sublist (ids l) := by
  rcases ids_dropHead a l with same | ⟨c, -, more⟩
  · exact same ▸ .refl _
  · rw [more]
    exact List.sublist_cons_self _ _

theorem mem_ids {id : ClassId} {as : List Ancestor} :
    id ∈ ids as ↔ ∃ c, .resolved c ∈ as ∧ c.id = id := by
  induction as with
  | nil => simp
  | cons a as ih => cases a <;> simp [ih, eq_comm]

private theorem inTail_eq_false {lists : List (List Ancestor)} {a : Ancestor} :
    inTail lists a = false ↔ ∀ l ∈ lists, ∀ b ∈ l.tail, b.same a = false := by
  simp [inTail]

/-- A class that stands in no tail is left in no list once it was taken. -/
theorem not_mem_ids_of_isFree {lists : List (List Ancestor)} {c : ClassTy}
    (free : isFree lists (.resolved c) = true) {l : List Ancestor} (hl : l ∈ lists) :
    c.id ∉ ids (dropHead (.resolved c) l) := by
  have nowhere : ∀ b ∈ l.tail, b.same (.resolved c) = false :=
    inTail_eq_false.1 (by simpa [isFree] using free) l hl
  intro there
  obtain ⟨d, hd, same⟩ := mem_ids.1 there
  have taken : (Ancestor.resolved d).same (.resolved c) = true := same_resolved.2 ⟨d, rfl, same⟩
  suffices later : .resolved d ∈ l.tail by
    rw [nowhere _ later] at taken
    cases taken
  cases l with
  | nil => simp [dropHead] at hd
  | cons b bs =>
    by_cases first : b.same (.resolved c) = true
    · simpa [dropHead, first] using hd
    · rw [dropHead, if_neg first] at hd
      refine (List.mem_cons.1 hd).resolve_left ?_
      rintro rfl
      exact first taken

theorem mem_lists_of_nextHead {lists : List (List Ancestor)} {a : Ancestor}
    (h : nextHead lists = some a) : isFree lists a = true ∧ ∃ l ∈ lists, a ∈ l := by
  refine ⟨List.find?_some h, ?_⟩
  obtain ⟨l, hl, first⟩ := List.mem_filterMap.1 (List.mem_of_find?_eq_some h)
  exact ⟨l, hl, List.mem_of_mem_head? first⟩

/-! ## What the merge yields -/

private theorem orders_step {lists : List (List Ancestor)} {a : Ancestor} {order : List Ancestor}
    (next : nextHead lists = some a) (h : Orders ((dropHeads a lists).map ids) (ids order)) :
    Orders (lists.map ids) (ids (a :: order)) := by
  obtain ⟨free, first⟩ := mem_lists_of_nextHead next
  have follows : ∀ l ∈ lists, (ids (dropHead a l)).Sublist (ids order) := by
    intro l hl
    apply h.follows
    exact List.mem_map_of_mem (List.mem_map_of_mem hl)
  have left : ∀ id ∈ ids order, ∃ l ∈ lists, id ∈ ids (dropHead a l) := by
    intro id hid
    simpa [dropHeads] using (h.mem id).1 hid
  cases a with
  | unresolved t mark =>
    have same : (dropHeads (.unresolved t mark) lists).map ids = lists.map ids := by
      simp only [dropHeads, List.map_map]
      refine List.map_congr_left fun l _ => ?_
      rcases ids_dropHead (.unresolved t mark) l with same | ⟨c, other, -⟩
      · exact same
      · cases other
    rw [same] at h
    exact h
  | resolved c =>
    have fresh : c.id ∉ ids order := by
      intro there
      obtain ⟨l, hl, here⟩ := left _ there
      exact not_mem_ids_of_isFree free hl here
    refine ⟨List.nodup_cons.2 ⟨fresh, h.once⟩, ?_, ?_⟩
    · intro id
      rw [ids_resolved, List.mem_cons, List.mem_flatten]
      constructor
      · rintro (rfl | later)
        · obtain ⟨l, hl, here⟩ := first
          exact ⟨ids l, List.mem_map_of_mem hl, mem_ids.2 ⟨c, here, rfl⟩⟩
        · obtain ⟨l, hl, here⟩ := left id later
          exact ⟨ids l, List.mem_map_of_mem hl, (ids_dropHead_sublist _ l).subset here⟩
      · rintro ⟨_, given, here⟩
        obtain ⟨l, hl, rfl⟩ := List.mem_map.1 given
        rcases ids_dropHead (.resolved c) l with same | ⟨d, hd, more⟩
        · rw [← same] at here
          exact .inr ((follows l hl).subset here)
        · cases hd
          rw [more] at here
          exact (List.mem_cons.1 here).imp_right fun later => (follows l hl).subset later
    · intro _ given
      obtain ⟨l, hl, rfl⟩ := List.mem_map.1 given
      rcases ids_dropHead (.resolved c) l with same | ⟨d, hd, more⟩
      · rw [← same]
        exact (follows l hl).cons _
      · cases hd
        rw [more]
        exact (follows l hl).cons_cons _

private theorem orders_of_merge {lists : List (List Ancestor)} {found order : List Ancestor}
    (h : merge found lists = (order, true)) :
    ∃ added, order = found ++ added ∧ Orders (lists.map ids) (ids added) := by
  fun_induction merge found lists with
  | case1 found lists a next ih =>
    obtain ⟨added, rfl, ordered⟩ := ih h
    exact ⟨a :: added, by simp, orders_step next ordered⟩
  | case2 found lists stuck =>
    obtain ⟨rfl, ended⟩ := Prod.mk.inj h
    have empty : ∀ l ∈ lists, l = [] := by simpa using ended
    have flat : lists.flatten = [] := List.flatten_eq_nil_iff.2 empty
    refine ⟨[], by simp [appendMissing, flat], .nil, ?_, ?_⟩
    · intro id
      simp only [ids_nil, List.not_mem_nil, false_iff, List.mem_flatten, List.mem_map]
      rintro ⟨_, ⟨l, hl, rfl⟩, here⟩
      simp [empty l hl] at here
    · intro _ given
      obtain ⟨l, hl, rfl⟩ := List.mem_map.1 given
      simp [empty l hl]

/-! ## When the merge gets stuck -/

private theorem orderable_dropHeads {lists : List (List Ancestor)} (h : Orderable (lists.map ids))
    (a : Ancestor) : Orderable ((dropHeads a lists).map ids) := by
  obtain ⟨r, strict, agrees⟩ := h
  have less : ∀ l ∈ lists, (ids (dropHead a l)).Sublist (ids l) := fun l _ =>
    ids_dropHead_sublist a l
  refine ⟨r, strict.mono ?_, ?_⟩
  · intro id hid
    obtain ⟨l, hl, here⟩ : ∃ l ∈ lists, id ∈ ids (dropHead a l) := by
      simpa [dropHeads] using hid
    exact List.mem_flatten.2 ⟨ids l, List.mem_map_of_mem hl, (less l hl).subset here⟩
  · intro _ given
    obtain ⟨l, hl, rfl⟩ : ∃ l ∈ lists, ids (dropHead a l) = _ := by
      simpa [dropHeads] using given
    exact (agrees _ (List.mem_map_of_mem hl)).sublist (less l hl)

private theorem isEmpty_of_stuck {lists : List (List Ancestor)} (h : Orderable (lists.map ids))
    (stuck : nextHead lists = none) : ∀ l ∈ lists, l = [] := by
  obtain ⟨r, strict, agrees⟩ := h
  have blocked : ∀ l ∈ lists, ∀ a, l.head? = some a →
      ∃ c, a = .resolved c ∧ ∃ l' ∈ lists, ∃ b ∈ l'.tail, b.same (.resolved c) = true := by
    intro l hl a ha
    have no := List.find?_eq_none.1 stuck a (List.mem_filterMap.2 ⟨l, hl, ha⟩)
    cases a with
    | unresolved t mark => simp [isFree] at no
    | resolved c => exact ⟨c, rfl, by simpa [isFree, inTail] using no⟩
  have starts : ∀ l ∈ lists, l ≠ [] → ∃ c as, l = .resolved c :: as := by
    intro l hl given
    obtain ⟨a, as, rfl⟩ := List.exists_cons_of_ne_nil given
    obtain ⟨c, rfl, -⟩ := blocked _ hl a rfl
    exact ⟨c, as, rfl⟩
  have mem (id : ClassId) {l : List Ancestor} (hl : l ∈ lists) (here : id ∈ ids l) :
      id ∈ (lists.map ids).flatten :=
    List.mem_flatten.2 ⟨ids l, List.mem_map_of_mem hl, here⟩
  by_contra some_left
  obtain ⟨l₀, hl₀, given⟩ : ∃ l ∈ lists, l ≠ [] := by simpa using some_left
  obtain ⟨c₀, as₀, rfl⟩ := starts l₀ hl₀ given
  obtain ⟨id, hid, least⟩ :=
    strict.exists_first (List.ne_nil_of_mem (mem c₀.id hl₀ (by simp)))
  -- The first class of all stands behind no other one.
  have leads : ∀ c as, .resolved c :: as ∈ lists → id ∉ ids as := by
    intro c as hl later
    have hc := mem c.id hl (by simp)
    have before : r c.id id :=
      (List.pairwise_cons.1 (agrees _ (List.mem_map_of_mem hl))).1 id later
    by_cases same : c.id = id
    · exact strict.irrefl id hid (same ▸ before)
    · exact strict.irrefl id hid (strict.trans id hid _ hc id hid (least _ hc same) before)
  obtain ⟨l, hl, here⟩ : ∃ l ∈ lists, id ∈ ids l := by simpa using hid
  obtain ⟨c, as, rfl⟩ := starts l hl (by rintro rfl; simp at here)
  have same : id = c.id := (List.mem_cons.1 here).resolve_right (leads c as hl)
  obtain ⟨_, ⟨⟩, l', hl', b, hb, taken⟩ := blocked _ hl _ rfl
  obtain ⟨d, rfl, hd⟩ := same_resolved.1 taken
  obtain ⟨e, as', rfl⟩ := starts l' hl' (by rintro rfl; cases hb)
  exact leads e as' hl' (mem_ids.2 ⟨d, hb, hd.trans same.symm⟩)

private theorem merge_of_orderable {lists : List (List Ancestor)} (h : Orderable (lists.map ids))
    (found : List Ancestor) : (merge found lists).2 = true := by
  fun_induction merge found lists with
  | case1 found lists a next ih => exact ih (orderable_dropHeads h a)
  | case2 found lists stuck => simpa using isEmpty_of_stuck h stuck

end Ancestor

namespace ClassTable

/-- The classes that a base brings along, itself first. -/
def lineageIds (classes : ClassTable) : Ancestor → List ClassId
  | .resolved c => c.id :: Ancestor.ids (classes.decl c.id).mro
  | .unresolved _ _ => []

/-- The orders in which the ancestors of a class have to stand: that of each base and that of the
bases themselves. While they are put together the class itself has no ancestors. -/
def precedences (classes : ClassTable) (id : ClassId) : List (List ClassId) :=
  let cleared := classes.modify id fun d => { d with mro := [] }
  (classes.decl id).bases.map cleared.lineageIds ++ [Ancestor.ids (classes.decl id).bases]

private theorem id_specialize (classes : ClassTable) (c owner : ClassTy) (inf : Inference) :
    (c.specialize classes owner inf).1.id = c.id := by
  unfold ClassTy.specialize
  cases memberSolution classes owner none with
  | some σ => exact ClassTy.id_substitute classes σ false c inf
  | none => rfl

theorem map_mapM {α β γ : Type} {f : α → StateM Inference β} {g : β → γ} {h : α → γ}
    (each : ∀ a inf, g (f a inf).1 = h a) (as : List α) (inf : Inference) :
    (as.mapM f inf).1.map g = as.map h := by
  induction as generalizing inf with
  | nil => rfl
  | cons a as ih =>
    rw [List.mapM_cons]
    exact congr (congrArg List.cons (each a inf)) (ih _)

private theorem ids_lineage (classes : ClassTable) (c : ClassTy) (inf : Inference) :
    Ancestor.ids (classes.lineage c inf).1 = c.id :: Ancestor.ids (classes.decl c.id).mro := by
  have given : ∀ as : List Ancestor,
      Ancestor.ids as = (as.map fun a => a.class?.map ClassTy.id).filterMap id := by
    intro as
    simp [Ancestor.ids, List.filterMap_map, List.map_filterMap]
  simp only [given, ← List.filterMap_cons_some (show id (some c.id) = some c.id from rfl)]
  refine congrArg (List.filterMap id) (congrArg (some c.id :: ·) ?_)
  refine map_mapM (fun a inf => ?_) _ inf
  cases a with
  | resolved b => exact congrArg some (id_specialize classes b c inf)
  | unresolved t mark => rfl

theorem ids_lineageOfBase (classes : ClassTable) (base : Ancestor) (inf : Inference) :
    Ancestor.ids (classes.lineageOfBase base inf).1 = classes.lineageIds base := by
  cases base with
  | resolved c => exact classes.ids_lineage c inf
  | unresolved t mark => rfl

/-- A class has a linearization exactly if its ancestors can be put in an order that agrees with
those of its bases and with the order of the bases; the linearization is then such an order. -/
theorem linearization_orders_ancestors (classes : ClassTable) (id : ClassId) (inf : Inference) :
    let result := (classes.linearize id inf).1
    (result.2 = true ↔ Orderable (classes.precedences id)) ∧
      (result.2 = true →
        Orders (classes.precedences id) (Ancestor.ids (result.1.decl id).mro)) := by
  let cleared := classes.modify id fun d => { d with mro := [] }
  have bases : (cleared.decl id).bases = (classes.decl id).bases := by
    simp only [cleared, decl_modify]
    split <;> rfl
  let lists := ((cleared.decl id).bases.mapM cleared.lineageOfBase inf).1 ++ [(cleared.decl id).bases]
  have merged : lists.map Ancestor.ids = classes.precedences id := by
    simp only [lists, List.map_append, map_mapM cleared.ids_lineageOfBase, bases]
    rfl
  have answer : (classes.linearize id inf).1 =
      (cleared.modify id fun d => { d with mro := (Ancestor.merge [] lists).1 },
        (Ancestor.merge [] lists).2) := rfl
  have placed : ((cleared.modify id fun d =>
      { d with mro := (Ancestor.merge [] lists).1 }).decl id).mro = (Ancestor.merge [] lists).1 := by
    by_cases declared : id < classes.size
    · simp [decl_modify, cleared, declared]
    · have undeclared : classes.decl id = default := decl_of_size_le (Nat.le_of_not_lt declared)
      have nothing : lists = [[]] := by
        simp only [lists, bases, undeclared]
        rfl
      rw [nothing, Ancestor.merge_of_empty (by simp)]
      simp [decl_modify, cleared, declared, undeclared, default, ClassDecl.fresh]
  have ordered : (Ancestor.merge [] lists).2 = true →
      Orders (lists.map Ancestor.ids) (Ancestor.ids (Ancestor.merge [] lists).1) := by
    intro consistent
    have found : Ancestor.merge [] lists = ((Ancestor.merge [] lists).1, true) :=
      Prod.ext rfl consistent
    obtain ⟨added, same, orders⟩ := Ancestor.orders_of_merge found
    rwa [same]
  rw [← merged, answer]
  refine ⟨⟨fun consistent => (ordered consistent).orderable, ?_⟩, fun consistent => ?_⟩
  · intro orderable
    exact Ancestor.merge_of_orderable orderable []
  · rw [placed]
    exact ordered consistent

end ClassTable

end Conformance
