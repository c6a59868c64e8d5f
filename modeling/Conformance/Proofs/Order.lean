import Conformance.Proofs.Deeper
import Conformance.Proofs.Pairs
import Conformance.Proofs.Sample
import Mathlib.Data.List.Nodup

/-!
# The order of members

A protocol asks for its members in the order in which they were declared. What it asks for is the
same in any order. So is the answer, if nothing is solved for while the members are compared: then
no comparison changes what another one starts from.
-/

namespace Conformance

open Check

private theorem find?_eq_of_perm {α : Type} {p : α → Bool} {as bs : List α} (perm : bs.Perm as)
    (one : ∀ a ∈ as, ∀ b ∈ as, p a = true → p b = true → a = b) : bs.find? p = as.find? p := by
  cases ha : as.find? p with
  | none => exact List.find?_eq_none.2 fun b hb => List.find?_eq_none.1 ha b (perm.mem_iff.1 hb)
  | some a =>
    have hp : p a = true := List.find?_some ha
    have mem : a ∈ bs := perm.mem_iff.2 (List.mem_of_find?_eq_some ha)
    obtain ⟨b, hb⟩ := Option.isSome_iff_exists.1 (List.find?_isSome.2 ⟨a, mem, hp⟩)
    rw [hb, one b (perm.mem_iff.1 (List.mem_of_find?_eq_some hb)) a (List.mem_of_find?_eq_some ha)
      (List.find?_some hb) hp]

/-! ## Tables of members -/

namespace MemberTable

variable {table other : MemberTable} (distinct : table.names.Nodup)
  (perm : other.entries.Perm table.entries)
include distinct perm

private theorem entry_of_perm {key : String × Member → Bool} (name : String)
    (hk : ∀ e, key e = true → e.1 = name) : other.entries.find? key = table.entries.find? key :=
  find?_eq_of_perm perm fun a ha b hb hpa hpb =>
    List.inj_on_of_nodup_map distinct ha hb ((hk a hpa).trans (hk b hpb).symm)

private theorem find?_of_perm (name : String) : other.find? name = table.find? name := by
  have lookup : ∀ es : List (String × Member),
      es.lookup name = (es.find? fun e => e.1 == name).map (·.2) := by
    intro es
    induction es with
    | nil => rfl
    | cons e es ih =>
      rw [List.lookup_cons, List.find?_cons, ih]
      by_cases h : name = e.1
      · simp [h]
      · simp [beq_eq_false_iff_ne.2 h, beq_eq_false_iff_ne.2 (Ne.symm h)]
  rw [find?, find?, lookup, lookup,
    entry_of_perm distinct perm name fun e he => beq_iff_eq.1 he]

end MemberTable

/-! ## What is asked for -/

namespace Requirement

theorem mem_nearest {rs : List Requirement} {r : Requirement} :
    r ∈ nearest rs ↔ rs.find? (·.name == r.name) = some r := by
  -- what was found so far hides the later requirements of the same names
  have folded : ∀ rs found : List Requirement,
      r ∈ rs.foldl (fun found r => if found.any (·.name == r.name) then found else found ++ [r])
        found ↔ r ∈ found ∨
          found.any (·.name == r.name) = false ∧ rs.find? (·.name == r.name) = some r := by
    intro rs
    induction rs with
    | nil => simp
    | cons q rs ih =>
      intro found
      rw [List.foldl_cons, ih, List.find?_cons]
      by_cases same : q.name = r.name
      · cases hidden : found.any (·.name == r.name) with
        | true => simp [same, hidden]
        | false => simp [same, hidden, eq_comm]
      · have apart : r ≠ q := fun h => same (h ▸ rfl)
        split <;> simp [apart, beq_eq_false_iff_ne.2 same]
  rw [nearest, folded]
  simp

end Requirement

section

variable {w : World} {id : ClassId} {members : MemberTable}

variable (distinct : (w.classes.decl id).members.names.Nodup)
  (perm : members.entries.Perm (w.classes.decl id).members.entries)
include distinct perm

theorem alike_withMembers : w.Alike (w.withMembers id members) :=
  ⟨World.alikeOn_withMembers (fun name _ => MemberTable.find?_of_perm distinct perm name) trivial,
    rfl, rfl⟩

private theorem find?_ofDeclared_withMembers (asObject : Bool) (owner : ClassTy) (name : String) :
    (Requirement.ofDeclared (w.withMembers id members).classes asObject owner).find?
        (·.name == name) =
      (Requirement.ofDeclared w.classes asObject owner).find? (·.name == name) := by
  unfold Requirement.ofDeclared
  simp only [List.find?_map, List.find?_filter]
  congr 1
  rw [World.withMembers, ClassTable.decl_modify]
  split
  · rename_i h
    obtain ⟨rfl, -⟩ := h
    exact MemberTable.entry_of_perm distinct perm name fun e he => by simp_all
  · rfl

theorem mem_all_withMembers (asObject : Bool) (protocol : ClassTy) (r : Requirement) :
    r ∈ Requirement.all (w.withMembers id members).classes asObject protocol ↔
      r ∈ Requirement.all w.classes asObject protocol := by
  have alike := alike_withMembers distinct perm
  rw [Requirement.all, Requirement.all, Requirement.mem_nearest, Requirement.mem_nearest,
    List.find?_flatMap, List.find?_flatMap, alike.classes.protocols]
  simp only [find?_ofDeclared_withMembers distinct perm]

private theorem all_withMembers {asObject : Bool} {protocol : ClassTy}
    (h : ∀ owner ∈ Requirement.protocols w.classes protocol, owner.id ≠ id) :
    Requirement.all (w.withMembers id members).classes asObject protocol =
      Requirement.all w.classes asObject protocol := by
  refine (alike_withMembers distinct perm).classes.all asObject protocol fun owner ho => ?_
  rw [decl_withMembers w members (h owner ho)]

end

/-! ## Where nothing is solved for -/

namespace Fragment

/-- Nothing is solved for while classes are compared with a protocol. -/
structure Unsolved (F : Fragment) (w : World) (protocol : ClassId) : Prop where
  params : (w.classes.decl protocol).params = []
  apart : ∀ v, F.vars v → v.scope ≠ (w.classes.decl protocol).scope

/-- The two worlds differ in the order of members only, and that only where nothing is solved
for. -/
structure Rearranged (F : Fragment) (w u : World) : Prop where
  alike : w.Alike u
  asks (asObject : Bool) {protocol : ClassTy} (hp : F.HasClass protocol) :
    Requirement.all u.classes asObject protocol = Requirement.all w.classes asObject protocol ∨
      F.Unsolved w protocol.id ∧ ∀ r, r ∈ Requirement.all u.classes asObject protocol ↔
        r ∈ Requirement.all w.classes asObject protocol

def beside (F : Fragment) : Link F := { F.deeper with clean := fun _ => True }

variable {F : Fragment} {w u v : World} {j j' : Judge} {α : Type}

private theorem records_beside : F.beside.Records w where
  cut := trivial
  assumed _ := trivial
  made _ _ _ _ _ _ _ := trivial

theorem Rearranged.refl (F : Fragment) (w : World) : F.Rearranged w w :=
  ⟨.refl w, fun _ _ _ => .inl rfl⟩

theorem Undisturbed.idle {σ τ : Option Solution} (h : F.Undisturbed σ τ) (hi : F.Idle σ) :
    F.Idle τ := by
  intro v hv
  have same : ∀ σ : Option Solution, σ.any (·.solves v.scope) =
      (σ.map (·.scopes)).any fun scopes => !v.scope.isEmpty && scopes.contains v.scope := by
    intro σ
    cases σ <;> rfl
  rw [same, h.scopes, ← same]
  exact hi v hv

private theorem related_kept {L : Link F} {s s' t t' : CheckState} (h : L.Related .idle s s')
    (kept : L.Kept s t) (kept' : L.Kept s' t') : L.Related .idle t t' :=
  h.of_kept kept kept' ⟨kept.solving.idle h.solving.1, kept'.solving.idle h.solving.2⟩

section

variable {L : Link F} {f : α → Check Bool} {as : List α}
  (calm : ∀ a ∈ as, L.Calm (fun _ => True) (f a))
include calm

private theorem allOf_eq_true_iff {s t : CheckState} {b : Bool} (hs : F.Start s)
    (h : exec (allOf f as) s = (.ok b, t)) :
    (b = true → ∀ a ∈ as, ∃ u v, L.Kept s u ∧ exec (f a) u = (.ok true, v)) ∧
      ((∀ a ∈ as, ∀ u v c, L.Kept s u → exec (f a) u = (.ok c, v) → c = true) → b = true) := by
  induction as generalizing s t b with
  | nil =>
    cases h
    exact ⟨fun _ _ ha => (nomatch ha), fun _ => rfl⟩
  | cons a as ih =>
    obtain ⟨first, u, hu, -, kept⟩ := calm a List.mem_cons_self s hs
    have others := fun b hb => calm b (List.mem_cons_of_mem a hb)
    rcases hrest : exec (allOf f as) u with ⟨r, v⟩
    rw [allOf, exec_bind_of_ok hu, exec_bind, hrest] at h
    cases r with
    | error e => cases h
    | ok rest =>
      cases h
      obtain ⟨each, every⟩ := ih others kept.start hrest
      refine ⟨fun both b hb => ?_, fun all => ?_⟩
      · rw [Bool.and_eq_true] at both
        rcases List.mem_cons.1 hb with rfl | hb
        · exact ⟨s, u, .refl hs, both.1 ▸ hu⟩
        · obtain ⟨x, y, kept', hx⟩ := each both.2 b hb
          exact ⟨x, y, kept.trans kept', hx⟩
      · rw [Bool.and_eq_true]
        refine ⟨all a List.mem_cons_self s u first (.refl hs) hu, every fun b hb x y c kept' => ?_⟩
        exact all b (List.mem_cons_of_mem a hb) x y c (kept.trans kept')

end

private theorem agrees_allOf_of_mem_iff {f g : α → Check Bool} {as bs : List α}
    (mem : ∀ a, a ∈ bs ↔ a ∈ as) (h : ∀ a ∈ as, F.beside.Agrees .idle (f a) (g a)) :
    F.beside.Agrees .idle (allOf f as) (allOf g bs) := by
  have left : ∀ a ∈ as, F.beside.Calm (fun _ => True) (f a) := fun a ha => (h a ha).left
  have right : ∀ b ∈ bs, F.beside.Calm (fun _ => True) (g b) :=
    fun b hb => (h b ((mem b).1 hb)).right
  have calm : F.beside.Calm (fun _ => True) (allOf f as) := (Link.Agrees.allOf h).left
  have calm' : F.beside.Calm (fun _ => True) (allOf g bs) :=
    (Link.Agrees.allOf fun b hb => h b ((mem b).1 hb)).right
  refine ⟨calm, calm', fun {s s' t t' b b'} hs he he' _ => ?_⟩
  obtain ⟨each, every⟩ := allOf_eq_true_iff left hs.left he
  obtain ⟨each', every'⟩ := allOf_eq_true_iff right hs.right he'
  have linked : ∀ {a : α} {x y x' y' : CheckState} {c c' : Bool}, a ∈ as → F.beside.Kept s x →
      F.beside.Kept s' x' → exec (f a) x = (.ok c, y) → exec (g a) x' = (.ok c', y') →
        F.Agree c c' :=
    fun ha kept kept' hx hx' =>
      ((h _ ha).link (related_kept hs kept kept') hx hx' fun _ _ _ _ => trivial).1
  have forward : b = true → b' = true := by
    refine fun yes => every' fun a ha x' y' c' kept' hx' => ?_
    obtain ⟨x, y, kept, hx⟩ := each yes a ((mem a).1 ha)
    exact (linked ((mem a).1 ha) kept kept' hx hx').1 rfl
  have backward (wide : F.wide) : b' = true → b = true := by
    refine fun yes => every fun a ha x y c kept hx => ?_
    obtain ⟨x', y', kept', hx'⟩ := each' yes a ((mem a).2 ha)
    exact (linked ha kept kept' hx hx').2 wide
  exact ⟨⟨forward, fun wide => Bool.eq_iff_iff.2 ⟨forward, backward wide⟩⟩,
    (related_kept hs (calm.elim hs.left he).2 (calm'.elim hs.right he').2).solving⟩

private theorem agrees_meetAll_unsolved {ρ : Regime} {mode mode' : Mode} {protocol : ClassTy}
    (unsolved : F.Unsolved w protocol.id) {rs rs' : List Requirement}
    (mem : ∀ r, r ∈ rs' ↔ r ∈ rs) {meets meets' : Requirement → Check Bool}
    (h : ∀ r ∈ rs, F.beside.Agrees .idle (meets r) (meets' r)) :
    F.beside.Agrees ρ (meetAll w j mode protocol rs meets)
      (meetAll w j' mode' protocol rs' meets') := by
  let σ : Option Solution := some (.forScope (w.classes.decl protocol.id).scope)
  have idle : F.Idle σ := idle_forScope unsolved.apart
  have solving : F.Solving σ := solving_forScope (.inr unsolved.apart)
  have inner := agrees_allOf_of_mem_iff mem h
  have calm {j : Judge} {mode : Mode} {rs : List Requirement} {meets : Requirement → Check Bool}
      (h : F.beside.Calm (fun _ => True) (allOf meets rs)) :
      F.beside.Calm (fun _ => True) (meetAll w j mode protocol rs meets) := by
    intro s hs
    obtain ⟨b, t, he, -, kept⟩ := h { s with solving := σ } ⟨hs.inference, solving⟩
    refine ⟨b, { t with solving := s.solving }, ?_, trivial, ⟨kept.start.inference, hs.solving⟩,
      kept.pending, kept.lent, .refl _, kept.history⟩
    rw [exec_meetAll unsolved.params]
    dsimp only
    rw [he]
  refine ⟨calm inner.left, calm inner.right, fun {s s' t t' b b'} hs he he' _ => ?_⟩
  rw [exec_meetAll unsolved.params] at he he'
  dsimp only at he he'
  rcases hrun : exec (allOf meets rs) { s with solving := σ } with ⟨r, x⟩
  rcases hrun' : exec (allOf meets' rs') { s' with solving := σ } with ⟨r', x'⟩
  rw [hrun] at he
  rw [hrun'] at he'
  cases he
  cases he'
  have entered : F.beside.Related .idle { s with solving := σ } { s' with solving := σ } :=
    ⟨⟨hs.left.inference, solving⟩, ⟨hs.right.inference, solving⟩, hs.pending, idle, idle⟩
  exact ⟨(inner.link entered hrun hrun' fun _ _ _ _ => trivial).1, hs.solving⟩

/-! ## Judges -/

section

variable (hw : F.Covers w) (hu : F.Rearranged w u) (hv : F.Rearranged w v)

section

include hu

private theorem Rearranged.mem_all (asObject : Bool) {protocol : ClassTy} (hp : F.HasClass protocol)
    (r : Requirement) : r ∈ Requirement.all u.classes asObject protocol ↔
      r ∈ Requirement.all w.classes asObject protocol := by
  rcases hu.asks asObject hp with same | ⟨-, mem⟩
  · rw [same]
  · exact mem r

end

include hu hv

private theorem Rearranged.asks_alike (asObject : Bool) {protocol : ClassTy}
    (hp : F.HasClass protocol) :
    Requirement.all v.classes asObject protocol = Requirement.all u.classes asObject protocol ∨
      F.Unsolved w protocol.id ∧ ∀ r, r ∈ Requirement.all v.classes asObject protocol ↔
        r ∈ Requirement.all u.classes asObject protocol := by
  rcases hu.asks asObject hp with same | ⟨unsolved, mem⟩
  · rw [same]
    exact hv.asks asObject hp
  · exact .inr ⟨unsolved, fun r => (hv.mem_all asObject hp r).trans (mem r).symm⟩

include hw

private theorem agrees_meetAll_rearranged (hj : F.beside.Judges j j') {ρ : Regime}
    {mode mode' : Mode}
    (hm : ρ.Modes mode mode') (asObject : Bool) {protocol : ClassTy} (hp : F.HasClass protocol)
    {meets meets' : Requirement → Check Bool}
    (h : ∀ {ρ : Regime}, ∀ r, Link.HasRequirement F w r → F.beside.Agrees ρ (meets r) (meets' r)) :
    F.beside.Agrees ρ
      (meetAll w j mode protocol (Requirement.all u.classes asObject protocol) meets)
      (meetAll w j' mode' protocol (Requirement.all v.classes asObject protocol) meets') := by
  have each {ρ : Regime} : ∀ r ∈ Requirement.all u.classes asObject protocol,
      F.beside.Agrees ρ (meets r) (meets' r) := fun r hr =>
    h r (Link.hasRequirement_of_mem hw hp ((hu.mem_all asObject hp r).1 hr))
  rcases hu.asks_alike hv asObject hp with same | ⟨unsolved, mem⟩
  · rw [same]
    exact Link.agrees_meetAll hw hj hm hp each
  · exact agrees_meetAll_unsolved unsolved mem each

private theorem agrees_matchMembers_rearranged (hj : F.beside.Judges j j') {ρ : Regime}
    {mode mode' : Mode} (hm : ρ.Modes mode mode') (asObject : Bool) {protocol candidate : ClassTy}
    (hp : F.HasClass protocol) (hc : F.HasClass candidate) :
    F.beside.Agrees ρ (matchMembers u j mode asObject protocol candidate)
      (matchMembers v j' mode' asObject protocol candidate) := by
  cases hi : mode.invariant with
  | true =>
    unfold matchMembers
    rw [if_pos hi, if_pos (hm.invariant ▸ hi)]
    exact Link.Sim.inference.bind fun inf _ => Link.Agrees.pure _
  | false =>
    rw [hu.alike.matchMembers_eq j hi asObject protocol candidate (.inr hu.alike.typedDict)
        fun _ _ => trivial,
      hv.alike.matchMembers_eq j' (hm.invariant ▸ hi) asObject protocol candidate
        (.inr hv.alike.typedDict) fun _ _ => trivial]
    exact agrees_meetAll_rearranged hw hu hv hj hm asObject hp fun r hr =>
      Link.agrees_matchMember hw hj (Link.hasMatch_of hw hp hc asObject) hr

private theorem agrees_matchModule_rearranged (hj : F.beside.Judges j j') {ρ : Regime}
    {mode mode' : Mode} (hm : ρ.Modes mode mode') {protocol : ClassTy} (hp : F.HasClass protocol)
    (table : TableId) :
    F.beside.Agrees ρ (matchModule u j mode protocol table)
      (matchModule v j' mode' protocol table) := by
  rw [hu.alike.matchModule_eq, hv.alike.matchModule_eq]
  exact agrees_meetAll_rearranged hw hu hv hj hm true hp.toClassObject fun r hr =>
    Link.agrees_matchModuleMember hw hj hp.toClassObject table hr

end

/-! ## Judges -/

private theorem parallel_beside : F.beside.Parallel where
  pending := parallel_deeper.pending
  entering := parallel_deeper.entering
  inner _ _ _ := trivial

theorem follows_itself (hw : F.Covers w) (n : Nat) : F.beside.Follows (judge w n) (judge w n) :=
  parallel_beside.follows_itself records_beside hw n

/-- The judges of two rearrangements of a world answer alike. -/
theorem follows_rearranged (hw : F.Covers w) (hu : F.Rearranged w u) (hv : F.Rearranged w v)
    (n : Nat) : F.beside.Follows (judge u n) (judge v n) := by
  induction n with
  | zero =>
    have same : judge v 0 = judge u 0 := hv.alike.accepting.trans hu.alike.accepting.symm
    rw [same]
    exact Link.follows_accepting_self records_beside
  | succ n ih =>
    have types {x : World} (hx : F.Rearranged w x) : (judge x (n + 1)).assign =
        assignStep w (judge x n) := hx.alike.assignStep_eq hx.alike.identity _
    refine ⟨fun hm hd hs => ?_, fun {ρ m m'} hm hi asObject {protocol candidate} hp hc => ?_,
      fun {ρ m m'} hm {protocol} hp name table => ?_⟩
    · rw [types hu, types hv]
      exact Link.agrees_assignStep hw ih hm hd hs
    · have parts := agrees_matchMembers_rearranged hw hu hv ih.assign hm asObject
        hp.toClassObject hc.toClassObject
      have trace {x : World} (hx : F.Rearranged w x) (m : Mode) :
          (judge x (n + 1)).conforms m asObject protocol candidate =
            (traceClass w (n + 1) protocol candidate >>= fun _ =>
              matchClass x (judge x n) .own m asObject protocol candidate) := by
        rw [← hx.alike.traceClass]
        rfl
      rw [trace hu, trace hv]
      exact (Link.Sim.trace _ _).bind fun _ _ =>
        parallel_beside.agrees_matchClass records_beside records_beside hi (hm.invariant ▸ hi) hp hc
          parts
    · have trace {x : World} (hx : F.Rearranged w x) (m : Mode) :
          (judge x (n + 1)).moduleConforms m protocol name table =
            (traceModule w protocol name >>= fun _ =>
              matchModule x (judge x n) m protocol table) := by
        rw [← hx.alike.traceModule]
        rfl
      rw [trace hu, trace hv]
      exact (Link.Sim.trace _ _).bind fun _ _ =>
        agrees_matchModule_rearranged hw hu hv ih.assign hm hp table

end Fragment

/-! ## Comparisons that are started on their own -/

theorem answers_alike {F : Fragment} {act act' : Check Bool} (h : F.beside.Agrees .same act act')
    (h' : F.beside.Agrees .same act' act) {s : CheckState} (hs : F.Start s) :
    ∃ b t t', exec act s = (.ok b, t) ∧ exec act' s = (.ok b, t') := by
  obtain ⟨b, t, he, -, -⟩ := h.left s hs
  obtain ⟨b', t', he', -, -⟩ := h.right s hs
  have related : F.beside.Related .same s s := ⟨hs, hs, fun _ _ => rfl, rfl⟩
  have forth := (h.link related he he' fun _ _ _ _ => trivial).1.1
  have back := (h'.link related he' he fun _ _ _ _ => trivial).1.1
  exact ⟨b, t, t', he, Bool.eq_iff_iff.2 ⟨forth, back⟩ ▸ he'⟩

section

variable {F : Fragment} {w : World} {id : ClassId} {members : MemberTable}

theorem rearranged_withMembers (distinct : (w.classes.decl id).members.names.Nodup)
    (perm : members.entries.Perm (w.classes.decl id).members.entries)
    (unsolved : ∀ protocol, F.HasClass protocol →
      (∃ owner ∈ Requirement.protocols w.classes protocol, owner.id = id) →
        F.Unsolved w protocol.id) : F.Rearranged w (w.withMembers id members) := by
  refine ⟨alike_withMembers distinct perm, fun asObject protocol hp => ?_⟩
  by_cases extends_id : ∃ owner ∈ Requirement.protocols w.classes protocol, owner.id = id
  · exact .inr ⟨unsolved protocol hp extends_id, mem_all_withMembers distinct perm asObject protocol⟩
  · exact .inl (all_withMembers distinct perm fun owner ho same => extends_id ⟨owner, ho, same⟩)

/-- The order in which a class declares its members makes no difference to the comparison of any
class with any protocol, from any state and at any depth, if no protocol that the class is or that
extends it has type parameters, or variables of its scope, to be solved for. -/
theorem members_asked_for_in_any_order (hw : F.Covers w)
    (distinct : (w.classes.decl id).members.names.Nodup)
    (perm : members.entries.Perm (w.classes.decl id).members.entries)
    (unsolved : ∀ protocol, F.HasClass protocol →
      (∃ owner ∈ Requirement.protocols w.classes protocol, owner.id = id) →
        F.Unsolved w protocol.id)
    (choice : StackChoice) (depth : Int) (mode : Mode) (asObject : Bool)
    {protocol candidate : ClassTy} (hp : F.HasClass protocol) (hc : F.HasClass candidate)
    {s : CheckState} (hs : F.Start s) :
    ∃ b t t', exec (conformsFrom w choice depth mode asObject protocol candidate) s = (.ok b, t) ∧
      exec (conformsFrom (w.withMembers id members) choice depth mode asObject protocol candidate)
        s = (.ok b, t') := by
  have other : F.Rearranged w (w.withMembers id members) :=
    rearranged_withMembers distinct perm unsolved
  unfold conformsFrom
  cases levelsAt depth with
  | zero => exact ⟨true, _, _, rfl, rfl⟩
  | succ n =>
    let c := Comparison.of asObject protocol candidate
    have parts {u v : World} (hu : F.Rearranged w u) (hv : F.Rearranged w v) :
        F.beside.Agrees .same (c.parts u (judge u n) mode) (c.parts v (judge v n) mode) :=
      Fragment.agrees_matchMembers_rearranged hw hu hv
        (Fragment.follows_rearranged hw hu hv n).assign (Regime.modes_refl .same mode) asObject
        hp.toClassObject hc.toClassObject
    dsimp only
    rw [Link.exec_matchClass, Link.exec_matchClass]
    dsimp only
    split
    · exact ⟨true, _, _, rfl, rfl⟩
    · have entered : F.Start
          (setPendingOn choice { s with history := [] } (c.pair :: pendingOn choice s)) := by
        cases choice <;> exact ⟨hs.inference, hs.solving⟩
      obtain ⟨b, t, t', he, he'⟩ := answers_alike (parts (.refl F w) other) (parts other (.refl F w))
        entered
      rw [exec_whilePending, exec_whilePending]
      dsimp only
      rw [he, he']
      exact ⟨b, _, _, rfl, rfl⟩

end

namespace Sample

/-- A generic protocol with a method that takes a value and one that yields a value, and a class that
takes values of another class only. -/
def exchanges (members : List (String × Member)) : World :=
  ofDecls [object, classOf "A" [], generic .invariant (protocolOf "P" members),
    classOf "C" [method "put" none [some (instanceOf 1)] (instanceOf 0),
      method "get" none [] (instanceOf 0)]]

/-- The two methods of the protocol, in terms of its parameter. -/
def put : String × Member :=
  method "put" none [some (.var (parameter .invariant "P"))] (instanceOf 0)

def get : String × Member := method "get" none [] (.var (parameter .invariant "P"))

end Sample

-- where there is a parameter to be solved for, the answer depends on which method comes first
example :
    let compared := Comparison.of false (Sample.viewOf 2 (Sample.instanceOf 0)) (.ofId 3)
    (compared.alone (Sample.exchanges [Sample.put, Sample.get]) .start).1.toOption = some true ∧
      (compared.alone ((Sample.exchanges [Sample.put, Sample.get]).withMembers 2
        ⟨[Sample.get, Sample.put]⟩) .start).1.toOption = some false := by
  decide +kernel

end Conformance
