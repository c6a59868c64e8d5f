import Conformance.Proofs.Settles

/-!
# What is found for variables

The types that a comparison finds for the variables of its destination may be put in their places:
the comparison still holds where nothing is solved for. The steps for variables and for classes, on
the assumption that this is so one level down.
-/

namespace Conformance

open Check

/-- Compares a part of a destination with one of a source, whichever of the two has to accept the
other. -/
def Judge.compare (j : Judge) (m : Mode) (dest source : Option Ty) : Check Bool :=
  if m.reverse then j.assign m source dest else j.assign m dest source

namespace Fragment

variable {F : Fragment} {w : World} {K : Kinds} {σ τ : Solution} {l : List Pending}
  {occs : List Occurrence}

/-! ## Variables -/

theorem compare_ahead (j : Judge) {m : Mode} (ahead : m.reverse = false) (d s : Option Ty) :
    j.compare m d s = j.assign m d s := by
  rw [Judge.compare, ahead, if_neg Bool.false_ne_true]

section

variable {m : Mode} {v : TypeVar} {s : CheckState}

theorem solutionCandidate_eq {t : Ty} (hr : Regular w K t)
    (h : m.keepLiterals = true ∨ ¬ K.literals) : solutionCandidate m t = t := by
  cases t with
  | cls c =>
    unfold solutionCandidate
    dsimp only
    split
    · rename_i stripped
      rw [Bool.and_eq_true, Bool.not_eq_true'] at stripped
      have plain : c.literal = none := hr.literal.resolve_right <| h.resolve_left <| by
        simp [stripped.1]
      obtain ⟨id, isInstance, args, explicit, literal⟩ := c
      cases plain
      rfl
    · rfl
  | _ => rfl

variable (hw : F.Covers w)
include hw

private theorem accepts_candidate (n : Nat) {t : Ty} (h : F.Has t) (hr : Regular w K t)
    (exact : m.reverse = true ∨ m.invariant = true → m.keepLiterals = true ∨ ¬ K.literals) :
    F.Accepts l ((judge w n).compare m (some (solutionCandidate m t)) (some t)) := by
  have itself := accepts_itself (l := l) hw n m h hr
  by_cases kept : m.keepLiterals = true ∨ ¬ K.literals
  · rw [solutionCandidate_eq hr kept, Judge.compare]
    split <;> exact itself
  · have loose : m.reverse = false ∧ m.invariant = false := by
      rw [← Bool.not_eq_true, ← Bool.not_eq_true]
      exact not_or.1 fun strict => kept (exact strict)
    rw [Judge.compare, loose.1, if_neg Bool.false_ne_true]
    cases t with
    | cls c =>
      unfold solutionCandidate
      dsimp only
      split
      · exact accepts_widened hw n loose.2 h hr
      · exact itself
    | _ => exact itself

private theorem exec_fitsBound (n : Nat) (bound : ∀ u, v.bound = some u → F.Has u) {candidate : Ty}
    (hc : F.Has candidate) (hs : F.Seeks σ l s τ) :
    ∃ b t, exec (fitsBound w (judge w n) m v candidate) s = (.ok b, t) ∧ F.Seeks σ l t τ := by
  unfold fitsBound
  cases hb : v.bound with
  | none => exact ⟨true, s, rfl, hs⟩
  | some u =>
    dsimp only
    split
    · exact ⟨true, s, rfl, hs⟩
    · obtain ⟨b, t, he, -, kept⟩ := calm_assign hw n .default (bound u hb) hc
        { s with notes := s.notes.map fun _ => .empty, solving := none }
        ⟨hs.inference, solving_none⟩
      have ran : exec (Check.child (solvingFor none
          ((judge w n).assign .default (some u) (some candidate)))) s =
            (.ok b, { t with
              solving := s.solving
              notes := s.notes.map fun e => e.addChild (t.notes.getD .empty) }) := by
        rw [Check.child, exec_within, exec_solvingFor, he]
      have seeks : F.Seeks σ l { t with
          solving := s.solving
          notes := s.notes.map fun e => e.addChild (t.notes.getD .empty) } τ :=
        ⟨kept.start.inference, kept.pending.trans hs.pending, hs.solving, hs.scopes, hs.has⟩
      unfold explained
      rw [exec_bind_of_ok ran]
      cases b with
      | true => exact ⟨true, _, rfl, seeks⟩
      | false =>
        obtain ⟨notes, told⟩ := exec_tell .mismatch (fun inf =>
          [("sourceType", candidate.text w.classes.nameOf inf), ("destType", v.name)]) { t with
            solving := s.solving
            notes := s.notes.map fun e => e.addChild (t.notes.getD .empty) }
        exact ⟨false, _, by rw [if_neg Bool.false_ne_true, exec_bind_of_ok told]; rfl,
          seeks.notes notes⟩

private theorem settles_solveVar (hf : F.wide) (n : Nat) (solved : σ.solves v.scope = true)
    (whole : v.access = .whole) (bound : ∀ u, v.bound = some u → F.Has u)
    (exact : m.reverse = true ∨ m.invariant = true → m.keepLiterals = true ∨ ¬ K.literals)
    {t : Ty} (ht : F.Has t) (hr : Regular w K t) :
    F.Settles σ l [⟨v.key, m.reverse || !m.invariant⟩] (solveVar w (judge w n) m v t)
      fun ρ => (judge w (n + 1)).compare m (some (Substitution.ofVar ρ false v)) (some t) := by
  refine ⟨fun {s t' τ} hs fresh he => ?_⟩
  have hc := Link.has_solutionCandidate (m := m) ht
  obtain ⟨b, u, fits, hu⟩ := exec_fitsBound hw n bound hc hs
  unfold solveVar at he
  dsimp only at he
  rw [exec_bind_of_ok fits] at he
  cases b with
  | false => cases he
  | true =>
    rw [Bool.not_true, if_neg Bool.false_ne_true, exec_bind_of_ok (exec_solution u), hu.solving,
      Option.bind_some] at he
    cases hfound : τ.get? v with
    | none =>
      rw [hfound] at he
      cases he
      have found : (τ.insert v (some (solutionCandidate m t))).get? v =
          some (solutionCandidate m t) := by rw [Solution.get?_insert, if_pos rfl]
      refine ⟨_, hu.insert hf v hc, .insert hfound _ _, fun ρ hρ => ?_⟩
      rw [hρ.ofVar_eq solved whole found]
      exact accepts_candidate hw (n + 1) ht hr exact
    | some existing =>
      have later : (m.reverse || !m.invariant) = false := by
        refine Bool.eq_false_iff.2 fun first => ?_
        rw [fresh v solved _ (List.mem_singleton_self _) first rfl] at hfound
        cases hfound
      rw [Bool.or_eq_false_iff, Bool.not_eq_false'] at later
      obtain ⟨ahead, strict⟩ := later
      rw [hfound] at he
      dsimp only at he
      rw [if_pos strict, exec_bind_of_ok (exec_inference u), hu.inference,
        solutionCandidate_eq hr (exact (.inr strict))] at he
      split at he
      · rename_i same
        cases he
        refine ⟨τ, hu, .refl σ _ τ, fun ρ hρ => ?_⟩
        rw [hρ.ofVar_eq solved whole hfound, compare_ahead _ ahead]
        exact accepts_assign (accepts_same same (.inl strict))
      · exact absurd he (declines_refuse _ _ _ _)

omit hw in
private theorem reverseVar?_ahead (ahead : m.reverse = false) (σ : Option Solution) (t : Ty) :
    reverseVar? m σ t = none := by
  unfold reverseVar?
  split
  · simp [ahead]
  · rfl

omit hw in
/-- A variable to be solved is compared with a type of the fragment by solving it. -/
theorem exec_compare_var (ha : F.Apart w σ) (n : Nat) (solved : σ.solves v.scope = true) {t : Ty}
    (ht : F.Has t) (hs : F.Seeks σ l s τ) :
    exec ((judge w (n + 1)).compare m (some (.var v)) (some t)) s =
      exec (solveVar w (judge w n) m v t) s := by
  have solves : τ.solves v.scope = true := (solves_eq hs.scopes _).trans solved
  cases hm : m.reverse with
  | true =>
    rw [Judge.compare, hm, if_pos rfl]
    rw [assign_of_ne (ha.ne_var solved ht)]
    unfold assignTy
    rw [exec_bind_of_ok (exec_solution s), hs.solving]
    simp only [reverseVar?, hm, Option.any_some, solves, Bool.and_self, if_true]
  | false =>
    rw [Judge.compare, hm, if_neg Bool.false_ne_true]
    rw [assign_of_ne (ha.ne_var solved ht).symm]
    unfold assignTy assignToVar
    rw [exec_bind_of_ok (exec_solution s), reverseVar?_ahead hm]
    dsimp only
    rw [exec_bind_of_ok (exec_inference s), exec_bind_of_ok (exec_solution s), hs.inference,
      hs.solving, show (Ty.var v).same F.inf t = false from ha.not_same solved ht F.inf 14]
    simp only [Bool.false_eq_true, if_false, hm, Bool.not_false, Option.any_some, solves,
      Bool.and_self, if_true]

/-- A variable and a type of the fragment. -/
theorem settles_var (hf : F.wide) (ha : F.Apart w σ) (n k : Nat)
    (solved : σ.solves v.scope = true) (whole : v.access = .whole)
    (bound : ∀ u, v.bound = some u → F.Has u)
    (exact : m.reverse = true ∨ m.invariant = true → m.keepLiterals = true ∨ ¬ K.literals)
    {t : Ty} (ht : F.Has t) (hr : Regular w K t) :
    F.Settles σ l [⟨v.key, m.reverse || !m.invariant⟩]
      ((judge w (n + 1)).compare m (some (.var v)) (some t))
      fun ρ => (judge w (n + 1)).compare m (some (F.fill w ρ (k + 1) (.var v))) (some t) :=
  (settles_solveVar hw hf n solved whole bound exact ht hr).congr
    fun hs => exec_compare_var ha n solved ht hs

end

/-! ## Parts of a destination -/

/-- What is found for a part of a destination at a number of levels may be put into it. -/
def SettledAt (F : Fragment) (w : World) (K : Kinds) (σ : Solution) (l : List Pending)
    (n k : Nat) : Prop :=
  ∀ {m : Mode} {d s : Ty} {occs : List Occurrence}, F.Occurs w K σ m d occs → FoundOnce occs →
    F.Has s → Regular w K s → (s.branches = true → F.Whole d) →
      F.Settles σ l occs ((judge w n).compare m (some d) (some s))
        fun ρ => (judge w n).compare m (some (F.fill w ρ k d)) (some s)

private theorem assign_absent (n : Nat) (m : Mode) {a b : Option Ty} (h : a = none ∨ b = none) :
    (judge w n).assign m a b = (judge w n).assign m none none := by
  cases n with
  | zero => rfl
  | succ n =>
    rcases h with rfl | rfl
    · rfl
    · cases a <;> rfl

private theorem settles_absent (n : Nat) (m : Mode) {o s : Option Ty} {o' : Solution → Option Ty}
    (h : o = none ∨ s = none) (h' : ∀ ρ, o' ρ = none ∨ s = none) :
    F.Settles σ l occs ((judge w n).compare m o s) fun ρ => (judge w n).compare m (o' ρ) s := by
  have absent : ∀ {o : Option Ty}, o = none ∨ s = none →
      (judge w n).compare m o s = (judge w n).assign m none none := by
    intro o h
    unfold Judge.compare
    split
    · exact assign_absent n m h.symm
    · exact assign_absent n m h
  rw [absent h, funext fun ρ => absent (h' ρ)]
  refine Settles.still (fun {s t τ} hs he => ?_) fun _ _ => accepts_absent n m none
  cases n with
  | zero =>
    cases he
    exact ⟨hs.inference, hs.pending, hs.solving, hs.scopes, hs.has⟩
  | succ n =>
    cases he
    exact hs

section

variable {n k : Nat} (ih : F.SettledAt w K σ l n k) {m : Mode}
include ih

private theorem settles_option {o s : Option Ty} (ho : ∀ d, o = some d → F.Occurs w K σ m d occs)
    (whole : K.branches → ∀ d, o = some d → F.Whole d) (once : FoundOnce occs)
    (hs : F.HasOption s) (hr : ∀ u, s = some u → Regular w K u) :
    F.Settles σ l occs ((judge w n).compare m o s)
      fun ρ => (judge w n).compare m (o.map (F.fill w ρ k)) s := by
  cases o with
  | none => exact settles_absent n m (.inl rfl) fun _ => .inl rfl
  | some d =>
    cases s with
    | none => exact settles_absent n m (.inr rfl) fun _ => .inr rfl
    | some s =>
      exact ih (ho d rfl) once (hs s rfl) (hr s rfl) fun branches =>
        whole ((hr s rfl).branches_of branches) d rfl

end

/-- An argument of the destination with the types that were found put into it. -/
def fillPair (F : Fragment) (w : World) (ρ : Solution) (k : Nat) (p : ArgumentPair) :
    ArgumentPair :=
  { p with dest := p.dest.map (F.fill w ρ k) }

theorem compare_forArgument (j : Judge) {m : Mode} (ahead : m.reverse = false) (v : Variance)
    (d s : Option Ty) : j.compare (m.forArgument v) d s =
      if v = .contravariant then j.assign (m.forArgument v) s d
      else j.assign (m.forArgument v) d s := by
  cases v <;> simp [Judge.compare, Mode.forArgument, ahead]

private theorem settles_pair {j : Judge} {m : Mode} (ahead : m.reverse = false) {k : Nat}
    {p : ArgumentPair}
    (h : F.Settles σ l occs (j.compare (m.forArgument p.variance) p.dest p.source)
      fun ρ => j.compare (m.forArgument p.variance) (p.dest.map (F.fill w ρ k)) p.source) :
    F.Settles σ l occs (p.assign w j m) fun ρ => (F.fillPair w ρ k p).assign w j m := by
  simp only [compare_forArgument j ahead] at h
  exact h.child.explained.child

theorem allOf_map {α β : Type} (f : β → Check Bool) (g : α → β) (as : List α) :
    allOf f (as.map g) = allOf (fun a => f (g a)) as := by
  induction as with
  | nil => rfl
  | cons a as ih => rw [List.map_cons, allOf, allOf, ih]

private theorem pairArguments_fill (params : List TypeVar) (ρ : Solution) (k : Nat)
    (ts sources : List (Option Ty)) :
    pairArguments params (ts.map (Option.map (F.fill w ρ k))) sources =
      (pairArguments params ts sources).map (F.fillPair w ρ k) := by
  unfold pairArguments
  refine List.ext_getElem (by simp) fun i h _ => ?_
  simp only [List.getElem_mapIdx, List.getElem_map, List.isEmpty_map, List.length_map,
    List.getElem?_map]
  split
  · simp [fillPair, fill_unknown]
  · cases ts[min i (ts.length - 1)]? with
    | none => rfl
    | some o => cases o <;> rfl

private theorem getElem_pairArguments {params : List TypeVar} {ts sources : List (Option Ty)}
    {i : Nat}
    (h : i < (pairArguments params ts sources).length) (source : i < sources.length)
    (dest : i < ts.length) :
    (pairArguments params ts sources)[i] = ⟨ts[i]?.join, sources[i], params[i]?⟩ := by
  have some_given : ts.isEmpty = false := by
    cases ts with
    | nil => cases dest
    | cons => rfl
  have index : min i (ts.length - 1) = i := by omega
  simp [pairArguments, some_given, index]

private theorem sublist_flatMap_range {f : Nat → List Occurrence} {a b : Nat} (h : a ≤ b) :
    ((List.range a).flatMap f).Sublist ((List.range b).flatMap f) := by
  obtain ⟨more, rfl⟩ := Nat.exists_eq_add_of_le h
  rw [List.range_add, List.flatMap_append]
  exact List.sublist_append_left _ _

section

variable {n k : Nat} (ih : F.SettledAt w K σ l n k) {m : Mode} {c : ClassTy} {ts : List (Option Ty)}
include ih

private theorem settles_assignArguments {occs : Nat → List Occurrence} (ahead : m.reverse = false)
    (given : c.args = some ts) (enough : (w.classes.decl c.id).params.length ≤ ts.length)
    (each : ∀ i t, ts[i]? = some (some t) → F.Occurs w K σ
      (m.forArgument (ArgumentPair.variance ⟨none, none, (w.classes.decl c.id).params[i]?⟩)) t
      (occs i))
    (whole : K.branches → ∀ t, some t ∈ ts → F.Whole t)
    (once : FoundOnce ((List.range ts.length).flatMap occs)) {source : ClassTy}
    (hs : F.HasClass source) (hr : Regular w K (.cls source)) (same : source.id = c.id) :
    F.Settles σ l ((List.range ts.length).flatMap occs)
      (assignArguments w (judge w n) m c source) fun ρ =>
        assignArguments w (judge w n) m
          (c.withArgs (ts.map (Option.map (F.fill w ρ k))) c.explicit) source := by
  have args := hs.args
  have regular := hr.args
  have fits := hr.fits
  unfold assignArguments
  cases hc : source.args with
  | none => exact Settles.yes fun _ _ => Accepts.pure
  | some sources =>
    rw [ClassTy.argList, hc, Option.getD_some] at args regular fits
    have fewer : sources.length ≤ ts.length := Nat.le_trans (same ▸ fits) enough
    have dests : c.argList = ts := by rw [ClassTy.argList, given, Option.getD_some]
    let params := (w.classes.decl c.id).params
    let pairs := pairArguments params ts sources
    have length : pairs.length = sources.length := List.length_mapIdx
    have inside : ((List.range pairs.length).flatMap occs).Sublist
        ((List.range ts.length).flatMap occs) := sublist_flatMap_range (length ▸ fewer)
    have settled : F.Settles σ l ((List.range pairs.length).flatMap occs)
        (allOf (ArgumentPair.assign w (judge w n) m) pairs)
        fun ρ => allOf (fun p => (F.fillPair w ρ k p).assign w (judge w n) m) pairs := by
      refine Settles.allOf_range (fun i hi first => ?_) (once.sublist inside)
      have place : i < sources.length := length ▸ hi
      have mem : sources[i] ∈ sources := List.getElem_mem place
      rw [getElem_pairArguments hi place (Nat.lt_of_lt_of_le place fewer)]
      refine settles_pair ahead (settles_option ih (fun d hd => each i d ?_) (fun hb d hd => ?_)
        first (args _ mem) (regular _ mem))
      · exact Option.join_eq_some_iff.1 hd
      · exact whole hb d (List.mem_iff_getElem?.2 ⟨i, Option.join_eq_some_iff.1 hd⟩)
    have filled : ∀ ρ : Solution, pairArguments params (ts.map (Option.map (F.fill w ρ k))) sources =
        pairs.map (F.fillPair w ρ k) := fun ρ => pairArguments_fill params ρ k ts sources
    rw [dests]
    have result := settled.mono fun o ho => inside.subset ho
    simp only [← allOf_map, ← filled] at result
    exact result

end

/-! ## Classes -/

private theorem findAncestor_withArgs (c : ClassTy) (args : List (Option Ty)) (explicit : Bool)
    (lineage : List Ancestor) :
    findAncestor (c.withArgs args explicit) lineage = findAncestor c lineage := by
  induction lineage with
  | nil => rfl
  | cons a rest ih =>
    cases a with
    | unresolved t mark => rfl
    | resolved d =>
      rw [findAncestor, findAncestor, ih]
      rfl

private theorem id_of_findAncestor {dest ancestor : ClassTy} {lineage : List Ancestor}
    (h : findAncestor dest lineage = .derived ancestor) : ancestor.id = dest.id := by
  induction lineage with
  | nil => cases h
  | cons a rest ih =>
    cases a with
    | unresolved t mark => cases h
    | resolved c =>
      unfold findAncestor at h
      split at h
      · rename_i same
        cases h
        exact beq_iff_eq.1 same
      · exact ih h

section

variable (hw : F.Covers w) (hk : F.RegularIn w K)
include hw hk

private theorem exec_ancestorOf {source ancestor : ClassTy} (hs : F.HasClass source)
    (hsr : Regular w K (.cls source)) (ha : F.HasClass ancestor)
    (har : Regular w K (.cls ancestor)) :
    ∃ a, (∀ s : CheckState, s.inference = F.inf →
        exec (ancestorOf w source ancestor) s = (.ok a, s)) ∧
      F.HasClass a ∧ Regular w K (.cls a) ∧ a.id = ancestor.id := by
  unfold ancestorOf
  split
  · rename_i same
    exact ⟨_, fun _ _ => rfl, hs.toClassObject, hsr.toClassObject, (beq_iff_eq.1 same).symm⟩
  · have has := steady_specializeClass hw.toScopes ha hs
    have regular := steady_specializeClass_regular hw.toScopes hk ha har hsr
    exact ⟨_, fun s hs => exec_lift_of_eq (hs ▸ has.eq.1), has.eq.2.1, regular.eq.2, has.eq.2.2⟩

variable {n k : Nat} (ih : F.SettledAt w K σ l n k) (up : F.SettledAt w K σ l n (k + 1))
  {m : Mode} {c : ClassTy} {ts : List (Option Ty)} {occs : Nat → List Occurrence}
  (ahead : m.reverse = false) (given : c.args = some ts)
  (nominal : w.classes.isProtocol c = false)
  (enough : (w.classes.decl c.id).params.length ≤ ts.length)
  (each : ∀ i t, ts[i]? = some (some t) → F.Occurs w K σ
    (m.forArgument (ArgumentPair.variance ⟨none, none, (w.classes.decl c.id).params[i]?⟩)) t
    (occs i))
  (whole : K.branches → ∀ t, some t ∈ ts → F.Whole t)
  (once : FoundOnce ((List.range ts.length).flatMap occs))
include ih ahead given nominal enough each whole once

private theorem settles_assignClassToClass {source : ClassTy} (hs : F.HasClass source)
    (hr : Regular w K (.cls source)) :
    F.Settles σ l ((List.range ts.length).flatMap occs)
      (assignClassToClass w (judge w n) m c source) fun ρ =>
        assignClassToClass w (judge w n) m
          (c.withArgs (ts.map (Option.map (F.fill w ρ k))) c.explicit) source := by
  unfold assignClassToClass
  refine Settles.ite (fun _ => ?_) fun _ => Settles.ite (fun _ => ?_) fun _ => ?_
  · exact Settles.ite (fun _ => Settles.yes fun _ _ => Accepts.pure)
      fun _ => Settles.of_declines (declines_mismatch _ _ _)
  · exact Settles.yes fun _ _ => Accepts.pure
  · simp only [findAncestor_withArgs]
    cases hfound : findAncestor c
      (.resolved source.toClassObject :: (w.classes.decl source.id).mro) with
    | unresolved => exact Settles.yes fun _ _ => Accepts.pure
    | unrelated =>
      dsimp only
      rw [if_neg (by simp [nominal])]
      exact Settles.of_declines (declines_mismatch _ _ _)
    | derived ancestor =>
      have inside := mem_of_findAncestor hfound
      have has : F.HasClass ancestor ∧ Regular w K (.cls ancestor) := by
        rcases List.mem_cons.1 inside with itself | inside
        · cases itself
          exact ⟨hs.toClassObject, hr.toClassObject⟩
        · exact ⟨hw.mro hs.ids _ inside, hk.mro hs.ids _ inside⟩
      obtain ⟨a, seen, ha, har, hid⟩ := exec_ancestorOf hw hk hs hr has.1 has.2
      dsimp only
      rw [if_neg (by simp [given])]
      refine Settles.after (fun h => seen _ h.inference) (fun _ s h => seen s h.inference) ?_
      exact settles_assignArguments ih ahead given enough each whole once ha har
        (hid.trans (id_of_findAncestor hfound))

variable (ha : F.Apart w σ) (loose : m.invariant = false)
include up ha loose

omit ih in
private theorem settles_assignClassObject {source : ClassTy} (hs : F.HasClass source) :
    F.Settles σ l ((List.range ts.length).flatMap occs)
      (assignClassObject w (judge w n) m c source) fun ρ =>
        assignClassObject w (judge w n) m
          (c.withArgs (ts.map (Option.map (F.fill w ρ k))) c.explicit) source := by
  unfold assignClassObject
  refine Settles.ite (fun structural => ?_) fun _ => Settles.ite (fun _ => ?_) fun _ => ?_
  · rw [nominal] at structural
    cases structural
  · exact Settles.yes fun _ _ => Accepts.pure
  · cases hmeta : w.classes.metaclass? source with
    | none => exact Settles.of_declines (declines_mismatch _ _ _)
    | some metaclass =>
      refine Settles.ite (fun _ => Settles.of_declines (declines_mismatch _ _ _)) fun _ => ?_
      have settled := up (.arguments ahead loose given nominal enough each whole) once
        (hw.metaclass hs.ids metaclass hmeta).toInstance
        (hk.metaclass hs.ids metaclass hmeta).toInstance fun branches => nomatch branches
      simp only [compare_ahead _ ahead] at settled
      refine settled.imp fun ρ hρ accepts => ?_
      rw [fill_cls ha hρ given fun i u hi => ⟨_, _, each i u hi⟩] at accepts
      exact accepts

private theorem settles_assignToClass {s : Ty} (hs : F.Has s) (hr : Regular w K s) :
    F.Settles σ l ((List.range ts.length).flatMap occs)
      (assignToClass w (judge w n) m c s) fun ρ =>
        assignToClass w (judge w n) m
          (c.withArgs (ts.map (Option.map (F.fill w ρ k))) c.explicit) s := by
  have structural : ¬ (c.isInstance && w.classes.isProtocol c) = true := by simp [nominal]
  have callable : ∀ s : Ty, Declines (assignCallableToClass w (judge w n) m c s) := by
    intro s
    unfold assignCallableToClass
    rw [if_neg structural]
    exact declines_mismatch _ _ _
  unfold assignToClass
  refine Settles.ite (fun _ => Settles.yes fun _ _ => Accepts.pure) fun _ => ?_
  cases s with
  | cls d =>
    refine Settles.ite (fun _ => ?_) fun _ => Settles.ite (fun _ => ?_) fun _ => ?_
    · exact settles_assignClassToClass hw hk ih ahead given nominal enough each whole once hs hr
    · exact settles_assignClassObject hw hk up ahead given nominal enough each whole once ha loose hs
    · exact Settles.of_declines (declines_mismatch _ _ _)
  | module name table =>
    exact Settles.ite (fun h => absurd h structural)
      fun _ => Settles.of_declines (declines_mismatch _ _ _)
  | function f => exact Settles.of_declines (callable _)
  | overloaded fs => exact Settles.of_declines (callable _)
  | _ => exact Settles.of_declines (declines_mismatch _ _ _)

end

/-! ## Comparisons of types -/

section

variable {j : Judge} {m : Mode} (ahead : m.reverse = false) {d s : Ty} {d' : Solution → Ty}
  (hd : ∀ v, d ≠ .var v) (hd' : ∀ ρ, ρ.scopes = σ.scopes → ∀ v, d' ρ ≠ .var v)
include ahead hd hd'

/-- A destination that is no variable is compared as it is. -/
theorem settles_assignTy (proper : d.isAnyOrUnknown = false)
    (h : s.isAnyOrUnknown = false → F.Settles σ l occs (assignProper w j m d s)
      fun ρ => assignProper w j m (d' ρ) s) :
    F.Settles σ l occs (assignTy w j m d s) fun ρ => assignTy w j m (d' ρ) s := by
  have ran : ∀ t, exec (assignTy w j m d s) t =
      exec (if s.isAnyOrUnknown = true then pure true else assignProper w j m d s) t := by
    intro t
    unfold assignTy
    rw [exec_bind_of_ok (exec_solution t), reverseVar?_ahead ahead]
    dsimp only
    split
    · exact absurd rfl (hd _)
    · rw [proper, Bool.false_or]
  refine Settles.congr ?_ fun {t _} _ => ran t
  cases anything : s.isAnyOrUnknown with
  | true =>
    rw [if_pos rfl]
    refine Settles.yes fun ρ hρ => accepts_assignTy (hd' ρ hρ) fun _ h => ?_
    rw [anything] at h
    cases h
  | false =>
    rw [if_neg Bool.false_ne_true]
    exact (h anything).imp fun ρ hρ accepts => accepts_assignTy (hd' ρ hρ) fun _ _ => accepts

omit hd hd' in
/-- Types that are one object are the same, so that nothing is put into them. -/
theorem settles_assign {n : Nat} (still : d = s → ∀ ρ, ρ.scopes = σ.scopes → d' ρ = d)
    (h : F.Settles σ l occs (assignTy w (judge w n) m d s)
      fun ρ => assignTy w (judge w n) m (d' ρ) s) :
    F.Settles σ l occs ((judge w (n + 1)).compare m (some d) (some s))
      fun ρ => (judge w (n + 1)).compare m (some (d' ρ)) (some s) := by
  simp only [compare_ahead _ ahead]
  rcases assign_cases w n m d s with ⟨one, identical⟩ | compared
  · rw [identical]
    refine Settles.yes fun ρ hρ => ?_
    rw [still one ρ hρ, identical]
    exact Accepts.pure
  · rw [compared]
    exact h.imp fun ρ _ accepts => accepts_assign accepts

end

private theorem padPairs_fill (ρ : Solution) (k : Nat) (ts us : List (Option Ty)) :
    padPairs (ts.map (Option.map (F.fill w ρ k))) us =
      (padPairs ts us).map fun p => (p.1.map (F.fill w ρ k), p.2) := by
  fun_induction padPairs ts us with
  | case1 us => simp [padPairs, fill_unknown]
  | case2 t ts => simp [padPairs]
  | case3 t ts u us ih => simp [padPairs, ih]

def padded (ts : List (Option Ty)) (i : Nat) : Option Ty := ts[i]?.getD (some .unknown)

private theorem unknown_or_mem_of_padded {ts : List (Option Ty)} {i : Nat} {t : Ty}
    (h : padded ts i = some t) : t = .unknown ∨ some t ∈ ts := by
  unfold padded at h
  cases hi : ts[i]? with
  | none =>
    rw [hi] at h
    exact .inl (Option.some.inj h).symm
  | some o =>
    rw [hi, Option.getD_some] at h
    exact .inr (List.mem_of_getElem? (h ▸ hi))

private theorem getElem_padPairs {ts us : List (Option Ty)} {i : Nat}
    (h : i < (padPairs ts us).length) :
    (padPairs ts us)[i] = (padded ts i, padded us i) := by
  unfold padded
  fun_induction padPairs ts us generalizing i with
  | case1 us =>
    rw [List.length_map] at h
    simp [List.getElem?_eq_getElem h]
  | case2 t ts =>
    rw [List.length_map] at h
    rw [List.getElem_map, List.getElem?_eq_getElem h]
    rfl
  | case3 t ts u us ih =>
    cases i with
    | zero => rfl
    | succ i => exact ih (Nat.lt_of_succ_lt_succ h)

private theorem flatMap_range_of_le {f : Nat → List Occurrence} {a b : Nat} (h : a ≤ b) :
    ((List.range b).flatMap fun i => if i < a then f i else []) = (List.range a).flatMap f := by
  obtain ⟨more, rfl⟩ := Nat.exists_eq_add_of_le h
  have inside : ((List.range a).flatMap fun i => if i < a then f i else []) =
      (List.range a).flatMap f :=
    List.flatMap_congr fun i hi => if_pos (List.mem_range.1 hi)
  have beyond : (((List.range more).map (a + ·)).flatMap fun i => if i < a then f i else []) =
      [] := by
    refine List.flatMap_eq_nil_iff.2 fun i hi => if_neg ?_
    obtain ⟨j, -, rfl⟩ := List.mem_map.1 hi
    omega
  rw [List.range_add, List.flatMap_append, inside, beyond, List.append_nil]

/-- What a variable stands for is compared as a whole. -/
theorem boundOf_regular (hw : F.Covers w) {v : TypeVar} (h : F.Has (.var v))
    (hr : Regular w K (.var v)) :
    F.Has (boundOf v) ∧ Regular w K (boundOf v) ∧ (boundOf v).branches = false := by
  unfold boundOf
  cases h with
  | var _ bound =>
    cases hr with
    | var regular whole =>
      cases hb : v.bound with
      | some u => exact ⟨bound u hb, regular u hb, whole u hb⟩
      | none =>
        exact ⟨.cls hw.object (.inr ⟨rfl, rfl⟩) (fun _ ht => nomatch ht),
          .cls (fun _ ht => nomatch ht) (Nat.zero_le _) (.inl rfl), rfl⟩

section

variable (hw : F.Covers w) (hk : F.RegularIn w K) (ha : F.Apart w σ) {n k : Nat}
  (ih : F.SettledAt w K σ l n k) (up : F.SettledAt w K σ l n (k + 1)) {m : Mode} {c : ClassTy}
  {ts : List (Option Ty)} {occs : Nat → List Occurrence} {s : Ty}
include ha ih

include hw hk up in
theorem settles_arguments (ahead : m.reverse = false) (loose : m.invariant = false)
    (given : c.args = some ts) (nominal : w.classes.isProtocol c = false)
    (enough : (w.classes.decl c.id).params.length ≤ ts.length)
    (each : ∀ i t, ts[i]? = some (some t) → F.Occurs w K σ
      (m.forArgument (ArgumentPair.variance ⟨none, none, (w.classes.decl c.id).params[i]?⟩)) t
      (occs i))
    (whole : K.branches → ∀ t, some t ∈ ts → F.Whole t)
    (once : FoundOnce ((List.range ts.length).flatMap occs)) (hs : F.Has s) (hr : Regular w K s)
    (single : s.branches = false) :
    F.Settles σ l ((List.range ts.length).flatMap occs)
      ((judge w (n + 1)).compare m (some (.cls c)) (some s))
      fun ρ => (judge w (n + 1)).compare m (some (F.fill w ρ (k + 1) (.cls c))) (some s) := by
  have filled : ∀ ρ : Solution, ρ.scopes = σ.scopes → F.fill w ρ (k + 1) (.cls c) =
      .cls (c.withArgs (ts.map (Option.map (F.fill w ρ k))) c.explicit) :=
    fun ρ hρ => fill_cls ha hρ given fun i u hi => ⟨_, _, each i u hi⟩
  refine settles_assign ahead (fun one ρ hρ => ha.fill_eq hρ _ (one ▸ hs)) ?_
  refine settles_assignTy ahead (fun _ h => nomatch h) (fun ρ hρ v h => ?_) rfl fun _ => ?_
  · rw [filled ρ hρ] at h
    cases h
  · unfold assignProper
    simp only [loose, Bool.false_eq_true, if_false]
    cases s with
    | union us => cases single
    | var u =>
      obtain ⟨has, regular, whole'⟩ := boundOf_regular hw hs hr
      have settled := up (.arguments ahead loose given nominal enough each whole) once has regular
        fun branches => by rw [whole'] at branches; cases branches
      simp only [compare_ahead _ ahead] at settled
      exact settled
    | _ =>
      refine (settles_assignToClass hw hk ih up ahead given nominal enough each whole once ha loose
        hs hr).imp fun ρ hρ accepts => ?_
      rw [filled ρ hρ]
      exact accepts

omit ha in
private theorem settles_pairs (ahead : m.reverse = false)
    (each : ∀ i t, ts[i]? = some (some t) → F.Occurs w K σ m t (occs i))
    (whole : K.branches → ∀ t, some t ∈ ts → F.Whole t)
    (once : FoundOnce ((List.range ts.length).flatMap occs)) {us : List (Option Ty)}
    (hs : ∀ u ∈ us, F.HasOption u) (hr : ∀ o ∈ us, ∀ u, o = some u → Regular w K u) :
    F.Settles σ l ((List.range ts.length).flatMap occs)
      (allOf (fun p => child ((judge w n).assign m p.1 p.2)) (padPairs ts us))
      fun ρ => allOf (fun p => child ((judge w n).assign m p.1 p.2))
        (padPairs (ts.map (Option.map (F.fill w ρ k))) us) := by
  -- a pair without an argument of the destination has no occurrences
  let found : Nat → List Occurrence := fun i => if i < ts.length then occs i else []
  have flat : (List.range (padPairs ts us).length).flatMap found =
      (List.range ts.length).flatMap occs :=
    flatMap_range_of_le (length_padPairs ts us ▸ Nat.le_max_left _ _)
  simp only [padPairs_fill, allOf_map]
  rw [← flat] at once ⊢
  refine Settles.allOf_range (fun i hi first => ?_) once
  have compared : F.Settles σ l (found i) ((judge w n).compare m (padded ts i) (padded us i))
      fun ρ => (judge w n).compare m ((padded ts i).map (F.fill w ρ k)) (padded us i) := by
    refine settles_option ih (fun d hd => ?_) (fun hb d hd => ?_) first (fun u hu => ?_)
      fun u hu => ?_
    · by_cases inside : i < ts.length
      · rw [padded, List.getElem?_eq_getElem inside, Option.getD_some] at hd
        simp only [found, if_pos inside]
        exact each i d (List.getElem?_eq_some_iff.2 ⟨inside, hd⟩)
      · rw [padded, List.getElem?_eq_none (Nat.le_of_not_lt inside)] at hd
        cases hd
        simp only [found, if_neg inside]
        exact .ground .unknown
    · rcases unknown_or_mem_of_padded hd with rfl | mem
      · exact .inl .unknown
      · exact whole hb d mem
    · rcases unknown_or_mem_of_padded hu with rfl | mem
      · exact .unknown
      · exact hs _ mem u rfl
    · rcases unknown_or_mem_of_padded hu with rfl | mem
      · exact .unknown
      · exact hr _ mem u rfl
  simp only [compare_ahead _ ahead] at compared
  rw [getElem_padPairs]
  exact compared.child

theorem settles_places (hk : k < Ty.levels) (ahead : m.reverse = false)
    (strict : m.invariant = true) (given : c.args = some ts)
    (each : ∀ i t, ts[i]? = some (some t) → F.Occurs w K σ m t (occs i))
    (whole : K.branches → ∀ t, some t ∈ ts → F.Whole t)
    (once : FoundOnce ((List.range ts.length).flatMap occs)) (hs : F.Has s) (hr : Regular w K s) :
    F.Settles σ l ((List.range ts.length).flatMap occs)
      ((judge w (n + 1)).compare m (some (.cls c)) (some s))
      fun ρ => (judge w (n + 1)).compare m (some (F.fill w ρ (k + 1) (.cls c))) (some s) := by
  have filled : ∀ ρ : Solution, ρ.scopes = σ.scopes → F.fill w ρ (k + 1) (.cls c) =
      .cls (c.withArgs (ts.map (Option.map (F.fill w ρ k))) c.explicit) :=
    fun ρ hρ => fill_cls ha hρ given fun i u hi => ⟨_, _, each i u hi⟩
  refine settles_assign ahead (fun one ρ hρ => ha.fill_eq hρ _ (one ▸ hs)) ?_
  refine settles_assignTy ahead (fun _ h => nomatch h) (fun ρ hρ v h => ?_) rfl fun _ => ?_
  · rw [filled ρ hρ] at h
    cases h
  · unfold assignProper
    simp only [strict, if_true]
    refine Settles.after (b := F.inf) (fun h => by rw [exec_inference, h.inference])
      (fun _ _ h => by rw [exec_inference, h.inference]) ?_
    by_cases same : (Ty.cls c).same F.inf s = true
    · rw [if_pos same]
      refine Settles.yes fun ρ hρ => ?_
      rw [fill_of_same ha hρ strict hk (.places ahead strict given each whole) hs same, if_pos same]
      exact Accepts.pure
    · rw [if_neg same]
      cases s with
      | cls d =>
        dsimp only
        by_cases view : sameView c d = true
        · rw [if_pos view, ClassTy.argList, given, Option.getD_some]
          refine ((settles_pairs ih ahead each whole once (HasClass.args hs) hr.args).orElse
            (r := fun ρ => mismatch w (.cls d) (F.fill w ρ (k + 1) (.cls c)))
            (declines_mismatch _ _ _)).imp fun ρ hρ accepts => ?_
          split
          · exact Accepts.pure
          · rw [filled ρ hρ] at accepts ⊢
            dsimp only
            rw [if_pos (show sameView (c.withArgs _ _) d = true from view)]
            exact accepts
        · rw [if_neg view]
          exact Settles.of_declines (declines_mismatch _ _ _)
      | _ => exact Settles.of_declines (declines_mismatch _ _ _)

end

end Fragment

end Conformance
