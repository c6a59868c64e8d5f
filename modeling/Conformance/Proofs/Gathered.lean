import Conformance.Proofs.Ranked

/-!
# Types that are gathered

A type parameter that stands at several positions takes a type at the first of them; at the others it
is widened, narrowed or confirmed, as its variance demands. As long as these types are ranked, what
is known of the parameter stays in order with everything that it was compared with.
-/

namespace Conformance

open Check

namespace Fragment

variable {F : Fragment} {w : World} {C : ClassTy → Prop} {P : TypeVar → Prop} {σ τ τ' : Solution}
  {l : List Pending} {k n : Nat} {found : List (TypeVar × Ty)} {v : TypeVar} {m : Mode}
  {a b d s t u : Ty}

/-- What is known of a variable stands for a type that it was compared with: it is that type, or both
are ranked and in order. -/
def Stands (F : Fragment) (w : World) (C : ClassTy → Prop) (P : TypeVar → Prop) (v : TypeVar)
    (t s : Ty) : Prop :=
  t = s ∨ P v ∧ F.Ranked C t ∧ F.Ranked C s ∧ F.OrderedAs w v.variance t s

def Together (F : Fragment) (C : ClassTy → Prop) (P : TypeVar → Prop) (x y : TypeVar × Ty) : Prop :=
  x.1.key = y.1.key → x.1 = y.1 ∧ P x.1 ∧ F.Ranked C x.2 ∧ F.Ranked C y.2

/-- The solution knows a type of each variable for which types were found, which stands for all of
them, and none of the others. -/
structure Gathered (F : Fragment) (w : World) (C : ClassTy → Prop) (P : TypeVar → Prop)
    (σ τ : Solution) (found : List (TypeVar × Ty)) : Prop where
  solved : ∀ x ∈ found, σ.solves x.1.scope = true
  covered : ∀ x ∈ found, ∃ t, τ.get? x.1 = some t ∧ F.Stands w C P x.1 t x.2
  only : ∀ v : TypeVar, σ.solves v.scope = true → ∀ t, τ.get? v = some t →
    ∃ x ∈ found, x.1.key = v.key

theorem Stands.trans (hR : F.Ranks w C) (h : F.Stands w C P v a b) (h' : F.Stands w C P v b s) :
    F.Stands w C P v a s := by
  rcases h with rfl | ⟨shared, ha, hb, above⟩
  · exact h'
  · rcases h' with rfl | ⟨-, -, hs, below⟩
    · exact .inr ⟨shared, ha, hb, above⟩
    · exact .inr ⟨shared, ha, hs, orderedAs_trans v.variance hR ha hb hs above below⟩

/-- What fits the solution fits everything that the solution stands for. -/
theorem Stands.fitsAs (hw : F.Covers w) (hR : F.Ranks w C) (hn : 3 ≤ n) (ranked : P v → F.Ranked C a)
    (h : F.Stands w C P v t s) (fits : F.FitsAs w n v.variance a t) :
    F.FitsAs w n v.variance a s := by
  rcases h with rfl | ⟨shared, ht, hs, ordered⟩
  · exact fits
  · have ha := ranked shared
    have above := (fitsAs_iff_orderedAs hw hR ha ht hn _).1 fits
    exact (fitsAs_iff_orderedAs hw hR ha hs hn _).2
      (orderedAs_trans v.variance hR ha ht hs above ordered)

/-! ## One more type -/

namespace Gathered

theorem nil (blank : ∀ v, τ.get? v = none) : F.Gathered w C P σ τ [] := by
  refine ⟨fun _ h => (nomatch h), fun _ h => (nomatch h), fun v _ t ht => ?_⟩
  rw [blank] at ht
  cases ht

private theorem extend (hR : F.Ranks w C) (h : F.Gathered w C P σ τ found)
    (solved : σ.solves v.scope = true) (together : ∀ x ∈ found, x.1.key = v.key → x.1 = v)
    (others : ∀ u : TypeVar, u.key ≠ v.key → τ'.get? u = τ.get? u) {t' : Ty}
    (now : τ'.get? v = some t') (new : F.Stands w C P v t' t)
    (old : ∀ t, τ.get? v = some t → F.Stands w C P v t' t) :
    F.Gathered w C P σ τ' (found ++ [(v, t)]) := by
  refine ⟨fun x hx => ?_, fun x hx => ?_, fun u hu s hs => ?_⟩
  · rcases List.mem_append.1 hx with hx | hx
    · exact h.solved x hx
    · rw [List.mem_singleton.1 hx]
      exact solved
  · rcases List.mem_append.1 hx with hx | hx
    · obtain ⟨s, known, stands⟩ := h.covered x hx
      by_cases key : x.1.key = v.key
      · have same := together x hx key
        rw [same] at known stands ⊢
        exact ⟨t', now, (old s known).trans hR stands⟩
      · exact ⟨s, (others x.1 key).trans known, stands⟩
    · rw [List.mem_singleton.1 hx]
      exact ⟨t', now, new⟩
  · by_cases key : u.key = v.key
    · exact ⟨(v, t), List.mem_append_right _ (List.mem_singleton_self _), key.symm⟩
    · obtain ⟨x, hx, same⟩ := h.only u hu s ((others u key).symm.trans hs)
      exact ⟨x, List.mem_append_left _ hx, same⟩

/-- A type is recorded that stands for what is found and for what was known before. -/
theorem insert (hR : F.Ranks w C) (h : F.Gathered w C P σ τ found)
    (solved : σ.solves v.scope = true) (together : ∀ x ∈ found, x.1.key = v.key → x.1 = v)
    (new : F.Stands w C P v u t) (old : ∀ t, τ.get? v = some t → F.Stands w C P v u t) :
    F.Gathered w C P σ (τ.insert v (some u)) (found ++ [(v, t)]) :=
  h.extend hR solved together (fun x other => by rw [Solution.get?_insert, if_neg other])
    (by rw [Solution.get?_insert, if_pos rfl]) new old

private theorem of_known (h : F.Gathered w C P σ τ found)
    (together : ∀ x ∈ found, F.Together C P x (v, t)) (solved : σ.solves v.scope = true)
    (known : τ.get? v = some s) : P v ∧ F.Ranked C s ∧ F.Ranked C t := by
  obtain ⟨x, hx, key⟩ := h.only v solved s known
  obtain ⟨rfl, shared, earlier, now⟩ := together x hx key
  obtain ⟨s', known', stands⟩ := h.covered x hx
  cases known.symm.trans known'
  rcases stands with rfl | ⟨-, ranked, -, -⟩
  · exact ⟨shared, earlier, now⟩
  · exact ⟨shared, ranked, now⟩

end Gathered

/-- What is gathered depends on the variables that are solved for. -/
theorem Gathered.congr (h : F.Gathered w C P σ τ found)
    (same : ∀ v : TypeVar, σ.solves v.scope = true → τ'.get? v = τ.get? v) :
    F.Gathered w C P σ τ' found := by
  refine ⟨h.solved, fun x hx => ?_, fun v hv t ht => h.only v hv t ((same v hv).symm.trans ht)⟩
  rw [same x.1 (h.solved x hx)]
  exact h.covered x hx

/-! ## Stages of a run -/

/-- These types were gathered so far. -/
def gathering (F : Fragment) (w : World) (C : ClassTy → Prop) (P : TypeVar → Prop) (σ : Solution)
    (l : List Pending) (found : List (TypeVar × Ty)) : Stage :=
  F.solvedAs σ l fun τ => F.Gathered w C P σ τ found

section

variable {L : Link F} {Q Q' : Solution → Prop} (hf : F.wide)
include hf

private theorem suits_gathering (ha : F.Apart w σ) (base : L.base l []) :
    F.Suits L (F.gathering w C P σ l found) :=
  suits_solvedAs hf ha base fun _ _ gathered same => gathered.congr same

private theorem grants_solve {clean : Event → Prop} (ht : F.Has t)
    (insert : ∀ τ, Q τ → Q' (τ.insert v (some t))) :
    Grants clean (F.solvedAs σ l Q) (F.solvedAs σ l Q') True (do
      solve v t
      pure true) := by
  rintro s _ ⟨τ, seeks, known⟩ ⟨⟩
  exact ⟨⟨_, seeks.insert hf v ht, insert τ known⟩, [], (List.append_nil _).symm, fun _ => trivial⟩

end

private theorem weighs_ranked {clean : Event → Prop} (hw : F.Covers w) {I : Stage}
    (hI : F.Suits F.deeper I)
    (hR : F.Ranks w C) (ha : F.Ranked C a) (hb : F.Ranked C b) (hk : 3 ≤ k) :
    Weighs clean I I (w.Above a b) ((judge w k).accepts a b) := by
  have follows := (follows_deeper hw (Nat.le_refl k)).assign (Regime.modes_refl .same .default)
    (hasOption_some ha.has) (hasOption_some hb.has)
  have calm : F.deeper.Calm (fun _ => True) ((judge w k).accepts a b) :=
    (follows.detached (ρ := .same)).left
  intro s hs
  obtain ⟨c, t, he, -, kept⟩ := calm s (hI.start hs)
  obtain ⟨new, hn, -⟩ := kept.history
  refine ⟨c, t, new, he, hI.stays hs kept, hn, fun _ => ?_⟩
  have decided : Decides F.inf (w.Above a b) ((judge w k).assign .default (some a) (some b)) :=
    Ranked.decides rfl hR ha hb hk
  obtain ⟨c', u, hu, answer, -⟩ := decided { s with notes := none, solving := none }
    ⟨(hI.start hs).inference, unsolving_none⟩
  have same : (exec ((judge w k).accepts a b) s).1 = .ok c' := by
    change (exec ((judge w k).assign .default (some a) (some b))
      { s with notes := none, solving := none }).1 = _
    rw [hu]
  rw [he] at same
  cases same
  exact answer

/-! ## A variable -/

/-- These types were gathered so far, and this one is known of a variable. -/
def knowing (F : Fragment) (w : World) (C : ClassTy → Prop) (P : TypeVar → Prop) (σ : Solution)
    (l : List Pending) (found : List (TypeVar × Ty)) (v : TypeVar) (s : Ty) : Stage :=
  F.solvedAs σ l fun τ => F.Gathered w C P σ τ found ∧ τ.get? v = some s

section

variable {clean : Event → Prop} (hf : F.wide) (hR : F.Ranks w C)
  (solved : σ.solves v.scope = true) (shared : P v)
  (together : ∀ x ∈ found, x.1.key = v.key → x.1 = v) (hs : F.Ranked C s) (ht : F.Ranked C t)
include hR solved shared together hs ht

private theorem grants_keep (ordered : F.OrderedAs w v.variance s t) :
    Grants clean (F.knowing w C P σ l found v s) (F.gathering w C P σ l (found ++ [(v, t)])) True
      (pure true) := by
  refine (Grants.yes trivial).mono fun x ⟨τ, seeks, gathered, known⟩ => ⟨τ, seeks, ?_⟩
  refine gathered.extend hR solved together (fun _ _ => rfl) known
    (.inr ⟨shared, hs, ht, ordered⟩) fun t₀ h => .inl ?_
  exact Option.some.inj (known.symm.trans h)

include hf

private theorem grants_record (hu : F.Ranked C u) (old : F.OrderedAs w v.variance u s)
    (new : F.OrderedAs w v.variance u t) :
    Grants clean (F.knowing w C P σ l found v s) (F.gathering w C P σ l (found ++ [(v, t)])) True
      (do
        solve v u
        pure true) := by
  refine grants_solve hf hu.has fun τ ⟨gathered, known⟩ => ?_
  refine gathered.insert hR solved together (.inr ⟨shared, hu, ht, new⟩) fun t₀ h => ?_
  cases known.symm.trans h
  exact .inr ⟨shared, hu, hs, old⟩

variable (hw : F.Covers w) (ha : F.Apart w σ) (base : F.deeper.base l []) (hk : 3 ≤ k)
include hw ha base hk

private theorem grants_widen (variance : v.variance = .covariant) :
    Grants clean (F.knowing w C P σ l found v s) (F.gathering w C P σ l (found ++ [(v, t)])) True
      (widen (judge w k) v s t) := by
  have suits : F.Suits F.deeper (F.knowing w C P σ l found v s) :=
    suits_solvedAs hf ha base fun _ _ ⟨gathered, known⟩ same =>
      ⟨gathered.congr same, (same v solved).trans known⟩
  have ordered {a b : Ty} (above : w.Above a b) : F.OrderedAs w v.variance a b := by
    rw [variance]
    exact above
  have itself := ordered ht.above_self
  refine Grants.branch (weighs_ranked hw suits hR hs ht hk) (fun above => ?_) fun _ => ?_
  · exact grants_keep hR solved shared together hs ht (ordered above)
  · refine Grants.branch (weighs_ranked hw suits hR ht hs hk) (fun above => ?_) fun _ => ?_
    · exact grants_record hf hR solved shared together hs ht ht (ordered above) itself
    · obtain ⟨ranked, old, new⟩ := hs.combine hR ht
      refine Grants.after (a := F.inf) (fun x hx => ?_)
        (grants_record hf hR solved shared together hs ht ranked (ordered old) (ordered new))
      rw [exec_inference, (suits.start hx).inference]

private theorem grants_narrow (variance : v.variance = .contravariant) :
    Grants clean (F.knowing w C P σ l found v s) (F.gathering w C P σ l (found ++ [(v, t)])) True
      (narrow w (judge w k) v s t) := by
  have suits : F.Suits F.deeper (F.knowing w C P σ l found v s) :=
    suits_solvedAs hf ha base fun _ _ ⟨gathered, known⟩ same =>
      ⟨gathered.congr same, (same v solved).trans known⟩
  have ordered {a b : Ty} (above : w.Above a b) : F.OrderedAs w v.variance b a := by
    rw [variance]
    exact above
  refine Grants.branch (weighs_ranked hw suits hR ht hs hk) (fun above => ?_) fun _ => ?_
  · exact grants_keep hR solved shared together hs ht (ordered above)
  · refine Grants.branch (weighs_ranked hw suits hR hs ht hk) (fun above => ?_) fun _ => ?_
    · exact grants_record hf hR solved shared together hs ht ht (ordered above)
        (ordered ht.above_self)
    · exact .of_declines (declines_refuse _ _)

end

section

variable (hw : F.Covers w) (hf : F.wide) (ha : F.Apart w σ) (base : F.deeper.base l [])
  (hR : F.Ranks w C) (hk : 3 ≤ k)
include hw hf ha base hR hk

private theorem grants_solveVar {clean : Event → Prop} (solved : σ.solves v.scope = true)
    (unbounded : v.bound = none) (variance : v.variance = m.demand) (has : F.Has t)
    (closed : t.Closed w.classes) (together : ∀ x ∈ found, F.Together C P x (v, t)) :
    Grants clean (F.gathering w C P σ l found) (F.gathering w C P σ l (found ++ [(v, t)])) True
      (solveVar w (judge w k) m v t) := by
  rintro x y ⟨τ, seeks, gathered⟩ he
  have one : ∀ x ∈ found, x.1.key = v.key → x.1 = v := fun x hx key => (together x hx key).1
  unfold solveVar fitsBound at he
  rw [unbounded, closed.solutionCandidate_eq, exec_bind_of_ok (exec_pure true x)] at he
  rw [Bool.not_true, if_neg Bool.false_ne_true, exec_bind_of_ok (exec_solution x), seeks.solving,
    Option.bind_some] at he
  cases known : τ.get? v with
  | none =>
    rw [known] at he
    refine grants_solve (Q := fun τ => F.Gathered w C P σ τ found ∧ τ.get? v = none) hf has
      (fun τ ⟨gathered, blank⟩ => ?_) x y ⟨τ, seeks, gathered, known⟩ he
    refine gathered.insert hR solved one (.inl rfl) fun s h => ?_
    cases blank.symm.trans h
  | some s =>
    obtain ⟨shared, hs, ht⟩ := gathered.of_known together solved known
    have start : (F.knowing w C P σ l found v s).Is x := ⟨τ, seeks, gathered, known⟩
    rw [known] at he
    dsimp only at he
    unfold Mode.demand Mode.variance at variance
    split at he
    · rename_i strict
      rw [if_pos strict] at variance
      rw [exec_bind_of_ok (exec_inference x), seeks.inference] at he
      split at he
      · rename_i same
        have ordered : F.OrderedAs w v.variance s t := by
          rw [variance]
          exact same
        exact grants_keep hR solved shared one hs ht ordered x y start he
      · exact absurd he (declines_refuse _ _ _ _)
    · rename_i loose
      rw [if_neg loose] at variance
      split at he
      · rename_i back
        rw [if_pos back] at variance
        exact grants_narrow hf hR solved shared one hs ht hw ha base hk variance x y start he
      · rename_i ahead
        rw [if_neg ahead] at variance
        exact grants_widen hf hR solved shared one hs ht hw ha base hk variance x y start he

/-! ## Positions -/

variable {params : List TypeVar} (solvable : Solvable σ params) (hn : k + 1 ≤ n)
include solvable hn

/-- A position is compared: what takes the place of a variable is gathered, and all else is compared
as it is. -/
theorem grants_place (ahead : m.invariant = true → m.reverse = false)
    (hd : F.Place w params m.demand d) (hs : F.Has s) (closed : s.Closed w.classes)
    (together : (found ++ d.findings s).Pairwise (F.Together C P)) :
    Grants F.deeper.clean (F.gathering w C P σ l found)
      (F.gathering w C P σ l (found ++ d.findings s)) (d.whole = [] → F.FitsAs w n m.demand d s)
      ((judge w (k + 1)).compare m (some d) (some s)) := by
  cases hd with
  | closed has plain =>
    rw [Ty.findings, whole_of_closed plain, List.map_nil, List.append_nil]
    exact (weighs_fitsAs (suits_gathering hf ha base) hf (follows_deeper hw hn).assign ahead has
      hs).grants.imp fun fits _ => fits
  | @var v param variance =>
    obtain ⟨solved, -, unbounded⟩ := solvable v param
    have earlier : ∀ x ∈ found, F.Together C P x (v, s) := fun x hx =>
      (List.pairwise_append.1 together).2.2 x hx _ (List.mem_singleton_self _)
    have gathers : Grants F.deeper.clean (F.gathering w C P σ l found)
        (F.gathering w C P σ l (found ++ [(v, s)])) True (solveVar w (judge w k) m v s) :=
      grants_solveVar hw hf ha base hR hk solved unbounded variance hs closed earlier
    refine (gathers.congr fun x hx => ?_).imp fun _ h => absurd h (List.cons_ne_nil v [])
    obtain ⟨τ, seeks, -⟩ := hx
    exact exec_compare_var ha k solved hs seeks

/-! ## Functions -/

private theorem grants_position (loose : m.invariant = false) (hd : F.Place w params m.variance d)
    (hs : F.Has s) (closed : s.Closed w.classes)
    (together : (found ++ d.findings s).Pairwise (F.Together C P)) :
    Grants F.deeper.clean (F.gathering w C P σ l found)
      (F.gathering w C P σ l (found ++ d.findings s)) (F.FitsApart w n m.variance d s)
      ((judge w (k + 1)).compare m (some d) (some s)) := by
  have demand : m.demand = m.variance := by rw [Mode.demand, loose, if_neg Bool.false_ne_true]
  have varies : m.variance ≠ .invariant := by
    unfold Mode.variance
    split <;> exact fun h => nomatch h
  refine (grants_place hw hf ha base hR hk solvable hn (fun h => ?_) (demand ▸ hd) hs closed
    together).imp fun fits whole => (fitsAs_iff_fits varies).1 (demand ▸ fits whole)
  rw [loose] at h
  cases h

/-- Two functions are compared position by position. -/
theorem grants_assignFunction (forward : m.reverse = false) {f g : FunctionTy}
    (linear : F.Linear w params f) (settled : ∀ cell outcome, g.ret ≠ .deferred cell outcome)
    (taken : ∀ p ∈ g.params, F.Has p.typeOrUnknown ∧ p.typeOrUnknown.Closed w.classes)
    (returned : F.Has (F.inf.returnType g) ∧ (F.inf.returnType g).Closed w.classes)
    (together : (found ++ f.findings F.inf g).Pairwise (F.Together C P)) :
    Grants F.deeper.clean (F.gathering w C P σ l found)
      (F.gathering w C P σ l (found ++ f.findings F.inf g)) (f.Meets F.inf (F.FitsApart w n) g)
      (assignFunction w (judge w (k + 1)) m f g) := by
  have inference {found : List (TypeVar × Ty)} {s : CheckState}
      (hs : (F.gathering w C P σ l found).Is s) : s.inference = F.inf := by
    obtain ⟨τ, seeks, -⟩ := hs
    exact seeks.inference
  exact run_assignFunction (Grants.rules _) (Q := fun s => F.Has s ∧ s.Closed w.classes) @inference
    (fun loose hd hs together =>
      grants_position hw hf ha base hR hk solvable hn loose hd hs.1 hs.2 together)
    forward linear.settled settled linear.takes taken linear.returnType returned together

end

end Fragment

end Conformance
