import Conformance.Proofs.Itself
import Conformance.Proofs.Occurrences
import Mathlib.Data.List.Forall2

/-!
# Runs that solve

Two checks are put beside each other: one that solves for variables, and one in which what the first
has found is put in their places and nothing is solved for. The second is known to answer yes
whatever is found later on, as long as what the first has found is kept.
-/

namespace Conformance

open Check

def Declines (act : Check Bool) : Prop := ∀ s t, exec act s ≠ (.ok true, t)

theorem declines_refuse (wording : Wording) (values : Inference → List (String × String)) :
    Declines (refuse wording values) := by
  intro s t h
  obtain ⟨notes, hn⟩ := exec_tell wording values s
  rw [refuse, exec_bind_of_ok hn] at h
  cases h

theorem declines_mismatch (w : World) (source dest : Ty) : Declines (mismatch w source dest) :=
  declines_refuse _ _

theorem declines_bind {α : Type} {act : Check α} {k : α → Check Bool} (h : ∀ a, Declines (k a)) :
    Declines (act >>= k) := by
  intro s t he
  rw [exec_bind] at he
  rcases hact : exec act s with ⟨_ | a, u⟩
  · rw [hact] at he
    cases he
  · rw [hact] at he
    exact h a u t he

theorem declines_no : Declines (pure false) := fun _ _ h => nomatch h

private theorem declines_and {act : Check Bool} :
    Declines (do
      let b ← act
      pure (false && b)) := declines_bind fun _ => declines_no

namespace Fragment

/-- The solution is being found for these scopes, and these comparisons are in progress. -/
structure Seeks (F : Fragment) (σ : Solution) (l : List Pending) (s : CheckState) (τ : Solution) :
    Prop where
  inference : s.inference = F.inf
  pending : s.pending = l
  solving : s.solving = some τ
  scopes : τ.scopes = σ.scopes
  has : F.HasSolution τ

/-- The second solution keeps what the first has found. -/
structure Keeps (F : Fragment) (σ : Solution) (υ ρ : Solution) : Prop where
  scopes : ρ.scopes = σ.scopes
  kept : ∀ v : TypeVar, σ.solves v.scope = true → ∀ t, υ.get? v = some t → ρ.get? v = some t

/-- Types were found for variables that occur at these places and had none; the others have what
they had. -/
def Grows (σ : Solution) (occs : List Occurrence) (τ υ : Solution) : Prop :=
  ∀ v : TypeVar, σ.solves v.scope = true →
    υ.get? v = τ.get? v ∨ τ.get? v = none ∧ ∃ o ∈ occs, o.key = v.key

/-- Nothing was found for the variables of which an occurrence has to come first. -/
def Fresh (σ : Solution) (occs : List Occurrence) (τ : Solution) : Prop :=
  ∀ v : TypeVar, σ.solves v.scope = true → ∀ o ∈ occs, o.first = true → o.key = v.key →
    τ.get? v = none

/-- If the first check answers yes, what it has found makes the second answer yes, also if more is
found later. -/
structure Settles (F : Fragment) (σ : Solution) (l : List Pending) (occs : List Occurrence)
    (act : Check Bool) (act' : Solution → Check Bool) : Prop where
  run {s t : CheckState} {τ : Solution} (hs : F.Seeks σ l s τ) (fresh : Fresh σ occs τ)
    (he : exec act s = (.ok true, t)) :
    ∃ υ, F.Seeks σ l t υ ∧ Grows σ occs τ υ ∧ ∀ ρ, F.Keeps σ υ ρ → F.Accepts l (act' ρ)

variable {F : Fragment} {σ τ υ ρ : Solution} {l : List Pending} {s t : CheckState}
  {occs occs' : List Occurrence} {α : Type}

theorem Seeks.start (hf : F.wide) (h : F.Seeks σ l s τ) : F.Start s := by
  refine ⟨h.inference, fun τ' hτ => ?_, .inl hf⟩
  rw [h.solving] at hτ
  cases hτ
  exact h.has

theorem Seeks.notes (h : F.Seeks σ l s τ) (notes : Option Explanation) :
    F.Seeks σ l { s with notes := notes } τ :=
  ⟨h.inference, h.pending, h.solving, h.scopes, h.has⟩

theorem Seeks.insert (hf : F.wide) (h : F.Seeks σ l s τ) (v : TypeVar) {t : Ty} (ht : F.Has t) :
    F.Seeks σ l { s with solving := s.solving.map fun τ => τ.insert v (some t) }
      (τ.insert v (some t)) := by
  refine ⟨h.inference, h.pending, ?_, h.scopes, h.has.insert (.inl hf) v (hasOption_some ht)⟩
  rw [h.solving, Option.map_some]

/-- What is found stands in the place of the variable. -/
theorem Keeps.ofVar_eq (h : F.Keeps σ υ ρ) {v : TypeVar} (solved : σ.solves v.scope = true)
    (whole : v.access = .whole) {t : Ty} (found : υ.get? v = some t) :
    Substitution.ofVar ρ false v = t := by
  have solves : ρ.solves v.scope = true := (solves_eq h.scopes _).trans solved
  simp [Substitution.ofVar, whole, solves, h.kept v solved t found]

theorem Grows.refl (σ : Solution) (occs : List Occurrence) (τ : Solution) : Grows σ occs τ τ :=
  fun _ _ => .inl rfl

theorem Grows.insert {v : TypeVar} (blank : τ.get? v = none) (t : Option Ty) (first : Bool) :
    Grows σ [⟨v.key, first⟩] τ (τ.insert v t) := by
  intro x _
  by_cases key : x.key = v.key
  · have unfound : τ.get? x = none := by
      rw [Solution.get?, key]
      exact blank
    exact .inr ⟨unfound, _, List.mem_singleton_self _, key.symm⟩
  · exact .inl (by rw [Solution.get?_insert, if_neg key])

theorem Grows.keeps (h : Grows σ occs τ υ) (hρ : F.Keeps σ υ ρ) : F.Keeps σ τ ρ := by
  refine ⟨hρ.scopes, fun v hv t ht => ?_⟩
  rcases h v hv with same | ⟨blank, -⟩
  · exact hρ.kept v hv t (same.trans ht)
  · rw [blank] at ht
    cases ht

theorem Grows.trans (h : Grows σ occs τ υ) (h' : Grows σ occs' υ ρ) :
    Grows σ (occs ++ occs') τ ρ := by
  intro v hv
  rcases h' v hv with same' | ⟨blank', o, ho, hkey⟩
  · rcases h v hv with same | ⟨blank, o, ho, hkey⟩
    · exact .inl (same'.trans same)
    · exact .inr ⟨blank, o, List.mem_append_left _ ho, hkey⟩
  · refine .inr ⟨?_, o, List.mem_append_right _ ho, hkey⟩
    rcases h v hv with same | ⟨blank, -⟩
    · exact same.symm.trans blank'
    · exact blank

/-- What was found at earlier places is found for none of the variables that come first later. -/
theorem Grows.fresh (h : Grows σ occs τ υ) (once : FoundOnce (occs ++ occs'))
    (fresh : Fresh σ (occs ++ occs') τ) : Fresh σ occs' υ := by
  intro v hv o ho first hkey
  rcases h v hv with same | ⟨-, p, hp, hkey'⟩
  · exact same.trans (fresh v hv o (List.mem_append_right _ ho) first hkey)
  · exact absurd (hkey'.trans hkey.symm) ((List.pairwise_append.1 once).2.2 p hp o ho first)

theorem FoundOnce.of_mem {os : List (List Occurrence)} (h : FoundOnce os.flatten)
    (ho : occs ∈ os) : FoundOnce occs := h.sublist (List.sublist_flatten_of_mem ho)

namespace Settles

variable {act : Check Bool} {act' : Solution → Check Bool}

theorem of_declines (h : Declines act) : F.Settles σ l occs act act' :=
  ⟨fun _ _ he => absurd he (h _ _)⟩

/-- A check that finds nothing. -/
theorem still (h : ∀ {s t τ}, F.Seeks σ l s τ → exec act s = (.ok true, t) → F.Seeks σ l t τ)
    (h' : ∀ ρ, ρ.scopes = σ.scopes → F.Accepts l (act' ρ)) : F.Settles σ l occs act act' :=
  ⟨fun {_ _ τ} hs _ he => ⟨τ, h hs he, .refl σ occs τ, fun ρ hρ => h' ρ hρ.scopes⟩⟩

theorem yes (h : ∀ ρ, ρ.scopes = σ.scopes → F.Accepts l (act' ρ)) :
    F.Settles σ l occs (pure true) act' := by
  refine still (fun hs he => ?_) h
  cases he
  exact hs

theorem mono (h : F.Settles σ l occs act act') (sub : ∀ o ∈ occs, o ∈ occs') :
    F.Settles σ l occs' act act' := by
  refine ⟨fun {s t τ} hs fresh he => ?_⟩
  obtain ⟨υ, ht, grows, accepts⟩ :=
    h.run hs (fun v hv o ho => fresh v hv o (sub o ho)) he
  refine ⟨υ, ht, fun v hv => (grows v hv).imp id ?_, accepts⟩
  rintro ⟨blank, o, ho, hkey⟩
  exact ⟨blank, o, sub o ho, hkey⟩

theorem congr {act₀ : Check Bool} (h : F.Settles σ l occs act₀ act')
    (same : ∀ {s τ}, F.Seeks σ l s τ → exec act s = exec act₀ s) : F.Settles σ l occs act act' :=
  ⟨fun hs fresh he => h.run hs fresh ((same hs).symm.trans he)⟩

theorem imp {act'' : Solution → Check Bool} (h : F.Settles σ l occs act act')
    (hi : ∀ ρ, ρ.scopes = σ.scopes → F.Accepts l (act' ρ) → F.Accepts l (act'' ρ)) :
    F.Settles σ l occs act act'' := by
  refine ⟨fun {s t τ} hs fresh he => ?_⟩
  obtain ⟨υ, ht, grows, accepts⟩ := h.run hs fresh he
  exact ⟨υ, ht, grows, fun ρ hρ => hi ρ hρ.scopes (accepts ρ hρ)⟩

/-- What only reads the state goes on with what it reads. -/
theorem after {β : Type} {act : Check β} {act' : Solution → Check β} {k : β → Check Bool}
    {k' : Solution → β → Check Bool} {b : β} {b' : Solution → β}
    (h : ∀ {s τ}, F.Seeks σ l s τ → exec act s = (.ok b, s))
    (h' : ∀ ρ s, F.Rests l s → exec (act' ρ) s = (.ok (b' ρ), s))
    (hk : F.Settles σ l occs (k b) fun ρ => k' ρ (b' ρ)) :
    F.Settles σ l occs (act >>= k) fun ρ => act' ρ >>= k' ρ := by
  refine ⟨fun {s t τ} hs fresh he => ?_⟩
  rw [exec_bind_of_ok (h hs)] at he
  obtain ⟨υ, ht, grows, accepts⟩ := hk.run hs fresh he
  exact ⟨υ, ht, grows, fun ρ hρ => Accepts.after (h' ρ) (accepts ρ hρ)⟩

/-- Two parts that both have to answer yes. -/
theorem seq {k : Bool → Check Bool} {k' : Solution → Bool → Check Bool}
    (h : F.Settles σ l occs act act') (no : Declines (k false))
    (hk : F.Settles σ l occs' (k true) fun ρ => k' ρ true) (once : FoundOnce (occs ++ occs')) :
    F.Settles σ l (occs ++ occs') (act >>= k) fun ρ => act' ρ >>= k' ρ := by
  refine ⟨fun {s t τ} hs fresh he => ?_⟩
  rw [exec_bind] at he
  rcases hact : exec act s with ⟨_ | b, u⟩
  · rw [hact] at he
    cases he
  · rw [hact] at he
    cases b with
    | false => exact absurd he (no u t)
    | true =>
      obtain ⟨υ, hu, grows, accepts⟩ :=
        h.run hs (fun v hv o ho => fresh v hv o (List.mem_append_left _ ho)) hact
      obtain ⟨χ, ht, grows', accepts'⟩ := hk.run hu (grows.fresh once fresh) he
      exact ⟨χ, ht, grows.trans grows', fun ρ hρ =>
        (accepts ρ (grows'.keeps hρ)).bind (accepts' ρ hρ)⟩

/-- After a part that has to answer yes, nothing more is found. -/
theorem last (h : F.Settles σ l occs act act') (k : Bool → Check Bool)
    (k' : Solution → Bool → Check Bool) (no : Declines (k false)) (yes : k true = pure true)
    (yes' : ∀ ρ, k' ρ true = pure true) :
    F.Settles σ l occs (act >>= k) fun ρ => act' ρ >>= k' ρ := by
  refine ⟨fun {s t τ} hs fresh he => ?_⟩
  rw [exec_bind] at he
  rcases hact : exec act s with ⟨_ | b, u⟩
  · rw [hact] at he
    cases he
  · rw [hact] at he
    cases b with
    | false => exact absurd he (no u t)
    | true =>
      dsimp only at he
      rw [yes] at he
      cases he
      obtain ⟨υ, hu, grows, accepts⟩ := h.run hs fresh hact
      exact ⟨υ, hu, grows, fun ρ hρ => (accepts ρ hρ).bind (yes' ρ ▸ Accepts.pure)⟩

theorem orElse {no : Check Bool} {r : Solution → Check Bool} (h : F.Settles σ l occs act act')
    (hn : Declines no) :
    F.Settles σ l occs (act >>= fun b => if b = true then pure true else no)
      fun ρ => act' ρ >>= fun b => if b = true then pure true else r ρ :=
  h.last (fun b => if b = true then pure true else no)
    (fun ρ b => if b = true then pure true else r ρ) hn rfl fun _ => rfl

theorem explained {messages : Check Unit} {messages' : Solution → Check Unit}
    (h : F.Settles σ l occs act act') :
    F.Settles σ l occs (explained act messages)
      fun ρ => Conformance.explained (act' ρ) (messages' ρ) :=
  h.orElse (declines_bind fun _ => declines_no)

theorem child (h : F.Settles σ l occs act act') :
    F.Settles σ l occs (child act) fun ρ => Check.child (act' ρ) := by
  refine ⟨fun {s t τ} hs fresh he => ?_⟩
  obtain ⟨u, ran, rfl⟩ := Link.exec_within_notes he
  obtain ⟨υ, hu, grows, accepts⟩ := h.run (hs.notes _) fresh ran
  exact ⟨υ, hu.notes _, grows, fun ρ hρ => (accepts ρ hρ).child⟩

theorem both {second : Check Bool} {second' : Solution → Check Bool}
    (h : F.Settles σ l occs act act') (h' : F.Settles σ l occs' second second')
    (once : FoundOnce (occs ++ occs')) :
    F.Settles σ l (occs ++ occs') (do
        let a ← act
        let b ← second
        pure (a && b)) (fun ρ => do
        let a ← act' ρ
        let b ← second' ρ
        pure (a && b)) :=
  h.seq declines_and
    (h'.last (fun b => pure (true && b)) (fun _ b => pure (true && b)) declines_no rfl fun _ => rfl)
    once

theorem allOf {f : α → Check Bool} {g : Solution → α → Check Bool} {as : List α}
    {os : List (List Occurrence)}
    (h : List.Forall₂ (fun a o => F.Settles σ l o (f a) fun ρ => g ρ a) as os)
    (once : FoundOnce os.flatten) :
    F.Settles σ l os.flatten (allOf f as) fun ρ => Check.allOf (g ρ) as := by
  induction h with
  | nil => exact yes fun _ _ => Accepts.pure
  | cons first _ ih => exact first.both (ih (List.pairwise_append.1 once).2.1) once

/-- The elements of a list, with what occurs at each place. -/
theorem allOf_range {f : α → Check Bool} {g : Solution → α → Check Bool} {as : List α}
    {found : Nat → List Occurrence}
    (h : ∀ i (hi : i < as.length), FoundOnce (found i) →
      F.Settles σ l (found i) (f as[i]) fun ρ => g ρ as[i])
    (once : FoundOnce ((List.range as.length).flatMap found)) :
    F.Settles σ l ((List.range as.length).flatMap found) (Check.allOf f as)
      fun ρ => Check.allOf (g ρ) as := by
  refine allOf (List.forall₂_iff_get.2 ⟨by simp, fun i hi hi' => ?_⟩) once
  have first := FoundOnce.of_mem once (List.getElem_mem hi')
  simp only [List.get_eq_getElem, List.getElem_map, List.getElem_range] at first ⊢
  exact h i hi first

/-- Alternatives that depend on nothing that is filled in. -/
theorem ite {c : Prop} [Decidable c] {no : Check Bool} {no' : Solution → Check Bool}
    (h : c → F.Settles σ l occs act act') (h' : ¬ c → F.Settles σ l occs no no') :
    F.Settles σ l occs (if c then act else no) fun ρ => if c then act' ρ else no' ρ := by
  by_cases hc : c
  · simp only [hc, if_true]
    exact h hc
  · simp only [hc, if_false]
    exact h' hc

end Settles

/-! ## Types of the fragment -/

theorem idle_of_scopes (h : F.Idle (some σ)) (same : τ.scopes = σ.scopes) : F.Idle (some τ) := by
  intro v hv
  rw [Option.any_some, solves_eq same]
  exact h v hv

/-- A check that answers alike whatever is solved for apart from the fragment. -/
theorem Settles.of_agrees {w : World} (hf : F.wide) (ha : F.Apart w σ) {act act' : Check Bool}
    (h : F.beside.Agrees .idle act act') : F.Settles σ l [] act fun _ => act' := by
  refine ⟨fun {s t τ} hs fresh he => ?_⟩
  have start := hs.start hf
  have kept := (h.left.elim start he).2
  have scopes := kept.solving.scopes
  rw [hs.solving, Option.map_some, Option.map_eq_some_iff] at scopes
  obtain ⟨υ, hυ, scopes⟩ := scopes
  refine ⟨υ, ⟨kept.start.inference, kept.pending.trans hs.pending, hυ, scopes.trans hs.scopes,
    kept.start.solving.has υ hυ⟩, fun v hv => .inl ?_, fun ρ _ s' hs' => ?_⟩
  · have same := kept.solving.others v (ha.keys v hv)
    rw [hυ, hs.solving] at same
    exact same
  · obtain ⟨b, t', he', -, kept'⟩ := h.right s' hs'.start
    have idle : F.Idle s.solving := hs.solving ▸ idle_of_scopes ha.idle hs.scopes
    have idle' : F.Idle s'.solving := hs'.solving ▸ fun _ _ => rfl
    have related : F.beside.Related .idle s s' :=
      ⟨start, hs'.start, fun _ _ => by rw [hs.pending, hs'.pending], idle, idle'⟩
    have yes : b = true := (h.link related he he' fun _ _ _ _ => trivial).1.1 rfl
    exact ⟨t', yes ▸ he', hs'.of_kept kept'⟩

end Fragment

end Conformance
