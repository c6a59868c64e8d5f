import Conformance.Proofs.Closure
import Conformance.Proofs.Run

/-!
# Linked runs

Two checks that ask two judges the same questions are run side by side. Within a fragment neither
fails, and both keep what they find. As long as the events of the first run are of a given kind, the
second run follows it: it reaches the same answers if the fragment is wide, and in a narrow one it
answers yes where the first does.
-/

namespace Conformance

open Check

/-- What two runs are compared for. -/
structure Link (F : Fragment) where
  /-- The events after which the second run still follows the first. -/
  clean : Event → Prop
  /-- What is known of the events of either run. -/
  known : Event → Prop
  /-- How the comparisons in progress in the two runs are related. -/
  base : List Pending → List Pending → Prop

/-- How the two runs solve for type variables: in the same way, or neither for one of the
fragment. -/
inductive Regime
  | same
  | idle

namespace Fragment

def Agree (F : Fragment) (b b' : Bool) : Prop := (b = true → b' = true) ∧ (F.wide → b = b')

/-- A check in this state finds its return types settled, and only types of the fragment solved. -/
structure Start (F : Fragment) (s : CheckState) : Prop where
  inference : s.inference = F.inf
  solving : F.Solving s.solving

/-- What a check leaves of a solution: in a narrow fragment all of it, and otherwise what was found
for variables that are none of the fragment's. -/
structure Undisturbed (F : Fragment) (σ τ : Option Solution) : Prop where
  narrow : ¬ F.wide → τ = σ
  scopes : τ.map (·.scopes) = σ.map (·.scopes)
  others : ∀ u, (∀ v, F.vars v → v.key ≠ u.key) → τ.bind (·.get? u) = σ.bind (·.get? u)

theorem Undisturbed.refl {F : Fragment} (σ : Option Solution) : F.Undisturbed σ σ :=
  ⟨fun _ => rfl, rfl, fun _ _ => rfl⟩

theorem Undisturbed.trans {F : Fragment} {σ τ υ : Option Solution} (h : F.Undisturbed σ τ)
    (h' : F.Undisturbed τ υ) : F.Undisturbed σ υ :=
  ⟨fun hf => (h'.narrow hf).trans (h.narrow hf), h'.scopes.trans h.scopes,
    fun u hu => (h'.others u hu).trans (h.others u hu)⟩

theorem agree_refl (F : Fragment) (b : Bool) : F.Agree b b := ⟨id, fun _ => rfl⟩

end Fragment

namespace Regime

def Modes : Regime → Mode → Mode → Prop
  | same, m, m' => m = m'
  | idle, m, m' => m.invariant = m'.invariant

def Solving (F : Fragment) : Regime → Option Solution → Option Solution → Prop
  | same, σ, σ' => σ = σ'
  | idle, σ, σ' => F.Idle σ ∧ F.Idle σ'

theorem modes_refl (ρ : Regime) (m : Mode) : ρ.Modes m m := by
  cases ρ <;> rfl

theorem Modes.invariant {ρ : Regime} {m m' : Mode} (h : ρ.Modes m m') :
    m.invariant = m'.invariant := by
  cases ρ with
  | same => exact congrArg Mode.invariant h
  | idle => exact h

end Regime

namespace Link

variable {F : Fragment}

/-- What a check leaves as it was. -/
structure Kept (L : Link F) (s t : CheckState) : Prop where
  start : F.Start t
  pending : t.pending = s.pending
  lent : t.lent = s.lent
  solving : F.Undisturbed s.solving t.solving
  history : ∃ new, t.history = s.history ++ new ∧ ∀ e ∈ new, L.known e

def Calm {α : Type} (L : Link F) (R : α → Prop) (act : Check α) : Prop :=
  ∀ s, F.Start s → ∃ a t, exec act s = (.ok a, t) ∧ R a ∧ L.Kept s t

/-- The two runs are at related states. -/
structure Related (L : Link F) (ρ : Regime) (s s' : CheckState) : Prop where
  left : F.Start s
  right : F.Start s'
  pending : L.base s.pending s'.pending
  solving : ρ.Solving F s.solving s'.solving

def CleanAfter (L : Link F) (s t : CheckState) : Prop :=
  ∀ new, t.history = s.history ++ new → ∀ e ∈ new, L.clean e

/-- The second check follows the first. -/
structure Sim {α : Type} (L : Link F) (ρ : Regime) (R : α → Prop) (E : α → α → Prop)
    (act act' : Check α) : Prop where
  left : L.Calm R act
  right : L.Calm R act'
  link {s s' t t' : CheckState} {a a' : α} (hs : L.Related ρ s s')
    (h : exec act s = (.ok a, t)) (h' : exec act' s' = (.ok a', t')) (hc : L.CleanAfter s t) :
    E a a' ∧ ρ.Solving F t.solving t'.solving

abbrev Agrees (L : Link F) (ρ : Regime) (act act' : Check Bool) : Prop :=
  L.Sim ρ (fun _ => True) F.Agree act act'

variable {L : Link F} {ρ : Regime} {α β : Type} {R : α → Prop} {E : α → α → Prop}

/-! ## One run -/

theorem Kept.refl {s : CheckState} (h : F.Start s) : L.Kept s s :=
  ⟨h, rfl, rfl, .refl _, [], (List.append_nil _).symm, fun _ he => nomatch he⟩

theorem Kept.trans {s t u : CheckState} (h : L.Kept s t) (h' : L.Kept t u) : L.Kept s u := by
  obtain ⟨new, hn, hk⟩ := h.history
  obtain ⟨new', hn', hk'⟩ := h'.history
  refine ⟨h'.start, h'.pending.trans h.pending, h'.lent.trans h.lent,
    h.solving.trans h'.solving, new ++ new', ?_, fun e he => ?_⟩
  · rw [hn', hn, List.append_assoc]
  · rcases List.mem_append.1 he with he | he
    · exact hk e he
    · exact hk' e he

theorem Calm.imp {R' : α → Prop} {act : Check α} (h : L.Calm R act) (hr : ∀ a, R a → R' a) :
    L.Calm R' act := by
  intro s hs
  obtain ⟨a, t, he, ha, hk⟩ := h s hs
  exact ⟨a, t, he, hr a ha, hk⟩

theorem Calm.pure {a : α} (h : R a) : L.Calm R (pure a) :=
  fun s hs => ⟨a, s, rfl, h, .refl hs⟩

theorem Calm.bind {Q : β → Prop} {act : Check α} {k : α → Check β} (h : L.Calm R act)
    (hk : ∀ a, R a → L.Calm Q (k a)) : L.Calm Q (act >>= k) := by
  intro s hs
  obtain ⟨a, t, he, ha, kept⟩ := h s hs
  obtain ⟨b, u, he', hb, kept'⟩ := hk a ha t kept.start
  exact ⟨b, u, by rw [exec_bind_of_ok he, he'], hb, kept.trans kept'⟩

theorem CleanAfter.of_trans {s t u : CheckState} (hc : L.CleanAfter s u) (h : L.Kept s t)
    (h' : L.Kept t u) : L.CleanAfter s t ∧ L.CleanAfter t u := by
  obtain ⟨new, hn, -⟩ := h.history
  obtain ⟨new', hn', -⟩ := h'.history
  refine ⟨fun es hes e he => hc (es ++ new') ?_ e (List.mem_append_left _ he),
    fun es hes e he => hc (new ++ es) ?_ e (List.mem_append_right _ he)⟩
  · rw [hn', hes, List.append_assoc]
  · rw [hes, hn, List.append_assoc]

/-! ## Two runs -/

theorem Related.of_kept {s s' t t' : CheckState} (h : L.Related ρ s s') (hk : L.Kept s t)
    (hk' : L.Kept s' t') (hσ : ρ.Solving F t.solving t'.solving) : L.Related ρ t t' :=
  ⟨hk.start, hk'.start, hk.pending ▸ hk'.pending ▸ h.pending, hσ⟩

/-- The result of a run that is known to answer. -/
theorem Calm.elim {act : Check α} (h : L.Calm R act) {s t : CheckState} {a : α} (hs : F.Start s)
    (he : exec act s = (.ok a, t)) : R a ∧ L.Kept s t := by
  obtain ⟨b, u, hb, hr, hk⟩ := h s hs
  rw [he] at hb
  cases hb
  exact ⟨hr, hk⟩

theorem Sim.pure {a a' : α} (h : R a) (h' : R a') (he : E a a') :
    L.Sim ρ R E (pure a) (pure a') := by
  refine ⟨.pure h, .pure h', fun hs h h' _ => ?_⟩
  cases h
  cases h'
  exact ⟨he, hs.solving⟩

theorem Sim.imp {R' : α → Prop} {E' : α → α → Prop} {act act' : Check α} (h : L.Sim ρ R E act act')
    (hr : ∀ a, R a → R' a) (he : ∀ a a', R a → R a' → E a a' → E' a a') :
    L.Sim ρ R' E' act act' := by
  refine ⟨h.left.imp hr, h.right.imp hr, fun hs h₁ h₂ hc => ?_⟩
  obtain ⟨hrel, hσ⟩ := h.link hs h₁ h₂ hc
  exact ⟨he _ _ (h.left.elim hs.left h₁).1 (h.right.elim hs.right h₂).1 hrel, hσ⟩

/-- Parts that follow each other may be put in sequence; a part may go on with either of two
related results. -/
theorem Sim.bindWith {Q : β → Prop} {D : β → β → Prop} {act act' : Check α} {k k' : α → Check β}
    (h : L.Sim ρ R E act act') (he : ∀ a, R a → E a a)
    (hk : ∀ a a', R a → R a' → E a a' → L.Sim ρ Q D (k a) (k' a')) :
    L.Sim ρ Q D (act >>= k) (act' >>= k') := by
  refine ⟨h.left.bind fun a ha => (hk a a ha ha (he a ha)).left,
    h.right.bind fun a ha => (hk a a ha ha (he a ha)).right, fun {s s' u u' b b'} hs h₁ h₂ hc => ?_⟩
  obtain ⟨a, t, ht, ha, kept⟩ := h.left s hs.left
  obtain ⟨a', t', ht', ha', kept'⟩ := h.right s' hs.right
  rw [exec_bind_of_ok ht] at h₁
  rw [exec_bind_of_ok ht'] at h₂
  have rest := (hk a a ha ha (he a ha)).left.elim kept.start h₁
  obtain ⟨hc₁, hc₂⟩ := hc.of_trans kept rest.2
  obtain ⟨hrel, hσ⟩ := h.link hs ht ht' hc₁
  exact (hk a a' ha ha' hrel).link (hs.of_kept kept kept' hσ) h₁ h₂ hc₂

theorem Sim.bind {Q : β → Prop} {D : β → β → Prop} {act act' : Check α} {k k' : α → Check β}
    (h : L.Sim ρ R (· = ·) act act') (hk : ∀ a, R a → L.Sim ρ Q D (k a) (k' a)) :
    L.Sim ρ Q D (act >>= k) (act' >>= k') := by
  refine h.bindWith (fun _ _ => rfl) fun a a' ha _ heq => ?_
  cases heq
  exact hk a ha

/-- In a narrow fragment the second run may have gone on where the first stopped. -/
theorem Agrees.bind {Q : β → Prop} {D : β → β → Prop} {act act' : Check Bool}
    {k k' : Bool → Check β} (h : L.Agrees ρ act act') (hk : ∀ b, L.Sim ρ Q D (k b) (k' b))
    (hn : ¬ F.wide → L.Sim ρ Q D (k false) (k' true)) :
    L.Sim ρ Q D (act >>= k) (act' >>= k') := by
  refine h.bindWith (fun b _ => F.agree_refl b) fun b b' _ _ hb => ?_
  by_cases hf : F.wide
  · cases hb.2 hf
    exact hk b
  · cases b with
    | true =>
      cases hb.1 rfl
      exact hk true
    | false =>
      cases b' with
      | true => exact hn hf
      | false => exact hk false

/-- In a narrow fragment any answer may follow a no. -/
theorem Agrees.of_no (hf : ¬ F.wide) {act act' : Check Bool} (h : L.Calm (· = false) act)
    (h' : L.Calm (fun _ => True) act') : L.Agrees ρ act act' := by
  refine ⟨h.imp fun _ _ => trivial, h', fun hs h₁ h₂ _ => ?_⟩
  obtain ⟨ha, kept⟩ := h.elim hs.left h₁
  obtain ⟨-, kept'⟩ := h'.elim hs.right h₂
  refine ⟨⟨fun hb => ?_, fun hw => absurd hw hf⟩, ?_⟩
  · rw [ha] at hb
    cases hb
  · rw [kept.solving.narrow hf, kept'.solving.narrow hf]
    exact hs.solving

/-- In a narrow fragment a yes may follow any answer. -/
theorem Agrees.of_yes (hf : ¬ F.wide) {act act' : Check Bool} (h : L.Calm (fun _ => True) act)
    (h' : L.Calm (· = true) act') : L.Agrees ρ act act' := by
  refine ⟨h, h'.imp fun _ _ => trivial, fun hs h₁ h₂ _ => ?_⟩
  obtain ⟨-, kept⟩ := h.elim hs.left h₁
  obtain ⟨ha, kept'⟩ := h'.elim hs.right h₂
  refine ⟨⟨fun _ => ha, fun hw => absurd hw hf⟩, ?_⟩
  rw [kept.solving.narrow hf, kept'.solving.narrow hf]
  exact hs.solving

theorem Agrees.pure (b : Bool) : L.Agrees ρ (pure b) (pure b) :=
  Sim.pure trivial trivial (F.agree_refl b)

/-! ## Primitive checks -/

theorem Sim.lift {m : StateM Inference α} (h : F.Steady R m) :
    L.Sim ρ R (· = ·) (lift m) (lift m) := by
  obtain ⟨a, ha, hr⟩ := h
  have run : ∀ s, F.Start s → exec (Check.lift m) s = (.ok a, s) := by
    intro s hs
    exact exec_lift_of_eq (hs.inference ▸ ha)
  have calm : L.Calm R (Check.lift m) := fun s hs => ⟨a, s, run s hs, hr, .refl hs⟩
  refine ⟨calm, calm, fun hs h h' _ => ?_⟩
  rw [run _ hs.left] at h
  rw [run _ hs.right] at h'
  cases h
  cases h'
  exact ⟨rfl, hs.solving⟩

theorem Sim.inference : L.Sim ρ (· = F.inf) (· = ·) inference inference := by
  have calm : L.Calm (· = F.inf) Check.inference := fun s hs => ⟨_, s, rfl, hs.inference, .refl hs⟩
  refine ⟨calm, calm, fun hs h h' _ => ?_⟩
  cases h
  cases h'
  exact ⟨hs.left.inference.trans hs.right.inference.symm, hs.solving⟩

theorem Sim.solution :
    L.Sim .same F.Solving (· = ·) solution solution := by
  have calm : L.Calm F.Solving Check.solution :=
    fun s hs => ⟨_, s, rfl, hs.solving, .refl hs⟩
  refine ⟨calm, calm, fun hs h h' _ => ?_⟩
  cases h
  cases h'
  exact ⟨hs.solving, hs.solving⟩

def Quiet (act : Check Unit) : Prop :=
  ∀ s, ∃ notes, exec act s = (.ok (), { s with notes := notes })

theorem Quiet.tell (wording : Wording) (values : Inference → List (String × String)) :
    Quiet (Check.tell wording values) := exec_tell wording values

theorem Quiet.bind {act : Check Unit} {k : Unit → Check Unit} (h : Quiet act)
    (hk : Quiet (k ())) : Quiet (act >>= k) := by
  intro s
  obtain ⟨notes, h⟩ := h s
  obtain ⟨notes', hk⟩ := hk { s with notes := notes }
  exact ⟨notes', by rw [exec_bind_of_ok h, hk]⟩

theorem Start.notes {s : CheckState} (h : F.Start s) (notes : Option Explanation) :
    F.Start { s with notes := notes } := ⟨h.inference, h.solving⟩

theorem Quiet.calm {act : Check Unit} (h : Quiet act) : L.Calm (fun _ => True) act := by
  intro s hs
  obtain ⟨notes, h⟩ := h s
  exact ⟨(), _, h, trivial, Start.notes hs notes, rfl, rfl, .refl _, [],
    (List.append_nil _).symm, fun _ he => nomatch he⟩

theorem Quiet.sim {act act' : Check Unit} (h : Quiet act) (h' : Quiet act') :
    L.Sim ρ (fun _ => True) (· = ·) act act' := by
  refine ⟨h.calm, h'.calm, fun {s s' t t' a a'} hs h₁ h₂ _ => ?_⟩
  obtain ⟨notes, h⟩ := h s
  obtain ⟨notes', h'⟩ := h' s'
  rw [h] at h₁
  rw [h'] at h₂
  cases h₁
  cases h₂
  exact ⟨rfl, hs.solving⟩

private theorem exec_demand_of_settled {f : FunctionTy}
    (h : ∀ cell outcome, f.ret ≠ .deferred cell outcome) (s : CheckState) :
    exec (demand f) s = (.ok (), s) := by
  rw [exec_demand, Fragment.demand_eq h]

theorem Calm.demand {f : FunctionTy} (h : ∀ cell outcome, f.ret ≠ .deferred cell outcome) :
    L.Calm (fun _ => True) (demand f) :=
  fun s hs => ⟨(), s, exec_demand_of_settled h s, trivial, .refl hs⟩

theorem Sim.demand {f g : FunctionTy} (h : ∀ cell outcome, f.ret ≠ .deferred cell outcome)
    (h' : ∀ cell outcome, g.ret ≠ .deferred cell outcome) :
    L.Sim ρ (fun _ => True) (· = ·) (demand f) (demand g) := by
  refine ⟨.demand h, .demand h', fun hs h₁ h₂ _ => ?_⟩
  rw [exec_demand_of_settled h] at h₁
  rw [exec_demand_of_settled h'] at h₂
  cases h₁
  cases h₂
  exact ⟨rfl, hs.solving⟩

theorem Calm.refuse (wording : Wording) (values : Inference → List (String × String)) :
    L.Calm (· = false) (refuse wording values) :=
  (Quiet.tell wording values).calm.bind fun _ _ => .pure rfl

theorem Agrees.refuse (wording wording' : Wording)
    (values values' : Inference → List (String × String)) :
    L.Agrees ρ (refuse wording values) (refuse wording' values') :=
  ((Quiet.tell wording values).sim (Quiet.tell wording' values')).bind fun _ _ =>
    Agrees.pure false

theorem Calm.mismatch (w : World) (source dest : Ty) :
    L.Calm (· = false) (mismatch w source dest) :=
  .refuse _ _

theorem Agrees.mismatch (w : World) (source dest : Ty) :
    L.Agrees ρ (mismatch w source dest) (mismatch w source dest) :=
  .refuse _ _ _ _

/-! ## Parts with a state of their own -/

theorem Calm.solvingFor {σ : Option Solution} (hσ : F.Solving σ)
    {act : Check α} (h : L.Calm R act) : L.Calm R (solvingFor σ act) := by
  intro s hs
  obtain ⟨a, t, he, ha, kept⟩ := h { s with solving := σ } ⟨hs.inference, hσ⟩
  refine ⟨a, { t with solving := s.solving }, ?_, ha, ⟨kept.start.inference, hs.solving⟩,
    kept.pending, kept.lent, .refl _, kept.history⟩
  rw [Check.solvingFor, exec_within, he]

theorem Sim.solvingFor {σ : Option Solution} (hσ : F.Solving σ)
    {act act' : Check α} (h : L.Sim .same R E act act') :
    L.Sim ρ R E (solvingFor σ act) (solvingFor σ act') := by
  refine ⟨h.left.solvingFor hσ, h.right.solvingFor hσ, fun {s s' t t' a a'} hs h₁ h₂ hc => ?_⟩
  rw [Check.solvingFor, exec_within] at h₁ h₂
  rcases he : exec act { s with solving := σ } with ⟨r, u⟩
  rcases he' : exec act' { s' with solving := σ } with ⟨r', u'⟩
  rw [he] at h₁
  rw [he'] at h₂
  cases h₁
  cases h₂
  have entered : L.Related .same { s with solving := σ } { s' with solving := σ } :=
    ⟨⟨hs.left.inference, hσ⟩, ⟨hs.right.inference, hσ⟩, hs.pending, rfl⟩
  exact ⟨(h.link entered he he' hc).1, hs.solving⟩

/-- A part that explains elsewhere runs as it would otherwise. -/
theorem exec_within_notes {n : CheckState → Option Explanation}
    {n' : CheckState → CheckState → Option Explanation} {act : Check α} {s t : CheckState}
    {r : Except InferenceError α}
    (h : exec (within (fun s => { s with notes := n s })
      (fun before s => { s with notes := n' before s }) act) s = (r, t)) :
    ∃ u, exec act { s with notes := n s } = (r, u) ∧ t = { u with notes := n' s u } := by
  rw [exec_within] at h
  rcases he : exec act { s with notes := n s } with ⟨r', u⟩
  rw [he] at h
  cases h
  exact ⟨u, rfl, rfl⟩

theorem Calm.notes {n : CheckState → Option Explanation}
    {n' : CheckState → CheckState → Option Explanation} {act : Check α} (h : L.Calm R act) :
    L.Calm R (within (fun s => { s with notes := n s })
      (fun before s => { s with notes := n' before s }) act) := by
  intro s hs
  obtain ⟨a, t, he, ha, kept⟩ := h { s with notes := n s } (Start.notes hs _)
  refine ⟨a, { t with notes := n' s t }, ?_, ha, Start.notes kept.start _, kept.pending, kept.lent,
    kept.solving, kept.history⟩
  rw [exec_within, he]

theorem Sim.notes {n : CheckState → Option Explanation}
    {n' : CheckState → CheckState → Option Explanation} {act act' : Check α}
    (h : L.Sim ρ R E act act') :
    L.Sim ρ R E (within (fun s => { s with notes := n s })
      (fun before s => { s with notes := n' before s }) act)
      (within (fun s => { s with notes := n s })
        (fun before s => { s with notes := n' before s }) act') := by
  refine ⟨h.left.notes, h.right.notes, fun {s s' t t' a a'} hs h₁ h₂ hc => ?_⟩
  obtain ⟨u, he, rfl⟩ := exec_within_notes h₁
  obtain ⟨u', he', rfl⟩ := exec_within_notes h₂
  have entered : L.Related ρ { s with notes := n s } { s' with notes := n s' } :=
    ⟨Start.notes hs.left _, Start.notes hs.right _, hs.pending, hs.solving⟩
  have linked := h.link entered he he' hc
  exact linked

theorem Sim.silently {act act' : Check α} (h : L.Sim ρ R E act act') :
    L.Sim ρ R E (silently act) (silently act') := h.notes

theorem Sim.child {act act' : Check α} (h : L.Sim ρ R E act act') :
    L.Sim ρ R E (child act) (child act') := h.notes

theorem Sim.detached {act act' : Check α} (h : L.Sim .same R E act act') :
    L.Sim ρ R E (detached act) (detached act') :=
  (h.solvingFor Fragment.solving_none).silently

theorem exec_attempt_eq {act : Check Bool} {s t : CheckState} {b : Bool}
    (h : exec act s = (.ok b, t)) :
    exec (attempt act) s = (.ok b, if b then t else { t with solving := s.solving }) := by
  rw [exec_attempt, h]
  cases b <;> rfl

theorem Calm.attempt {R : Bool → Prop} {act : Check Bool} (h : L.Calm R act) :
    L.Calm R (attempt act) := by
  intro s hs
  obtain ⟨b, t, he, hb, kept⟩ := h s hs
  refine ⟨b, _, exec_attempt_eq he, hb, ?_⟩
  cases b with
  | true => exact kept
  | false =>
    exact ⟨⟨kept.start.inference, hs.solving⟩, kept.pending, kept.lent, .refl _, kept.history⟩

theorem Agrees.attempt {act act' : Check Bool} (h : L.Agrees ρ act act') :
    L.Agrees ρ (attempt act) (attempt act') := by
  refine ⟨h.left.attempt, h.right.attempt, fun {s s' t t' b b'} hs h₁ h₂ hc => ?_⟩
  obtain ⟨b₁, u, he, -, kept⟩ := h.left s hs.left
  obtain ⟨b₂, u', he', -, kept'⟩ := h.right s' hs.right
  rw [exec_attempt_eq he] at h₁
  rw [exec_attempt_eq he'] at h₂
  cases h₁
  cases h₂
  have clean : L.CleanAfter s u := by
    intro new hn
    refine hc new ?_
    cases b <;> exact hn
  obtain ⟨hb, hσ⟩ := h.link hs he he' clean
  refine ⟨hb, ?_⟩
  by_cases hf : F.wide
  · cases hb.2 hf
    cases b with
    | true => exact hσ
    | false => exact hs.solving
  · have same : ∀ (b : Bool) (s u : CheckState), u.solving = s.solving →
        (if b then u else { u with solving := s.solving }).solving = s.solving := by
      intro b s u h
      cases b with
      | true => exact h
      | false => rfl
    rw [same _ _ _ (kept.solving.narrow hf), same _ _ _ (kept'.solving.narrow hf)]
    exact hs.solving

/-! ## Loops -/

theorem agree_and {a a' b b' : Bool} (h : F.Agree a a') (h' : F.Agree b b') :
    F.Agree (a && b) (a' && b') := by
  refine ⟨fun hab => ?_, fun hf => by rw [h.2 hf, h'.2 hf]⟩
  rw [Bool.and_eq_true] at hab ⊢
  exact ⟨h.1 hab.1, h'.1 hab.2⟩

/-- Two checks of which both have to answer yes. -/
theorem Agrees.both {first first' second second' : Check Bool} (h : L.Agrees ρ first first')
    (h' : L.Agrees ρ second second') :
    L.Agrees ρ (do
        let a ← first
        let b ← second
        Pure.pure (a && b)) (do
        let a ← first'
        let b ← second'
        Pure.pure (a && b)) := by
  refine h.bindWith (fun b _ => F.agree_refl b) fun a a' _ _ ha => ?_
  refine h'.bindWith (fun b _ => F.agree_refl b) fun b b' _ _ hb => ?_
  exact Sim.pure trivial trivial (agree_and ha hb)

theorem Agrees.allOf {f g : α → Check Bool} {as : List α} (h : ∀ a ∈ as, L.Agrees ρ (f a) (g a)) :
    L.Agrees ρ (allOf f as) (allOf g as) := by
  induction as with
  | nil => exact Agrees.pure true
  | cons a as ih =>
    rw [Check.allOf, Check.allOf]
    exact (h a List.mem_cons_self).both (ih fun b hb => h b (List.mem_cons_of_mem a hb))

/-- Goes on by the answer; in a narrow fragment the second run may take the way of a yes where the
first takes that of a no. -/
theorem Agrees.ite {Q : β → Prop} {D : β → β → Prop} {act act' : Check Bool}
    {yes yes' no no' : Check β} (h : L.Agrees ρ act act') (hy : L.Sim ρ Q D yes yes')
    (hn : L.Sim ρ Q D no no') (hny : ¬ F.wide → L.Sim ρ Q D no yes') :
    L.Sim ρ Q D (act >>= fun b => if b = true then yes else no)
      (act' >>= fun b => if b = true then yes' else no') := by
  refine h.bind (fun b => ?_) fun hf => ?_
  · cases b with
    | true => exact hy
    | false => exact hn
  · exact hny hf

theorem Agrees.anyOf {f g : α → Check Bool} {as : List α} (h : ∀ a ∈ as, L.Agrees ρ (f a) (g a)) :
    L.Agrees ρ (anyOf f as) (anyOf g as) := by
  induction as with
  | nil => exact Agrees.pure false
  | cons a as ih =>
    rw [Check.anyOf, Check.anyOf]
    have rest := ih fun b hb => h b (List.mem_cons_of_mem a hb)
    exact Agrees.ite (h a List.mem_cons_self) (Agrees.pure true) rest
      fun hf => Agrees.of_yes hf rest.left (.pure rfl)

theorem Agrees.explained {act act' : Check Bool} {messages messages' : Check Unit}
    (h : L.Agrees ρ act act') (hm : Quiet messages) (hm' : Quiet messages') :
    L.Agrees ρ (explained act messages) (explained act' messages') := by
  refine Agrees.ite h (Agrees.pure true) ((hm.sim hm').bind fun _ _ => Agrees.pure false)
    fun hf => ?_
  exact Agrees.of_no hf (hm.calm.bind fun _ _ => .pure rfl) (.pure trivial)

/-- A comparison that writes a message where it answers no. -/
theorem Agrees.orRefuse {act act' no : Check Bool} (h : L.Agrees ρ act act')
    (hn : ∀ ρ, L.Agrees ρ no no) (hf : L.Calm (· = false) no) :
    L.Agrees ρ (act >>= fun b => if b = true then Pure.pure true else no)
      (act' >>= fun b => if b = true then Pure.pure true else no) :=
  Agrees.ite h (Agrees.pure true) (hn ρ) fun hw => Agrees.of_no hw hf (.pure trivial)

end Link

end Conformance
