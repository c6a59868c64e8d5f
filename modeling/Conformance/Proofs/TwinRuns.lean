import Conformance.Proofs.TwinLookups
import Conformance.Proofs.Run

/-!
# Twin runs

Two runs of the same comparison on twins, from states that are twins, end alike: with the same answer
or with the same failure, and in states that are twins. Each part of a comparison asks the judge one
level down, so this is by induction on the levels.
-/

namespace Conformance

open Check

/-- The pending comparisons are twins, or both are with protocols that the runs do not come across. -/
inductive Pending.Twin (m : Pairing) (p q : Pending) : Prop
  | known (candidate : p.candidate.Twin m q.candidate) (protocol : p.protocol.Twin m q.protocol)
  | foreign (left : ¬ m.classes p.protocol.id) (right : ¬ m.classes q.protocol.id)

namespace Pairing

/-- The solution solves no scope and has no key that the second run calls otherwise. -/
structure Keeps (m : Pairing) (σ : Solution) : Prop where
  scopes : ∀ scope ∈ σ.scopes, m.naming.scope scope = scope
  keys : ∀ e ∈ σ.entries, m.naming.key e.1 = e.1

theorem keeps_of_none {m : Pairing} (plain : m.naming = .none) (σ : Solution) : m.Keeps σ := by
  refine ⟨fun scope _ => ?_, fun e _ => ?_⟩ <;> rw [plain] <;> rfl

/-- The states are twins, apart from the trace, the notes and the history. -/
structure Meets (m : Pairing) (s s' : CheckState) : Prop where
  inference : m.Holds s.inference s'.inference
  pending : List.Forall₂ (Pending.Twin m) s.pending s'.pending
  lent : List.Forall₂ (Pending.Twin m) s.lent s'.lent
  solving : Option.Rel (Solution.Twin m) s.solving s'.solving

/-- States are twins that differ in what is known about return types only, if both runs know the
comparisons in progress and what was found for type variables. -/
theorem Shares.meets {m : Pairing} {P : Ty → Prop} (h : m.Shares P) {s s' : CheckState}
    (holds : m.Holds s.inference s'.inference) (pending : s'.pending = s.pending)
    (lent : s'.lent = s.lent) (solving : s'.solving = s.solving)
    (known : ∀ p ∈ s.pending ++ s.lent, P (.cls p.candidate) ∧ P (.cls p.protocol))
    (keeps : ∀ σ, s.solving = some σ → m.Keeps σ)
    (found : ∀ σ, s.solving = some σ → ∀ key t, (key, some t) ∈ σ.entries → P t) : m.Meets s s' := by
  have each {ps : List Pending} (hp : ∀ p ∈ ps, p ∈ s.pending ++ s.lent) :
      List.Forall₂ (Pending.Twin m) ps ps :=
    List.forall₂_same.2 fun p here =>
      .known (h.twin (known p (hp p here)).1) (h.twin (known p (hp p here)).2)
  refine ⟨holds, ?_, ?_, ?_⟩
  · rw [pending]
    exact each fun p here => List.mem_append_left _ here
  · rw [lent]
    exact each fun p here => List.mem_append_right _ here
  · rw [solving]
    refine rel_option_self fun σ hσ => ⟨?_, List.forall₂_same.2 fun e here => ⟨?_, ?_⟩⟩
    · exact ((List.map_congr_left (keeps σ hσ).scopes).trans (List.map_id _)).symm
    · exact ((keeps σ hσ).keys e here).symm
    obtain ⟨key, o⟩ := e
    exact rel_option_self fun t ht => h.twin (found σ hσ key t (ht ▸ here))

/-- Both runs answer, and the answers are related, or both fail in the same way. -/
inductive Ends {α β : Type} (R : α → β → Prop) :
    Except InferenceError α → Except InferenceError β → Prop
  | ok {a : α} {b : β} (h : R a b) : Ends R (.ok a) (.ok b)
  | error (e : InferenceError) : Ends R (.error e) (.error e)

theorem Ends.eq {α : Type} {r r' : Except InferenceError α} (h : Ends (· = ·) r r') : r' = r := by
  cases h with
  | ok same => rw [same]
  | error e => rfl

/-- From twin states the two checks end alike, in twin states. -/
def Runs {α β : Type} (m : Pairing) (R : α → β → Prop) (act : Check α) (act' : Check β) : Prop :=
  ∀ s s', m.Meets s s' →
    Ends R (exec act s).1 (exec act' s').1 ∧ m.Meets (exec act s).2 (exec act' s').2

abbrev Agrees (m : Pairing) (act act' : Check Bool) : Prop := m.Runs (· = ·) act act'

abbrev Tells (m : Pairing) (act act' : Check Unit) : Prop := m.Runs (fun _ _ => True) act act'

def Gives {α : Type} (P : α → Prop) (act : Check α) : Prop :=
  ∀ s a t, exec act s = (.ok a, t) → P a

/-- The check answers yes and leaves all that a run looks at as it was. -/
def Idles (act : Check Bool) : Prop :=
  ∀ s, ∃ t, exec act s = (.ok true, t) ∧ t.inference = s.inference ∧ t.pending = s.pending ∧
    t.lent = s.lent ∧ t.solving = s.solving

variable {m : Pairing} {α β γ δ : Type} {R : α → β → Prop} {S : γ → δ → Prop}

/-! ## What a check yields -/

theorem gives_pure {P : α → Prop} {a : α} (h : P a) : Gives P (pure a) := by
  rintro s _ t ⟨⟩
  exact h

theorem gives_lift {P : α → Prop} {act : StateM Inference α} (h : ∀ inf, P (act inf).1) :
    Gives P (lift act) := by
  rintro s _ t ⟨⟩
  exact h s.inference

theorem gives_bind {P : α → Prop} {Q : γ → Prop} {act : Check α} {k : α → Check γ}
    (h : Gives P act) (hk : ∀ a, P a → Gives Q (k a)) : Gives Q (act >>= k) := by
  intro s c t ran
  rcases first : exec act s with ⟨_ | a, u⟩
  · rw [exec_bind_of_error first] at ran
    cases ran
  · rw [exec_bind_of_ok first] at ran
    exact hk a (h s a u first) u c t ran

theorem gives_of_true (act : Check α) : Gives (fun _ => True) act := fun _ _ _ _ => trivial

/-! ## Putting checks together -/

theorem runs_gives {P : α → Prop} {act : Check α} {act' : Check β} (h : m.Runs R act act')
    (left : Gives P act) : m.Runs (fun a b => R a b ∧ P a) act act' := by
  intro s s' hs
  obtain ⟨ends, hs⟩ := h s s' hs
  have yields := left s
  generalize exec act s = run at ends hs yields
  generalize exec act' s' = run' at ends hs
  obtain ⟨r, t⟩ := run
  obtain ⟨r', t'⟩ := run'
  cases ends with
  | ok h => exact ⟨.ok ⟨h, yields _ _ rfl⟩, hs⟩
  | error e => exact ⟨.error e, hs⟩

theorem runs_pure {a : α} {b : β} (h : R a b) : m.Runs R (pure a) (pure b) :=
  fun _ _ hs => ⟨.ok h, hs⟩

theorem agrees_pure (b : Bool) : m.Agrees (pure b) (pure b) := runs_pure rfl

theorem runs_bind {act : Check α} {act' : Check β} {k : α → Check γ} {k' : β → Check δ}
    (h : m.Runs R act act') (hk : ∀ a b, R a b → m.Runs S (k a) (k' b)) :
    m.Runs S (act >>= k) (act' >>= k') := by
  intro s s' hs
  obtain ⟨ends, hs⟩ := h s s' hs
  rw [exec_bind, exec_bind]
  generalize exec act s = run at ends hs
  generalize exec act' s' = run' at ends hs
  obtain ⟨r, t⟩ := run
  obtain ⟨r', t'⟩ := run'
  cases ends with
  | ok h => exact hk _ _ h t t' hs
  | error e => exact ⟨.error e, hs⟩

theorem runs_get : m.Runs m.Meets get get := fun _ _ hs => ⟨.ok hs, hs⟩

theorem runs_inference : m.Runs m.Holds inference inference := fun _ _ hs => ⟨.ok hs.inference, hs⟩

theorem runs_solution : m.Runs (Option.Rel (Solution.Twin m)) solution solution :=
  fun _ _ hs => ⟨.ok hs.solving, hs⟩

theorem runs_lift {act : StateM Inference α} {act' : StateM Inference β} (h : m.Both R act act') :
    m.Runs R (lift act) (lift act') := by
  intro s s' hs
  obtain ⟨ends, holds⟩ := h _ _ hs.inference
  exact ⟨.ok ends, holds, hs.pending, hs.lent, hs.solving⟩

theorem runs_solve {v u : TypeVar} (hv : v.Twin m u) {t t' : Ty} (ht : t.Twin m t') :
    m.Runs (fun _ _ => True) (solve v t) (solve u t') := by
  intro s s' hs
  refine ⟨.ok trivial, hs.inference, hs.pending, hs.lent, ?_⟩
  exact rel_option_map hs.solving fun σ τ hσ => hσ.insert hv (.some ht)

theorem Meets.notes {s s' : CheckState} (hs : m.Meets s s') (notes notes' : Option Explanation) :
    m.Meets { s with notes := notes } { s' with notes := notes' } :=
  ⟨hs.inference, hs.pending, hs.lent, hs.solving⟩

theorem tells_tell (wording wording' : Wording)
    (values values' : Inference → List (String × String)) :
    m.Tells (tell wording values) (tell wording' values') := by
  intro s s' hs
  obtain ⟨notes, ran⟩ := exec_tell wording values s
  obtain ⟨notes', ran'⟩ := exec_tell wording' values' s'
  rw [ran, ran']
  exact ⟨.ok trivial, hs.notes notes notes'⟩

theorem agrees_refuse (wording wording' : Wording)
    (values values' : Inference → List (String × String)) :
    m.Agrees (refuse wording values) (refuse wording' values') :=
  runs_bind (tells_tell _ _ _ _) fun _ _ _ => agrees_pure false

theorem agrees_mismatch (w : World) (source dest source' dest' : Ty) :
    m.Agrees (mismatch w source dest) (mismatch w source' dest') :=
  agrees_refuse _ _ _ _

theorem runs_record (e e' : Event) : m.Runs (fun _ _ => True) (record e) (record e') :=
  fun _ _ hs => ⟨.ok trivial, hs.inference, hs.pending, hs.lent, hs.solving⟩

theorem agrees_cutOff : m.Agrees cutOff cutOff :=
  runs_bind (runs_record _ _) fun _ _ _ => agrees_pure true

theorem runs_trace (w : World) (line line' : CheckState → TraceLine) :
    m.Runs (fun _ _ => True) (trace w line) (trace w line') := by
  intro s s' hs
  rw [exec_trace, exec_trace]
  refine ⟨.ok trivial, ?_⟩
  split
  · exact ⟨hs.inference, hs.pending, hs.lent, hs.solving⟩
  · exact hs

private theorem runs_within {enter enter' : CheckState → CheckState}
    {leave leave' : CheckState → CheckState → CheckState} {act : Check α} {act' : Check β}
    (he : ∀ s s', m.Meets s s' → m.Meets (enter s) (enter' s'))
    (hl : ∀ s s' t t', m.Meets s s' → m.Meets t t' → m.Meets (leave s t) (leave' s' t'))
    (h : m.Runs R act act') : m.Runs R (within enter leave act) (within enter' leave' act') := by
  intro s s' hs
  obtain ⟨ends, ht⟩ := h _ _ (he s s' hs)
  rw [exec_within, exec_within]
  exact ⟨ends, hl _ _ _ _ hs ht⟩

theorem runs_silently {act : Check α} {act' : Check β} (h : m.Runs R act act') :
    m.Runs R (silently act) (silently act') :=
  runs_within (fun _ _ hs => hs.notes none none) (fun _ _ _ _ _ ht => ht.notes _ _) h

theorem runs_child {act : Check α} {act' : Check β} (h : m.Runs R act act') :
    m.Runs R (child act) (child act') :=
  runs_within (fun _ _ hs => hs.notes _ _) (fun _ _ _ _ _ ht => ht.notes _ _) h

theorem runs_solvingFor {σ τ : Option Solution} (hσ : Option.Rel (Solution.Twin m) σ τ)
    {act : Check α} {act' : Check β} (h : m.Runs R act act') :
    m.Runs R (solvingFor σ act) (solvingFor τ act') :=
  runs_within (fun _ _ hs => ⟨hs.inference, hs.pending, hs.lent, hσ⟩)
    (fun _ _ _ _ hs ht => ⟨ht.inference, ht.pending, ht.lent, hs.solving⟩) h

theorem agrees_attempt {act act' : Check Bool} (h : m.Agrees act act') :
    m.Agrees (attempt act) (attempt act') := by
  intro s s' hs
  obtain ⟨ends, ht⟩ := h s s' hs
  rw [exec_attempt, exec_attempt]
  generalize exec act s = run at ends ht
  generalize exec act' s' = run' at ends ht
  obtain ⟨r, t⟩ := run
  obtain ⟨r', t'⟩ := run'
  have left : m.Meets { t with solving := s.solving } { t' with solving := s'.solving } :=
    ⟨ht.inference, ht.pending, ht.lent, hs.solving⟩
  cases ends with
  | error e => exact ⟨.error e, left⟩
  | @ok a b same =>
    subst same
    cases a with
    | true => exact ⟨.ok rfl, ht⟩
    | false => exact ⟨.ok rfl, left⟩

theorem agrees_allOf {as : List α} {bs : List β} (h : List.Forall₂ R as bs) {f : α → Check Bool}
    {g : β → Check Bool} (hf : ∀ a b, R a b → m.Agrees (f a) (g b)) :
    m.Agrees (allOf f as) (allOf g bs) := by
  induction h with
  | nil => exact agrees_pure true
  | cons hab _ ih =>
    rw [allOf, allOf]
    refine runs_bind (hf _ _ hab) fun a b same => runs_bind ih fun a' b' same' => ?_
    subst same same'
    exact agrees_pure _

theorem agrees_anyOf {as : List α} {bs : List β} (h : List.Forall₂ R as bs) {f : α → Check Bool}
    {g : β → Check Bool} (hf : ∀ a b, R a b → m.Agrees (f a) (g b)) :
    m.Agrees (anyOf f as) (anyOf g bs) := by
  induction h with
  | nil => exact agrees_pure false
  | cons hab _ ih =>
    rw [anyOf, anyOf]
    refine runs_bind (hf _ _ hab) fun a b same => ?_
    subst same
    split
    · exact agrees_pure true
    · exact ih

/-- Goes on by an answer that is the same in both runs. -/
theorem runs_ite {act act' : Check Bool} {yes no : Check α} {yes' no' : Check β}
    (h : m.Agrees act act') (hy : m.Runs R yes yes') (hn : m.Runs R no no') :
    m.Runs R (act >>= fun b => if b = true then yes else no)
      (act' >>= fun b => if b = true then yes' else no') := by
  refine runs_bind h fun a b same => ?_
  subst same
  split
  · exact hy
  · exact hn

theorem agrees_both {first first' second second' : Check Bool} (h : m.Agrees first first')
    (h' : m.Agrees second second') :
    m.Agrees (do
        let a ← first
        let b ← second
        pure (a && b)) (do
        let a ← first'
        let b ← second'
        pure (a && b)) := by
  refine runs_bind h fun a b same => runs_bind h' fun a' b' same' => ?_
  subst same same'
  exact agrees_pure _

theorem agrees_explained {act act' : Check Bool} {messages messages' : Check Unit}
    (h : m.Agrees act act') (hm : m.Tells messages messages') :
    m.Agrees (explained act messages) (explained act' messages') :=
  runs_ite h (agrees_pure true) (runs_bind hm fun _ _ _ => agrees_pure false)

theorem runs_of_idles {act : Check Bool} (h : Idles act) : m.Agrees (pure true) act := by
  intro s s' hs
  obtain ⟨t, ran, inference, pending, lent, solving⟩ := h s'
  rw [ran]
  refine ⟨.ok rfl, ?_, ?_, ?_, ?_⟩
  · exact inference ▸ hs.inference
  · exact pending ▸ hs.pending
  · exact lent ▸ hs.lent
  · exact solving ▸ hs.solving

theorem runs_of_idles_left {act : Check Bool} (h : Idles act) : m.Agrees act (pure true) := by
  intro s s' hs
  obtain ⟨t, ran, inference, pending, lent, solving⟩ := h s
  rw [ran]
  refine ⟨.ok rfl, ?_, ?_, ?_, ?_⟩
  · exact inference ▸ hs.inference
  · exact pending ▸ hs.pending
  · exact lent ▸ hs.lent
  · exact solving ▸ hs.solving

theorem runs_demand {f g : FunctionTy} (h : f.Returns m g) :
    m.Runs (fun _ _ => True) (demand f) (demand g) := by
  intro s s' hs
  have holds := hs.inference
  rw [exec_demand, exec_demand]
  cases hopen : s.inference.isOpen f with
  | false =>
    rw [demand_of_found hopen, demand_of_found ((holds.isOpen_eq h).trans hopen)]
    exact ⟨.ok trivial, hs⟩
  | true =>
    have hopen' := (holds.isOpen_eq h).trans hopen
    cases h with
    | declared ret => simp [Inference.isOpen, ret] at hopen
    | undeclared ret => simp [Inference.isOpen, ret] at hopen
    | known loose found => simp [holds.left.isOpen_eq_false found] at hopen
    | @deferred _ _ c c' o o' ret ret' cell outcome =>
      have left : s.inference.isSettled c = false := by simpa [Inference.isOpen, ret] using hopen
      have right : s'.inference.isSettled c' = false := by
        simpa [Inference.isOpen, ret'] using hopen'
      rw [run_demand, run_demand, ret, ret']
      simp only [left, right, Bool.false_eq_true, if_false]
      have after := holds.settle cell f.name g.name
      cases outcome with
      | returns twin => exact ⟨.ok trivial, after, hs.pending, hs.lent, hs.solving⟩
      | raises message => exact ⟨.error _, after, hs.pending, hs.lent, hs.solving⟩

end Pairing

end Conformance
