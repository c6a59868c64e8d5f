import Conformance.Proofs.Run
import Conformance.Proofs.Setting

/-!
# Checks in lockstep

Two checks run side by side, and what is in progress in the first is so in the second, but for what
the setting spares. Neither fails, what they answer is related, and both leave what is in progress
and which return types were found out as they were. In a plain world looking members up and binding
them answers the same in both, whatever the comparisons answer.
-/

namespace Conformance

open Check

variable {K : Setting} {α β γ δ : Type}

/-- The same return types were found out, and what is in progress in the first state is so in the
second or may be in progress in the first alone. -/
structure CheckState.Below (K : Setting) (s s' : CheckState) : Prop where
  left : s.inference = K.inf
  right : s'.inference = K.inf
  pending : ∀ choice entry, isPending K.inf (pendingOn choice s) entry = true →
    isPending K.inf (pendingOn choice s') entry = true ∨ K.spare choice entry

/-- The state has the return types and the comparisons in progress of an earlier one. -/
structure CheckState.Resumes (s t : CheckState) : Prop where
  inference : t.inference = s.inference
  pending : t.pending = s.pending
  lent : t.lent = s.lent

/-- Both checks answer, the answers are related, and what is in progress stays. -/
def Lockstep (K : Setting) (E : α → β → Prop) (act : Check α) (act' : Check β) : Prop :=
  ∀ s s', s.Below K s' → ∃ a b t t', exec act s = (.ok a, t) ∧ exec act' s' = (.ok b, t') ∧
    E a b ∧ s.Resumes t ∧ s'.Resumes t'

abbrev Upholds (K : Setting) (act act' : Check Bool) : Prop := Lockstep K (· ≤ ·) act act'

/-- The two checks answer the same. -/
abbrev Coincides (K : Setting) (R : α → Prop) (act act' : Check α) : Prop :=
  Lockstep K (fun a b => a = b ∧ R a) act act'

def Always (a : α) (act : Check α) : Prop := ∀ s, ∃ t, exec act s = (.ok a, t) ∧ s.Resumes t

def Answers (K : Setting) (a : α) (act : Check α) : Prop :=
  ∀ s, s.inference = K.inf → ∃ t, exec act s = (.ok a, t) ∧ s.Resumes t

def Affirmed (K : Setting) (act : Check Bool) : Prop :=
  ∀ s, s.inference = K.inf → ∃ t, exec act s = (.ok true, t) ∧ s.Resumes t

namespace CheckState

theorem Resumes.refl (s : CheckState) : s.Resumes s := ⟨rfl, rfl, rfl⟩

theorem Resumes.trans {s t u : CheckState} (h : s.Resumes t) (h' : t.Resumes u) : s.Resumes u :=
  ⟨h'.inference.trans h.inference, h'.pending.trans h.pending, h'.lent.trans h.lent⟩

theorem Resumes.pendingOn {s t : CheckState} (h : s.Resumes t) (choice : StackChoice) :
    pendingOn choice t = pendingOn choice s := by
  cases choice
  · exact h.pending
  · exact h.lent

private theorem Below.resumed {s s' t t' : CheckState} (h : s.Below K s') (ht : s.Resumes t)
    (ht' : s'.Resumes t') : t.Below K t' := by
  refine ⟨ht.inference.trans h.left, ht'.inference.trans h.right, fun choice entry => ?_⟩
  rw [ht.pendingOn, ht'.pendingOn]
  exact h.pending choice entry

theorem Below.stillPending {s s' : CheckState} (h : s.Below K s') {choice : StackChoice}
    {entry : Pending} (hp : isPending s.inference (Check.pendingOn choice s) entry = true) :
    isPending s'.inference (Check.pendingOn choice s') entry = true ∨ K.spare choice entry := by
  rw [h.left] at hp
  rw [h.right]
  exact h.pending choice entry hp

def enteringOn (choice : StackChoice) (c : Comparison) (s : CheckState) : CheckState :=
  setPendingOn choice { s with history := [] } (c.pair :: Check.pendingOn choice s)

theorem pendingOn_enteringOn (choice other : StackChoice) (c : Comparison) (s : CheckState) :
    Check.pendingOn other (s.enteringOn choice c) =
      if other = choice then c.pair :: Check.pendingOn other s else Check.pendingOn other s := by
  cases choice <;> cases other <;> rfl

theorem inference_enteringOn (choice : StackChoice) (c : Comparison) (s : CheckState) :
    (s.enteringOn choice c).inference = s.inference := by
  cases choice <;> rfl

theorem Below.enteringOn {s s' : CheckState} (h : s.Below K s') (choice : StackChoice)
    (c : Comparison) : (s.enteringOn choice c).Below K (s'.enteringOn choice c) := by
  refine ⟨(inference_enteringOn choice c s).trans h.left,
    (inference_enteringOn choice c s').trans h.right, fun other entry => ?_⟩
  have before := h.pending other entry
  rw [pendingOn_enteringOn, pendingOn_enteringOn]
  split
  · simp only [isPending, List.any_cons, Bool.or_eq_true, or_assoc] at before ⊢
    exact Or.imp_right before
  · exact before

end CheckState

open CheckState

namespace Lockstep

variable {E : α → β → Prop} {D : γ → δ → Prop} {act : Check α} {act' : Check β}

theorem pure {a : α} {b : β} (h : E a b) : Lockstep K E (pure a) (pure b) :=
  fun s s' _ => ⟨a, b, s, s', rfl, rfl, h, .refl s, .refl s'⟩

theorem bind {k : α → Check γ} {k' : β → Check δ} (h : Lockstep K E act act')
    (hk : ∀ a b, E a b → Lockstep K D (k a) (k' b)) :
    Lockstep K D (act >>= k) (act' >>= k') := by
  intro s s' below
  obtain ⟨a, b, t, t', ha, hb, hab, kept, kept'⟩ := h s s' below
  obtain ⟨c, d, u, u', hc, hd, hcd, rest, rest'⟩ := hk a b hab t t' (below.resumed kept kept')
  exact ⟨c, d, u, u', by rw [exec_bind_of_ok ha, hc], by rw [exec_bind_of_ok hb, hd], hcd,
    kept.trans rest, kept'.trans rest'⟩

/-- A part with a state of its own is entered and left without a change of what is in progress. -/
theorem within {enter : CheckState → CheckState} {leave : CheckState → CheckState → CheckState}
    (he : ∀ s : CheckState, s.Resumes (enter s)) (hl : ∀ s t : CheckState, t.Resumes (leave s t))
    (h : Lockstep K E act act') :
    Lockstep K E (within enter leave act) (Check.within enter leave act') := by
  intro s s' below
  obtain ⟨a, b, t, t', ha, hb, hab, kept, kept'⟩ :=
    h (enter s) (enter s') (below.resumed (he s) (he s'))
  refine ⟨a, b, leave s t, leave s' t', by rw [exec_within, ha], by rw [exec_within, hb], hab,
    ?_, ?_⟩
  · exact ((he s).trans kept).trans (hl s t)
  · exact ((he s').trans kept').trans (hl s' t')

theorem solvingFor (σ : Option Solution) (h : Lockstep K E act act') :
    Lockstep K E (solvingFor σ act) (Check.solvingFor σ act') :=
  within (fun _ => ⟨rfl, rfl, rfl⟩) (fun _ _ => ⟨rfl, rfl, rfl⟩) h

theorem silently (h : Lockstep K E act act') :
    Lockstep K E (silently act) (Check.silently act') :=
  within (fun _ => ⟨rfl, rfl, rfl⟩) (fun _ _ => ⟨rfl, rfl, rfl⟩) h

theorem child (h : Lockstep K E act act') : Lockstep K E (child act) (Check.child act') :=
  within (fun _ => ⟨rfl, rfl, rfl⟩) (fun _ _ => ⟨rfl, rfl, rfl⟩) h

theorem of_answers {a : α} {b : β} (h : Answers K a act) (h' : Answers K b act') (he : E a b) :
    Lockstep K E act act' := by
  intro s s' below
  obtain ⟨t, ht, kept⟩ := h s below.left
  obtain ⟨t', ht', kept'⟩ := h' s' below.right
  exact ⟨a, b, t, t', ht, ht', he, kept, kept'⟩

theorem of_always {a : α} {b : β} (h : Always a act) (h' : Always b act') (he : E a b) :
    Lockstep K E act act' :=
  of_answers (fun s _ => h s) (fun s _ => h' s) he

theorem imp {D : α → β → Prop} (h : Lockstep K E act act') (hd : ∀ a b, E a b → D a b) :
    Lockstep K D act act' := by
  intro s s' below
  obtain ⟨a, b, t, t', ht, ht', hab, kept⟩ := h s s' below
  exact ⟨a, b, t, t', ht, ht', hd a b hab, kept⟩

theorem solution : Lockstep K (fun _ _ => True) solution solution := fun s s' _ =>
  ⟨_, _, s, s', rfl, rfl, trivial, .refl s, .refl s'⟩

end Lockstep

/-! ## Checks that always answer the same -/

namespace Always

theorem pure (a : α) : Always a (pure a) := fun s => ⟨s, rfl, .refl s⟩

theorem bind {act : Check α} {k : α → Check β} {a : α} {b : β} (h : Always a act)
    (hk : Always b (k a)) : Always b (act >>= k) := by
  intro s
  obtain ⟨t, ht, kept⟩ := h s
  obtain ⟨u, hu, rest⟩ := hk t
  exact ⟨u, by rw [exec_bind_of_ok ht, hu], kept.trans rest⟩

theorem tell (wording : Wording) (values : Inference → List (String × String)) :
    Always () (tell wording values) := by
  intro s
  obtain ⟨notes, told⟩ := exec_tell wording values s
  exact ⟨_, told, rfl, rfl, rfl⟩

theorem record (e : Event) : Always () (record e) := fun _ => ⟨_, rfl, rfl, rfl, rfl⟩

theorem trace (w : World) (line : CheckState → TraceLine) : Always () (trace w line) := by
  intro s
  refine ⟨_, exec_trace w line s, ?_⟩
  split
  · exact ⟨rfl, rfl, rfl⟩
  · exact .refl s

theorem cutOff : Always true cutOff := (record .cut).bind (pure true)

theorem refuse (wording : Wording) (values : Inference → List (String × String)) :
    Always false (refuse wording values) :=
  (tell wording values).bind (pure false)

theorem mismatch (w : World) (source dest : Ty) : Always false (mismatch w source dest) :=
  refuse _ _

end Always

namespace Answers

theorem of_always {act : Check α} {a : α} (h : Always a act) : Answers K a act := fun s _ => h s

theorem lift {m : StateM Inference α} {a : α} (h : (Fragment.ofPlain K.inf).Steady (· = a) m) :
    Answers K a (lift m) := by
  obtain ⟨_, run, rfl⟩ := h
  exact fun s hs => ⟨s, exec_lift_of_eq (hs ▸ run), .refl s⟩

theorem bind {act : Check α} {k : α → Check β} {a : α} {b : β} (h : Answers K a act)
    (hk : Answers K b (k a)) : Answers K b (act >>= k) := by
  intro s hs
  obtain ⟨t, ht, kept⟩ := h s hs
  obtain ⟨u, hu, rest⟩ := hk t (kept.inference.trans hs)
  exact ⟨u, by rw [exec_bind_of_ok ht, hu], kept.trans rest⟩

end Answers

/-! ## The same answers -/

namespace Coincides

variable {R : α → Prop} {E : β → γ → Prop}

theorem pure {a : α} (h : R a) : Coincides K R (pure a) (pure a) := Lockstep.pure ⟨rfl, h⟩

theorem bind {act act' : Check α} {k : α → Check β} {k' : α → Check γ}
    (h : Coincides K R act act') (hk : ∀ a, R a → Lockstep K E (k a) (k' a)) :
    Lockstep K E (act >>= k) (act' >>= k') := by
  refine Lockstep.bind h fun a b hab => ?_
  obtain ⟨rfl, ha⟩ := hab
  exact hk a ha

theorem lift {m : StateM Inference α} (h : (Fragment.ofPlain K.inf).Steady R m) :
    Coincides K R (lift m) (Check.lift m) := by
  obtain ⟨a, ha, hr⟩ := h
  have answers : Answers K a (Check.lift m) := .lift ⟨a, ha, rfl⟩
  exact Lockstep.of_answers answers answers ⟨rfl, hr⟩

theorem inference : Coincides K (· = K.inf) inference inference := fun s s' below =>
  ⟨_, _, s, s', rfl, rfl, ⟨below.left.trans below.right.symm, below.left⟩, .refl s, .refl s'⟩

theorem demand {f : FunctionTy} (h : ∀ cell outcome, f.ret ≠ .deferred cell outcome) :
    Coincides K (fun _ => True) (demand f) (demand f) := by
  have run : ∀ s, exec (Check.demand f) s = (.ok (), s) := by
    intro s
    rw [exec_demand, Fragment.demand_eq h]
  exact fun s s' _ => ⟨_, _, s, s', run s, run s', ⟨rfl, trivial⟩, .refl s, .refl s'⟩

end Coincides

/-! ## Answers that are upheld -/

namespace Upholds

variable {act act' yes yes' no no' : Check Bool} {E : α → β → Prop}

theorem same (b : Bool) : Upholds K (pure b) (pure b) := Lockstep.pure (Bool.le_refl _)

/-- Any answer upholds a no. -/
theorem of_no {first : Check α} {second : Check Bool} {E : α → Bool → Prop} (h : Always false act)
    (answers : Lockstep K E first second) : Upholds K act second := by
  intro s s' below
  obtain ⟨t, ht, kept⟩ := h s
  obtain ⟨-, b, -, t', -, ht', -, -, kept'⟩ := answers s s' below
  exact ⟨false, b, t, t', ht, ht', Bool.false_le b, kept, kept'⟩

/-- A yes upholds any answer. -/
theorem of_yes {first : Check Bool} {second : Check β} {E : Bool → β → Prop}
    (answers : Lockstep K E first second) (h : Always true act') : Upholds K first act' := by
  intro s s' below
  obtain ⟨b, -, t, -, ht, -, -, kept, -⟩ := answers s s' below
  obtain ⟨t', ht', kept'⟩ := h s'
  exact ⟨b, true, t, t', ht, ht', Bool.le_true b, kept, kept'⟩

theorem refuse (wording : Wording) (values : Inference → List (String × String)) :
    Upholds K (refuse wording values) (Check.refuse wording values) :=
  Lockstep.of_always (.refuse _ _) (.refuse _ _) (Bool.le_refl _)

theorem mismatch (w : World) (source dest : Ty) :
    Upholds K (mismatch w source dest) (Conformance.mismatch w source dest) :=
  refuse _ _

/-- The second run may go on with a yes where the first goes on with a no. -/
theorem bind {k k' : Bool → Check α} {E : α → α → Prop} (h : Upholds K act act')
    (hk : ∀ b, Lockstep K E (k b) (k' b)) (hc : Lockstep K E (k false) (k' true)) :
    Lockstep K E (act >>= k) (act' >>= k') := by
  refine Lockstep.bind h fun b b' hb => ?_
  cases b with
  | true =>
    cases b' with
    | true => exact hk true
    | false => exact absurd hb (by decide)
  | false =>
    cases b' with
    | true => exact hc
    | false => exact hk false

theorem ite (h : Upholds K act act') (hy : Upholds K yes yes') (hn : Upholds K no no')
    (hc : Upholds K no yes') :
    Upholds K (do if ← act then yes else no) (do if ← act' then yes' else no') := by
  refine bind h (fun b => ?_) ?_
  · cases b
    · exact hn
    · exact hy
  · exact hc

theorem orNo (h : Upholds K act act') (hn : Always false no) :
    Upholds K (do if ← act then pure true else no) (do if ← act' then pure true else no) :=
  ite h (same true) (Lockstep.of_always hn hn (Bool.le_refl _))
    (Lockstep.of_always hn (.pure true) (Bool.false_le true))

theorem explained (h : Upholds K act act') {messages : Check Unit} (hm : Always () messages) :
    Upholds K (explained act messages) (Conformance.explained act' messages) :=
  h.orNo (hm.bind (.pure false))

theorem and_le_and {a a' b b' : Bool} (ha : a ≤ a') (hb : b ≤ b') : (a && b) ≤ (a' && b') := by
  revert a a' b b'
  decide

theorem both {act₂ act₂' : Check Bool} (h : Upholds K act act') (h₂ : Upholds K act₂ act₂') :
    Upholds K (do
      let first ← act
      let second ← act₂
      pure (first && second)) (do
      let first ← act'
      let second ← act₂'
      pure (first && second)) :=
  Lockstep.bind h fun _ _ ha => Lockstep.bind h₂ fun _ _ hb =>
    Lockstep.pure (and_le_and ha hb)

theorem allOf {f f' : α → Check Bool} {as : List α} (h : ∀ a ∈ as, Upholds K (f a) (f' a)) :
    Upholds K (allOf f as) (Check.allOf f' as) := by
  induction as with
  | nil => exact same true
  | cons a as ih =>
    exact both (h a List.mem_cons_self) (ih fun b hb => h b (List.mem_cons_of_mem a hb))

theorem anyOf {f f' : α → Check Bool} {as : List α} (h : ∀ a ∈ as, Upholds K (f a) (f' a)) :
    Upholds K (anyOf f as) (Check.anyOf f' as) := by
  induction as with
  | nil => exact same false
  | cons a as ih =>
    have rest := ih fun b hb => h b (List.mem_cons_of_mem a hb)
    exact ite (h a List.mem_cons_self) (same true) rest (of_yes rest (.pure true))

theorem attempt (h : Upholds K act act') : Upholds K (attempt act) (Check.attempt act') := by
  have run : ∀ {act : Check Bool} {s t : CheckState} {b : Bool}, exec act s = (.ok b, t) →
      s.Resumes t → ∃ u, exec (Check.attempt act) s = (.ok b, u) ∧ s.Resumes u := by
    intro act s t b he kept
    rw [exec_attempt, he]
    cases b
    · exact ⟨_, rfl, kept.inference, kept.pending, kept.lent⟩
    · exact ⟨t, rfl, kept⟩
  intro s s' below
  obtain ⟨b, b', t, t', ht, ht', hb, kept, kept'⟩ := h s s' below
  obtain ⟨u, hu, left⟩ := run ht kept
  obtain ⟨u', hu', right⟩ := run ht' kept'
  exact ⟨b, b', u, u', hu, hu', hb, left, right⟩

/-- A comparison that is counted as pending answers as it does where it is entered. -/
theorem answers_whilePending {choice : StackChoice} {c : Comparison} {s t : CheckState} {b : Bool}
    (he : exec act (s.enteringOn choice c) = (.ok b, t))
    (kept : (s.enteringOn choice c).Resumes t) :
    ∃ u, exec (whilePending choice c act) s = (.ok b, u) ∧ s.Resumes u := by
  unfold CheckState.enteringOn at he kept
  refine ⟨_, by rw [exec_whilePending]; dsimp only; rw [he], ?_⟩
  have inference := kept.inference
  have pending := kept.pending
  have lent := kept.lent
  cases choice
  · exact ⟨inference, congrArg List.tail pending, lent⟩
  · exact ⟨inference, pending, congrArg List.tail lent⟩

end Upholds

end Conformance
