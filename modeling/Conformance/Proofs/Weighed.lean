import Conformance.Proofs.Deeper
import Conformance.Proofs.Settles

/-!
# Weighed checks

A check is weighed if it answers from each state of one kind, ends in a state of another, and its
answer says whether a proposition holds, as long as what it adds to the history is of a given kind.
Two kinds of states matter here: those in which types were found for some variables so far, and those
in which nothing is solved for. Types of a fragment are compared alike in both.
-/

namespace Conformance

open Check

/-- A kind of states, whatever they explain. -/
structure Stage where
  Is : CheckState → Prop
  notes : ∀ {s : CheckState}, Is s → ∀ notes, Is { s with notes := notes }

/-- From each state of the first stage the check answers and ends in one of the second. The answer
is yes exactly if the proposition holds, as long as what is added to the history is clean. -/
def Weighs (clean : Event → Prop) (I J : Stage) (p : Prop) (act : Check Bool) : Prop :=
  ∀ s, I.Is s → ∃ b t new, exec act s = (.ok b, t) ∧ J.Is t ∧ t.history = s.history ++ new ∧
    ((∀ e ∈ new, clean e) → (b = true ↔ p))

namespace Weighs

variable {clean : Event → Prop} {I J K : Stage} {p q : Prop} {act : Check Bool} {α : Type}

theorem iff (h : Weighs clean I J p act) (hpq : p ↔ q) : Weighs clean I J q act := by
  intro s hs
  obtain ⟨b, t, new, he, ht, hn, weighed⟩ := h s hs
  exact ⟨b, t, new, he, ht, hn, fun hc => (weighed hc).trans hpq⟩

theorem congr {act' : Check Bool} (h : Weighs clean I J p act)
    (same : ∀ s, I.Is s → exec act' s = exec act s) : Weighs clean I J p act' := by
  intro s hs
  rw [same s hs]
  exact h s hs

theorem pure (b : Bool) : Weighs clean I I (b = true) (pure b) :=
  fun s hs => ⟨b, s, [], rfl, hs, (List.append_nil _).symm, fun _ => Iff.rfl⟩

theorem yes (hp : p) : Weighs clean I I p (Pure.pure true) :=
  (pure true).iff (by simp [hp])

theorem no (hp : ¬ p) : Weighs clean I I p (Pure.pure false) :=
  (pure false).iff (by simp [hp])

/-- What leaves the state as it is comes first. -/
theorem after {first : Check α} {k : α → Check Bool} {a : α}
    (h : ∀ s, I.Is s → exec first s = (.ok a, s)) (hk : Weighs clean I J p (k a)) :
    Weighs clean I J p (first >>= k) := by
  intro s hs
  rw [exec_bind_of_ok (h s hs)]
  exact hk s hs

theorem bind {k : Bool → Check Bool} (h : Weighs clean I J p act)
    (hk : ∀ b, Weighs clean J K (b = true ∧ q) (k b)) :
    Weighs clean I K (p ∧ q) (act >>= k) := by
  intro s hs
  obtain ⟨b, t, new, he, ht, hn, weighed⟩ := h s hs
  obtain ⟨c, u, new', he', hu, hn', weighed'⟩ := hk b t ht
  refine ⟨c, u, new ++ new', by rw [exec_bind_of_ok he, he'], hu, ?_, fun hc => ?_⟩
  · rw [hn', hn, List.append_assoc]
  · rw [weighed' fun e hmem => hc e (List.mem_append_right _ hmem),
      weighed fun e hmem => hc e (List.mem_append_left _ hmem)]

theorem both {second : Check Bool} (h : Weighs clean I J p act) (h' : Weighs clean J K q second) :
    Weighs clean I K (p ∧ q) (do
      let a ← act
      let b ← second
      Pure.pure (a && b)) := by
  refine h.bind fun a => ?_
  have answer (b : Bool) : Weighs clean K K (b = true ∧ a = true) (Pure.pure (a && b)) :=
    (pure (a && b)).iff (by simp [and_comm])
  exact (h'.bind answer).iff and_comm

theorem within {n : CheckState → Option Explanation}
    {n' : CheckState → CheckState → Option Explanation} (h : Weighs clean I J p act) :
    Weighs clean I J p (Check.within (fun s => { s with notes := n s })
      (fun before s => { s with notes := n' before s }) act) := by
  intro s hs
  obtain ⟨b, t, new, he, ht, hn, weighed⟩ := h { s with notes := n s } (I.notes hs _)
  refine ⟨b, { t with notes := n' s t }, new, ?_, J.notes ht _, hn, weighed⟩
  rw [exec_within, he]

theorem child (h : Weighs clean I J p act) : Weighs clean I J p (child act) := h.within

/-- Messages are written before an answer is given. -/
theorem quiet {messages : Check Unit} {k : Unit → Check Bool} (hm : Link.Quiet messages)
    (hk : Weighs clean I J p (k ())) : Weighs clean I J p (messages >>= k) := by
  intro s hs
  obtain ⟨notes, told⟩ := hm s
  rw [exec_bind_of_ok told]
  exact hk _ (I.notes hs notes)

theorem refuse (wording : Wording) (values : Inference → List (String × String)) :
    Weighs clean I I False (refuse wording values) :=
  quiet (.tell wording values) (no id)

theorem explained {messages : Check Unit} (h : Weighs clean I J p act)
    (hm : Link.Quiet messages) : Weighs clean I J p (explained act messages) := by
  refine (h.bind (q := True) fun b => ?_).iff (and_true p).to_iff
  cases b with
  | true => exact yes ⟨rfl, trivial⟩
  | false => exact quiet hm (no fun h => Bool.false_ne_true h.1)

/-- The elements of a list are tried one after the other, and none finds anything. -/
theorem all {f : α → Check Bool} {p : α → Prop} (as : List α)
    (h : ∀ a ∈ as, Weighs clean I I (p a) (f a)) :
    Weighs clean I I (∀ a ∈ as, p a) (Check.allOf f as) := by
  induction as with
  | nil => exact yes fun _ h => nomatch h
  | cons a as ih =>
    have rest := ih fun b hb => h b (List.mem_cons_of_mem a hb)
    exact ((h a List.mem_cons_self).both rest).iff List.forall_mem_cons.symm

end Weighs

/-! ## What a yes grants -/

/-- If the check answers yes from a state of the first stage, it ends in one of the second, and the
proposition holds, as long as what is added to the history is clean. -/
def Grants (clean : Event → Prop) (I J : Stage) (p : Prop) (act : Check Bool) : Prop :=
  ∀ s t, I.Is s → exec act s = (.ok true, t) →
    J.Is t ∧ ∃ new, t.history = s.history ++ new ∧ ((∀ e ∈ new, clean e) → p)

theorem Weighs.grants {clean : Event → Prop} {I J : Stage} {p : Prop} {act : Check Bool}
    (h : Weighs clean I J p act) : Grants clean I J p act := by
  intro s t hs he
  obtain ⟨b, u, new, hu, after, hn, weighed⟩ := h s hs
  cases he.symm.trans hu
  exact ⟨after, new, hn, fun hc => (weighed hc).1 rfl⟩

namespace Grants

variable {clean : Event → Prop} {I J K : Stage} {p q : Prop} {act : Check Bool} {α : Type}

theorem imp (h : Grants clean I J p act) (hpq : p → q) : Grants clean I J q act := by
  intro s t hs he
  obtain ⟨after, new, hn, granted⟩ := h s t hs he
  exact ⟨after, new, hn, fun hc => hpq (granted hc)⟩

theorem congr {act' : Check Bool} (h : Grants clean I J p act)
    (same : ∀ s, I.Is s → exec act' s = exec act s) : Grants clean I J p act' :=
  fun s t hs he => h s t hs ((same s hs).symm.trans he)

theorem and (h : Grants clean I J p act) (h' : Grants clean I J q act) :
    Grants clean I J (p ∧ q) act := by
  intro s t hs he
  obtain ⟨after, new, hn, first⟩ := h s t hs he
  obtain ⟨-, new', hn', second⟩ := h' s t hs he
  cases List.append_cancel_left (hn'.symm.trans hn)
  exact ⟨after, new, hn, fun hc => ⟨first hc, second hc⟩⟩

theorem of_declines (h : Declines act) : Grants clean I J p act :=
  fun s t _ he => absurd he (h s t)

theorem yes (hp : p) : Grants clean I I p (pure true) := (Weighs.yes hp).grants

/-- A check from whose end more is known. -/
theorem mono (h : Grants clean I J p act) (more : ∀ s, J.Is s → K.Is s) : Grants clean I K p act :=
  fun s t hs he => (h s t hs he).imp_left (more t)

/-- What leaves the state as it is comes first. -/
theorem after {first : Check α} {k : α → Check Bool} {a : α}
    (h : ∀ s, I.Is s → exec first s = (.ok a, s)) (hk : Grants clean I J p (k a)) :
    Grants clean I J p (first >>= k) := by
  intro s t hs he
  rw [exec_bind_of_ok (h s hs)] at he
  exact hk s t hs he

/-- After a no there is no yes. -/
theorem bind {k : Bool → Check Bool} (h : Grants clean I J p act) (no : Declines (k false))
    (hk : Grants clean J K q (k true)) : Grants clean I K (p ∧ q) (act >>= k) := by
  intro s u hs he
  rcases hact : exec act s with ⟨_ | b, t⟩
  · rw [exec_bind_of_error hact] at he
    cases he
  · rw [exec_bind_of_ok hact] at he
    cases b with
    | false => exact absurd he (no t u)
    | true =>
      obtain ⟨middle, new, hn, first⟩ := h s t hs hact
      obtain ⟨after, new', hn', second⟩ := hk t u middle he
      refine ⟨after, new ++ new', by rw [hn', hn, List.append_assoc], fun hc => ?_⟩
      exact ⟨first fun e he => hc e (List.mem_append_left _ he),
        second fun e he => hc e (List.mem_append_right _ he)⟩

/-- Goes on by the answer of a check that is known whatever happens. -/
theorem branch {first yes no : Check Bool} (h : Weighs (fun _ => True) I J p first)
    (hy : p → Grants clean J K q yes) (hn : ¬ p → Grants clean J K q no) :
    Grants clean I K q (first >>= fun b => if b = true then yes else no) := by
  intro s u hs he
  obtain ⟨b, t, new, ht, middle, history, weighed⟩ := h s hs
  have answer := weighed fun _ _ => trivial
  have rest : Grants clean J K q (if b = true then yes else no) := by
    cases b with
    | true => exact hy (answer.1 rfl)
    | false => exact hn fun hp => Bool.false_ne_true (answer.2 hp)
  rw [exec_bind_of_ok ht] at he
  obtain ⟨after, new', history', granted⟩ := rest t u middle he
  refine ⟨after, new ++ new', by rw [history', history, List.append_assoc], fun hc => ?_⟩
  exact granted fun e he => hc e (List.mem_append_right _ he)

theorem both {second : Check Bool} (h : Grants clean I J p act) (h' : Grants clean J K q second) :
    Grants clean I K (p ∧ q) (do
      let a ← act
      let b ← second
      Pure.pure (a && b)) := by
  refine h.bind (declines_bind fun _ => declines_no) ?_
  exact (h'.bind declines_no (yes trivial)).imp And.left

theorem within {n : CheckState → Option Explanation}
    {n' : CheckState → CheckState → Option Explanation} (h : Grants clean I J p act) :
    Grants clean I J p (Check.within (fun s => { s with notes := n s })
      (fun before s => { s with notes := n' before s }) act) := by
  intro s t hs he
  obtain ⟨u, hu, rfl⟩ := Link.exec_within_notes he
  obtain ⟨after, new, hn, granted⟩ := h _ u (I.notes hs _) hu
  exact ⟨J.notes after _, new, hn, granted⟩

theorem child (h : Grants clean I J p act) : Grants clean I J p (child act) := h.within

theorem explained {messages : Check Unit} (h : Grants clean I J p act) :
    Grants clean I J p (explained act messages) := by
  have declines : Declines (messages >>= fun _ => Pure.pure false) :=
    declines_bind fun _ => declines_no
  exact (h.bind (k := fun b => if b = true then Pure.pure true else _) declines
    (yes trivial)).imp And.left

end Grants

/-! ## Rules for both -/

/-- The rules by which what is known of the parts of a check is put together. -/
structure Rules (T : Stage → Stage → Prop → Check Bool → Prop) : Prop where
  iff {I J : Stage} {p q : Prop} {act : Check Bool} (h : T I J p act) (hpq : p ↔ q) : T I J q act
  yes {I : Stage} {p : Prop} (hp : p) : T I I p (pure true)
  refuse (I : Stage) (wording : Wording) (values : Inference → List (String × String)) :
    T I I False (refuse wording values)
  after {I J : Stage} {p : Prop} {α : Type} {first : Check α} {k : α → Check Bool} {a : α}
    (h : ∀ s, I.Is s → exec first s = (.ok a, s)) (hk : T I J p (k a)) : T I J p (first >>= k)
  both {I J K : Stage} {p q : Prop} {act second : Check Bool} (h : T I J p act)
    (h' : T J K q second) :
    T I K (p ∧ q) (do
      let a ← act
      let b ← second
      pure (a && b))
  child {I J : Stage} {p : Prop} {act : Check Bool} (h : T I J p act) : T I J p (child act)
  explained {I J : Stage} {p : Prop} {act : Check Bool} {messages : Check Unit} (h : T I J p act)
    (hm : Link.Quiet messages) : T I J p (explained act messages)

theorem Weighs.rules (clean : Event → Prop) : Rules (Weighs clean) :=
  ⟨.iff, .yes, fun _ => .refuse, .after, .both, .child, .explained⟩

theorem Grants.rules (clean : Event → Prop) : Rules (Grants clean) :=
  ⟨fun h hpq => h.imp hpq.1, .yes, fun _ _ _ => .of_declines (declines_refuse _ _), .after, .both,
    .child, fun h _ => h.explained⟩

/-- The elements of a list are tried one after the other, each from the stage that the ones before
it lead to. -/
theorem Rules.allOf {T : Stage → Stage → Prop → Check Bool → Prop} (rules : Rules T) {α β : Type}
    {stage : List β → Stage} {found : α → List β} {f : α → Check Bool} {p : α → Prop}
    {R : β → β → Prop} (as : List α) (xs : List β) (related : (xs ++ as.flatMap found).Pairwise R)
    (h : ∀ a ∈ as, ∀ xs, (xs ++ found a).Pairwise R →
      T (stage xs) (stage (xs ++ found a)) (p a) (f a)) :
    T (stage xs) (stage (xs ++ as.flatMap found)) (∀ a ∈ as, p a) (Check.allOf f as) := by
  induction as generalizing xs with
  | nil =>
    rw [List.flatMap_nil, List.append_nil]
    exact rules.yes fun _ h => nomatch h
  | cons a as ih =>
    rw [List.flatMap_cons, ← List.append_assoc] at related ⊢
    have first := h a List.mem_cons_self xs
      (related.sublist (List.sublist_append_left _ _))
    have rest := ih (xs ++ found a) related fun b hb => h b (List.mem_cons_of_mem a hb)
    exact rules.iff (rules.both first rest) List.forall_mem_cons.symm

end Conformance
