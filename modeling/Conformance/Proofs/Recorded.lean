import Conformance.Proofs.Lockstep
import Conformance.Proofs.Sample

/-!
# What a check records

A check may take the solution further that its caller is finding: it records types for variables
that are being solved for, and forgets none. The comparisons that are only tried leave no trace of
themselves if they fail, and a comparison with a protocol turns to the solution of its caller only
after all members were found to match.
-/

namespace Conformance

open Check

/-- The second solution is the first one taken further: it solves for the same scopes, keeps a type
for each variable that had one, and has new entries only for variables that are solved for. -/
structure Solution.Extends (σ τ : Solution) : Prop where
  scopes : τ.scopes = σ.scopes
  kept : ∀ v : TypeVar, (σ.get? v).isSome = true → (τ.get? v).isSome = true
  recorded : ∀ e ∈ τ.entries,
    e ∈ σ.entries ∨ ∃ v : TypeVar, v.key = e.1 ∧ σ.solves v.scope = true

namespace Solution.Extends

variable {σ τ υ : Solution}

theorem refl (σ : Solution) : σ.Extends σ := ⟨rfl, fun _ => id, fun _ => .inl⟩

theorem solves_eq (h : σ.Extends τ) (scope : String) : τ.solves scope = σ.solves scope := by
  rw [solves, solves, h.scopes]

theorem trans (h : σ.Extends τ) (h' : τ.Extends υ) : σ.Extends υ := by
  refine ⟨h'.scopes.trans h.scopes, fun v hv => h'.kept v (h.kept v hv), ?_⟩
  intro e he
  rcases h'.recorded e he with before | ⟨v, key, solved⟩
  · exact h.recorded e before
  · exact .inr ⟨v, key, h.solves_eq v.scope ▸ solved⟩

theorem insert {v : TypeVar} (solved : σ.solves v.scope = true) (t : Ty) :
    σ.Extends (σ.insert v (some t)) := by
  refine ⟨rfl, ?_, ?_⟩
  · intro x hx
    rw [get?_insert]
    split
    · rfl
    · exact hx
  · intro e he
    rcases Fragment.mem_update he with rfl | before
    · exact .inr ⟨v, rfl, solved⟩
    · exact .inl before

end Solution.Extends

/-- The check takes a solution for these scopes further, however it ends. -/
def Records (scopes : List String) {α : Type} (act : Check α) : Prop :=
  ∀ (s : CheckState) (σ : Solution), s.solving = some σ → σ.scopes = scopes →
    ∃ τ, (exec act s).2.solving = some τ ∧ σ.Extends τ

namespace Records

variable {scopes : List String} {α β : Type}

private theorem of_solving {act : Check α} (h : ∀ s, (exec act s).2.solving = s.solving) :
    Records scopes act := by
  intro s σ hs _
  exact ⟨σ, (h s).trans hs, .refl σ⟩

theorem pure (a : α) : Records scopes (pure a : Check α) := of_solving fun _ => rfl

theorem solution : Records scopes solution := of_solving fun _ => rfl

theorem demand (f : FunctionTy) : Records scopes (demand f) := by
  apply of_solving
  intro s
  rw [exec_demand]

theorem tell (wording : Wording) (values : Inference → List (String × String)) :
    Records scopes (tell wording values) := by
  apply of_solving
  intro s
  obtain ⟨notes, told⟩ := exec_tell wording values s
  rw [told]

theorem record (e : Event) : Records scopes (record e) := of_solving fun _ => rfl

theorem trace (w : World) (line : CheckState → TraceLine) : Records scopes (trace w line) := by
  apply of_solving
  intro s
  rw [exec_trace]
  by_cases verbose : w.verbose
  · rw [if_pos verbose]
  · rw [if_neg verbose]

theorem bind {act : Check α} {k : α → Check β} (h : Records scopes act)
    (hk : ∀ a, Records scopes (k a)) : Records scopes (act >>= k) := by
  intro s σ hs hσ
  obtain ⟨τ, hτ, first⟩ := h s σ hs hσ
  rcases ran : exec act s with ⟨_ | a, t⟩
  · rw [ran] at hτ
    rw [exec_bind_of_error ran]
    exact ⟨τ, hτ, first⟩
  · rw [ran] at hτ
    rw [exec_bind_of_ok ran]
    obtain ⟨υ, hυ, others⟩ := hk a t τ hτ (first.scopes.trans hσ)
    exact ⟨υ, hυ, first.trans others⟩

/-- A type is recorded for a variable that is solved for. -/
theorem solve {v : TypeVar} {σ : Solution} (hσ : σ.scopes = scopes)
    (solved : σ.solves v.scope = true) (t : Ty) : Records scopes (solve v t) := by
  intro s σ' hs hσ'
  have solved' : σ'.solves v.scope = true := by
    rw [Solution.solves] at solved ⊢
    rwa [hσ', ← hσ]
  refine ⟨σ'.insert v (some t), ?_, .insert solved' t⟩
  rw [exec_solve, hs]
  rfl

theorem solving {k : Option Solution → Check α}
    (h : ∀ σ : Option Solution,
      (∀ v : TypeVar, σ.any (·.solves v.scope) = true → ∀ t, Records scopes (Check.solve v t)) →
        Records scopes (k σ)) : Records scopes (Check.solution >>= k) := by
  intro s σ hs hσ
  rw [exec_bind_of_ok (exec_solution s), hs]
  apply h (some σ) _ s σ hs hσ
  intro v solved t
  exact solve hσ solved t

theorem attempt {act : Check Bool} (h : Records scopes act) : Records scopes (attempt act) := by
  intro s σ hs hσ
  have inner := h s σ hs hσ
  rw [exec_attempt]
  rcases ran : exec act s with ⟨_ | _ | _, t⟩
  · exact ⟨σ, hs, .refl σ⟩
  · exact ⟨σ, hs, .refl σ⟩
  · rwa [ran] at inner

/-- Comparisons that are made for a solution of their own leave that of the caller alone. -/
theorem compositional (scopes : List String) : Compositional fun _ act => Records scopes act where
  holds_pure := pure
  holds_bind := bind
  holds_inference := of_solving fun _ => rfl
  holds_lift _ := of_solving fun _ => rfl
  holds_demand := demand
  holds_solution := solution
  holds_solving := solving
  holds_tell := tell
  holds_solvingFor _ _ := of_solving fun _ => rfl
  holds_silently h s σ hs hσ := h { s with notes := none } σ hs hσ
  holds_child h s σ hs hσ := h { s with notes := s.notes.map fun _ => .empty } σ hs hσ
  holds_attempt := attempt

theorem whilePending {act : Check Bool} (choice : StackChoice) (c : Comparison)
    (h : Records scopes act) : Records scopes (whilePending choice c act) := by
  intro s σ hs hσ
  rw [exec_whilePending]
  cases choice with
  | own => exact h { s with history := [], pending := c.pair :: s.pending } σ hs hσ
  | lent => exact h { s with history := [], lent := c.pair :: s.lent } σ hs hσ

theorem cutOff : Records scopes cutOff := (record .cut).bind fun _ => pure true

theorem matchClass {w : World} {j : Judge} (hj : Assigns (fun _ act => Records scopes act) j)
    (choice : StackChoice) (mode : Mode) (asObject : Bool) (protocol candidate : ClassTy) :
    Records scopes (matchClass w j choice mode asObject protocol candidate) := by
  have get : Records scopes (get : Check CheckState) := of_solving fun _ => rfl
  apply get.bind
  intro s
  split
  · exact (record _).bind fun _ => pure true
  · exact ((compositional scopes).holds_matchMembers hj _ _ _ _).whilePending _ _

/-- Every comparison takes the solution of its caller further. -/
theorem judge (scopes : List String) (w : World) (n : Nat) :
    Assigns (fun _ act => Records scopes act) (judge w n) ∧
      ∀ mode, Compares (fun _ act => Records scopes act) (judge w n) mode := by
  induction n with
  | zero =>
    refine ⟨fun _ _ _ => cutOff, fun _ => ⟨fun _ _ _ => ?_, fun _ _ _ => ?_⟩⟩
    · exact (trace w _).bind fun _ => cutOff
    · exact (trace w _).bind fun _ => cutOff
  | succ n ih =>
    refine ⟨fun mode _ _ => ?_, fun _ => ⟨fun _ _ _ => ?_, fun _ _ _ => ?_⟩⟩
    · exact (compositional scopes).holds_assignStep ih.1 (fun _ => ih.2 mode) _ _
    · exact (trace w _).bind fun _ => matchClass ih.1 _ _ _ _ _
    · exact (trace w _).bind fun _ => (compositional scopes).holds_matchModule ih.1 _ _ _

end Records

/-! ## Comparisons that leave no trace -/

/-- The comparison tries one part after another: an alternative of a union, or an overload. -/
inductive Tries : (dest source : Ty) → Prop
  | alternatives (ts : List Ty) {source : Ty} (single : ∀ us, source ≠ .union us)
      (fixed : ∀ v, source ≠ .var v) : Tries (.union ts) source
  | overloads (f : FunctionTy) (fs : List FunctionTy) : Tries (.function f) (.overloaded fs)

section

variable {α : Type} {s t : CheckState}

def Unmoved (act : Check Bool) : Prop :=
  ∀ s t, exec act s = (.ok false, t) → t.solving = s.solving

private theorem unmoved_refuse (wording : Wording) (values : Inference → List (String × String)) :
    Unmoved (refuse wording values) := by
  intro s t ran
  obtain ⟨notes, told⟩ := exec_tell wording values s
  rw [refuse, exec_bind_of_ok told] at ran
  cases ran
  rfl

private theorem unmoved_yes : Unmoved (pure true) := by
  intro s t ran
  cases ran

private theorem unmoved_attempts {f : α → Check Bool} (as : List α) :
    Unmoved (anyOf (fun a => attempt (f a)) as) := by
  induction as with
  | nil =>
    intro s t ran
    cases ran
    rfl
  | cons a as ih =>
    intro s t ran
    rw [anyOf] at ran
    obtain ⟨b, u, first, others⟩ := exec_bind_eq_ok.1 ran
    have kept : b = false → u.solving = s.solving := by
      rintro rfl
      rw [exec_attempt] at first
      split at first
      · cases first
      · cases first
        rfl
    cases b with
    | true => cases others
    | false => exact (ih u t others).trans (kept rfl)

private theorem unmoved_silently {act : Check Bool} (h : Unmoved act) : Unmoved (silently act) := by
  intro s t ran
  rw [silently, exec_within] at ran
  obtain ⟨no, rfl⟩ := Prod.mk.inj ran
  exact h { s with notes := none } (exec act { s with notes := none }).2 (Prod.ext no rfl)

private theorem unmoved_orElse {act other : Check Bool} (h : Unmoved act) (ho : Unmoved other) :
    Unmoved (act >>= fun b => if b = true then pure true else other) := by
  intro s t ran
  obtain ⟨b, u, first, rest⟩ := exec_bind_eq_ok.1 ran
  cases b with
  | true => cases rest
  | false => exact (ho u t rest).trans (h s u first)

private theorem unmoved_after {act : Check α} {k : α → Check Bool}
    (h : ∀ s : CheckState, ∃ a, exec act s = (.ok a, s)) (hk : ∀ a, Unmoved (k a)) :
    Unmoved (act >>= k) := by
  intro s t ran
  obtain ⟨a, first⟩ := h s
  rw [exec_bind_of_ok first] at ran
  exact hk a s t ran

end

section

variable {w : World} {mode : Mode} {dest source : Ty}

private theorem unmoved_mismatch (dest source : Ty) : Unmoved (mismatch w source dest) :=
  unmoved_refuse _ _

private theorem unmoved_assignInvariant {j : Judge} (h : Tries dest source) :
    Unmoved (assignInvariant w j mode dest source) := by
  apply unmoved_after fun s => ⟨_, exec_inference s⟩
  intro inf
  split
  · exact unmoved_yes
  · cases h <;> exact unmoved_mismatch _ _

private theorem unmoved_assignToFunction {j : Judge} (f : FunctionTy) (fs : List FunctionTy) :
    Unmoved (assignToFunction w j mode f (.overloaded fs)) :=
  unmoved_orElse (unmoved_silently (unmoved_attempts fs)) (unmoved_refuse _ _)

private theorem unmoved_assignToUnion {j : Judge} (ts : List Ty) (source : Ty) :
    Unmoved (assignToUnion w j mode ts source) :=
  unmoved_orElse (unmoved_silently (unmoved_attempts ts)) (unmoved_mismatch _ _)

private theorem unmoved_assignProper {j : Judge} (h : Tries dest source) :
    Unmoved (assignProper w j mode dest source) := by
  unfold assignProper
  split
  · exact unmoved_assignInvariant h
  · cases h with
    | alternatives ts single fixed =>
      cases source with
      | var v => exact absurd rfl (fixed v)
      | union us => exact absurd rfl (single us)
      | _ => exact unmoved_assignToUnion ts _
    | overloads f fs => exact unmoved_assignToFunction f fs

private theorem unmoved_judge (w : World) (n : Nat) (mode : Mode) (h : Tries dest source) :
    Unmoved ((judge w n).assign mode (some dest) (some source)) := by
  cases n with
  | zero =>
    intro s t ran
    cases ran
  | succ n =>
    have fixed (σ : Option Solution) : reverseVar? mode σ source = none := by
      cases h with
      | alternatives ts single fixed =>
        unfold reverseVar?
        split
        · exact absurd rfl (fixed _)
        · rfl
      | overloads f fs => rfl
    rcases assign_cases w n mode dest source with ⟨-, identical⟩ | compared
    · exact identical ▸ unmoved_yes
    rw [compared]
    apply unmoved_after fun s => ⟨_, exec_solution s⟩
    intro σ
    rw [fixed σ]
    dsimp only
    have proper : Unmoved (if dest.isAnyOrUnknown || source.isAnyOrUnknown then pure true
        else assignProper w (judge w n) mode dest source) := by
      split
      · exact unmoved_yes
      · exact unmoved_assignProper h
    cases h <;> exact proper

end

/-! ## Members that do not match -/

/-- The state in which the members that a protocol asks for are matched one after another. -/
def CheckState.matching (w : World) (choice : StackChoice) (c : Comparison) (s : CheckState) :
    CheckState :=
  { s.enteringOn choice c with
    solving := some (Solution.forScope (w.classes.decl c.pair.protocol.id).scope) }

/-- One of the checks that are made in turn is reached and answers no. -/
def FailsInTurn {α : Type} (f : α → Check Bool) (as : List α) (s : CheckState) : Prop :=
  ∃ before a after b t u, as = before ++ a :: after ∧
    exec (allOf f before) s = (.ok b, t) ∧ exec (f a) t = (.ok false, u)

private theorem answer_of_failsInTurn {α : Type} {f : α → Check Bool} {as : List α}
    {s t : CheckState}
    {b : Bool} (h : FailsInTurn f as s) (ran : exec (allOf f as) s = (.ok b, t)) : b = false := by
  obtain ⟨before, a, after, head, u, v, rfl, first, fails⟩ := h
  induction before generalizing s head b with
  | nil =>
    cases first
    rw [List.nil_append, allOf, exec_bind_of_ok fails] at ran
    obtain ⟨others, v, -, last⟩ := exec_bind_eq_ok.1 ran
    cases last
    rfl
  | cons a' before ih =>
    rw [allOf] at first
    obtain ⟨b', s', ran', first⟩ := exec_bind_eq_ok.1 first
    obtain ⟨head', u', first', last⟩ := exec_bind_eq_ok.1 first
    cases last
    rw [List.cons_append, allOf, exec_bind_of_ok ran'] at ran
    obtain ⟨others, t', others_ran, last⟩ := exec_bind_eq_ok.1 ran
    cases last
    rw [ih head' others_ran first', Bool.and_false]

section

variable {w : World} {j : Judge} {mode : Mode} {protocol candidate : ClassTy} {s : CheckState}

private theorem solving_meetAll {rs : List Requirement} {meets : Requirement → Check Bool}
    (h : FailsInTurn meets rs
      { s with solving := some (Solution.forScope (w.classes.decl protocol.id).scope) }) :
    (exec (meetAll w j mode protocol rs meets) s).2.solving = s.solving := by
  unfold meetAll
  dsimp only
  rw [exec_bind, exec_solvingFor]
  rcases ran : exec (allOf meets rs)
    { s with solving := some (Solution.forScope (w.classes.decl protocol.id).scope) } with
      ⟨_ | met, t⟩
  · rw [exec_bind_of_error ran]
  · obtain rfl : met = false := answer_of_failsInTurn h ran
    rw [exec_bind_of_ok ran]
    rfl

private theorem solving_matchClass {choice : StackChoice} {asObject : Bool}
    (h : FailsInTurn
      ((Match.of w protocol.toClassObject candidate.toClassObject asObject).matchMember w j)
      (Requirement.all w.classes asObject protocol.toClassObject)
      (s.matching w choice (.of asObject protocol candidate))) :
    (exec (matchClass w j choice mode asObject protocol candidate) s).2.solving = s.solving := by
  have members : (exec (matchMembers w j mode asObject protocol.toClassObject
      candidate.toClassObject) (s.enteringOn choice (.of asObject protocol candidate))).2.solving =
        (s.enteringOn choice (.of asObject protocol candidate)).solving := by
    unfold matchMembers
    split
    · rfl
    · exact solving_meetAll h
  unfold matchClass
  rw [exec_bind_of_ok (exec_get s)]
  dsimp only
  split
  · rfl
  · rw [exec_whilePending]
    cases choice <;> exact members

end

/-- A comparison keeps the scopes and what was found, and records types for variables of these
scopes alone. An alternative or an overload that does not fit leaves nothing behind, and neither does
a comparison with a protocol of which some member does not match. -/
theorem solutions_are_taken_further (w : World) (depth : Int) :
    (∀ (mode : Mode) (dest source : Option Ty) (s : CheckState) (σ : Solution),
      s.solving = some σ →
        ∃ τ, (exec ((judgeAt w depth).assign mode dest source) s).2.solving = some τ ∧
          σ.Extends τ) ∧
    (∀ (mode : Mode) (dest source : Ty) (s t : CheckState), Tries dest source →
      exec ((judgeAt w depth).assign mode (some dest) (some source)) s = (.ok false, t) →
        t.solving = s.solving) ∧
    ∀ (choice : StackChoice) (mode : Mode) (asObject : Bool) (protocol candidate : ClassTy)
      (s : CheckState),
      FailsInTurn
        ((Match.of w protocol.toClassObject candidate.toClassObject asObject).matchMember w
          (judgeAt w (depth + 1)))
        (Requirement.all w.classes asObject protocol.toClassObject)
        (s.matching w choice (.of asObject protocol candidate)) →
      (exec (conformsFrom w choice depth mode asObject protocol candidate) s).2.solving =
        s.solving := by
  refine ⟨?_, ?_, ?_⟩
  · intro mode dest source s σ hs
    exact (Records.judge σ.scopes w (levelsAt depth)).1 mode dest source s σ hs rfl
  · intro mode dest source s t tries ran
    exact unmoved_judge w (levelsAt depth) mode tries s t ran
  · intro choice mode asObject protocol candidate s fails
    rw [conformsFrom_eq]
    split
    · rfl
    · exact solving_matchClass fails

namespace Sample

/-- A variable that a caller solves for. -/
def sought : TypeVar := .make "T" "S" .invariant none

/-- The state in which that variable is solved for. -/
def seeking : CheckState := ⟨.start, #[], [], [], some (.forScope "S"), none, []⟩

/-- Two classes, and a protocol of which the second member is asked for in vain. -/
def wanting : World :=
  ofDecls [object, classOf "A" [final "x" (instanceOf 2)], classOf "B" [],
    generic .covariant (protocolOf "P" [final "x" (.var (parameter .covariant "P")),
      final "y" (instanceOf 1)])]

/-- A function of one parameter. -/
def callback (param ret : Ty) : Ty := .function (function none [some param] (.declared ret))

end Sample

/-- The first of two alternatives finds a type for a variable before it fails, and so does the first
member that a protocol asks for. -/
theorem nothing_left_by_failures :
    let judge := judgeAt Sample.wanting 0
    let dest := Sample.callback (.var Sample.sought) (Sample.instanceOf 1)
    let source := Sample.callback (Sample.instanceOf 1) (Sample.instanceOf 2)
    let first := exec (judge.assign .default (some dest) (some source)) Sample.seeking
    let all := exec (judge.assign .default (some (.union [dest, .noneObject])) (some source))
      Sample.seeking
    let compared := exec (conformsFrom Sample.wanting .own 0 .default false
      (Sample.viewOf 3 (.var Sample.sought)) (.ofId 1)) Sample.seeking
    first.1 = .ok false ∧ all.1 = .ok false ∧ compared.1 = .ok false ∧
      (first.2.solving.bind (·.get? Sample.sought)).isSome = true ∧
      (∃ τ, first.2.solving = some τ ∧ (Solution.forScope "S").Extends τ) ∧
      all.2.solving = Sample.seeking.solving ∧ compared.2.solving = Sample.seeking.solving := by
  intro judge dest source first all compared
  have answers : first.1 = .ok false ∧ all.1 = .ok false ∧ compared.1 = .ok false ∧
      (first.2.solving.bind (·.get? Sample.sought)).isSome = true := by
    decide +kernel
  obtain ⟨taken, tried, matched⟩ := solutions_are_taken_further Sample.wanting 0
  refine ⟨answers.1, answers.2.1, answers.2.2.1, answers.2.2.2, taken _ _ _ _ _ rfl, ?_, ?_⟩
  · refine tried .default _ source Sample.seeking all.2 (.alternatives _ ?_ ?_)
      (Prod.ext answers.2.1 rfl)
    · exact fun us h => nomatch (h : Ty.function _ = .union us)
    · exact fun v h => nomatch (h : Ty.function _ = .var v)
  · let P := (Sample.viewOf 3 (.var Sample.sought)).toClassObject
    let wants := Requirement.all Sample.wanting.classes false P
    let meets := (Match.of Sample.wanting P (ClassTy.ofId 1).toClassObject false).matchMember
      Sample.wanting (judgeAt Sample.wanting (0 + 1))
    let s := Sample.seeking.matching Sample.wanting .own
      (.of false (Sample.viewOf 3 (.var Sample.sought)) (.ofId 1))
    have turns : ∃ two : 1 < wants.length, (exec (allOf meets (wants.take 1)) s).1 = .ok true ∧
        (exec (meets (wants.get ⟨1, two⟩)) (exec (allOf meets (wants.take 1)) s).2).1 =
          .ok false := by
      decide +kernel
    obtain ⟨two, finds, lacks⟩ := turns
    apply matched
    refine ⟨wants.take 1, wants.get ⟨1, two⟩, wants.drop 2, true, _, _, ?_, Prod.ext finds rfl,
      Prod.ext lacks rfl⟩
    rw [List.get_eq_getElem, ← List.drop_eq_getElem_cons, List.take_append_drop]

end Conformance
