import Conformance.Proofs.Copying
import Conformance.Proofs.Equivalence

/-!
# Substituting twice

What substitution has put in place is left as it is by a further substitution with the same solution,
if the solution is scoped: what it has found mentions nothing that it solves. Substitution gives up
below a number of levels, and a generic class that takes its own parameters for arguments is deeper
than it was. Its arguments may then be left undone, which does no harm where they stay: the next
substitution gives up there as well. Within a union they may not stay, since a union whose
alternatives come to be the same is dropped and its only alternative moves up.
-/

namespace Conformance

/-! ## Computations that find nothing out -/

def Inference.Knows (inf now : Inference) : Prop :=
  ∀ cell, now.isSettled cell = inf.isSettled cell

def Renders {α : Type} (inf : Inference) (P : α → Prop) (act : StateM Inference α) : Prop :=
  ∀ now, inf.Knows now → P (act now).1 ∧ inf.Knows (act now).2

abbrev Ty.Like (inf : Inference) (t u : Ty) : Prop :=
  Ty.Alike (fun now now' => now = inf ∧ now' = inf) t u

variable {inf now : Inference}

namespace Inference.Knows

variable (h : inf.Knows now)
include h

theorem agreeOn (t : Ty) : inf.AgreeOn now t := fun cell _ => h cell

theorem same_eq (t u : Ty) : t.same now u = t.same inf u := (h.agreeOn t).same_eq (h.agreeOn u)

theorem combine_eq (types : List (Option Ty)) : Ty.combine now types = Ty.combine inf types := by
  rw [Ty.combine, Ty.combine, Ty.distinct_congr fun t _ u _ => h.same_eq t u]

end Inference.Knows

theorem Ty.Like.refl (inf : Inference) (t : Ty) : t.Like inf t :=
  .of_agreeOn fun _ _ here => by
    obtain ⟨rfl, rfl⟩ := here
    exact fun _ _ => rfl

/-- Types that read alike are the same, in either order. -/
theorem Ty.Like.same {t u : Ty} (h : t.Like inf u) : t.same inf u = true ∧ u.same inf t = true := by
  have reads := h inf inf ⟨rfl, rfl⟩ Ty.levels
  refine ⟨reads.sameAt, ?_⟩
  have back := reads.sameAt_eq (Ty.ReadsAt.refl inf Ty.levels t)
  rw [sameAt_self] at back
  exact back

section

variable {α β : Type} {P : α → Prop} {Q : β → Prop}

namespace Renders

theorem pure {a : α} (h : P a) : Renders inf P (pure a) := fun _ knows => ⟨h, knows⟩

theorem bind {act : StateM Inference α} {k : α → StateM Inference β} (h : Renders inf P act)
    (hk : ∀ a, P a → Renders inf Q (k a)) : Renders inf Q (act >>= k) := by
  intro now knows
  obtain ⟨first, between⟩ := h now knows
  exact hk _ first _ between

theorem imp {P' : α → Prop} {act : StateM Inference α} (h : Renders inf P act)
    (imp : ∀ a, P a → P' a) : Renders inf P' act :=
  fun now knows => ⟨imp _ (h now knows).1, (h now knows).2⟩

theorem mapM {R : α → β → Prop} {f : α → StateM Inference β} {as : List α}
    (h : ∀ a ∈ as, Renders inf (R a) (f a)) : Renders inf (List.Forall₂ R as) (as.mapM f) := by
  induction as with
  | nil => exact .pure .nil
  | cons a as ih =>
    rw [List.forall_mem_cons] at h
    rw [List.mapM_cons]
    exact .bind h.1 fun b hb => .bind (ih h.2) fun bs hbs => .pure (.cons hb hbs)

end Renders

end

/-! ## What a substitution relates types to -/

section

variable {classes : ClassTable} {σ : Solution} {sub : Ty → StateM Inference Ty}
  {R : Ty → Ty → Prop} {P : Ty → Prop} {c : ClassTy} {f : FunctionTy}

private theorem renders_ofOption {o : Option Ty} (h : ∀ t, o = some t → Renders inf (R t) (sub t)) :
    Renders inf (Option.Rel R o) (Substitution.ofOption sub o) := by
  cases o with
  | none => exact .pure .none
  | some t => exact .bind (h t rfl) fun u hu => .pure (.some hu)

private theorem renders_ofParam (unknown : R .unknown .unknown) {p : Param}
    (h : ∀ t, p.type = some t → Renders inf (R t) (sub t)) :
    Renders inf (p.ReadsBy R) (Substitution.ofParam sub p) :=
  .bind (renders_ofOption h) fun _ ho => .pure ⟨rfl, rfl, rel_option_getD ho unknown⟩

private theorem renders_ofClassTy (shut : ¬ c.Opens classes σ)
    (args : ∀ o ∈ c.argList, ∀ t, o = some t → Renders inf (R t) (sub t)) :
    Renders inf (fun d => c.ReadsBy R d ∧ ¬ d.Opens classes σ)
      (Substitution.ofClassTy classes σ sub c) := by
  unfold Substitution.ofClassTy
  cases given : c.args with
  | some as =>
    rw [ClassTy.argList, given] at args
    refine .bind (.mapM fun o ho => renders_ofOption (args o ho)) fun bs hbs => .pure ⟨?_, ?_⟩
    · exact ⟨rfl, rfl, rfl, by rw [ClassTy.argList, given]; exact hbs⟩
    · exact fun opens => Option.some_ne_none _ opens.1
  | none =>
    have kept : ((classes.decl c.id).params.isEmpty || !σ.solves (classes.decl c.id).scope) = true := by
      rw [← Bool.not_eq_false]
      exact fun opens => shut ⟨given, opens⟩
    dsimp only
    rw [if_pos kept]
    exact .pure ⟨⟨rfl, rfl, rfl, by rw [ClassTy.argList, given]; exact .nil⟩, shut⟩

private theorem renders_ofClassTy_of_opens (opens : c.Opens classes σ)
    (params : ∀ v ∈ (classes.decl c.id).params, Renders inf P (sub (.var v))) :
    Renders inf (fun d => ¬ d.Opens classes σ ∧ ∀ o ∈ d.argList, ∀ t, o = some t → P t)
      (Substitution.ofClassTy classes σ sub c) := by
  unfold Substitution.ofClassTy
  rw [opens.1]
  dsimp only
  rw [if_neg (by simp [opens.2])]
  have each : ∀ v ∈ (classes.decl c.id).params, Renders inf (fun o => ∀ t, o = some t → P t)
      (Substitution.ofOption sub (some (.var v))) := fun v hv =>
    .bind (params v hv) fun t ht => .pure fun u hu => Option.some.inj hu ▸ ht
  refine .bind (.mapM each) fun os hos =>
    .pure ⟨fun opens => Option.some_ne_none _ opens.1, fun o ho => ?_⟩
  obtain ⟨v, -, here⟩ := exists_of_forall₂ hos.flip ho
  exact here

private theorem renders_ofReturn (unknown : R .unknown .unknown)
    (still : sub .unknown = pure .unknown)
    (h : Renders inf (R (inf.returnType f)) (sub (inf.returnType f))) :
    Renders inf (fun r => ∀ g : FunctionTy, g.ret = r → R (inf.returnType f) (inf.returnType g))
      (Substitution.ofReturn sub f) := by
  intro now knows
  cases hopen : now.isOpen f with
  | true =>
    obtain ⟨cell, outcome, ret, here⟩ := exists_cell_of_isOpen hopen
    rw [ofReturn_of_open ret here]
    refine ⟨fun g hg => ?_, fun other => ((opens_newCell now).settled other).trans (knows other)⟩
    have fresh : inf.isSettled now.settled.size = false :=
      (knows _).symm.trans (Inference.isSettled_of_size_le (Nat.le_refl _))
    rw [returnType_of_open ret ((knows cell).symm.trans here), returnType_of_open hg fresh]
    exact unknown
  | false =>
    obtain ⟨after, value⟩ := Pairing.ofReturn_of_found still (.refl now) hopen
    rw [(knows.agreeOn _).returnType_eq] at after value
    obtain ⟨related, knows'⟩ := h now knows
    refine ⟨fun g hg => ?_, after ▸ knows'⟩
    rw [(value g hg inf).2]
    exact related

private theorem renders_ofFunction (unknown : R .unknown .unknown)
    (still : sub .unknown = pure .unknown)
    (params : ∀ p ∈ f.params, ∀ t, p.type = some t → Renders inf (R t) (sub t))
    (ret : Renders inf (R (inf.returnType f)) (sub (inf.returnType f))) :
    Renders inf (f.ReadsBy inf inf R) (Substitution.ofFunction sub f) :=
  .bind (.mapM fun p hp => renders_ofParam unknown (params p hp)) fun _ hps =>
    .bind (renders_ofReturn unknown still ret) fun _ hr => .pure ⟨rfl, hps, hr _ rfl⟩

end

/-! ## What substitution leaves as it is -/

/-- Substitution to a number of levels leaves the type as it is: it replaces no variable, opens no
class, and builds each union anew as it was. -/
inductive Ty.Kept (classes : ClassTable) (σ : Solution) (unsolvedUnknown : Bool) (inf : Inference) :
    Nat → Ty → Prop
  | last (t : Ty) : Ty.Kept classes σ unsolvedUnknown inf 0 t
  | unknown (n : Nat) : Ty.Kept classes σ unsolvedUnknown inf n .unknown
  | any (n : Nat) : Ty.Kept classes σ unsolvedUnknown inf n .any
  | noneObject (n : Nat) : Ty.Kept classes σ unsolvedUnknown inf n .noneObject
  | module (n : Nat) (name : String) (table : TableId) :
      Ty.Kept classes σ unsolvedUnknown inf n (.module name table)
  | var (n : Nat) {v : TypeVar} (kept : Substitution.ofVar σ unsolvedUnknown v = .var v) :
      Ty.Kept classes σ unsolvedUnknown inf n (.var v)
  | cls {n : Nat} {c : ClassTy} (shut : ¬ c.Opens classes σ)
      (args : ∀ o ∈ c.argList, ∀ t, o = some t → Ty.Kept classes σ unsolvedUnknown inf n t) :
      Ty.Kept classes σ unsolvedUnknown inf (n + 1) (.cls c)
  | function {n : Nat} {f : FunctionTy}
      (params : ∀ p ∈ f.params, Ty.Kept classes σ unsolvedUnknown inf n p.typeOrUnknown)
      (ret : Ty.Kept classes σ unsolvedUnknown inf n (inf.returnType f)) :
      Ty.Kept classes σ unsolvedUnknown inf (n + 1) (.function f)
  | overloaded {n : Nat} {fs : List FunctionTy}
      (each : ∀ f ∈ fs, Ty.Kept classes σ unsolvedUnknown inf (n + 1) (.function f)) :
      Ty.Kept classes σ unsolvedUnknown inf (n + 1) (.overloaded fs)
  | union {n : Nat} {ts : List Ty} (each : ∀ t ∈ ts, Ty.Kept classes σ unsolvedUnknown inf n t)
      (built : Fragment.Built inf ts) : Ty.Kept classes σ unsolvedUnknown inf (n + 1) (.union ts)

section

variable {classes : ClassTable} {σ : Solution} {unsolvedUnknown : Bool} {n k : Nat} {t : Ty}

private theorem Ty.Kept.like (h : t.Kept classes σ unsolvedUnknown inf n) :
    Renders inf (t.Like inf) (Substitution.ofTyAt classes σ unsolvedUnknown n t) := by
  induction n generalizing t with
  | zero => exact .pure (.refl inf t)
  | succ n ih =>
    have function {f : FunctionTy} (h : (Ty.function f).Kept classes σ unsolvedUnknown inf (n + 1)) :
        Renders inf (f.ReadsBy inf inf (Ty.Like inf))
          (Substitution.ofFunction (Substitution.ofTyAt classes σ unsolvedUnknown n) f) := by
      cases h with
      | function params ret =>
        refine renders_ofFunction .unknown (ofTyAt_unknown n) (fun p hp t ht => ih ?_) (ih ret)
        have here := params p hp
        rwa [Param.typeOrUnknown, ht] at here
    have alike {f g : FunctionTy} (h : f.ReadsBy inf inf (Ty.Like inf) g) :
        f.Alike (fun now now' => now = inf ∧ now' = inf) g :=
      ⟨h.kind, h.params, fun now now' here => by
        obtain ⟨rfl, rfl⟩ := here
        exact h.ret now' now' ⟨rfl, rfl⟩⟩
    cases h with
    | unknown | any | noneObject | module => exact .pure (.refl inf _)
    | var _ kept =>
      change Renders inf _ (pure (Substitution.ofVar σ unsolvedUnknown _))
      rw [kept]
      exact .pure (.refl inf _)
    | cls shut args =>
      exact .bind (renders_ofClassTy shut fun o ho t ht => ih (args o ho t ht))
        fun d hd => .pure (.cls hd.1)
    | function params ret =>
      exact .bind (function (.function params ret)) fun g hg => .pure (.function (alike hg))
    | overloaded each =>
      refine .bind (.mapM fun f hf => function (each f hf)) fun gs hgs => .pure (.overloaded ?_)
      exact hgs.imp fun _ _ => alike
    | @union _ ts each built =>
      refine .bind (.mapM fun t ht => ih (each t ht)) fun us hus now knows => ⟨?_, knows⟩
      change (Ty.union ts).Like inf (Ty.combine now (us.map some))
      have given : List.Forall₂ (Option.Rel (Ty.Like inf)) (ts.map some) (us.map some) :=
        List.rel_map (fun _ _ h => .some h) hus
      have combined := (Ty.Alike.combined ⟨rfl, rfl⟩).combine given
      rw [built.combine_eq] at combined
      rwa [knows.combine_eq]

/-! ## What substitution yields -/

/-- The type mentions no variable and no bare generic class of a scope that the solution solves.
Parts of parameter specifications are no variables to be solved, and bounds do not count. Its unions
have a further property. -/
inductive Ty.Apart (classes : ClassTable) (σ : Solution) (inf : Inference)
    (unions : List Ty → Prop) : Ty → Prop
  | unknown : Ty.Apart classes σ inf unions .unknown
  | any : Ty.Apart classes σ inf unions .any
  | noneObject : Ty.Apart classes σ inf unions .noneObject
  | module (name : String) (table : TableId) : Ty.Apart classes σ inf unions (.module name table)
  | var {v : TypeVar} (other : v.access = .whole → σ.solves v.scope = false) :
      Ty.Apart classes σ inf unions (.var v)
  | cls {c : ClassTy} (shut : ¬ c.Opens classes σ)
      (args : ∀ o ∈ c.argList, ∀ t, o = some t → Ty.Apart classes σ inf unions t) :
      Ty.Apart classes σ inf unions (.cls c)
  | function {f : FunctionTy}
      (params : ∀ p ∈ f.params, Ty.Apart classes σ inf unions p.typeOrUnknown)
      (ret : Ty.Apart classes σ inf unions (inf.returnType f)) :
      Ty.Apart classes σ inf unions (.function f)
  | overloaded {fs : List FunctionTy}
      (each : ∀ f ∈ fs, Ty.Apart classes σ inf unions (.function f)) :
      Ty.Apart classes σ inf unions (.overloaded fs)
  | union {ts : List Ty} (each : ∀ t ∈ ts, Ty.Apart classes σ inf unions t) (here : unions ts) :
      Ty.Apart classes σ inf unions (.union ts)

/-- The type is nested no deeper than so many levels. Within a union, a bare generic class that takes
its own parameters for arguments counts as one level deeper. -/
inductive Ty.Spread (classes : ClassTable) (σ : Solution) (inf : Inference) : Bool → Nat → Ty → Prop
  | unknown (inside : Bool) (n : Nat) : Ty.Spread classes σ inf inside n .unknown
  | any (inside : Bool) (n : Nat) : Ty.Spread classes σ inf inside n .any
  | noneObject (inside : Bool) (n : Nat) : Ty.Spread classes σ inf inside n .noneObject
  | module (inside : Bool) (n : Nat) (name : String) (table : TableId) :
      Ty.Spread classes σ inf inside (n + 1) (.module name table)
  | var (inside : Bool) (n : Nat) (v : TypeVar) : Ty.Spread classes σ inf inside (n + 1) (.var v)
  | cls {inside : Bool} {n : Nat} {c : ClassTy}
      (room : inside = true → c.Opens classes σ → 0 < n)
      (args : ∀ o ∈ c.argList, ∀ t, o = some t → Ty.Spread classes σ inf inside n t) :
      Ty.Spread classes σ inf inside (n + 1) (.cls c)
  | function {inside : Bool} {n : Nat} {f : FunctionTy}
      (params : ∀ p ∈ f.params, ∀ t, p.type = some t → Ty.Spread classes σ inf inside n t)
      (ret : Ty.Spread classes σ inf inside n (inf.returnType f)) :
      Ty.Spread classes σ inf inside (n + 1) (.function f)
  | overloaded {inside : Bool} {n : Nat} {fs : List FunctionTy}
      (each : ∀ f ∈ fs, Ty.Spread classes σ inf inside n (.function f)) :
      Ty.Spread classes σ inf inside (n + 1) (.overloaded fs)
  | union {inside : Bool} {n : Nat} {ts : List Ty}
      (each : ∀ t ∈ ts, Ty.Spread classes σ inf true n t) :
      Ty.Spread classes σ inf inside (n + 1) (.union ts)

theorem Ty.Apart.kept (h : t.Apart classes σ inf (Fragment.Built inf)) (n : Nat) :
    t.Kept classes σ unsolvedUnknown inf n := by
  induction n generalizing t with
  | zero => exact .last t
  | succ n ih =>
    cases h with
    | unknown => exact .unknown _
    | any => exact .any _
    | noneObject => exact .noneObject _
    | module name table => exact .module _ name table
    | @var v other =>
      refine .var _ (if_pos ?_)
      by_cases whole : v.access = .whole
      · exact .inr (by rw [other whole]; rfl)
      · exact .inl whole
    | cls shut args => exact .cls shut fun o ho t ht => ih (args o ho t ht)
    | function params ret => exact .function (fun p hp => ih (params p hp)) (ih ret)
    | overloaded each =>
      refine .overloaded fun f hf => ?_
      cases each f hf with
      | function params ret => exact .function (fun p hp => ih (params p hp)) (ih ret)
    | union each built => exact .union (fun t ht => ih (each t ht)) built

/-- In a formed type the unions are as they were built. -/
theorem Ty.Formed.apart {finds : Bool} (h : t.Formed inf finds n)
    (apart : t.Apart classes σ inf fun _ => True) : t.Apart classes σ inf (Fragment.Built inf) := by
  have typed {p : Param}
      (h : ∀ t, p.type = some t → t.Apart classes σ inf (fun _ => True) →
        t.Apart classes σ inf (Fragment.Built inf))
      (apart : p.typeOrUnknown.Apart classes σ inf fun _ => True) :
      p.typeOrUnknown.Apart classes σ inf (Fragment.Built inf) := by
    unfold Param.typeOrUnknown at apart ⊢
    cases hp : p.type with
    | none => exact .unknown
    | some t =>
      rw [hp] at apart
      exact h t hp apart
  induction h with
  | unknown => exact .unknown
  | any => exact .any
  | noneObject => exact .noneObject
  | module _ _ name table => exact .module name table
  | var =>
    cases apart with
    | var other => exact .var other
  | cls _ ih =>
    cases apart with
    | cls shut args => exact .cls shut fun o ho t ht => ih o ho t ht (args o ho t ht)
  | function _ _ _ params ret =>
    cases apart with
    | function params' ret' =>
      exact .function (fun p hp => typed (params p hp) (params' p hp)) (ret ret')
  | overloaded _ ih =>
    cases apart with
    | overloaded each => exact .overloaded fun f hf => ih f hf (each f hf)
  | @union _ _ ts _ each built ih =>
    cases apart with
    | union each' _ =>
      have made := fun t ht => (each t ht).overAll
      refine .union (fun t ht => ih t ht (each' t ht)) ⟨fun t ht => ?_, ?_, built.distinct.1⟩
      · exact ((built.builtOf made).single t ht)
      · exact Fragment.distinct_of_pairwise (built.apart made inf)

theorem Ty.Spread.succ {inside : Bool} (h : t.Spread classes σ inf inside n) :
    t.Spread classes σ inf inside (n + 1) := by
  induction h with
  | unknown => exact .unknown _ _
  | any => exact .any _ _
  | noneObject => exact .noneObject _ _
  | module => exact .module ..
  | var => exact .var ..
  | cls room _ ih => exact .cls (fun inside opens => Nat.lt_succ_of_lt (room inside opens)) ih
  | function _ _ params ret => exact .function params ret
  | overloaded _ ih => exact .overloaded ih
  | union _ ih => exact .union ih

private theorem kept_combine {us : List Ty}
    (h : ∀ u ∈ us, ∀ k, u.Kept classes σ unsolvedUnknown inf k) (k : Nat) :
    (Ty.combine inf (us.map some)).Kept classes σ unsolvedUnknown inf k := by
  have alternative {a : Ty} : Fragment.AlternativeOf (us.map some) a →
      (∀ k, a.Kept classes σ unsolvedUnknown inf k) ∧ a.alternatives = [a] ∧
        a.isAnyOrUnknown = false := by
    rintro ⟨u, hu, proper, ha⟩
    have hu : u ∈ us := by simpa using hu
    by_cases union : ∃ ts, u = .union ts
    · obtain ⟨ts, rfl⟩ := union
      refine ⟨fun k => ?_, ?_⟩
      · cases h _ hu (k + 1) with
        | union each _ => exact each a ha
      · cases h _ hu 1 with
        | union _ built => exact built.single a ha
    · have plain := Fragment.alternatives_eq_self fun ts same => union ⟨ts, same⟩
      rw [plain] at ha
      rw [List.mem_singleton.1 ha]
      exact ⟨h u hu, plain, proper⟩
  refine Fragment.combine_cases (.unknown k) (fun u hu => h u (by simpa using hu) k)
    (fun a ha => (alternative ha).1 k) fun as each apart several => ?_
  cases k with
  | zero => exact .last _
  | succ k =>
    exact .union (fun a ha => (alternative (each a ha)).1 k)
      ⟨fun a ha => (alternative (each a ha)).2, Fragment.distinct_of_pairwise apart, several⟩

/-- What the solution has found mentions nothing that it solves, and the alternatives of its unions
are apart. -/
def Solution.Scoped (classes : ClassTable) (σ : Solution) (inf : Inference) : Prop :=
  ∀ v t, σ.get? v = some t → t.Apart classes σ inf (Fragment.Built inf)

theorem Solution.Scoped.ofVar (closed : σ.Scoped classes inf) (v : TypeVar) (k : Nat) :
    (Substitution.ofVar σ unsolvedUnknown v).Kept classes σ unsolvedUnknown inf k := by
  have itself : Substitution.ofVar σ unsolvedUnknown v = .var v →
      (Ty.var v).Kept classes σ unsolvedUnknown inf k := .var k
  unfold Substitution.ofVar at itself ⊢
  split
  · rename_i skipped
    exact itself (if_pos skipped)
  · rename_i asked
    rw [if_neg asked] at itself
    split
    · rename_i t found
      exact (closed v t found).kept k
    · rename_i missing
      rw [missing] at itself
      cases unsolvedUnknown with
      | true => exact .unknown k
      | false => exact itself rfl

/-- Substitution to as many levels leaves the type as it is; within a union, substitution to any
number of levels does. -/
def Ty.Done (classes : ClassTable) (σ : Solution) (unsolvedUnknown : Bool) (inf : Inference)
    (inside : Bool) (n : Nat) (t : Ty) : Prop :=
  ∀ k, inside = true ∨ k ≤ n → t.Kept classes σ unsolvedUnknown inf k

section

variable {inside : Bool}

private theorem done_succ (h : ∀ k, (∀ {u : Ty}, u.Done classes σ unsolvedUnknown inf inside n →
    u.Kept classes σ unsolvedUnknown inf k) → t.Kept classes σ unsolvedUnknown inf (k + 1)) :
    t.Done classes σ unsolvedUnknown inf inside (n + 1) := by
  intro k deep
  cases k with
  | zero => exact .last t
  | succ k => exact h k fun hu => hu k (deep.imp_right Nat.le_of_succ_le_succ)

private theorem done_unknown :
    Ty.unknown.Done classes σ unsolvedUnknown inf inside n := fun k _ => .unknown k

variable {sub : Ty → StateM Inference Ty}

private theorem done_ofFunction {f : FunctionTy} (still : sub .unknown = pure .unknown)
    (params : ∀ p ∈ f.params, ∀ t, p.type = some t →
      Renders inf (Ty.Done classes σ unsolvedUnknown inf inside n) (sub t))
    (ret : Renders inf (Ty.Done classes σ unsolvedUnknown inf inside n) (sub (inf.returnType f))) :
    Renders inf (fun g => (Ty.function g).Done classes σ unsolvedUnknown inf inside (n + 1))
      (Substitution.ofFunction sub f) := by
  refine (renders_ofFunction (R := fun _ => Ty.Done classes σ unsolvedUnknown inf inside n)
    done_unknown still params ret).imp fun g hg => done_succ fun k lower => ?_
  refine .function (fun q hq => ?_) (lower hg.ret)
  obtain ⟨p, -, here⟩ := exists_of_forall₂ hg.params.flip hq
  exact lower here.type

private theorem done_ofClassTy {c : ClassTy} (shut : ¬ c.Opens classes σ)
    (args : ∀ o ∈ c.argList, ∀ t, o = some t →
      Renders inf (Ty.Done classes σ unsolvedUnknown inf inside n) (sub t)) :
    Renders inf (fun d => (Ty.cls d).Done classes σ unsolvedUnknown inf inside (n + 1))
      (Substitution.ofClassTy classes σ sub c) := by
  refine (renders_ofClassTy (R := fun _ => Ty.Done classes σ unsolvedUnknown inf inside n) shut
    args).imp fun d hd => done_succ fun k lower => ?_
  refine .cls hd.2 fun o ho t ht => ?_
  obtain ⟨o', -, here⟩ := exists_of_forall₂ hd.1.args.flip ho
  subst ht
  cases here with
  | some here => exact lower here

private theorem done_ofClassTy_of_opens (closed : σ.Scoped classes inf) {c : ClassTy}
    (opens : c.Opens classes σ) (room : inside = true → 0 < n) :
    Renders inf (fun d => (Ty.cls d).Done classes σ unsolvedUnknown inf inside (n + 1))
      (Substitution.ofClassTy classes σ (Substitution.ofTyAt classes σ unsolvedUnknown n) c) := by
  have params : ∀ v ∈ (classes.decl c.id).params,
      Renders inf (Ty.Done classes σ unsolvedUnknown inf inside n)
        (Substitution.ofTyAt classes σ unsolvedUnknown n (.var v)) := by
    intro v _
    cases n with
    | zero =>
      refine .pure fun k deep => ?_
      have none_left : k = 0 :=
        Nat.le_zero.1 (deep.resolve_left fun inside => absurd (room inside) (Nat.lt_irrefl 0))
      exact none_left ▸ .last _
    | succ n => exact .pure fun k _ => closed.ofVar v k
  exact (renders_ofClassTy_of_opens opens params).imp fun d hd => done_succ fun k lower =>
    .cls hd.1 fun o ho t ht => lower (hd.2 o ho t ht)

end

/-- Substitution to a number of levels yields what substitution to as many levels leaves as it is. -/
theorem Ty.Spread.done (closed : σ.Scoped classes inf) {inside : Bool}
    (h : t.Spread classes σ inf inside n) :
    Renders inf (Ty.Done classes σ unsolvedUnknown inf inside n)
      (Substitution.ofTyAt classes σ unsolvedUnknown n t) := by
  induction n generalizing t inside with
  | zero =>
    cases h with
    | unknown => exact .pure done_unknown
    | any => exact .pure fun k _ => .any k
    | noneObject => exact .pure fun k _ => .noneObject k
  | succ n ih =>
    cases h with
    | unknown => exact .pure done_unknown
    | any => exact .pure fun k _ => .any k
    | noneObject => exact .pure fun k _ => .noneObject k
    | module _ _ name table => exact .pure fun k _ => .module k name table
    | var _ _ v => exact .pure fun k _ => closed.ofVar v k
    | @cls _ _ c room args =>
      refine .bind (P := fun d => (Ty.cls d).Done classes σ unsolvedUnknown inf inside (n + 1)) ?_
        fun d hd => .pure hd
      by_cases opens : c.Opens classes σ
      · exact done_ofClassTy_of_opens closed opens fun inside => room inside opens
      · exact done_ofClassTy opens fun o ho t ht => ih (args o ho t ht)
    | function params ret =>
      exact .bind (done_ofFunction (ofTyAt_unknown n) (fun p hp t ht => ih (params p hp t ht))
        (ih ret)) fun g hg => .pure hg
    | @overloaded _ _ fs each =>
      have copied : ∀ f ∈ fs,
          Renders inf (fun g => (Ty.function g).Done classes σ unsolvedUnknown inf inside (n + 1))
            (Substitution.ofFunction (Substitution.ofTyAt classes σ unsolvedUnknown n) f) := by
        intro f hf
        cases each f hf with
        | function params ret =>
          exact done_ofFunction (ofTyAt_unknown _) (fun p hp t ht => ih (params p hp t ht).succ)
            (ih ret.succ)
      refine .bind (.mapM copied) fun gs hgs => .pure fun k deep => ?_
      cases k with
      | zero => exact .last _
      | succ k =>
        refine .overloaded fun g hg => ?_
        obtain ⟨f, -, here⟩ := exists_of_forall₂ hgs.flip hg
        exact here (k + 1) deep
    | union each =>
      refine .bind (.mapM fun t ht => ih (each t ht)) fun us hus now knows => ⟨fun k _ => ?_, knows⟩
      change (Ty.combine now (us.map some)).Kept classes σ unsolvedUnknown inf k
      rw [knows.combine_eq]
      refine kept_combine (fun u hu k => ?_) k
      obtain ⟨t, -, here⟩ := exists_of_forall₂ hus.flip hu
      exact here k (.inl rfl)

end

/-! ## A few generic classes -/

namespace Sample

/-- A string, a number, a class of one parameter, one of two and one of three. -/
def genericTable : ClassTable :=
  (ofDecls [classOf "str" [], classOf "int" [],
    { classOf "Box" [] with params := [.make "X" "Box" .invariant none] },
    { classOf "Pair" [] with
      params := [.make "A" "Pair" .invariant none, .make "B" "Pair" .invariant none] },
    { classOf "C" [] with
      params := [.make "T" "C" .invariant none, .make "U" "C" .invariant none,
        .make "V" "C" .invariant none] }]).classes

def paramOfC (name : String) : Ty := .var (.make name "C" .invariant none)

/-- The first parameter of the class of three is a string, the others are numbers. -/
def solved : Solution :=
  (((Solution.forScope "C").insert (.make "T" "C" .invariant none) (some (instanceOf 0))).insert
    (.make "U" "C" .invariant none) (some (instanceOf 1))).insert
      (.make "V" "C" .invariant none) (some (instanceOf 1))

/-- A pair of the bare class of three parameters and of another type. -/
def pairOfC (t : Ty) : Ty :=
  .cls ((ClassTy.ofId 3).withArgs [some (.cls (.ofId 4)), some t] true)

def nested : Nat → Ty → Ty
  | 0, t => t
  | n + 1, t => .cls (viewOf 2 (nested n t))

private theorem scoped_solved (inf : Inference) : solved.Scoped genericTable inf := by
  intro v t found
  have plain (id : ClassId) (shut : ¬ ((ClassTy.ofId id).toInstance).Opens genericTable solved) :
      (instanceOf id).Apart genericTable solved inf (Fragment.Built inf) :=
    .cls shut fun _ ho => absurd ho List.not_mem_nil
  unfold solved at found
  simp only [Solution.get?_insert] at found
  split at found
  · cases found
    exact plain 1 (by decide +kernel)
  · split at found
    · cases found
      exact plain 1 (by decide +kernel)
    · split at found
      · cases found
        exact plain 0 (by decide +kernel)
      · cases found

private theorem formed_nested {inf : Inference} {finds : Bool} {n : Nat} {t : Ty}
    (h : t.Formed inf finds n) (k : Nat) : (nested k t).Formed inf finds (n + k) := by
  induction k with
  | zero => exact h
  | succ k ih =>
    refine .cls fun o ho u hu => ?_
    rw [List.mem_singleton.1 ho] at hu
    cases hu
    exact ih

private theorem spread_nested {classes : ClassTable} {σ : Solution} {inf : Inference} {n : Nat}
    {t : Ty}
    (h : t.Spread classes σ inf false n) (k : Nat) :
    (nested k t).Spread classes σ inf false (n + k) := by
  induction k with
  | zero => exact h
  | succ k ih =>
    refine .cls nofun fun o ho u hu => ?_
    rw [List.mem_singleton.1 ho] at hu
    cases hu
    exact ih

end Sample

/-! ## Twice -/

section

variable {classes : ClassTable} {σ : Solution} {unsolvedUnknown : Bool} {t : Ty}

theorem Inference.Knows.refl (inf : Inference) : inf.Knows inf := fun _ => rfl

private theorem same_substitute_of_kept (knows : inf.Knows now)
    (h : t.Kept classes σ unsolvedUnknown inf Ty.levels) :
    let result := t.substitute classes σ unsolvedUnknown now
    t.same result.2 result.1 = true ∧ result.1.same result.2 t = true := by
  intro result
  have like : t.Like inf result.1 ∧ inf.Knows result.2 := by
    change t.Like inf (t.substitute classes σ unsolvedUnknown now).1 ∧
      inf.Knows (t.substitute classes σ unsolvedUnknown now).2
    unfold Ty.substitute
    split
    · exact ⟨.refl inf t, knows⟩
    · exact h.like now knows
  rw [like.2.same_eq, like.2.same_eq]
  exact like.1.same

/-- A substitution changes nothing where the same was substituted before, and nothing in a type that
mentions nothing to be put in place. -/
theorem substitute_substitute (classes : ClassTable) (σ : Solution) (unsolvedUnknown : Bool)
    (inf : Inference) (closed : σ.Scoped classes inf) (t : Ty) :
    let once := t.substitute classes σ unsolvedUnknown inf
    let twice := once.1.substitute classes σ unsolvedUnknown once.2
    (t.Spread classes σ inf false Ty.levels →
      once.1.same twice.2 twice.1 = true ∧ twice.1.same twice.2 once.1 = true) ∧
    (t.Formed inf true Ty.levels → (t.Apart classes σ inf fun _ => True) →
      t.same once.2 once.1 = true ∧ once.1.same once.2 t = true) := by
  intro once twice
  refine ⟨fun spread => ?_, fun formed apart => ?_⟩
  · by_cases nothing : (σ.isEmpty && !unsolvedUnknown) = true
    · have left (t : Ty) : t.substitute classes σ unsolvedUnknown = pure t := if_pos nothing
      have first : once = (t, inf) := congrFun (left t) inf
      have second : twice = (t, inf) := by
        change once.1.substitute classes σ unsolvedUnknown once.2 = _
        rw [first]
        exact congrFun (left t) inf
      rw [second, first]
      exact ⟨sameAt_self inf Ty.levels t, sameAt_self inf Ty.levels t⟩
    · have run : t.substitute classes σ unsolvedUnknown =
          Substitution.ofTyAt classes σ unsolvedUnknown Ty.levels t := if_neg nothing
      obtain ⟨done, knows⟩ := spread.done closed inf (.refl inf)
      rw [← run] at done knows
      exact same_substitute_of_kept knows (done Ty.levels (.inr (Nat.le_refl _)))
  · exact same_substitute_of_kept (.refl inf) ((formed.apart apart).kept Ty.levels)

end

/-- A bare class in a union that is one level short of the last, and a union of types that mention
nothing to be put in place. -/
theorem substitute_substitute_above_last_level :
    let t := Sample.nested 11 (.union
      [Sample.pairOfC (Sample.paramOfC "U"), Sample.pairOfC (Sample.paramOfC "V")])
    let once := t.substitute Sample.genericTable Sample.solved false .start
    let twice := once.1.substitute Sample.genericTable Sample.solved false once.2
    let u := Ty.union [Sample.instanceOf 0, .noneObject]
    let v := (u.substitute Sample.genericTable Sample.solved true .start).1
    Sample.solved.Scoped Sample.genericTable .start ∧
      t.Spread Sample.genericTable Sample.solved .start false Ty.levels ∧
      twice.1.same twice.2 once.1 = true ∧ u.Formed .start true Ty.levels ∧
      (u.Apart Sample.genericTable Sample.solved .start fun _ => True) ∧ v.same .start u = true := by
  intro t once twice u v
  have closed := Sample.scoped_solved .start
  have pair (name : String) : (Sample.pairOfC (Sample.paramOfC name)).Spread
      Sample.genericTable Sample.solved .start true 3 := by
    refine .cls (fun _ _ => by decide) fun o ho x hx => ?_
    rcases List.mem_pair.1 ho with rfl | rfl <;> cases hx
    · exact .cls (fun _ _ => by decide) fun _ ho => absurd ho List.not_mem_nil
    · exact .var _ _ _
  have spread : t.Spread Sample.genericTable Sample.solved .start false Ty.levels := by
    refine Sample.spread_nested (.union (n := 3) fun x hx => ?_) 11
    rcases List.mem_pair.1 hx with rfl | rfl
    · exact pair "U"
    · exact pair "V"
  have built : Combined .start [Sample.instanceOf 0, .noneObject] :=
    @Combined.mk .start [some (Sample.instanceOf 0), some .noneObject] _ (fun _ => .start)
      (fun _ _ => .refl _) (by simp [Sample.instanceOf]) rfl
  have formed : u.Formed .start true Ty.levels := by
    refine .union (fun x hx => ?_) built
    rcases List.mem_pair.1 hx with rfl | rfl
    · exact .cls fun _ ho => absurd ho List.not_mem_nil
    · exact .noneObject _ _
  have apart : u.Apart Sample.genericTable Sample.solved .start fun _ => True := by
    refine .union (fun x hx => ?_) trivial
    rcases List.mem_pair.1 hx with rfl | rfl
    · exact .cls (by decide +kernel) fun _ ho => absurd ho List.not_mem_nil
    · exact .noneObject
  exact ⟨closed, spread,
    ((substitute_substitute Sample.genericTable Sample.solved false .start closed t).1 spread).2, formed,
    apart, ((substitute_substitute Sample.genericTable Sample.solved true .start closed u).2 formed
      apart).2⟩

/-- A union nested so deeply that a bare class in it is at the last level: the first substitution
leaves the parameters that it takes for arguments undone. The alternatives come to be the same, the
only one left is one level further up, and a second substitution gets to them. -/
theorem substitute_substitute_at_last_level :
    let t := Sample.nested 12 (.union
      [Sample.pairOfC (Sample.paramOfC "U"), Sample.pairOfC (Sample.paramOfC "V")])
    let once := t.substitute Sample.genericTable Sample.solved false .start
    let twice := once.1.substitute Sample.genericTable Sample.solved false once.2
    t.Formed .start true Ty.levels ∧ Sample.solved.Scoped Sample.genericTable .start ∧
      twice.1.same twice.2 once.1 = false := by
  intro t once twice
  have built : Combined .start
      [Sample.pairOfC (Sample.paramOfC "U"), Sample.pairOfC (Sample.paramOfC "V")] :=
    @Combined.mk .start [some (Sample.pairOfC (Sample.paramOfC "U")),
      some (Sample.pairOfC (Sample.paramOfC "V"))] _ (fun _ => .start) (fun _ _ => .refl _)
      (by simp [Sample.pairOfC]) rfl
  have pair (name : String) : (Sample.pairOfC (Sample.paramOfC name)).Formed .start false 2 := by
    refine .cls fun o ho u hu => ?_
    rcases List.mem_pair.1 ho with rfl | rfl <;> cases hu
    · exact .cls fun _ ho => absurd ho List.not_mem_nil
    · exact .var _ _ _
  refine ⟨Sample.formed_nested (.union (fun t ht => ?_) built) 12, Sample.scoped_solved .start, ?_⟩
  · rcases List.mem_pair.1 ht with rfl | rfl
    · exact pair "U"
    · exact pair "V"
  · decide +kernel

end Conformance
