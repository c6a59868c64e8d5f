import Conformance.Proofs.Learning
import Conformance.Proofs.Reasons

/-!
# Missing members

A comparison with a protocol names every member that is asked for and not there, each once and in the
order in which the protocol and its ancestors declare them, whatever else does not fit. Only a return
type that cannot be found out ends it earlier; the names given until then are a beginning of the list.
-/

namespace Conformance

open Check

/-! ## Who has a member -/

/-- The class declares the name in its body or through the receiver; where nothing is known, any name
may be declared. -/
def Ancestor.mayDeclare (classes : ClassTable) (name : String) : Ancestor → Bool
  | unresolved _ _ => true
  | resolved c =>
    ((classes.decl c.id).members.find? name).any fun m => m.flags.inInstance || m.flags.inClass

/-- A class or one of its ancestors may declare the name. -/
def ClassTable.mayHave (classes : ClassTable) (c : ClassTy) (name : String) : Bool :=
  (.resolved c :: (classes.decl c.id).mro).any (Ancestor.mayDeclare classes name)

private theorem isSome_of? (m : Member) (owner : ClassTy) :
    (FoundMember.of? m owner).isSome = (m.flags.inInstance || m.flags.inClass) := by
  rw [FoundMember.of?]
  cases m.flags.inInstance <;> cases m.flags.inClass <;> rfl

namespace ClassTable

private theorem isSome_findIn (classes : ClassTable) (name : String) (lineage : List Ancestor) :
    (classes.findIn name lineage).isSome = lineage.any (Ancestor.mayDeclare classes name) := by
  induction lineage with
  | nil => rfl
  | cons a rest ih =>
    cases a with
    | unresolved t mark => rfl
    | resolved c =>
      rw [findIn, List.any_cons, ← ih, Ancestor.mayDeclare]
      cases (classes.decl c.id).members.find? name with
      | none => rfl
      | some m =>
        rw [Option.any_some, ← isSome_of? m c]
        dsimp only
        cases FoundMember.of? m c <;> rfl

private theorem isSome_lookup (classes : ClassTable) (c : ClassTy) (name : String)
    (inf : Inference) :
    (classes.lookup c name inf).1.isSome = classes.mayHave c name := by
  have own := classes.isSome_findIn name [.resolved c.toClassObject]
  have inherited := classes.isSome_findIn name (classes.decl c.id).mro
  have same : Ancestor.mayDeclare classes name (.resolved c.toClassObject) =
      Ancestor.mayDeclare classes name (.resolved c) := rfl
  rw [List.any_cons, List.any_nil, Bool.or_false, same] at own
  rw [mayHave, List.any_cons, ← own, ← inherited, lookup]
  cases classes.findIn name [.resolved c.toClassObject] with
  | some found => rfl
  | none =>
    dsimp only
    cases classes.findIn name (classes.decl c.id).mro with
    | none => rfl
    | some found =>
      dsimp only
      cases found.owner <;> rfl

end ClassTable

namespace Match

variable (w : World)

/-- A class object has the members of its metaclass as well. -/
def mayHave (m : Match) (name : String) : Bool :=
  (m.asObject && (w.classes.metaclass? m.candidate).any (w.classes.mayHave · name)) ||
    w.classes.mayHave m.candidate name

private theorem exec_findOnMetaclass (m : Match) (name : String) (s : CheckState) :
    ∃ found inf, exec (m.findOnMetaclass w name) s = (.ok found, { s with inference := inf }) ∧
      found.isSome = (m.asObject &&
        (w.classes.metaclass? m.candidate).any (w.classes.mayHave · name)) := by
  unfold findOnMetaclass
  cases w.classes.metaclass? m.candidate with
  | none => exact ⟨none, s.inference, rfl, by simp⟩
  | some metaclass =>
    cases m.asObject with
    | false => exact ⟨none, s.inference, rfl, rfl⟩
    | true => exact ⟨_, _, exec_lift _ s, w.classes.isSome_lookup metaclass name s.inference⟩

theorem exec_find (m : Match) (name : String) (s : CheckState) :
    ∃ found inf, exec (m.find w name) s = (.ok found, { s with inference := inf }) ∧
      found.isSome = m.mayHave w name := by
  obtain ⟨found, inf, run, has⟩ := m.exec_findOnMetaclass w name s
  rw [mayHave, ← has, find, exec_bind_of_ok run]
  cases found with
  | some found => exact ⟨_, _, rfl, rfl⟩
  | none =>
    refine ⟨_, _, exec_bind_of_ok (exec_lift _ _), ?_⟩
    rw [Option.isSome_map]
    exact w.classes.isSome_lookup _ _ _

end Match

/-! ## What is asked for -/

namespace Requirement

/-- The names that a protocol asks for, in the order in which it and its ancestors ask for them
first. -/
def names (classes : ClassTable) (asObject : Bool) (protocol : ClassTy) : List String :=
  ((protocols classes protocol).flatMap fun owner =>
    ((classes.decl owner.id).members.entries.filter fun e => counts asObject e.1 e.2).map
      (·.1)).eraseDups

private theorem names_nearest (rs : List Requirement) :
    (nearest rs).map (·.name) = (rs.map (·.name)).eraseDups := by
  have folded : ∀ rs found : List Requirement,
      (rs.foldl (fun found r => if found.any (·.name == r.name) then found else found ++ [r])
          found).map (·.name) =
        found.map (·.name) ++
          ((rs.map (·.name)).filter fun name => !found.any (·.name == name)).eraseDups := by
    intro rs
    induction rs with
    | nil => simp
    | cons r rs ih =>
      intro found
      rw [List.foldl_cons, ih, List.map_cons, List.filter_cons]
      cases hidden : found.any (·.name == r.name) with
      | true => simp
      | false =>
        simp only [Bool.false_eq_true, if_false, Bool.not_false, if_true, List.eraseDups_cons,
          List.filter_filter, List.map_append, List.append_assoc, List.map_cons, List.map_nil,
          List.singleton_append, List.any_append, List.any_cons, List.any_nil, Bool.or_false,
          Bool.not_or]
        congr 3
        refine List.filter_congr fun name _ => ?_
        rw [Bool.and_comm, Bool.beq_comm]
  rw [nearest, folded]
  simp

private theorem names_all (classes : ClassTable) (asObject : Bool) (protocol : ClassTy) :
    (all classes asObject protocol).map (·.name) = names classes asObject protocol := by
  rw [all, names_nearest, List.map_flatMap, names]
  simp only [ofDeclared, List.map_map, Function.comp_def]

private theorem names_toClassObject (classes : ClassTable) (asObject : Bool) (protocol : ClassTy) :
    names classes asObject protocol.toClassObject = names classes asObject protocol := by
  rw [names, names, protocols, protocols]
  simp only [List.filterMap_cons, Ancestor.class?, List.filter_cons]
  cases h : classes.isProtocol protocol.generic
  · rw [show classes.isProtocol protocol.toClassObject.generic = false from h]
    rfl
  · rw [show classes.isProtocol protocol.toClassObject.generic = true from h]
    rfl

end Requirement

/-! ## How it is told -/

def notPresent (name : String) : String := "\"" ++ name ++ "\" is not present"

/-- The message says of some name that it is not present. -/
def tellsMissing (message : String) : Bool :=
  match message.toList with
  | '"' :: rest => "\" is not present".toList.isSuffixOf rest
  | _ => false

private theorem toList_notPresent (name : String) :
    (notPresent name).toList = '"' :: (name.toList ++ "\" is not present".toList) := by
  rw [notPresent, String.toList_append, String.toList_append, List.append_assoc]
  rfl

private theorem tellsMissing_iff {message : String} :
    tellsMissing message = true ↔ ∃ name, message = notPresent name := by
  constructor
  · intro h
    unfold tellsMissing at h
    split at h
    · rename_i rest begins
      obtain ⟨name, ends⟩ := List.isSuffixOf_iff_suffix.1 h
      refine ⟨String.ofList name, ?_⟩
      rw [← String.toList_inj, begins, ← ends, toList_notPresent, String.toList_ofList (l := name)]
    · exact absurd h Bool.false_ne_true
  · rintro ⟨name, rfl⟩
    rw [tellsMissing, toList_notPresent]
    exact List.isSuffixOf_iff_suffix.2 (List.suffix_append _ _)

private theorem fill_of_no_brace (values : List (String × String)) {cs : List Char}
    (h : Template.openBrace ∉ cs) : Template.fill values cs = cs := by
  induction cs with
  | nil => rw [Template.fill]
  | cons c cs ih =>
    rw [List.mem_cons, not_or] at h
    rw [Template.fill, if_neg (Ne.symm h.1), ih h.2]

private theorem format_quoted {w : Wording} (ending : List Char)
    (h : w.text.toList = "\"\x7bname\x7d\"".toList ++ ending) (plain : Template.openBrace ∉ ending)
    (name : String) :
    (w.format [("name", name)]).toList = '"' :: (name.toList ++ '"' :: ending) := by
  have quote : '"' ≠ Template.openBrace := by decide
  have place : Template.splitClose ("name\x7d\"".toList ++ ending) =
      some ("name".toList, '"' :: ending) := rfl
  have given : Template.valueAt [("name", name)] "name".toList = name.toList := rfl
  rw [Wording.format, Wording.template, Template.format, String.toList_ofList, h]
  change Template.fill _ ('"' :: Template.openBrace :: ("name\x7d\"".toList ++ ending)) = _
  rw [Template.fill, if_neg quote, Template.fill, if_pos rfl]
  split
  · rename_i none
    rw [place] at none
    cases none
  · rename_i found
    rw [place] at found
    obtain ⟨rfl, rfl⟩ := Prod.mk.inj (Option.some.inj found)
    rw [given, Template.fill, if_neg quote, fill_of_no_brace _ plain]

private theorem format_memberMissing (name : String) :
    Wording.memberMissing.format [("name", name)] = notPresent name := by
  rw [← String.toList_inj, toList_notPresent,
    format_quoted " is not present".toList (by decide) (by decide)]
  rfl

private theorem tellsMissing_notClassVar (name : String) :
    tellsMissing (Wording.memberNotClassVar.format [("name", name)]) = false := by
  rw [← Bool.not_eq_true, tellsMissing_iff]
  rintro ⟨other, same⟩
  -- the two texts end in different letters
  have letters := congrArg String.toList same
  rw [format_quoted " is not a class variable".toList (by decide) (by decide), toList_notPresent]
    at letters
  have last := congrArg List.getLast? letters
  simp [List.getLast?_cons, List.getLast?_append] at last

/-! ## What is told at the root -/

section

variable {α β : Type}

/-- What a check adds to the messages of the root is related to how it ends. -/
def Says (R : Except InferenceError α → List String → Prop) (act : Check α) : Prop :=
  ∀ s e, s.notes = some e → ∃ new,
    (exec act s).2.notes = some (e.append new) ∧ R (exec act s).1 new.messages

def SaysNothing (act : Check α) : Prop := Says (fun _ messages => messages = []) act

private theorem saysNothing_of_quiet {act : Check α} (h : Quiet act) :
    SaysNothing act := fun s e hs =>
  ⟨.empty, by rw [h s, hs, Explanation.append_empty], rfl⟩

private theorem saysNothing_child (act : Check α) : SaysNothing (child act) := fun s e hs =>
  ⟨.ofChild ((exec act { s with notes := s.notes.map fun _ => .empty }).2.notes.getD .empty), by
    rw [child, exec_within, hs, ← Explanation.addChild_eq]
    rfl, rfl⟩

private theorem says_of_nothing {R : Except InferenceError α → List String → Prop} {act : Check α}
    (h : SaysNothing act) (hR : ∀ r, R r []) : Says R act := by
  intro s e hs
  obtain ⟨new, told, nothing⟩ := h s e hs
  exact ⟨new, told, by rw [nothing]; exact hR _⟩

private theorem says_bind {R : Except InferenceError α → List String → Prop}
    {R' : Except InferenceError β → List String → Prop}
    {K : α → Except InferenceError β → List String → Prop} {act : Check α} {k : α → Check β}
    (h : Says R act) (hk : ∀ a, Says (K a) (k a))
    (failed : ∀ e messages, R (.error e) messages → R' (.error e) messages)
    (join : ∀ a messages r messages', R (.ok a) messages → K a r messages' →
      R' r (messages ++ messages')) : Says R' (act >>= k) := by
  intro s e hs
  obtain ⟨new, told, said⟩ := h s e hs
  rw [exec_bind]
  rcases first : exec act s with ⟨error | a, t⟩ <;> rw [first] at told said
  · exact ⟨new, told, failed _ _ said⟩
  · obtain ⟨new', told', said'⟩ := hk a t _ told
    exact ⟨new.append new', by rw [told', Explanation.append_assoc], join _ _ _ _ said said'⟩

private theorem saysNothing_bind {act : Check α} {k : α → Check β} (h : SaysNothing act)
    (hk : ∀ a, SaysNothing (k a)) : SaysNothing (act >>= k) :=
  says_bind h hk (fun _ _ nothing => nothing) fun _ _ _ _ first second => by rw [first, second]; rfl

private theorem says_pure (a : α) : Says (fun r messages => r = .ok a ∧ messages = []) (pure a) :=
  fun _ _ hs => ⟨.empty, by rw [exec_pure, hs, Explanation.append_empty], rfl, rfl⟩

private theorem says_refuse (wording : Wording) (values : List (String × String)) :
    Says (fun r messages => r = .ok false ∧ messages = [wording.format values])
      (refuse wording fun _ => values) := by
  intro s e hs
  refine ⟨.ofMessage (wording.format values), ?_, rfl, rfl⟩
  rw [← Explanation.addMessage_eq]
  obtain ⟨_, _, _, _, _, notes, _⟩ := s
  cases hs
  rfl

private theorem says_solvingFor {R : Except InferenceError α → List String → Prop} {act : Check α}
    (σ : Option Solution) (h : Says R act) : Says R (solvingFor σ act) := fun s e hs =>
  h { s with solving := σ } e hs

private theorem says_whilePending {R : Except InferenceError Bool → List String → Prop}
    {act : Check Bool}
    (choice : StackChoice) (c : Comparison) (h : Says R act) :
    Says R (whilePending choice c act) := by
  intro s e hs
  have told := h (setPendingOn choice { s with history := [] } (c.pair :: pendingOn choice s)) e
    (by cases choice <;> exact hs)
  cases choice <;> exact told

end

/-! ## Telling what is missing -/

/-- Of the names, all are told in order, or the first of them if there is no answer; the answer is yes
only if there are none and what came before was met. -/
def Told (met : Bool) (names : List String) (r : Except InferenceError Bool)
    (messages : List String) : Prop :=
  ∃ told, messages.filter tellsMissing = told.map notPresent ∧ told <+: names ∧
    ∀ yes, r = .ok yes → told = names ∧ (yes = true → met = true ∧ names = [])

private theorem told_nil {met : Bool} {r : Except InferenceError Bool}
    (h : r = .ok true → met = true) :
    Told met [] r [] :=
  ⟨[], rfl, List.prefix_rfl, fun yes answer => ⟨rfl, fun isYes => ⟨h (by rw [answer, isYes]), rfl⟩⟩⟩

theorem Told.append {met first : Bool} {names names' messages messages' : List String}
    {r : Except InferenceError Bool} (h : Told met names (.ok first) messages)
    (h' : Told first names' r messages') : Told met (names ++ names') r (messages ++ messages') := by
  obtain ⟨told, said, -, all⟩ := h
  obtain ⟨told', said', beginning, all'⟩ := h'
  obtain ⟨rfl, met⟩ := all first rfl
  refine ⟨told ++ told', by rw [List.filter_append, said, said', List.map_append],
    (List.prefix_append_right_inj told).2 beginning, fun yes answer => ?_⟩
  obtain ⟨rfl, rest⟩ := all' yes answer
  refine ⟨rfl, fun isYes => ?_⟩
  obtain ⟨isFirst, rfl⟩ := rest isYes
  obtain ⟨isMet, rfl⟩ := met isFirst
  exact ⟨isMet, rfl⟩

theorem Told.failed {met : Bool} {names messages : List String} {e : InferenceError}
    (h : Told met names (.error e) messages) (names' : List String) :
    Told met (names ++ names') (.error e) messages := by
  obtain ⟨told, said, beginning, -⟩ := h
  exact ⟨told, said, beginning.trans (List.prefix_append _ _), fun yes answer => nomatch answer⟩

private theorem says_told_bind {met : Bool} {names names' : List String} {act : Check Bool}
    {k : Bool → Check Bool} (h : Says (Told met names) act)
    (hk : ∀ first, Says (Told first names') (k first)) :
    Says (Told met (names ++ names')) (act >>= k) :=
  says_bind h hk (fun _ _ failed => failed.failed names') fun _ _ _ _ said said' => said.append said'

private theorem says_told_and {names : List String} {act : Check Bool}
    (h : Says (Told true names) act)
    (met : Bool) : Says (Told met names) (act >>= fun other => pure (met && other)) := by
  refine says_bind h (fun other => says_pure (met && other)) ?_ ?_
  · rintro e messages ⟨told, said, beginning, -⟩
    exact ⟨told, said, beginning, fun yes answer => nomatch answer⟩
  · rintro other messages _ _ ⟨told, said, beginning, all⟩ ⟨rfl, rfl⟩
    refine ⟨told, by rw [List.append_nil, said], beginning, ?_⟩
    rintro _ ⟨⟩
    obtain ⟨whole, rest⟩ := all other rfl
    refine ⟨whole, fun both => ?_⟩
    rw [Bool.and_eq_true] at both
    exact ⟨both.1, (rest both.2).2⟩

section

variable (w : World) (j : Judge)

private theorem saysNothing_matchType (m : Match) (r : Requirement) (found : FoundMember)
    (fromMetaclass : Bool) : SaysNothing (m.matchType w j r found fromMetaclass) := by
  unfold Match.matchType
  split
  · exact saysNothing_of_quiet fun _ => rfl
  · refine saysNothing_bind (saysNothing_of_quiet (quiet_sequential.holds_seenFrom _ _ _)) fun _ => ?_
    refine saysNothing_bind (saysNothing_of_quiet (quiet_sequential.holds_foundType _ _)) fun _ => ?_
    refine saysNothing_bind (saysNothing_of_quiet
      (quiet_sequential.holds_comparedTypes (quiet_receives j) _ _ _ _ _)) fun _ => ?_
    exact saysNothing_child _

private theorem says_agreeOnClassVar (r : Requirement) (found : FoundMember) :
    Says (Told true []) (Match.agreeOnClassVar r found) := by
  unfold Match.agreeOnClassVar
  split
  · intro s e hs
    obtain ⟨new, told, answer, said⟩ := says_refuse .memberNotClassVar [("name", r.name)] s e hs
    refine ⟨new, told, [], ?_, List.prefix_rfl, fun yes _ => ⟨rfl, fun _ => ⟨rfl, rfl⟩⟩⟩
    rw [said, List.filter_singleton, tellsMissing_notClassVar]
    rfl
  · exact says_of_nothing (saysNothing_of_quiet fun _ => rfl) fun _ => told_nil fun _ => rfl

private theorem says_matchMember (m : Match) (r : Requirement) :
    Says (Told true ([r.name].filter fun name => !m.mayHave w name)) (m.matchMember w j r) := by
  intro s e hs
  obtain ⟨found, inf, run, has⟩ := m.exec_find w r.name s
  rw [Match.matchMember, exec_bind_of_ok run, List.filter_singleton, ← has]
  cases found with
  | none =>
    obtain ⟨new, told, answer, said⟩ :=
      says_refuse .memberMissing [("name", r.name)] { s with inference := inf } e hs
    refine ⟨new, told, [r.name], ?_, List.prefix_rfl, ?_⟩
    · rw [said, format_memberMissing, List.filter_singleton, tellsMissing_iff.2 ⟨_, rfl⟩]
      rfl
    · rw [answer]
      rintro _ ⟨⟩
      exact ⟨rfl, Bool.noConfusion⟩
  | some found =>
    have type : Says (Told true []) (m.matchType w j r found.1 found.2) :=
      says_of_nothing (saysNothing_matchType w j m r found.1 found.2) fun _ => told_nil fun _ => rfl
    exact says_told_bind type (fun fits => says_told_and (says_agreeOnClassVar r found.1) fits)
      { s with inference := inf } e hs

private theorem says_allOf (m : Match) (rs : List Requirement) :
    Says (Told true ((rs.map (·.name)).filter fun name => !m.mayHave w name))
      (allOf (m.matchMember w j) rs) := by
  induction rs with
  | nil => exact says_of_nothing (saysNothing_of_quiet fun _ => rfl) fun _ => told_nil fun _ => rfl
  | cons r rs ih =>
    rw [List.map_cons, ← List.singleton_append, List.filter_append]
    exact says_told_bind (says_matchMember w j m r) fun met => says_told_and ih met

private theorem saysNothing_allOf {α : Type} {f : α → Check Bool} (h : ∀ a, SaysNothing (f a))
    (as : List α) : SaysNothing (allOf f as) := by
  induction as with
  | nil => exact saysNothing_of_quiet fun _ => rfl
  | cons a as ih =>
    refine saysNothing_bind (h a) fun first => saysNothing_bind ih fun others => ?_
    exact saysNothing_of_quiet fun _ => rfl

private theorem saysNothing_assignArguments (mode : Mode) (dest source : ClassTy) :
    SaysNothing (assignArguments w j mode dest source) := by
  unfold assignArguments
  split
  · exact saysNothing_of_quiet fun _ => rfl
  · exact saysNothing_allOf (fun p => saysNothing_child _) _

private theorem says_meetAll {mode : Mode} {protocol : ClassTy} {rs : List Requirement}
    {names : List String}
    {meets : Requirement → Check Bool} (h : Says (Told true names) (allOf meets rs)) :
    Says (Told true names) (meetAll w j mode protocol rs meets) := by
  have solved : Says (fun r messages => Told true names (r.map Prod.fst) messages)
      (solvingFor (some (Solution.forScope (w.classes.decl protocol.id).scope)) do
        let met ← allOf meets rs
        let σ ← solution
        pure (met, σ.getD .empty)) := by
    refine says_solvingFor _ (says_bind h
      (K := fun met r messages => r.map Prod.fst = .ok met ∧ messages = []) (fun met => ?_)
      (fun _ _ failed => failed) ?_)
    · exact fun s e hs => ⟨.empty, by rw [Explanation.append_empty]; exact hs, rfl, rfl⟩
    · rintro met messages r _ told ⟨answer, rfl⟩
      rwa [answer, List.append_nil]
  rw [← List.append_nil names]
  refine says_bind solved (K := fun result => Told result.1 []) (fun (met, solution) => ?_)
    (fun _ _ failed => failed.failed []) fun _ _ _ _ said said' => said.append said'
  dsimp only
  split
  · rename_i met'
    simp only [Bool.and_eq_true] at met'
    refine says_of_nothing ?_ fun _ => told_nil fun _ => met'.1.1
    refine saysNothing_bind (saysNothing_of_quiet (quiet_sequential.holds_lift
      (opens_substituteClass _ _ _))) fun found => ?_
    exact saysNothing_assignArguments w j mode protocol found
  · intro s e hs
    obtain ⟨new, told, answer, nothing⟩ := says_pure met s e hs
    refine ⟨new, told, ?_⟩
    rw [answer, nothing]
    exact told_nil fun isMet => Except.ok.inj isMet

/-- The names that a protocol asks for and the candidate, or what stands for it, does not have. -/
def missingNames (asObject : Bool) (protocol candidate : ClassTy) : List String :=
  (Requirement.names w.classes asObject protocol).filter fun name =>
    !(Match.of w protocol candidate asObject).mayHave w name

private theorem says_matchMembers {mode : Mode} (hm : mode.invariant = false) (asObject : Bool)
    (protocol candidate : ClassTy) :
    Says (Told true (missingNames w asObject protocol candidate))
      (matchMembers w j mode asObject protocol candidate) := by
  unfold matchMembers
  rw [if_neg (by simp [hm]), missingNames, ← Requirement.names_all]
  exact says_meetAll w j (says_allOf w j _ _)

private theorem missingNames_toClassObject (asObject : Bool) (protocol candidate : ClassTy) :
    missingNames w asObject protocol.toClassObject candidate.toClassObject =
      missingNames w asObject protocol candidate := by
  rw [missingNames, missingNames, Requirement.names_toClassObject]
  refine List.filter_congr fun name _ => congrArg Bool.not ?_
  rw [Match.mayHave, Match.mayHave, Match.of, Match.of]
  cases h : w.classes.isTypedDict candidate && !w.typedDict.isInstance
  · rw [show (w.classes.isTypedDict candidate.toClassObject && !w.typedDict.isInstance) = false from h]
    rfl
  · rw [show (w.classes.isTypedDict candidate.toClassObject && !w.typedDict.isInstance) = true from h]
    rfl

private theorem says_matchClass {mode : Mode} (hm : mode.invariant = false) (choice : StackChoice)
    (asObject : Bool) (protocol candidate : ClassTy) {s : CheckState} {sink : Explanation}
    (hs : s.notes = some sink)
    (idle : isPending s.inference (pendingOn choice s)
      ⟨candidate.toClassObject, protocol.toClassObject⟩ = false) :
    ∃ new, (exec (matchClass w j choice mode asObject protocol candidate) s).2.notes =
        some (sink.append new) ∧
      Told true (missingNames w asObject protocol candidate)
        (exec (matchClass w j choice mode asObject protocol candidate) s).1 new.messages := by
  rw [matchClass, exec_bind_of_ok (exec_get s), if_neg (by rw [idle]; exact Bool.noConfusion),
    ← missingNames_toClassObject]
  exact says_whilePending choice _ (says_matchMembers w j hm asObject _ _) s sink hs

end

/-- A comparison that is not in progress already tells of each missing member once, in the order in
which the members are asked for, and its answer is no if there is one. There is no answer only if a
finder of a return type that was called failed; those told are then the first. -/
theorem missing_members_told (w : World) (choice : StackChoice) {depth : Int}
    (deep : depth < Ty.levels) {mode : Mode} (hm : mode.invariant = false) (asObject : Bool)
    (protocol candidate : ClassTy) {s : CheckState} {sink : Explanation} (hs : s.notes = some sink)
    (idle : isPending s.inference (pendingOn choice s)
      ⟨candidate.toClassObject, protocol.toClassObject⟩ = false) :
    let run := exec (conformsFrom w choice depth mode asObject protocol candidate) s
    ∃ new told, run.2.notes = some (sink.append new) ∧
      new.messages.filter tellsMissing = told.map notPresent ∧
      told <+: missingNames w asObject protocol candidate ∧
      (∀ yes, run.1 = .ok yes →
        told = missingNames w asObject protocol candidate ∧ (told ≠ [] → yes = false)) ∧
      ∀ e, run.1 = .error e → s.inference.calls.length < run.2.inference.calls.length := by
  intro run
  have started : run =
      exec (matchClass w (judgeAt w (depth + 1)) choice mode asObject protocol candidate) s := by
    rw [← (conformsFrom_eq w choice depth mode asObject protocol candidate).trans
      (if_neg (Int.not_le.2 deep))]
  have learns : Learns (matchClass w (judgeAt w (depth + 1)) choice mode asObject protocol candidate) :=
    .matchClass (Learns.judge w _).1 choice mode asObject protocol candidate
  rw [started]
  obtain ⟨new, added, told, said, beginning, all⟩ :=
    says_matchClass w (judgeAt w (depth + 1)) hm choice asObject protocol candidate hs idle
  refine ⟨new, told, added, said, beginning, fun yes answer => ?_, fun e failed => learns.failing failed⟩
  obtain ⟨whole, met⟩ := all yes answer
  refine ⟨whole, fun some => ?_⟩
  cases yes with
  | false => rfl
  | true => exact absurd (whole.trans (met rfl).2) some

/-- Two members are missing before and behind one that does not fit. -/
theorem missing_members_told_around_another :
    let w := Sample.ofDecls [Sample.object,
      Sample.protocolOf "P" [Sample.method "a" none [] .noneObject,
        Sample.final "b" (Sample.instanceOf 0), Sample.method "c" none [] .noneObject],
      Sample.classOf "C" [Sample.final "b" .noneObject]]
    let run := exec (conformsFrom w .own 0 .default false (.ofId 1) (.ofId 2))
      ⟨.start, #[], [], [], none, some .empty, []⟩
    run.1 = .ok false ∧ ∃ new, run.2.notes = some new ∧
      new.messages.filter tellsMissing = ["\"a\" is not present", "\"c\" is not present"] := by
  intro w run
  have no : run.1 = .ok false := by decide +kernel
  have missing : missingNames w false (.ofId 1) (.ofId 2) = ["a", "c"] := by decide +kernel
  obtain ⟨new, told, added, said, -, all, -⟩ := missing_members_told w .own (by decide : (0 : Int) < Ty.levels)
    (rfl : Mode.default.invariant = false) false (.ofId 1) (.ofId 2)
    (rfl : CheckState.notes ⟨.start, #[], [], [], none, some .empty, []⟩ = some .empty) rfl
  refine ⟨no, new, by rw [added, Explanation.empty_append], ?_⟩
  rw [said, (all false no).1, missing]
  rfl

/-- A finder that fails keeps the comparison from telling of the member behind it, and a placeholder
that is an instance is not looked at in place of a typed dictionary. -/
theorem missing_members_untold :
    (let w := Sample.ofDecls [Sample.object,
      Sample.protocolOf "P" [Sample.method "a" none [] .noneObject,
        Sample.method "b" none [] .noneObject],
      Sample.classOf "C" [("a", .ofDeclarations .classBody
        [.function (some (.function (Sample.function none [] (.deferred 0 (.raises "boom")))))])]]
    let run := exec (conformsFrom w .own 0 .default false (.ofId 1) (.ofId 2))
      ⟨⟨#[false], []⟩, #[], [], [], none, some .empty, []⟩
    missingNames w false (.ofId 1) (.ofId 2) = ["b"] ∧ run.1 = .error ⟨"boom"⟩ ∧
      run.2.notes.map (·.messages) = some []) ∧
    (let members := [Sample.final "m" .noneObject]
    let w := { Sample.ofDecls [Sample.object, Sample.protocolOf "P" members,
      { Sample.classOf "T" members with flags := { ClassFlags.none with typedDict := true } },
      Sample.classOf "D" []] with typedDict := (ClassTy.ofId 3).toInstance }
    let run := exec (conformsFrom w .own 0 .default false (.ofId 1) (.ofId 2))
      ⟨.start, #[], [], [], none, some .empty, []⟩
    (Requirement.names w.classes false (.ofId 1)).filter
        (fun name => !w.classes.mayHave w.typedDict name) = ["m"] ∧
      run.1 = .ok true ∧ run.2.notes.map (·.messages) = some []) := by
  decide +kernel

end Conformance
