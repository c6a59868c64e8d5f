import Conformance.Report.Log
import Mathlib

/-!
# Carets

The caret of an excerpt is placed when a finding is made, by the width of the bytes before its column,
and the line above it is expanded when the finding is shown. Both follow the same rule for tabs, so the
caret stands below the byte of the column as long as the width of a tab is the same at both moments.
-/

namespace Conformance

namespace Text

/-! ## Expanded bytes -/

/-- Replaces tabs by blanks in a run of bytes, the first of which is at the given column. -/
def expandBytes (tab : Nat) : Nat → List UInt8 → List UInt8
  | _, [] => []
  | column, b :: bs =>
    if b = 9 then
      List.replicate (tab - column % tab) 32 ++ expandBytes tab (column + (tab - column % tab)) bs
    else b :: expandBytes tab (column + 1) bs

/-- The bytes of a text. -/
def bytes (text : String) : List UInt8 := text.toUTF8.toList

private theorem expandBytes_append (tab column : Nat) (xs ys : List UInt8) :
    expandBytes tab column (xs ++ ys) =
      expandBytes tab column xs ++
        expandBytes tab (column + (expandBytes tab column xs).length) ys := by
  induction xs generalizing column with
  | nil => simp [expandBytes]
  | cons x xs ih =>
    rw [List.cons_append, expandBytes, expandBytes]
    split
    · rw [ih, List.append_assoc, List.length_append, List.length_replicate, Nat.add_assoc]
    · rw [ih, List.cons_append, List.length_cons, Nat.add_right_comm, Nat.add_assoc]

private theorem expandBytes_of_no_tab (tab : Nat) {column : Nat} {bs : List UInt8}
    (h : (9 : UInt8) ∉ bs) :
    expandBytes tab column bs = bs := by
  induction bs generalizing column with
  | nil => rfl
  | cons b bs ih =>
    rw [List.mem_cons, not_or] at h
    rw [expandBytes, if_neg (Ne.symm h.1), ih h.2]

private theorem expandBytes_take_prefix (tab column n : Nat) (bs : List UInt8) :
    expandBytes tab column (bs.take n) <+: expandBytes tab column bs := by
  conv_rhs => rw [← List.take_append_drop n bs, expandBytes_append]
  exact List.prefix_append _ _

/-! ## Words -/

private theorem next_tab_stop {tab : Nat} (h : 0 < tab) (column : Nat) :
    (column / tab + 1) * tab = column + (tab - column % tab) := by
  have whole := Nat.div_add_mod' column tab
  have part := Nat.mod_lt column h
  rw [Nat.add_mul, Nat.one_mul]
  omega

private theorem toNat_advance {tab column : UInt64} (h : tab ≠ 0) (b : UInt8)
    (small : column.toNat + (expandBytes tab.toNat column.toNat [b]).length < 2 ^ 64) :
    (advance tab column b).toNat =
      column.toNat + (expandBytes tab.toNat column.toNat [b]).length := by
  have positive : 0 < tab.toNat := Nat.pos_of_ne_zero fun zero => h (UInt64.toNat_inj.1 zero)
  rw [expandBytes] at small ⊢
  rw [advance]
  split
  · rename_i isTab
    have stop := next_tab_stop positive column.toNat
    simp only [isTab, if_true, expandBytes, List.append_nil, List.length_replicate] at small
    have below : column.toNat / tab.toNat + 1 < 2 ^ 64 :=
      Nat.lt_of_le_of_lt (Nat.le_mul_of_pos_right _ positive) (stop ▸ small)
    rw [UInt64.toNat_mul, UInt64.toNat_add, UInt64.toNat_div, UInt64.toNat_one, Nat.mod_eq_of_lt below,
      stop, Nat.mod_eq_of_lt small, expandBytes, List.append_nil, List.length_replicate]
  · rename_i other
    simp only [if_neg other, expandBytes, List.length_cons, List.length_nil, Nat.zero_add] at small
    rw [UInt64.toNat_add, UInt64.toNat_one, Nat.mod_eq_of_lt small]
    rfl

private theorem toNat_foldl_advance {tab : UInt64} (h : tab ≠ 0) {column : UInt64} {bs : List UInt8}
    (small : column.toNat + (expandBytes tab.toNat column.toNat bs).length < 2 ^ 64) :
    (bs.foldl (advance tab) column).toNat =
      column.toNat + (expandBytes tab.toNat column.toNat bs).length := by
  induction bs generalizing column with
  | nil => rfl
  | cons b bs ih =>
    have split := expandBytes_append tab.toNat column.toNat [b] bs
    rw [List.singleton_append] at split
    rw [split, List.length_append, ← Nat.add_assoc] at small ⊢
    have first := toNat_advance h b (Nat.lt_of_le_of_lt (Nat.le_add_right _ _) small)
    rw [← first] at small ⊢
    exact ih small

private theorem toNat_width {tab : UInt64} (h : tab ≠ 0) {bs : List UInt8}
    (small : (expandBytes tab.toNat 0 bs).length < 2 ^ 64) :
    (width tab bs).toNat = (expandBytes tab.toNat 0 bs).length := by
  have wide := @toNat_foldl_advance tab h 0 bs
  rw [UInt64.toNat_zero, Nat.zero_add] at wide
  exact wide small

/-! ## Characters and their bytes -/

private theorem toList_loop_eq (a : ByteArray) (i : Nat) (r : List UInt8) :
    ByteArray.toList.loop a i r = r.reverse ++ a.data.toList.drop i := by
  induction i, r using ByteArray.toList.loop.induct a with
  | case1 i r more ih =>
    have here : i < a.data.toList.length := more
    rw [ByteArray.toList.loop, if_pos more, ih, List.reverse_cons, List.append_assoc,
      List.drop_eq_getElem_cons here]
    simp [ByteArray.get!, more]
  | case2 i r done =>
    have past : a.data.toList.length ≤ i := Nat.le_of_not_lt done
    rw [ByteArray.toList.loop, if_neg done, List.drop_eq_nil_of_le past, List.append_nil]

private theorem toList_eq (a : ByteArray) : a.toList = a.data.toList := by
  rw [ByteArray.toList, toList_loop_eq]
  rfl

private theorem bytes_eq (text : String) :
    bytes text = text.toList.flatMap String.utf8EncodeChar := by
  rw [bytes, toList_eq, String.toUTF8_eq_toByteArray, ← String.utf8Encode_toList, List.utf8Encode,
    List.toList_data_toByteArray]

private theorem tab_not_mem_utf8EncodeChar {c : Char} (h : c ≠ '\t') :
    (9 : UInt8) ∉ String.utf8EncodeChar c := by
  have other : c.toNat ≠ 9 := fun same => h (Char.ext (UInt32.toNat_inj.1 same))
  unfold String.utf8EncodeChar
  simp only
  split
  · rename_i small
    change c.toNat ≤ 127 at small
    simp [← UInt8.toNat_inj]
    omega
  · split
    · simp [← UInt8.toNat_inj]
      omega
    · split <;> simp [← UInt8.toNat_inj] <;> omega

private theorem flatMap_blanks (n : Nat) :
    (List.replicate n ' ').flatMap String.utf8EncodeChar = List.replicate n 32 := by
  induction n with
  | zero => rfl
  | succ n ih =>
    rw [List.replicate_succ, List.flatMap_cons, ih]
    rfl

private theorem flatMap_expandFrom (tab column : Nat) (cs : List Char) :
    (expandFrom tab column cs).flatMap String.utf8EncodeChar =
      expandBytes tab column (cs.flatMap String.utf8EncodeChar) := by
  induction cs generalizing column with
  | nil => rfl
  | cons c cs ih =>
    rw [expandFrom, List.flatMap_cons, expandBytes_append]
    split
    · rename_i isTab
      have tabByte : expandBytes tab column (String.utf8EncodeChar c) =
          List.replicate (tab - column % tab) 32 := by
        rw [isTab]
        exact List.append_nil _
      rw [tabByte, List.flatMap_append, flatMap_blanks, ih, List.length_replicate]
    · rename_i other
      rw [expandBytes_of_no_tab tab (tab_not_mem_utf8EncodeChar other), List.flatMap_cons, ih,
        String.length_utf8EncodeChar]

private theorem bytes_expand (tab : Nat) (line : String) :
    bytes (expand tab line) = expandBytes tab 0 (bytes line) := by
  rw [bytes_eq, bytes_eq, expand, String.toList_ofList, flatMap_expandFrom]

private theorem length_rightJustified {size n : Nat} (h : 0 < size) (small : n < 10 ^ size) :
    (rightJustified size n).length = size := by
  have digits : (toString n).length ≤ size := by
    rw [Nat.toString_eq_repr, Nat.repr, String.length_ofList]
    exact (Nat.length_toDigits_le_iff (by decide) h).2 small
  rw [rightJustified, String.length_append, String.length_ofList, List.length_replicate]
  exact Nat.sub_add_cancel digits

end Text

namespace Report

/-! ## Histories of a report -/

/-- What can be done with a report. -/
inductive Act
  | source (file text : String)
  | tabWidth (width : UInt64)
  | finding (severity : Severity) (place : Location) (message : String) (code : Code)
  | notes (notes : List String)
  | clear

def after (r : Report) : Act → Report
  | .source file text => r.setSource file text
  | .tabWidth width => r.setTabWidth width
  | .finding .error place message code => r.error place message code
  | .finding .warning place message code => r.warning place message code
  | .notes notes => r.addNotes notes
  | .clear => r.clear

/-- The report after all that was done, from the first to the last. -/
def run (acts : List Act) : Report := acts.foldl after empty

namespace Act

/-- The text that a file has for the act, if the act says what it is; nothing is left after clearing. -/
def text? (file : String) : Act → Option (Option String)
  | .source other text => if other = file then some (some text) else none
  | .clear => some none
  | _ => none

def width? : Act → Option UInt64
  | .tabWidth width => some (if width = 0 then 1 else width)
  | _ => none

end Act

def textOf (acts : List Act) (file : String) : Option String :=
  (acts.filterMap (Act.text? file)).getLast?.join

/-- The width that tabs were given last. -/
def tabOf (acts : List Act) : UInt64 := (acts.filterMap Act.width?).getLast?.getD 4

/-- The line of a place in the text that its file was given last. -/
def quoted (acts : List Act) (place : Location) : Option String :=
  if place.isValid then
    (textOf acts place.file).bind fun text => (Text.sourceLines text)[place.line - 1]?
  else none

private theorem run_concat (acts : List Act) (a : Act) : run (acts ++ [a]) = (run acts).after a :=
  List.foldl_concat ..

private theorem tabWidth_after (r : Report) (a : Act) :
    (r.after a).tabWidth = a.width?.getD r.tabWidth := by
  cases a with
  | finding severity => cases severity <;> rfl
  | notes notes =>
    rw [after, addNotes]
    split <;> rfl
  | _ => rfl

private theorem tabWidth_run (acts : List Act) : (run acts).tabWidth = tabOf acts := by
  induction acts using List.reverseRecOn with
  | nil => rfl
  | append_singleton acts a ih =>
    rw [run_concat, tabWidth_after, ih, tabOf, tabOf, List.filterMap_append]
    cases h : a.width? <;> simp [h]

private theorem tabOf_ne_zero (acts : List Act) : tabOf acts ≠ 0 := by
  rw [tabOf]
  cases h : (acts.filterMap Act.width?).getLast? with
  | none => decide
  | some width =>
    obtain ⟨a, -, set⟩ := List.mem_filterMap.1 (List.mem_of_getLast? h)
    cases a with
    | tabWidth given =>
      obtain rfl := Option.some.inj set
      rw [Option.getD_some]
      split
      · decide
      · assumption
    | _ => nomatch set

private theorem lookup_filter_ne {α : Type} {file other : String} (h : other ≠ file)
    (sources : List (String × α)) :
    (sources.filter (·.1 != file)).lookup other = sources.lookup other := by
  induction sources with
  | nil => rfl
  | cons entry sources ih =>
    obtain ⟨name, lines⟩ := entry
    rw [List.filter_cons, List.lookup_cons]
    split
    · rw [List.lookup_cons, ih]
    · rename_i same
      have same : name = file := by simpa using same
      rw [ih, same, beq_false_of_ne h]

private theorem lookup_after (r : Report) (a : Act) (file : String) :
    (r.after a).sources.lookup file =
      match a.text? file with
      | some text => text.map Text.sourceLines
      | none => r.sources.lookup file := by
  cases a with
  | source other text =>
    rw [after, setSource, Act.text?, List.lookup_cons]
    by_cases same : other = file
    · rw [if_pos same, same, beq_self_eq_true]
      rfl
    · rw [if_neg same, beq_false_of_ne (Ne.symm same)]
      exact lookup_filter_ne (Ne.symm same) r.sources
  | finding severity => cases severity <;> rfl
  | notes notes =>
    rw [after, addNotes]
    split <;> rfl
  | _ => rfl

private theorem lookup_run (acts : List Act) (file : String) :
    (run acts).sources.lookup file = (textOf acts file).map Text.sourceLines := by
  induction acts using List.reverseRecOn with
  | nil => rfl
  | append_singleton acts a ih =>
    rw [run_concat, lookup_after, ih, textOf, textOf, List.filterMap_append]
    cases h : a.text? file <;> simp [h]

private theorem lineAt_run (acts : List Act) (place : Location) :
    (run acts).lineAt place = quoted acts place := by
  rw [lineAt, quoted, lookup_run, Option.bind_map]
  rfl

private theorem mem_entries_after {r : Report} {a : Act} {e : Entry} (h : e ∈ (r.after a).entries) :
    (∃ e₀ ∈ r.entries, e = { e₀ with notes := e.notes }) ∨
      ∃ severity place message code, a = .finding severity place message code ∧
        e = r.entryAt severity place message code := by
  cases a with
  | finding severity place message code =>
    have found : e ∈ r.entries ++ [r.entryAt severity place message code] := by
      cases severity <;> exact h
    rcases List.mem_append.1 found with old | new
    · exact .inl ⟨e, old, rfl⟩
    · exact .inr ⟨severity, place, message, code, rfl, List.mem_singleton.1 new⟩
  | notes notes =>
    rw [after, addNotes] at h
    split at h
    · rename_i newest isNewest
      rcases List.mem_append.1 h with old | changed
      · exact .inl ⟨e, (List.dropLast_sublist _).subset old, rfl⟩
      · obtain rfl := List.mem_singleton.1 changed
        exact .inl ⟨newest, List.mem_of_getLast? isNewest, rfl⟩
    · exact .inl ⟨e, h, rfl⟩
  | clear => exact absurd h List.not_mem_nil
  | _ => exact .inl ⟨e, h, rfl⟩

private theorem exists_finding {acts : List Act} {e : Entry} (h : e ∈ (run acts).entries) :
    ∃ before severity place message code after,
      acts = before ++ .finding severity place message code :: after ∧
        e = { (run before).entryAt severity place message code with notes := e.notes } := by
  induction acts using List.reverseRecOn generalizing e with
  | nil => nomatch h
  | append_singleton acts a ih =>
    rw [run_concat] at h
    rcases mem_entries_after h with ⟨e₀, old, same⟩ | ⟨severity, place, message, code, rfl, made⟩
    · obtain ⟨before, severity, place, message, code, after, rfl, made⟩ := ih old
      refine ⟨before, severity, place, message, code, after ++ [a], ?_, ?_⟩
      · rw [List.append_assoc, List.cons_append]
      · rw [same, made]
    · exact ⟨acts, severity, place, message, code, [], rfl, by rw [made]⟩

/-! ## Where the caret stands -/

/-- What the bytes before a column of a line are expanded to. -/
def imageBefore (tab : UInt64) (column : Nat) (line : String) : List UInt8 :=
  Text.expandBytes tab.toNat 0 ((Text.bytes line).take (column - 1))

private theorem imageBefore_prefix (tab : UInt64) (column : Nat) (line : String) :
    imageBefore tab column line <+: Text.bytes (Text.expand tab.toNat line) := by
  rw [Text.bytes_expand]
  exact Text.expandBytes_take_prefix ..

private theorem toNat_underlineAt (acts : List Act) {line : String} {column : Nat}
    (small : (imageBefore (tabOf acts) column line).length < 2 ^ 64) :
    ((run acts).underlineAt line column).toNat = (imageBefore (tabOf acts) column line).length := by
  rw [underlineAt, tabWidth_run]
  exact Text.toNat_width (tabOf_ne_zero acts) small

private theorem entryAt_eq (acts : List Act) (severity : Severity) (place : Location)
    (message : String)
    (code : Code) :
    (run acts).entryAt severity place message code =
      ⟨severity, place, message, code, [], (quoted acts place).getD "",
        ((quoted acts place).map fun line => (run acts).underlineAt line place.column).getD 0⟩ := by
  rw [entryAt, lineAt_run]
  cases quoted acts place <;> rfl

private theorem render_eq (acts : List Act) (e : Entry) :
    (run acts).render e = e.headline ++ e.excerpt (tabOf acts) ++ e.noteLines := by
  rw [render, tabWidth_run]
  rfl

/-- An entry is one of the findings made so far, with the line that its file had at the time. However
the report has been changed since, that line is shown, expanded at the present width of tabs, and the
caret stands as far to the right as the bytes before the column reached at the width of that time. If
the width is the same, these are the beginning of the line shown, and the caret stands below what
follows them, the numbers of lines having six digits at most. -/
theorem caret_below_image {acts : List Act} {e : Entry} (mem : e ∈ (run acts).entries)
    (later : List Act) :
    ∃ before severity place message code after,
      acts = before ++ .finding severity place message code :: after ∧
      e.severity = severity ∧ e.location = place ∧ e.message = message ∧ e.code = code ∧
      ((quoted before place).getD "" = "" →
        (run (acts ++ later)).render e = e.headline ++ e.noteLines) ∧
      ∀ line, quoted before place = some line → line ≠ "" →
        (imageBefore (tabOf before) place.column line).length < 2 ^ 64 →
        (run (acts ++ later)).render e =
          e.headline ++
            (Text.rightJustified 6 place.line ++ " | " ++
              Text.expand (tabOf (acts ++ later)).toNat line ++ "\n" ++
              "       | " ++
              String.ofList
                (List.replicate (imageBefore (tabOf before) place.column line).length ' ') ++ "^\n") ++
            e.noteLines ∧
        (tabOf (acts ++ later) = tabOf before →
          imageBefore (tabOf before) place.column line <+:
            Text.bytes (Text.expand (tabOf (acts ++ later)).toNat line)) ∧
        (place.line < 10 ^ 6 →
          (Text.rightJustified 6 place.line ++ " | ").length = "       | ".length) := by
  obtain ⟨before, severity, place, message, code, after, rfl, made⟩ := exists_finding mem
  rw [entryAt_eq] at made
  refine ⟨before, severity, place, message, code, after, rfl, by rw [made], by rw [made],
    by rw [made], by rw [made], fun unknown => ?_, fun line known some small => ⟨?_, ?_, ?_⟩⟩
  · have hidden : e.sourceLine = "" := by rw [made]; exact unknown
    rw [render_eq, Entry.excerpt, if_pos (by rw [hidden]; rfl), String.append_empty]
  · have shown : e.sourceLine = line := by rw [made, known]; rfl
    have caret : e.underline.toNat = (imageBefore (tabOf before) place.column line).length := by
      rw [made, known]
      exact toNat_underlineAt before small
    have there : e.location = place := by rw [made]
    have nonempty : line.isEmpty = false := Bool.eq_false_iff.2 fun h => some (String.isEmpty_iff.1 h)
    rw [render_eq, Entry.excerpt, shown, nonempty, caret, there]
    rfl
  · intro same
    rw [same]
    exact imageBefore_prefix ..
  · intro few
    rw [String.length_append, Text.length_rightJustified (by decide) few]
    rfl

/-- A finding behind a tab, shown at twice the width of a tab at which it was made: the line begins with
eight blanks, the caret stands behind four. -/
theorem caret_behind_tab :
    ∃ e ∈ (run [.source "a" "\tx", .finding .error ⟨1, 2, "a"⟩ "m" .none]).entries,
      (run ([.source "a" "\tx", .finding .error ⟨1, 2, "a"⟩ "m" .none] ++ [.tabWidth 8])).render e =
        e.headline ++ "     1 |         x\n       |     ^\n" ++ e.noteLines := by
  obtain ⟨e, mem⟩ : ∃ e, e ∈
      (run [.source "a" "\tx", .finding .error ⟨1, 2, "a"⟩ "m" .none]).entries :=
    ⟨_, List.mem_singleton_self _⟩
  obtain ⟨before, _, _, _, _, _, split, -, -, -, -, -, shown⟩ := caret_below_image mem [.tabWidth 8]
  have made : before = [.source "a" "\tx"] := by
    match before with
    | [] => nomatch split
    | [_] => simpa using (List.cons.inj split).1.symm
    | _ :: _ :: _ => simp at split
  subst made
  simp only [List.singleton_append, List.cons.injEq, Act.finding.injEq] at split
  obtain ⟨-, ⟨-, rfl, -⟩, -⟩ := split
  have image : imageBefore (tabOf [.source "a" "\tx"]) 2 "\tx" = [32, 32, 32, 32] := by
    rw [imageBefore, Text.bytes_eq]
    rfl
  obtain ⟨text, -⟩ := shown "\tx" rfl (by decide) (by rw [image]; decide)
  refine ⟨e, mem, text.trans ?_⟩
  rw [image]
  rfl

end Report

end Conformance
