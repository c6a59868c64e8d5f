import Conformance.Proofs.Separators
import Conformance.Text.Template
import Mathlib.Data.List.Infix

/-!
# The places of a template

A text is read from left to right: a place reaches from an opening brace to the next closing brace, and
the reading goes on behind it. That takes a text apart in one way only, whatever braces there are in
it. Filling a template puts a value at each place whose name is given one, and what the values say is
not read.
-/

namespace Conformance

namespace Template

/-- A place as it stands in a text. -/
def braced (name : List Char) : List Char := openBrace :: name ++ [closeBrace]

/-- A text taken apart: its places, each with what stands between it and the one before, and what
stands behind the last. -/
structure Layout where
  places : List (List Char × List Char)
  tail : List Char

/-- What comes to stand at a place: the first of the values that are given under its name, or the place
as it was if there is none. -/
inductive Stands (values : List (String × String)) (name : List Char) : List Char → Prop
  | value {before after : List (String × String)} {value : String}
      (given : values = before ++ (String.ofList name, value) :: after)
      (first : ∀ entry ∈ before, entry.1 ≠ String.ofList name) : Stands values name value.toList
  | place (unknown : ∀ entry ∈ values, entry.1 ≠ String.ofList name) :
      Stands values name (braced name)

namespace Layout

variable {cs name : List Char} {l l' : Layout} {value : List Char → List Char}
  {places : List (List Char × List Char)} {tail : List Char}

def names (l : Layout) : List (List Char) := l.places.map Prod.snd

/-- The text with something put at each place, by its name. -/
def put (value : List Char → List Char) (l : Layout) : List Char :=
  l.places.flatMap (fun place => place.1 ++ value place.2) ++ l.tail

/-- The layout that reading from left to right finds: a place opens at the first brace that can open
one, and ends at the next that closes, and behind the last there is no brace that opens and is closed. -/
structure Of (cs : List Char) (l : Layout) : Prop where
  whole : l.put braced = cs
  opens : ∀ place ∈ l.places, openBrace ∉ place.1
  closes : ∀ place ∈ l.places, closeBrace ∉ place.2
  ends : ∀ before after, l.tail = before ++ openBrace :: after → closeBrace ∉ after

/-- The text is what the layout comes to if each place is taken by what stands there. -/
def Filled (values : List (String × String)) (l : Layout) (cs : List Char) : Prop :=
  ∃ value, (∀ name ∈ l.names, Stands values name (value name)) ∧ cs = l.put value

/-! ## Putting layouts together -/

private theorem put_cons (before name : List Char) (value : List Char → List Char) :
    put value ⟨(before, name) :: places, tail⟩ = before ++ (value name ++ put value ⟨places, tail⟩) := by
  simp [put]

private theorem put_congr {value' : List Char → List Char}
    (h : ∀ name ∈ l.names, value name = value' name) : l.put value = l.put value' := by
  refine congrArg (· ++ l.tail) (List.flatMap_congr fun place here => ?_)
  rw [h place.2 (List.mem_map_of_mem here)]

/-- The layout with more text in front. -/
def prepend (cs : List Char) : Layout → Layout
  | ⟨[], tail⟩ => ⟨[], cs ++ tail⟩
  | ⟨(before, name) :: places, tail⟩ => ⟨(cs ++ before, name) :: places, tail⟩

private theorem put_prepend (cs : List Char) (value : List Char → List Char) (l : Layout) :
    (l.prepend cs).put value = cs ++ l.put value := by
  obtain ⟨_ | ⟨place, places⟩, tail⟩ := l <;> simp [prepend, put]

private theorem names_prepend (cs : List Char) (l : Layout) : (l.prepend cs).names = l.names := by
  obtain ⟨_ | ⟨place, places⟩, tail⟩ := l <;> rfl

/-- The layout in which the places of other names are text. -/
def only (known : List Char → Bool) : List (List Char × List Char) → List Char → Layout
  | [], tail => ⟨[], tail⟩
  | (before, name) :: places, tail =>
    let rest := only known places tail
    if known name then ⟨(before, name) :: rest.places, rest.tail⟩
    else rest.prepend (before ++ braced name)

private theorem names_only (known : List Char → Bool) (places : List (List Char × List Char))
    (tail : List Char) : (only known places tail).names = (places.map Prod.snd).filter known := by
  induction places with
  | nil => rfl
  | cons place places ih =>
    rw [only, List.map_cons, List.filter_cons]
    split
    · rw [← ih]
      rfl
    · rw [names_prepend, ih]

private theorem put_only {known : List Char → Bool}
    (h : ∀ name, known name = false → value name = braced name)
    (places : List (List Char × List Char)) (tail : List Char) :
    (only known places tail).put value = put value ⟨places, tail⟩ := by
  induction places with
  | nil => rfl
  | cons place places ih =>
    obtain ⟨before, name⟩ := place
    rw [only, put_cons]
    split
    · rw [put_cons, ih]
    · rename_i unknown
      rw [put_prepend, ih, h name (Bool.eq_false_iff.2 unknown), List.append_assoc]

/-! ## Reading a text -/

/-- No place opens at another character. -/
theorem Of.prepend (h : l.Of cs) {c : Char} (other : c ≠ openBrace) : (l.prepend [c]).Of (c :: cs) := by
  obtain ⟨_ | ⟨⟨before, name⟩, places⟩, tail⟩ := l
  · refine ⟨by rw [put_prepend, h.whole]; rfl, nofun, nofun, fun before after split => ?_⟩
    cases before with
    | nil => exact absurd (List.cons.inj split).1 other
    | cons d before => exact h.ends before after (List.cons.inj split).2
  · refine ⟨by rw [put_prepend, h.whole]; rfl, List.forall_mem_cons.2 ⟨?_, ?_⟩, ?_, h.ends⟩
    · exact List.not_mem_cons_of_ne_of_not_mem other.symm (h.opens (before, name) List.mem_cons_self)
    · exact fun place here => h.opens place (List.mem_cons_of_mem _ here)
    · exact List.forall_mem_cons.2 ⟨h.closes (before, name) List.mem_cons_self,
        fun place here => h.closes place (List.mem_cons_of_mem _ here)⟩

theorem Of.place (h : l.Of cs) (closes : closeBrace ∉ name) :
    Of (braced name ++ cs) ⟨([], name) :: l.places, l.tail⟩ :=
  ⟨by rw [put_cons, h.whole]; rfl, List.forall_mem_cons.2 ⟨List.not_mem_nil, h.opens⟩,
    List.forall_mem_cons.2 ⟨closes, h.closes⟩, h.ends⟩

private theorem Of.unclosed (h : closeBrace ∉ cs) : Of cs ⟨[], cs⟩ := by
  refine ⟨rfl, nofun, nofun, fun before after (split : cs = _) closed => h ?_⟩
  rw [split]
  exact List.mem_append_right _ (List.mem_cons_of_mem _ closed)

theorem Of.rest {before : List Char} (h : Of cs ⟨(before, name) :: places, tail⟩) :
    Of (put braced ⟨places, tail⟩) ⟨places, tail⟩ :=
  ⟨rfl, fun place here => h.opens place (List.mem_cons_of_mem _ here),
    fun place here => h.closes place (List.mem_cons_of_mem _ here), h.ends⟩

private theorem Of.places_ne_nil {before : List Char} (h : Of cs ⟨(before, name) :: places, tail⟩)
    (h' : l.Of cs) : l.places ≠ [] := by
  intro none
  have whole := h'.whole.trans h.whole.symm
  rw [put, none, List.flatMap_nil, List.nil_append, put_cons] at whole
  refine h'.ends before _ whole ?_
  exact List.mem_append_left _ (List.mem_append_right _ (List.mem_singleton_self _))

/-- A text is read in one way only. -/
theorem Of.unique (h : l.Of cs) (h' : l'.Of cs) : l' = l := by
  obtain ⟨places, tail⟩ := l
  obtain ⟨places', tail'⟩ := l'
  -- Along the places: where both layouts have one, its two braces stand at the same characters.
  induction places generalizing cs places' with
  | nil =>
    cases places' with
    | nil => exact congrArg (Layout.mk []) (h'.whole.trans h.whole.symm)
    | cons place' places' => exact absurd rfl (h'.places_ne_nil h)
  | cons place places ih =>
    cases places' with
    | nil => exact absurd rfl (h.places_ne_nil h')
    | cons place' places' =>
      obtain ⟨before, name⟩ := place
      obtain ⟨before', name'⟩ := place'
      have whole := h'.whole.trans h.whole.symm
      simp only [put_cons, braced, List.cons_append, List.append_assoc, List.nil_append] at whole
      obtain ⟨sameBefore, inner⟩ := append_cons_inj_of_first (h'.opens _ List.mem_cons_self)
        (h.opens _ List.mem_cons_self) whole
      obtain ⟨sameName, outer⟩ := append_cons_inj_of_first (h'.closes _ List.mem_cons_self)
        (h.closes _ List.mem_cons_self) inner
      obtain ⟨samePlaces, sameTail⟩ := Layout.mk.inj (ih h.rest places' (outer ▸ h'.rest))
      rw [samePlaces, sameTail]
      exact congrArg (fun place => Layout.mk (place :: places) tail) (Prod.ext sameBefore sameName)

private theorem Of.names_infix (h : l.Of cs) (here : name ∈ l.names) : name <:+: cs := by
  obtain ⟨⟨before, name⟩, mem, rfl⟩ := List.mem_map.1 here
  have inPlace : name <:+: before ++ braced name :=
    ⟨before ++ [openBrace], [closeBrace], by simp [braced]⟩
  have inPlaces : before ++ braced name <:+: l.places.flatMap fun place => place.1 ++ braced place.2 :=
    List.infix_of_mem_flatten (List.mem_map_of_mem mem)
  rw [← h.whole]
  exact (inPlace.trans inPlaces).trans (List.infix_append' [] _ _)

end Layout

/-! ## Filling a template -/

private theorem stands_valueAt (values : List (String × String)) (name : List Char) :
    Stands values name (valueAt values name) := by
  unfold valueAt
  cases found : values.lookup (String.ofList name) with
  | some value =>
    obtain ⟨before, after, given, first⟩ := List.lookup_eq_some_iff.1 found
    exact .value given fun entry here => (bne_iff_ne.1 (first entry here)).symm
  | none =>
    refine .place fun entry here => ?_
    exact (bne_iff_ne.1 (List.lookup_eq_none_iff.1 found entry here)).symm

private theorem valueAt_of_unknown {values : List (String × String)} {name : List Char}
    (h : String.ofList name ∉ values.map Prod.fst) : valueAt values name = braced name := by
  have unknown : values.lookup (String.ofList name) = none :=
    List.lookup_eq_none_iff.2 fun entry here =>
      bne_iff_ne.2 fun same => h (same ▸ List.mem_map_of_mem here)
  rw [valueAt, unknown]
  rfl

private theorem fill_of_unclosed {cs : List Char} (h : splitClose cs = none)
    (values : List (String × String)) :
    fill values (openBrace :: cs) = openBrace :: cs := by
  rw [fill, if_pos rfl, h]

private theorem fill_of_closed {cs name rest : List Char} (h : splitClose cs = some (name, rest))
    (values : List (String × String)) :
    fill values (openBrace :: cs) = valueAt values name ++ fill values rest := by
  rw [fill, if_pos rfl, h]

private theorem fill_of_ne {c : Char} (h : c ≠ openBrace) (values : List (String × String))
    (cs : List Char) :
    fill values (c :: cs) = c :: fill values cs := by
  rw [fill, if_neg h]

private theorem exists_layout (cs : List Char) :
    ∃ l : Layout, l.Of cs ∧ ∀ values, fill values cs = l.put (valueAt values) := by
  -- The rounds of filling are those of reading, whatever the values are.
  induction cs using fill.induct with
  | case1 => exact ⟨⟨[], []⟩, .unclosed List.not_mem_nil, fun values => by rw [fill]; rfl⟩
  | case2 cs unclosed =>
    have never : closeBrace ∉ openBrace :: cs :=
      List.not_mem_cons_of_ne_of_not_mem (by decide) (splitClose_eq_none.1 unclosed)
    exact ⟨⟨[], openBrace :: cs⟩, .unclosed never, fill_of_unclosed unclosed⟩
  | case3 cs name rest closed ih =>
    obtain ⟨l, reads, filled⟩ := ih
    refine ⟨⟨([], name) :: l.places, l.tail⟩, ?_, fun values => ?_⟩
    · obtain ⟨rfl, free⟩ := splitClose_eq_some closed
      simpa [braced] using reads.place free
    · rw [fill_of_closed closed, filled, Layout.put_cons]
      rfl
  | case4 c cs other ih =>
    obtain ⟨l, reads, filled⟩ := ih
    refine ⟨l.prepend [c], reads.prepend other, fun values => ?_⟩
    rw [fill_of_ne other, filled, Layout.put_prepend]
    rfl

/-- Every text is read in one way, and a template filled in is its text with something put at each
place: the first of the values that are given under the name of the place, or the place itself if there
is none. Templates filled in with values of the same names differ in these values alone, as the rest
of the text, other places included, is the same. If none of the names is that of a place, which stands
in the text, nothing changes. -/
theorem format_puts_at_places (t : Template) :
    ∃ l : Layout, l.Of t.text.toList ∧ (∀ l' : Layout, l'.Of t.text.toList → l' = l) ∧
      (∀ values, l.Filled values (t.format values).toList) ∧
      (∀ names : List String, ∃ known : Layout, known.put braced = t.text.toList ∧
        known.names = l.names.filter (String.ofList · ∈ names) ∧
        ∀ values : List (String × String), (∀ name, name ∈ values.map Prod.fst ↔ name ∈ names) →
          known.Filled values (t.format values).toList) ∧
      (∀ values : List (String × String), (∀ entry ∈ values, entry.1.toList ∉ l.names) →
        t.format values = t.text) ∧
      ∀ name ∈ l.names, name <:+: t.text.toList := by
  obtain ⟨l, reads, filled⟩ := exists_layout t.text.toList
  have formatted (values : List (String × String)) :
      (t.format values).toList = l.put (valueAt values) := by
    rw [format, String.toList_ofList, filled]
  refine ⟨l, reads, fun l' h => reads.unique h, fun values => ?_, fun names => ?_,
    fun values others => ?_, fun name here => reads.names_infix here⟩
  · exact ⟨valueAt values, fun name _ => stands_valueAt values name, formatted values⟩
  · refine ⟨.only (String.ofList · ∈ names) l.places l.tail, ?_, Layout.names_only .., ?_⟩
    · exact (Layout.put_only (fun _ _ => rfl) ..).trans reads.whole
    · intro values same
      refine ⟨valueAt values, fun name _ => stands_valueAt values name, (formatted values).trans ?_⟩
      refine (Layout.put_only (fun name unknown => valueAt_of_unknown ?_) ..).symm
      rw [same]
      exact of_decide_eq_false unknown
  · refine String.toList_inj.1 ?_
    rw [formatted, ← reads.whole]
    refine Layout.put_congr fun name here => valueAt_of_unknown fun given => ?_
    obtain ⟨entry, mem, same⟩ := List.mem_map.1 given
    refine others entry mem ?_
    rwa [same, String.toList_ofList]

/-- A place with a brace in its name, and a brace that is not closed. Neither is a place of the name `a`. -/
theorem format_of_braced_name :
    (∀ entry ∈ [("a", "1")], entry.1.toList ∉ [['b', openBrace, 'a']]) ∧
      format ⟨"\x7bb\x7ba\x7d \x7ba"⟩ [("a", "1")] = "\x7bb\x7ba\x7d \x7ba" := by
  obtain ⟨l, -, unique, -, -, unchanged, -⟩ := format_puts_at_places ⟨"\x7bb\x7ba\x7d \x7ba"⟩
  have reads : Layout.Of "\x7bb\x7ba\x7d \x7ba".toList
      ⟨[([], ['b', openBrace, 'a'])], [' ', openBrace, 'a']⟩ := by
    have tail : Layout.Of [openBrace, 'a'] ⟨[], [openBrace, 'a']⟩ := .unclosed (by decide)
    exact (tail.prepend (by decide : ' ' ≠ openBrace)).place
      (by decide : closeBrace ∉ ['b', openBrace, 'a'])
  have others : ∀ entry ∈ [("a", "1")], entry.1.toList ∉ [['b', openBrace, 'a']] := by decide
  refine ⟨others, unchanged [("a", "1")] ?_⟩
  rw [← unique _ reads]
  exact others

/-- What a value says is not read, and the first value of a name counts. -/
example :
    format ⟨"\x7ba\x7d\x7bb\x7d"⟩ [("a", "\x7bb\x7d"), ("b", "x"), ("a", "y")] = "\x7bb\x7dx" := by
  decide +kernel

end Template

end Conformance
