/-!
# Message templates

A template is a text in which a name between braces marks the place of a value. Filling is one pass
from left to right: a value that is put in is never scanned again, and whatever is not the place of
a given value stays as it stands.
-/

namespace Conformance

/-- A text with named places for values. -/
structure Template where
  text : String
deriving DecidableEq, Repr

namespace Template

/-- The template of a text, which ends before the first zero character. -/
def ofText (text : String) : Template :=
  ⟨String.ofList (text.toList.takeWhile (· ≠ '\x00'))⟩

def openBrace : Char := '\x7b'

def closeBrace : Char := '\x7d'

/-- The text of the place called `name`. -/
def hole (name : String) : String := "\x7b" ++ name ++ "\x7d"

/-- The part before the first closing brace and the part after it. -/
def splitClose : List Char → Option (List Char × List Char)
  | [] => none
  | c :: cs =>
    if c = closeBrace then some ([], cs)
    else (splitClose cs).map fun p => (c :: p.1, p.2)

/-- The two parts and the brace between them are the whole text, and the first part is free of
closing braces. -/
theorem splitClose_eq_some {cs name rest : List Char} (h : splitClose cs = some (name, rest)) :
    cs = name ++ closeBrace :: rest ∧ closeBrace ∉ name := by
  induction cs generalizing name with
  | nil => simp [splitClose] at h
  | cons c cs ih =>
    rw [splitClose] at h
    split at h
    · simp only [Option.some.injEq, Prod.mk.injEq] at h
      obtain ⟨rfl, rfl⟩ := h
      simp_all
    · obtain ⟨p, hp, he⟩ := Option.map_eq_some_iff.1 h
      obtain ⟨n, r⟩ := p
      simp only [Prod.mk.injEq] at he
      obtain ⟨rfl, rfl⟩ := he
      obtain ⟨rfl, hn⟩ := ih hp
      rename_i hc
      simp [hn, Ne.symm hc]

theorem splitClose_eq_none {cs : List Char} : splitClose cs = none ↔ closeBrace ∉ cs := by
  induction cs with
  | nil => simp [splitClose]
  | cons c cs ih =>
    rw [splitClose]
    split
    · simp_all
    · rename_i hc
      simp [ih, Ne.symm hc]

theorem length_lt_of_splitClose {cs name rest : List Char}
    (h : splitClose cs = some (name, rest)) : rest.length < cs.length := by
  rw [(splitClose_eq_some h).1]
  simp
  omega

/-- What stands at the place called `name`: the first value given under that name, else the place
itself. -/
def valueAt (values : List (String × String)) (name : List Char) : List Char :=
  match values.lookup (String.ofList name) with
  | some value => value.toList
  | none => openBrace :: name ++ [closeBrace]

/-- One pass over the characters of a template. An opening brace that is never closed leaves the
rest as it is. -/
def fill (values : List (String × String)) : List Char → List Char
  | [] => []
  | c :: cs =>
    if c = openBrace then
      match _h : splitClose cs with
      | none => c :: cs
      | some (name, rest) => valueAt values name ++ fill values rest
    else c :: fill values cs
termination_by cs => cs.length
decreasing_by
  · have := length_lt_of_splitClose ‹splitClose cs = some (name, rest)›
    simp
    omega
  · simp

/-- The text with each known place replaced by its value. -/
def format (t : Template) (values : List (String × String)) : String :=
  String.ofList (fill values t.text.toList)

end Template

end Conformance
