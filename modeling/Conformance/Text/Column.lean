/-!
# Columns of a line

Columns are counted in bytes, and a tab reaches to the next multiple of the tab width. The width of
a run of bytes and the expansion of a text by blanks follow the same rule. A width is a 64-bit word
and starts over from zero past the largest one; as long as no word is exceeded, the expansion of a
line is as wide as its bytes.
-/

namespace Conformance.Text

/-- The column after one more byte, as a word. -/
def advance (tab column : UInt64) (byte : UInt8) : UInt64 :=
  if byte = 9 then (column / tab + 1) * tab else column + 1

/-- The width of a run of bytes that starts at the first column. -/
def width (tab : UInt64) (bytes : List UInt8) : UInt64 :=
  bytes.foldl (advance tab) 0

/-- Replaces tabs by blanks, the first character being at the given column. -/
def expandFrom (tab : Nat) : Nat → List Char → List Char
  | _, [] => []
  | column, c :: cs =>
    if c = '\t' then
      List.replicate (tab - column % tab) ' ' ++ expandFrom tab (column + (tab - column % tab)) cs
    else c :: expandFrom tab (column + c.utf8Size) cs

/-- The line with its tabs replaced by blanks. -/
def expand (tab : Nat) (line : String) : String :=
  String.ofList (expandFrom tab 0 line.toList)

/-- The pieces between line feeds; there is always at least one. -/
def splitLines : List Char → List (List Char)
  | [] => [[]]
  | c :: cs =>
    if c = '\n' then [] :: splitLines cs
    else match splitLines cs with
      | [] => [[c]]
      | line :: lines => (c :: line) :: lines

def trimReturns (line : List Char) : List Char :=
  (line.reverse.dropWhile (· = '\r')).reverse

/-- The lines of a source text: cut at each line feed, without the carriage returns at their end. -/
def sourceLines (text : String) : List String :=
  (splitLines text.toList).map fun line => String.ofList (trimReturns line)

/-- The decimal digits of a number, filled up with blanks on the left. -/
def rightJustified (size n : Nat) : String :=
  let digits := toString n
  String.ofList (List.replicate (size - digits.length) ' ') ++ digits

end Conformance.Text
