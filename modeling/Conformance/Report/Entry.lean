import Conformance.Report.Location
import Conformance.Text.Column

/-!
# Entries of a report

An entry is one finding at one place. Its text is a headline, the source line with a caret under the
column where that line is known, and its notes.
-/

namespace Conformance

inductive Severity
  | error
  | warning
deriving DecidableEq, Repr

def Severity.name : Severity → String
  | .error => "error"
  | .warning => "warning"

/-- A short code and the family of findings it belongs to. -/
structure Code where
  code : String
  category : String
deriving DecidableEq, Repr

namespace Code

def none : Code := ⟨"", ""⟩

/-- A value does not fit its declared type. -/
def assignment : Code := ⟨"E300", "assignment"⟩

/-- A class or an instance does not satisfy a protocol. -/
def protocol : Code := ⟨"E301", "protocol"⟩

/-- A module does not satisfy a protocol. -/
def moduleProtocol : Code := ⟨"E302", "protocol"⟩

/-- A type parameter of a protocol has another variance than its use shows. -/
def variance : Code := ⟨"W100", "variance"⟩

end Code

/-- A finding. The source line is empty if it is not known; `underline` is the width of what stands
before the column of the finding. -/
structure Entry where
  severity : Severity
  location : Location
  message : String
  code : Code
  notes : List String
  sourceLine : String
  underline : UInt64
deriving DecidableEq, Repr

namespace Entry

def headline (e : Entry) : String :=
  e.severity.name ++ (if e.code.code.isEmpty then "" else "[" ++ e.code.code ++ "]") ++ ": " ++
    e.location.toText ++ ": " ++ e.message ++ "\n"

/-- The source line and the caret below it; nothing for an empty line. -/
def excerpt (tab : UInt64) (e : Entry) : String :=
  if e.sourceLine.isEmpty then ""
  else
    Text.rightJustified 6 e.location.line ++ " | " ++ Text.expand tab.toNat e.sourceLine ++ "\n" ++
      "       | " ++ String.ofList (List.replicate e.underline.toNat ' ') ++ "^\n"

def noteLines (e : Entry) : String :=
  String.join (e.notes.map fun note => "  note:" ++ note ++ "\n")

/-- The text of an entry at a tab width. -/
def render (tab : UInt64) (e : Entry) : String :=
  e.headline ++ e.excerpt tab ++ e.noteLines

end Entry

end Conformance
