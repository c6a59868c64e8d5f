import Conformance.Explanation
import Conformance.Report.Entry

/-!
# Reports

A report holds the findings in the order in which they were made, and the source texts they quote.
A finding takes its source line when it is made; what becomes of the sources later does not
change it.
-/

namespace Conformance

structure Report where
  entries : List Entry
  errors : Nat
  warnings : Nat
  tabWidth : UInt64
  sources : List (String × List String)
deriving DecidableEq, Repr

namespace Report

def empty : Report := ⟨[], 0, 0, 4, []⟩

instance : Inhabited Report := ⟨empty⟩

def hasErrors (r : Report) : Bool := 0 < r.errors

/-- Sets the lines of a file, in place of those it had. -/
def setSource (r : Report) (file text : String) : Report :=
  { r with sources := (file, Text.sourceLines text) :: r.sources.filter (·.1 != file) }

/-- A tab is at least one column wide. -/
def setTabWidth (r : Report) (width : UInt64) : Report :=
  { r with tabWidth := if width = 0 then 1 else width }

/-- The line of a valid location, if its file is known and has that line. -/
def lineAt (r : Report) (l : Location) : Option String :=
  if l.isValid then (r.sources.lookup l.file).bind (·[l.line - 1]?) else none

/-- The width of the bytes before a column of a line. -/
def underlineAt (r : Report) (line : String) (column : Nat) : UInt64 :=
  Text.width r.tabWidth (line.toUTF8.toList.take (column - 1))

def entryAt (r : Report) (severity : Severity) (l : Location) (message : String) (code : Code) :
    Entry :=
  match r.lineAt l with
  | some line => ⟨severity, l, message, code, [], line, r.underlineAt line l.column⟩
  | none => ⟨severity, l, message, code, [], "", 0⟩

/-- Adds an error at the end. -/
def error (r : Report) (l : Location) (message : String) (code : Code) : Report :=
  { r with entries := r.entries ++ [r.entryAt .error l message code], errors := r.errors + 1 }

/-- Adds a warning at the end. -/
def warning (r : Report) (l : Location) (message : String) (code : Code) : Report :=
  { r with entries := r.entries ++ [r.entryAt .warning l message code], warnings := r.warnings + 1 }

/-- Adds notes to the newest entry; without an entry they are dropped. -/
def addNotes (r : Report) (notes : List String) : Report :=
  match r.entries.getLast? with
  | some e => { r with entries := r.entries.dropLast ++ [{ e with notes := e.notes ++ notes }] }
  | none => r

def addExplanation (r : Report) (e : Explanation) (maxDepth maxLines : Int) : Report :=
  r.addNotes (e.lines maxDepth maxLines)

/-- Forgets the entries and the sources; the tab width stays. -/
def clear (r : Report) : Report := { empty with tabWidth := r.tabWidth }

/-- The text of one entry at the present tab width. -/
def render (r : Report) (e : Entry) : String := e.render r.tabWidth

/-- All entries, each followed by an empty line. -/
def renderAll (r : Report) : String :=
  String.join (r.entries.map fun e => r.render e ++ "\n")

end Report

end Conformance
