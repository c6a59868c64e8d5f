/-!
# Source locations
-/

namespace Conformance

/-- A line and a column, both counted from one, of a file. The empty name stands for a source
without a file. -/
structure Location where
  line : Nat
  column : Nat
  file : String
deriving DecidableEq, Repr

namespace Location

/-- The start of a source without a file. -/
def start : Location := ⟨1, 1, ""⟩

instance : Inhabited Location := ⟨start⟩

def isValid (l : Location) : Bool := 0 < l.line && 0 < l.column

/-- The file, if there is one, the line and the column, with colons between them. -/
def toText (l : Location) : String :=
  (if l.file.isEmpty then "" else l.file ++ ":") ++ toString l.line ++ ":" ++ toString l.column

end Location

end Conformance
