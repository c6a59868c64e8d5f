import Conformance.Ty.Inference

/-!
# The text of a type
-/

namespace Conformance

namespace Access

def suffix : Access → String
  | whole => ""
  | args => ".args"
  | kwargs => ".kwargs"

end Access

namespace ParamKind

def stars : ParamKind → String
  | simple => ""
  | args => "*"
  | kwargs => "**"

end ParamKind

/-- What stands between the text of a class object and that of an instance. -/
def asObjectText (isInstance : Bool) (text : String) : String :=
  if isInstance then text else "type[" ++ text ++ "]"

section

variable (nameOf : ClassId → String) (inf : Inference)

mutual

/-- The text of a type in messages. -/
def Ty.text : Ty → String
  | .unknown => "Unknown"
  | .any => "Any"
  | .noneObject => "None"
  | .cls c => c.text
  | .module name _ => "Module(\"" ++ name ++ "\")"
  | .function f => f.text
  | .overloaded overloads => "Overload[" ++ ", ".intercalate (FunctionTy.texts overloads) ++ "]"
  | .var v => v.name ++ v.access.suffix
  | .union members => " | ".intercalate (Ty.texts members)

def ClassTy.text : ClassTy → String
  | ⟨_, isInstance, _, _, some literal⟩ => asObjectText isInstance ("Literal[" ++ literal ++ "]")
  | ⟨id, isInstance, none, _, none⟩ => asObjectText isInstance (nameOf id)
  | ⟨id, isInstance, some [], _, none⟩ => asObjectText isInstance (nameOf id)
  | ⟨id, isInstance, some (arg :: args), _, none⟩ =>
    asObjectText isInstance
      (nameOf id ++ "[" ++ ", ".intercalate (Ty.optionText arg :: Ty.optionTexts args) ++ "]")

def FunctionTy.text : FunctionTy → String
  | ⟨_, params, ret, _, _⟩ =>
    "(" ++ ", ".intercalate (Param.texts params) ++ ") -> " ++ Return.text ret

/-- The return type as far as it is known. -/
def Return.text : Return → String
  | .declared t => t.text
  | .undeclared => "Unknown"
  | .deferred cell outcome => if inf.isSettled cell then Outcome.text outcome else "Unknown"

def Outcome.text : Outcome → String
  | .returns t => Ty.optionText t
  | .raises _ => "Unknown"

def Param.text : Param → String
  | ⟨kind, name, some t, hasDefault⟩ =>
    kind.stars ++ name ++ ": " ++ t.text ++ (if hasDefault then " = ..." else "")
  | ⟨kind, name, none, hasDefault⟩ =>
    kind.stars ++ name ++ (if hasDefault then " = ..." else "")

/-- A type that is left out reads as an unknown one. -/
def Ty.optionText : Option Ty → String
  | some t => t.text
  | none => "Unknown"

def Ty.optionTexts : List (Option Ty) → List String
  | [] => []
  | t :: ts => Ty.optionText t :: Ty.optionTexts ts

def Ty.texts : List Ty → List String
  | [] => []
  | t :: ts => t.text :: Ty.texts ts

def FunctionTy.texts : List FunctionTy → List String
  | [] => []
  | f :: fs => f.text :: FunctionTy.texts fs

def Param.texts : List Param → List String
  | [] => []
  | p :: ps => p.text :: Param.texts ps

end

end

end Conformance
