import Conformance.Catalog

/-!
# Builtin classes

The classes that are always there, in the order in which they are declared, and the ways to declare
a class that refer to them.
-/

namespace Conformance

namespace Builtin

def object : ClassTy := .ofId 0

def type : ClassTy := .ofId 1

def int : ClassTy := .ofId 2

def float : ClassTy := .ofId 3

def complex : ClassTy := .ofId 4

def str : ClassTy := .ofId 5

def property : ClassTy := .ofId 6

def protocol : ClassTy := .ofId 7

def generic : ClassTy := .ofId 8

def bool : ClassTy := .ofId 9

/-- Stands for every typed dictionary when it is matched with a protocol. -/
def typedDict : ClassTy := .ofId 10

def all : List ClassTy :=
  [object, type, int, float, complex, str, property, protocol, generic, bool, typedDict]

/-- The type of the instances of a class. -/
def instanceOf (c : ClassTy) : Ty := .cls c.toInstance

end Builtin

namespace Catalog

/-- Fixes the bases of a class, which are the class of all objects if none are given, and its
metaclass, which is that of the first class among the bases unless one is given. -/
def finalize (cat : Catalog) (c : ClassTy) (bases : List (Option Ty)) (metaclass : Option Ty) :
    StateM Inference Catalog := do
  let bases :=
    if bases.isEmpty && !c.sameClass Builtin.object then [some (.cls Builtin.object)] else bases
  let metaclass :=
    (metaclass.or (cat.inheritedMetaclass bases)).getD (.cls Builtin.type)
  let (cat, _) ←
    (cat.modify c fun d => { d with metaclass := some metaclass }).setBases c bases
  pure cat

/-- Declares a class with its bases. -/
def declareClass (cat : Catalog) (name : String) (flags : ClassFlags)
    (bases : List (Option Ty)) : StateM Inference (ClassTy × Catalog) := do
  let (c, cat) := cat.addClass name flags ""
  let cat ← cat.finalize c bases none
  pure (c, cat)

/-- Declares a protocol; the class of all protocols comes last among its bases. -/
def declareProtocol (cat : Catalog) (name : String) (bases : List (Option Ty)) :
    StateM Inference (ClassTy × Catalog) :=
  cat.declareClass name { ClassFlags.none with protocol := true }
    (bases ++ [some (.cls Builtin.protocol)])

/-- A property with the given accessors; it is the one instance of a class of its own. -/
def declareProperty (cat : Catalog) (getter setter deleter : Option FunctionTy) :
    StateM Inference (ClassTy × Catalog) := do
  let (c, cat) ←
    cat.declareClass "property" { ClassFlags.none with property := true }
      [some (.cls Builtin.property)]
  let cat := cat.modify c fun d =>
    { d with getter := getter, setter := setter, deleter := deleter }
  pure (c.toInstance, cat)

private def builtin (name : String) (isFinal : Bool) (bases : List (Option Ty)) (cat : Catalog) :
    StateM Inference Catalog := do
  let (c, cat) :=
    cat.addClass name { ClassFlags.none with builtin := true, isFinal := isFinal } "builtins"
  cat.finalize c bases none

private def methodOf (c : ClassTy) (name : String) (ret : Ty) (cat : Catalog) : Catalog :=
  let receiver : Param := ⟨.simple, "self", none, false⟩
  let f : FunctionTy := ⟨name, [receiver], .declared ret, .instanceMethod, ""⟩
  let m := Member.ofDeclarations .classBody [.function (some (.function f))]
  (cat.addMember? c name m).getD cat

private def attributeOf (c : ClassTy) (name : String) (t : Ty) (cat : Catalog) : Catalog :=
  let m := Member.ofDeclarations .classBody [.annotated (some t) false]
  (cat.addMember? c name m).getD cat

open Builtin in
private def builtinMembers (cat : Catalog) : Catalog :=
  cat
    |> attributeOf type "__name__" (instanceOf str)
    |> methodOf int "__abs__" (instanceOf int)
    |> methodOf int "__index__" (instanceOf int)
    |> methodOf int "bit_length" (instanceOf int)
    |> methodOf float "__abs__" (instanceOf float)
    |> methodOf float "is_integer" (instanceOf bool)
    |> methodOf str "__len__" (instanceOf int)
    |> methodOf str "upper" (instanceOf str)

open Builtin in
private def typedDictMembers (cat : Catalog) : Catalog :=
  cat
    |> methodOf typedDict "copy" (.var (cat.classes.selfVar typedDict))
    |> methodOf typedDict "keys" (instanceOf object)
    |> methodOf typedDict "__len__" (instanceOf int)

/-- The class of all objects has no base, and the class of all classes is the metaclass of both. -/
private def roots : StateM Inference Catalog := do
  let flags : ClassFlags := { ClassFlags.none with builtin := true }
  let (object, cat) := empty.addClass "object" flags "builtins"
  let (type, cat) := cat.addClass "type" flags "builtins"
  let cat := cat.modify object fun d => { d with metaclass := some (.cls type) }
  cat.finalize type [] (some (.cls type))

/-- The catalog that every session starts with. -/
def start : StateM Inference Catalog := do
  let cat ← roots
  let cat ← ["int", "float", "complex", "str", "property", "Protocol", "Generic"].foldlM
    (fun cat name => builtin name false [] cat) cat
  let cat ← builtin "bool" true [some (.cls Builtin.int)] cat
  let cat ← builtin "_TypedDict" false [] (builtinMembers cat)
  pure (typedDictMembers cat)

end Catalog

end Conformance
