/-
Names of types and the descriptors that stand for them in a class descriptor.

A descriptor is a run of brackets, one for each array dimension, before a letter for a primitive
type or a class name between `L` and a semicolon. Inside descriptors packages are separated by
slashes, in names by points; an array type is named by its element and a pair of brackets.
-/
import MarkerIndex.Fault

namespace MarkerIndex.ClassFile.Descriptor

/-! ## Separators -/

/-- Every `a` of a text replaced by `b`. -/
def replaceChar (a b : Char) (cs : List Char) : List Char :=
  cs.map fun c => if c = a then b else c

/-- The name with points for the slashes of an internal name. -/
def ofInternal (s : String) : String := String.ofList (replaceChar '/' '.' s.toList)

/-- The internal name with slashes for the points of a name. -/
def toInternal (s : String) : String := String.ofList (replaceChar '.' '/' s.toList)

/-! ## Primitive types -/

/-- The primitive types: letter and name. -/
def primitives : List (Char × String) :=
  [('B', "byte"), ('C', "char"), ('D', "double"), ('F', "float"), ('I', "int"), ('J', "long"),
    ('S', "short"), ('Z', "boolean"), ('V', "void")]

def primitiveName? (letter : Char) : Option String :=
  (primitives.find? fun p => p.1 = letter).map (·.2)

def primitiveLetter? (name : String) : Option Char :=
  (primitives.find? fun p => p.2 = name).map (·.1)

/-! ## Reading -/

/-- A class name before its semicolon: at least one character, which may be a semicolon too. -/
def className? (cs : List Char) : Option (List Char) :=
  match cs.getLast? with
  | some ';' => if cs.length = 1 then none else some cs.dropLast
  | _ => none

/-- The name of the type below all array dimensions. -/
def elementName? (cs : List Char) : Option String :=
  match cs with
  | 'L' :: rest => (className? rest).map fun name => ofInternal (String.ofList name)
  | [letter] => primitiveName? letter
  | _ => none

/-- The name of the type that a descriptor stands for; there is no array of `void`. -/
def toName (descriptor : String) : Except Malformation String :=
  let brackets := descriptor.toList.takeWhile (· = '[')
  match elementName? (descriptor.toList.dropWhile (· = '[')) with
  | none => .error (.descriptor descriptor)
  | some name =>
    if 0 < brackets.length ∧ name = "void" then .error (.voidArray descriptor)
    else .ok (name ++ String.join (List.replicate brackets.length "[]"))

/-! ## Writing -/

/-- The name of an array type without its pairs of brackets, which stand reversed at the front, and
the number of pairs. -/
def stripPairs : List Char → List Char × Nat
  | ']' :: '[' :: rest => let (base, n) := stripPairs rest; (base, n + 1)
  | cs => (cs, 0)

/-- The descriptor that stands for the type of a name. -/
def ofName (name : String) : String :=
  let (reversed, dimensions) := stripPairs name.toList.reverse
  let base := String.ofList reversed.reverse
  String.ofList (List.replicate dimensions '[') ++
    match primitiveLetter? base with
    | some letter => letter.toString
    | none => "L" ++ toInternal base ++ ";"

end MarkerIndex.ClassFile.Descriptor
