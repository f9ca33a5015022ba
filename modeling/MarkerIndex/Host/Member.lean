/-
Members of host types, with the markers declared on them.

A member is identified by the name of the type that declares it and its own name, signature or
parameter types; a parameter by its member and its place. Two descriptions of one member are the
same member whatever else they say, and a table of members has one entry for each identity.
-/
import MarkerIndex.Value.Basic

namespace MarkerIndex.Host

def commaSeparated (names : List String) : String := ", ".intercalate names

/-! ## Members -/

/-- The name of the type of no value. -/
def void : String := "void"

/-- The name, parameter types and return type of a method. -/
structure Signature where
  name : String
  parameters : List String
  returns : String
  deriving DecidableEq, Hashable, Repr

namespace Signature

/-- No parameters and no value. -/
def isVoidNoArg (s : Signature) : Bool := s.parameters.isEmpty && s.returns == void

def text (s : Signature) : String :=
  s.returns ++ " " ++ s.name ++ "(" ++ commaSeparated s.parameters ++ ")"

end Signature

structure Parameter where
  /-- The text of the method or constructor. -/
  member : String
  index : Nat
  name : Option String
  type : String
  markers : List (Marker Unit)

structure Field where
  owner : String
  name : String
  type : String
  markers : List (Marker Unit)

/-- A method of a type. A static or private one takes no part in overriding. -/
structure Method where
  owner : String
  signature : Signature
  isStatic : Bool
  isPrivate : Bool
  parameters : List Parameter
  markers : List (Marker Unit)

structure Constructor where
  owner : String
  parameters : List Parameter
  markers : List (Marker Unit)

def anyMarked (ps : List Parameter) : Bool := ps.any fun p => !p.markers.isEmpty

def Constructor.parameterTypes (c : Constructor) : List String := c.parameters.map (·.type)

/-- The name of a field within the program. -/
def Field.text (f : Field) : String := f.owner ++ "." ++ f.name

/-- The name and parameter types of a method within the program. -/
def Method.text (m : Method) : String :=
  m.owner ++ "." ++ m.signature.name ++ "(" ++ commaSeparated m.signature.parameters ++ ")"

def Constructor.text (c : Constructor) : String :=
  c.owner ++ ".<init>(" ++ commaSeparated c.parameterTypes ++ ")"

/-- A field with its type. -/
def Field.declaration (f : Field) : String := f.type ++ " " ++ f.text

/-- A method with its return type, and with what keeps it from overriding. -/
def Method.declaration (m : Method) : String :=
  m.signature.returns ++ " " ++ m.text ++ (if m.isStatic then " static" else "")
    ++ (if m.isPrivate then " private" else "")

/-- A parameter with its place, type and name; a hyphen stands for a missing name. -/
def Parameter.declaration (p : Parameter) : String :=
  p.member ++ "#" ++ toString p.index ++ " " ++ p.type ++ " " ++ p.name.getD "-"

/-! ## Identity -/

/-- Things that are identified by a part of them. -/
class Identified (μ : Type) (κ : outParam Type) where
  identity : μ → κ

export Identified (identity)

instance : Identified Field (String × String) := ⟨fun f => (f.owner, f.name)⟩

instance : Identified Method (String × Signature) := ⟨fun m => (m.owner, m.signature)⟩

instance : Identified Constructor (String × List String) :=
  ⟨fun c => (c.owner, c.parameterTypes)⟩

instance : Identified Parameter (String × Nat) := ⟨fun p => (p.member, p.index)⟩

def isSame {μ κ : Type} [Identified μ κ] [DecidableEq κ] (a b : μ) : Bool :=
  identity a = identity b

/-! ## Tables of members -/

/-- Data of members, one entry for each identity, in the order of the first entries. -/
abbrev MemberTable (μ β : Type) := List (μ × β)

namespace MemberTable

variable {μ κ β : Type} [Identified μ κ] [DecidableEq κ]

def get? (t : MemberTable μ β) (m : μ) : Option β :=
  (t.find? fun e => isSame e.1 m).map (·.2)

def has (t : MemberTable μ β) (m : μ) : Bool := t.any fun e => isSame e.1 m

/-- The data are given to the member unless it has some. -/
def insertNew (t : MemberTable μ β) (m : μ) (data : β) : MemberTable μ β :=
  if t.has m then t else t ++ [(m, data)]

/-- The data are given to the member; an earlier entry keeps its place and its description. -/
def insert : MemberTable μ β → μ → β → MemberTable μ β
  | [], m, data => [(m, data)]
  | e :: rest, m, data =>
    if isSame e.1 m then (e.1, data) :: rest else e :: insert rest m data

end MemberTable

/-! ## Declaring -/

/-- A parameter as it is written down. -/
structure ParameterSpec where
  type : String
  name : Option String := none
  markers : List (Marker Unit) := []

structure FieldSpec where
  name : String
  type : String
  markers : List (Marker Unit) := []

structure MethodSpec where
  name : String
  returns : String := void
  isStatic : Bool := false
  isPrivate : Bool := false
  parameters : List ParameterSpec := []
  markers : List (Marker Unit) := []

structure ConstructorSpec where
  parameters : List ParameterSpec := []
  markers : List (Marker Unit) := []

/-- The parameters of the member with the text `member`, numbered from `index`. -/
def declareParameters (member : String) : Nat → List ParameterSpec → List Parameter
  | _, [] => []
  | index, p :: rest =>
    ⟨member, index, p.name, p.type, p.markers⟩ :: declareParameters member (index + 1) rest

def FieldSpec.declare (owner : String) (f : FieldSpec) : Field := ⟨owner, f.name, f.type, f.markers⟩

def MethodSpec.declare (owner : String) (m : MethodSpec) : Method :=
  let types := m.parameters.map (·.type)
  let member := owner ++ "." ++ m.name ++ "(" ++ commaSeparated types ++ ")"
  ⟨owner, ⟨m.name, types, m.returns⟩, m.isStatic, m.isPrivate,
    declareParameters member 0 m.parameters, m.markers⟩

def ConstructorSpec.declare (owner : String) (c : ConstructorSpec) : Constructor :=
  let member := owner ++ ".<init>(" ++ commaSeparated (c.parameters.map (·.type)) ++ ")"
  ⟨owner, declareParameters member 0 c.parameters, c.markers⟩

end MarkerIndex.Host
