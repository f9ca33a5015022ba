/-
Interfaces: what a marker is asked for.

An interface names a marker type and declares methods. A method is named like the property that it
answers; it has a return type, and may have a default for an absent property or require one to be
present. Declaring a method again replaces it and keeps its place.
-/
import MarkerIndex.Value.Equality

namespace MarkerIndex

/-- A method whose return types are of type `ρ`. -/
structure MethodOf (ρ : Type) where
  name : String
  returns : ρ
  /-- The value that stands for an absent property. -/
  default : Option Value
  /-- The property must be present or have a default. -/
  required : Bool

/-- An interface whose return types are of type `ρ`. -/
structure InterfaceOf (ρ : Type) where
  type : String
  methods : List (MethodOf ρ)

/-- What a method returns. -/
inductive ReturnType where
  | bool | char | byte | short | int | long | float | double | string | «class»
  | enum (type : String)
  | array (element : ReturnType)
  | marker (interface : InterfaceOf ReturnType)
  | markers (interface : InterfaceOf ReturnType)

/-- A declared method. -/
abbrev Method := MethodOf ReturnType

/-- A marker type and its declared methods. -/
abbrev Interface := InterfaceOf ReturnType

instance : Inhabited ReturnType := ⟨.bool⟩

namespace ReturnType

/-- A marker or a sequence of markers. -/
def isMarker : ReturnType → Bool
  | .marker _ | .markers _ => true
  | _ => false

def text : ReturnType → String
  | .bool => "boolean"
  | .char => "char"
  | .byte => "byte"
  | .short => "short"
  | .int => "int"
  | .long => "long"
  | .float => "float"
  | .double => "double"
  | .string => "java.lang.String"
  | .class => "java.lang.Class"
  | .enum type => type
  | .array element => element.text ++ "[]"
  | .marker interface => interface.type
  | .markers interface => interface.type ++ "[]"

end ReturnType

namespace InterfaceOf

def method? {ρ : Type} (i : InterfaceOf ρ) (name : String) : Option (MethodOf ρ) :=
  i.methods.find? fun m => m.name = name

/-- The methods with one more, in the place of its namesake if there is one. -/
def insertMethod {ρ : Type} (m : MethodOf ρ) : List (MethodOf ρ) → List (MethodOf ρ)
  | [] => [m]
  | n :: rest => if n.name = m.name then m :: rest else n :: insertMethod m rest

/-- The interface with one more method. -/
def declare {ρ : Type} (i : InterfaceOf ρ) (m : MethodOf ρ) : InterfaceOf ρ :=
  { i with methods := insertMethod m i.methods }

/-- The interface of a marker type with some methods. -/
def make {ρ : Type} (type : String) (methods : List (MethodOf ρ)) : InterfaceOf ρ :=
  methods.foldl declare ⟨type, []⟩

theorem sizeOf_returns_lt {i : Interface} {m : Method} (h : m ∈ i.methods) :
    sizeOf m.returns < sizeOf i := by
  have := List.sizeOf_lt_of_mem h
  cases i; cases m
  simp at *; omega

end InterfaceOf

/-! ## Equality -/

/-- Both absent, or equal content. -/
def Value.sameDefault : Option Value → Option Value → Bool
  | none, none => true
  | some a, some b => a.same b
  | _, _ => false

mutual

/-- Equal return types; the order of the methods of an interface does not matter. -/
def ReturnType.same : ReturnType → ReturnType → Bool
  | .bool, .bool | .char, .char | .byte, .byte | .short, .short | .int, .int | .long, .long
  | .float, .float | .double, .double | .string, .string | .class, .class => true
  | .enum a, .enum b => a == b
  | .array a, .array b => a.same b
  | .marker a, .marker b => Interface.same a b
  | .markers a, .markers b => Interface.same a b
  | _, _ => false
termination_by a => sizeOf a

/-- Equal marker types and, name by name, equal methods. -/
def Interface.same (a b : Interface) : Bool :=
  a.type == b.type && a.methods.length == b.methods.length &&
    a.methods.attach.all fun ⟨m, _⟩ =>
      match b.method? m.name with
      | none => false
      | some n =>
        m.returns.same n.returns && Value.sameDefault m.default n.default
          && m.required == n.required
termination_by sizeOf a
decreasing_by
  exact InterfaceOf.sizeOf_returns_lt ‹m ∈ a.methods›

end

end MarkerIndex
