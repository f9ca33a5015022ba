/-
Markers and their values.

A marker has the name of its type, properties, and optionally the element that carries it. A
property is a scalar, a sequence of scalars, a marker, or a sequence of markers; markers inside a
property carry no element.
-/
import MarkerIndex.Scalar
import MarkerIndex.Layered

namespace MarkerIndex

/-- A marker whose properties are of type `β`, read off an element of type `ε`. -/
structure MarkerOf (β ε : Type) where
  type : String
  properties : Layered β
  element : Option ε

/-- The value of a property. -/
inductive Value where
  | scalar (value : Scalar)
  | array (values : List Scalar)
  | marker (value : MarkerOf Value Unit)
  | markers (values : List (MarkerOf Value Unit))

/-- A marker read off an element of type `ε`. -/
abbrev Marker := MarkerOf Value

/-- The properties of a marker. -/
abbrev Properties := Layered Value

instance : Inhabited Value := ⟨.array []⟩

namespace Value

def scalar? : Value → Option Scalar
  | .scalar s => some s
  | _ => none

def marker? : Value → Option (Marker Unit)
  | .marker m => some m
  | _ => none

def markers? : Value → Option (List (Marker Unit))
  | .markers ms => some ms
  | _ => none

/-- The characters, if the value is a string. -/
def string? (v : Value) : Option String := v.scalar?.bind Scalar.string?

/-- The word for the form of a value. -/
def formName : Value → String
  | .scalar s => s.kind.name
  | .array _ => "array"
  | .marker _ => "marker"
  | .markers _ => "marker array"

end Value

theorem MarkerOf.sizeOf_properties_lt {β ε : Type} [SizeOf β] [SizeOf ε] (m : MarkerOf β ε) :
    sizeOf m.properties < sizeOf m := by
  cases m; simp; omega

end MarkerIndex
