/-
The texts of values and markers.

The plain text of a value shows scalars plainly and a nested marker by its type alone; that of a
marker lists what resolves. The diagnostic text shows every part, nested markers included.
-/
import MarkerIndex.Value.Basic

namespace MarkerIndex

open Text

/-- Texts between brackets, with commas. -/
def bracketed (items : List String) : String :=
  "[" ++ ", ".intercalate items ++ "]"

/-! ## Plain text -/

def Value.text : Value → String
  | .scalar s => s.text
  | .array ss => bracketed (ss.map Scalar.text)
  | .marker m => "@" ++ m.type
  | .markers ms => bracketed (ms.map fun m => "@" ++ m.type)

def MarkerOf.text {ε : Type} (m : Marker ε) : String :=
  let items := m.properties.resolved.map fun (key, value) => key ++ "=" ++ value.text
  "@" ++ m.type ++ "(" ++ ", ".intercalate items ++ ")"

/-- The plain text of a marker and of the element that it is on; a hyphen stands for none. -/
def MarkerOf.textOn {ε : Type} (elementText : ε → String) (m : Marker ε) : String :=
  m.text ++ " on " ++ (m.element.map elementText).getD "-"

/-- The part of a qualified name behind its last point or dollar sign. -/
def simpleName (name : String) : String :=
  String.ofList ((name.toList.reverse.takeWhile fun c => c ≠ '.' ∧ c ≠ '$').reverse)

/-! ## Diagnostic text -/

/-- The diagnostic text of a marker, given those of its properties and of its element. -/
def describeMarker (type properties element : String) : String :=
  "MetadataDatum \x7b annotation_type: " ++ quoted type ++ ", properties: " ++ properties
    ++ ", element: " ++ element ++ " \x7d"

mutual

def Value.describe : Value → String
  | .scalar s => "Scalar(" ++ s.describe ++ ")"
  | .array ss => "Array(" ++ bracketed (ss.map Scalar.describe) ++ ")"
  | .marker m =>
    "Datum(" ++ describeMarker m.type (Properties.describe m.properties) "None" ++ ")"
  | .markers ms =>
    "DatumArray(" ++ bracketed (ms.attach.map fun ⟨m, _⟩ =>
      describeMarker m.type (Properties.describe m.properties) "None") ++ ")"
termination_by v => sizeOf v
decreasing_by
  · have := m.sizeOf_properties_lt
    simp; omega
  · have := m.sizeOf_properties_lt
    have := List.sizeOf_lt_of_mem ‹m ∈ ms›
    simp; omega

/-- The diagnostic text of a property set: what resolves, between braces. -/
def Properties.describe (p : Properties) : String :=
  "\x7b" ++ ", ".intercalate (p.resolved.attach.map fun ⟨(key, value), _⟩ =>
    quoted key ++ ": " ++ value.describe) ++ "\x7d"
termination_by sizeOf p
decreasing_by
  have := Layered.sizeOf_lt_of_mem ‹(key, value) ∈ p.resolved›
  simpa using this

end

/-- The diagnostic text of a marker, with that of its element. -/
def MarkerOf.describe {ε : Type} (describeElement : ε → String) (m : Marker ε) : String :=
  let element := match m.element with
    | none => "None"
    | some e => "Some(" ++ describeElement e ++ ")"
  describeMarker m.type (Properties.describe m.properties) element

end MarkerIndex
