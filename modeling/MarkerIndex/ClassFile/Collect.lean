/-
The markers of a class descriptor, collected from its events.

The collector keeps a stack of what is open. A value goes to the property it is named for in the
marker on top, or to the end of the array on top; a marker that closes with nothing open around it
is filed under its type, the first of each type staying. With a target the collector declines the
event that closes the first marker of that type, at any depth.
-/
import MarkerIndex.ClassFile.Decode
import MarkerIndex.Marker

namespace MarkerIndex.ClassFile

/-- Something open: a marker with its properties so far, or an array with its elements so far. -/
inductive Frame where
  | marker (type : String) (property : Option String) (properties : Properties)
  | array (property : String) (scalars : Array Scalar) (markers : Array (Marker Unit))

/-- What is open, and what has been found. -/
structure Collector where
  frames : List Frame := []
  filed : Entries String (Marker Unit) := []
  header : Option Header := none
  fault : Option Malformation := none

namespace Collector

/-- The answer to an event: whether to go on, and the state. -/
abbrev Answer := Bool × Collector

def proceed (c : Collector) : Answer := (true, c)

/-- Declines the event because of a malformation. -/
def reject (cause : Malformation) (c : Collector) : Answer :=
  (false, { c with fault := some cause })

/-- The value becomes a property of the marker on top, or an element of the array on top. An array
holds scalars or markers, never both and never another array. -/
def place (property : Option String) (value : Value) (c : Collector) : Answer :=
  match c.frames with
  | [] => c.reject .strayValue
  | .marker type outer properties :: rest =>
    match property with
    | some name =>
      { c with frames := .marker type outer (properties.insert name value) :: rest }.proceed
    | none => c.reject .unnamedValue
  | .array name scalars markers :: rest =>
    match value, markers.isEmpty, scalars.isEmpty with
    | .scalar s, true, _ =>
      { c with frames := .array name (scalars.push s) markers :: rest }.proceed
    | .marker m, _, true =>
      { c with frames := .array name scalars (markers.push m) :: rest }.proceed
    | _, _, _ => c.reject .mixedArray

def arrayValue (scalars : Array Scalar) (markers : Array (Marker Unit)) : Value :=
  if markers.isEmpty then .array scalars.toList else .markers markers.toList

def closeArray (c : Collector) : Answer :=
  match c.frames with
  | .array name scalars markers :: rest =>
    { c with frames := rest }.place (some name) (arrayValue scalars markers)
  | frames => { c with frames := frames.tail }.reject .strayArrayEnd

/-- A closed marker is filed when nothing is open, and placed otherwise. -/
def file (m : Marker Unit) (property : Option String) (c : Collector) : Answer :=
  match c.frames with
  | [] => { c with filed := Entries.insertNew c.filed m.type m }.proceed
  | _ => c.place property (.marker m)

/-- The marker on top closes; closing one of the target type is declined after it was filed. -/
def closeMarker (target : Option String) (c : Collector) : Answer :=
  match c.frames with
  | .marker type property properties :: rest =>
    let c := { c with frames := rest }
    match MarkerOf.make type properties none with
    | .error _ => c.reject .untypedMarker
    | .ok m =>
      match c.file m property with
      | (true, c) => (target != some type, c)
      | (false, c) => (false, c)
  | frames => { c with frames := frames.tail }.reject .strayMarkerEnd

def visitor (target : Option String) : Visitor Collector :=
  ⟨fun event c =>
    match event with
    | .header header => { c with header := some header }.proceed
    | .markerStart type property _ =>
      { c with frames := .marker type property .empty :: c.frames }.proceed
    | .value property s => c.place property (.scalar s)
    | .arrayStart property => { c with frames := .array property #[] #[] :: c.frames }.proceed
    | .arrayEnd _ => c.closeArray
    | .markerEnd _ => c.closeMarker target
    | .finish => c.proceed⟩

end Collector

/-! ## Reading a descriptor -/

/-- What a class descriptor says about its class. -/
structure ClassRecord where
  header : Header
  /-- The first marker of each type, in order. -/
  markers : Entries String (Marker Unit)
  /-- Reading stopped at a marker of the target type. -/
  endedEarly : Bool

/-- Reads a descriptor, up to the first marker of the target type if there is a target. A fault of
the bytes goes before what the collector rejected. -/
def ClassRecord.read (data : Bytes) (target : Option String) (o : Options) :
    Except Fault ClassRecord :=
  match decode o (Collector.visitor target) data {} with
  | (.error f, _) => .error f
  | (.ok flow, c) =>
    match c.fault, c.header with
    | some cause, _ => .error (.malformed cause)
    | none, none => .error (.malformed .missingHeader)
    | none, some header => .ok ⟨header, c.filed, flow = .declined⟩

/-! ## Inputs -/

/-- The bytes of an input, which is refused when there are none. -/
def acceptInput (data : Bytes) : Except Fault Bytes :=
  if data.isEmpty then .error .emptyInput else .ok data

/-- Reads the descriptor in an input. -/
def ClassRecord.ofInput (data : Bytes) (target : Option String) (o : Options) :
    Except Fault ClassRecord := do
  ClassRecord.read (← acceptInput data) target o

end MarkerIndex.ClassFile
