/-
Writing class descriptors.

A class is given by its header, its members and attributes by name, and the markers of its two
marker attributes. Its bytes are the magic number, the version, the table of every constant that
the rest refers to, and the rest. Writing refuses when a table has more than 65535 entries, a text
more than 65535 bytes, an attribute more than four bytes can count, or the constants too many slots.
-/
import MarkerIndex.ClassFile.Decode
import MarkerIndex.ClassFile.TableBuilder
import MarkerIndex.Value.Basic

namespace MarkerIndex.ClassFile

/-- A class to be written. -/
structure ClassSpec where
  name : String
  super : Option String := some "java.lang.Object"
  interfaces : List String := []
  flags : UInt16 := 0x21
  major : UInt16 := 52
  minor : UInt16 := 0
  /-- Fields by name and descriptor. -/
  fields : List (String × String) := []
  /-- Methods by name and descriptor. -/
  methods : List (String × String) := []
  /-- Attributes by name and body. -/
  attributes : List (String × Bytes) := []
  visible : List (Marker Unit) := []
  invisible : List (Marker Unit) := []

/-- The bytes of the number of entries of a table. -/
def encodeCount (what : String) (n : Nat) : Interning Bytes :=
  if n < 65536 then return BigEndian.encode 2 n else .refuse (.tooMany what n)

/-! ## Markers -/

/-- A letter and an index. -/
def encodeTagged (tag : Char) (index : UInt16) : Bytes :=
  UInt8.ofNat tag.toNat :: BigEndian.u16 index

/-- A scalar as an element. -/
def encodeScalar : Scalar → Interning Bytes
  | .bool b => encodeTagged 'Z' <$> .constant (.integer (if b then 1 else 0))
  | .char c => encodeTagged 'C' <$> .constant (.integer (Int32.ofNat c.toNat))
  | .byte n => encodeTagged 'B' <$> .constant (.integer n.toInt32)
  | .short n => encodeTagged 'S' <$> .constant (.integer n.toInt32)
  | .int n => encodeTagged 'I' <$> .constant (.integer n)
  | .long n => encodeTagged 'J' <$> .constant (.long n)
  | .float bits => encodeTagged 'F' <$> .constant (.float bits)
  | .double bits => encodeTagged 'D' <$> .constant (.double bits)
  | .string s => encodeTagged 's' <$> .text s
  | .class name => encodeTagged 'c' <$> .typeName name
  | .enum type constant => do
    let typeIndex ← .typeName type
    let constantIndex ← .text constant
    return encodeTagged 'e' typeIndex ++ BigEndian.u16 constantIndex

mutual

def encodeValue : Value → Interning Bytes
  | .scalar s => encodeScalar s
  | .array ss => do
    let count ← encodeCount "array elements" ss.length
    let elements ← ss.mapM encodeScalar
    return UInt8.ofNat '['.toNat :: count ++ elements.flatten
  | .marker m => do
    let typeIndex ← .typeName m.type
    let properties ← encodeProperties m.properties
    return encodeTagged '@' typeIndex ++ properties
  | .markers ms => do
    let count ← encodeCount "array elements" ms.length
    let elements ← ms.attach.mapM fun ⟨m, _⟩ => do
      let typeIndex ← .typeName m.type
      let properties ← encodeProperties m.properties
      return encodeTagged '@' typeIndex ++ properties
    return UInt8.ofNat '['.toNat :: count ++ elements.flatten
termination_by v => sizeOf v
decreasing_by
  · have := m.sizeOf_properties_lt
    simp; omega
  · have := m.sizeOf_properties_lt
    have := List.sizeOf_lt_of_mem ‹m ∈ ms›
    simp; omega

/-- The properties that resolve: their number, then a name and an element for each. -/
def encodeProperties (p : Properties) : Interning Bytes := do
  let count ← encodeCount "marker properties" p.size
  let pairs ← p.resolved.attach.mapM fun ⟨(key, value), _⟩ => do
    let name ← .text key
    let element ← encodeValue value
    return BigEndian.u16 name ++ element
  return count ++ pairs.flatten
termination_by sizeOf p
decreasing_by
  have := Layered.sizeOf_lt_of_mem ‹(key, value) ∈ p.resolved›
  simpa using this

end

/-- A marker: its type, then its properties. -/
def encodeMarker (m : Marker Unit) : Interning Bytes := do
  let typeIndex ← .typeName m.type
  let properties ← encodeProperties m.properties
  return BigEndian.u16 typeIndex ++ properties

/-! ## The class -/

/-- Names of classes: their number, then an index for each. -/
def encodeInterfaces (names : List String) : Interning Bytes := do
  let count ← encodeCount "interfaces" names.length
  let indices ← names.mapM fun name => BigEndian.u16 <$> .className name
  return count ++ indices.flatten

/-- Public members without attributes: their number, then name and descriptor for each. -/
def encodeMembers (members : List (String × String)) : Interning Bytes := do
  let count ← encodeCount "members" members.length
  let bodies ← members.mapM fun (name, descriptor) => do
    let name ← .text name
    let descriptor ← .text descriptor
    return BigEndian.u16 1 ++ BigEndian.u16 name ++ BigEndian.u16 descriptor ++ BigEndian.u16 0
  return count ++ bodies.flatten

/-- The attribute of a list of markers, or none when there are no markers. Its name is interned
after the markers. -/
def markerAttribute (name : String) (markers : List (Marker Unit)) :
    Interning (List (UInt16 × Bytes)) :=
  if markers.isEmpty then return []
  else do
    let count ← encodeCount "markers" markers.length
    let bodies ← markers.mapM encodeMarker
    let index ← .text name
    return [(index, count ++ bodies.flatten)]

/-- An attribute: name, length and body. -/
def encodeAttribute (name : UInt16) (body : Bytes) : Interning Bytes :=
  if body.length < 4294967296 then
    return BigEndian.u16 name ++ BigEndian.encode 4 body.length ++ body
  else .refuse (.longAttribute body.length)

/-- Everything behind the table of constants. -/
def encodeBody (c : ClassSpec) : Interning Bytes := do
  let name ← .className c.name
  let super ← match c.super with
    | none => pure 0
    | some super => .className super
  let interfaces ← encodeInterfaces c.interfaces
  let fields ← encodeMembers c.fields
  let methods ← encodeMembers c.methods
  let plain ← c.attributes.mapM fun (name, body) => return (← .text name, body)
  let visible ← markerAttribute visibleMarkers c.visible
  let invisible ← markerAttribute invisibleMarkers c.invisible
  let attributes := plain ++ visible ++ invisible
  let count ← encodeCount "attributes" attributes.length
  let bodies ← attributes.mapM fun (name, body) => encodeAttribute name body
  return BigEndian.u16 c.flags ++ BigEndian.u16 name ++ BigEndian.u16 super ++ interfaces ++ fields
    ++ methods ++ count ++ bodies.flatten

def ClassSpec.encode (c : ClassSpec) : Except Fault Bytes := do
  let (body, table) ← (encodeBody c).run .empty
  return BigEndian.u32 magic ++ BigEndian.u16 c.minor ++ BigEndian.u16 c.major
    ++ BigEndian.encode 2 table.next ++ table.encode ++ body

end MarkerIndex.ClassFile
