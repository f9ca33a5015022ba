/-
Telling a class descriptor to a visitor.

The header is told first; the tables of fields and methods are passed over; of the attributes, the
two that hold markers are told and every other one is passed over by its length. A marker is its
type and its properties, each a name and an element; an element is announced by a byte and is a
scalar, a marker, or an array of elements that are not arrays themselves.

The recursion runs on the number of markers and arrays that may still be opened, so the limit on
nesting is what makes it end.
-/
import MarkerIndex.ClassFile.ConstantTable
import MarkerIndex.ClassFile.Walk
import MarkerIndex.Options

namespace MarkerIndex.ClassFile

/-- The number at the front of every class descriptor. -/
def magic : UInt32 := 0xCAFEBABE

/-- The attribute of markers that are visible at run time. -/
def visibleMarkers : String := "RuntimeVisibleAnnotations"

/-- The attribute of markers that are kept in the descriptor alone. -/
def invisibleMarkers : String := "RuntimeInvisibleAnnotations"

/-! ## Elements -/

/-- What the leading byte of an element announces. -/
inductive ElementTag where
  | scalar (kind : Kind)
  | marker
  | array
  deriving DecidableEq, Repr

/-- The letters that announce elements. -/
def elementTags : List (Char × ElementTag) :=
  [('B', .scalar .byte), ('C', .scalar .char), ('D', .scalar .double), ('F', .scalar .float),
    ('I', .scalar .int), ('J', .scalar .long), ('S', .scalar .short), ('Z', .scalar .bool),
    ('s', .scalar .string), ('e', .scalar .enum), ('c', .scalar .class), ('@', .marker),
    ('[', .array)]

/-- What a byte announces, if it announces anything. -/
def ElementTag.ofByte? (b : UInt8) : Option ElementTag :=
  (elementTags.find? fun p => p.1.toNat = b.toNat).map (·.2)

def readElementTag : Reader ElementTag := do
  let b ← Reader.u8
  match ElementTag.ofByte? b with
  | some tag => return tag
  | none => Reader.fail (.malformed (.elementTag b))

/-! ## Scalars -/

/-- The constant that the next index leads to. -/
def readIndexed {α : Type} (look : UInt16 → Except Fault α) : Reader α := do
  Reader.ofExcept (look (← Reader.u16))

/-- The type named by the descriptor that the next index leads to. -/
def readTypeName (t : ConstantTable) : Reader String := do
  match Descriptor.toName (← readIndexed t.utf8) with
  | .ok name => return name
  | .error cause => Reader.fail (.malformed cause)

/-- A whole number that must lie between two bounds. -/
def readBounded (t : ConstantTable) (low high : Int) : Reader Int32 := do
  let n ← readIndexed t.integer
  if low ≤ n.toInt ∧ n.toInt ≤ high then return n
  else Reader.fail (.malformed (.constantRange n))

/-- The scalar that a unit of 16 bits stands for; a surrogate is no character and stays a number. -/
def scalarOfUnit (n : Int32) : Scalar :=
  let unit := n.toInt.toNat
  if 0xD800 ≤ unit ∧ unit < 0xE000 then .int n else .char (Char.ofNat unit)

def readScalar (t : ConstantTable) : Kind → Reader Scalar
  | .byte => do return .byte (Int8.ofInt (← readBounded t (-128) 127).toInt)
  | .short => do return .short (Int16.ofInt (← readBounded t (-32768) 32767).toInt)
  | .char => do return scalarOfUnit (← readBounded t 0 65535)
  | .bool => do return .bool ((← readIndexed t.integer) != 0)
  | .int => do return .int (← readIndexed t.integer)
  | .long => do return .long (← readIndexed t.long)
  | .float => do return .float (← readIndexed t.float)
  | .double => do return .double (← readIndexed t.double)
  | .string => do return .string (← readIndexed t.utf8)
  | .enum => do
    let type ← readTypeName t
    let constant ← readIndexed t.utf8
    return .enum type constant
  | .class => do return .class (← readTypeName t)

/-! ## Markers -/

section Markers

variable {σ : Type} (v : Visitor σ) (t : ConstantTable) (visible : Bool)

/-- A marker as the value of `property`, its elements told by `element`. -/
def tellMarker (element : Option String → Walk σ Unit) (property : Option String) :
    Walk σ Unit := do
  let type ← Walk.read (readTypeName t)
  Walk.tell v (.markerStart type property visible)
  let count ← Walk.read Reader.u16
  Walk.times count.toNat do
    let name ← Walk.read (readIndexed t.utf8)
    element (some name)
  Walk.tell v (.markerEnd type)

/-- An array as the value of `property`, its elements told by `element`. -/
def tellArray (element : Option String → Walk σ Unit) (property : String) : Walk σ Unit := do
  Walk.tell v (.arrayStart property)
  let count ← Walk.read Reader.u16
  Walk.times count.toNat (element none)
  Walk.tell v (.arrayEnd property)

/-- An element as the value of `property`, or of an array when there is none. What it opens is told
by `inner`, which is missing when nothing more may be opened. -/
def tellElement (limit : Nat) (inner : Option (Option String → Walk σ Unit))
    (property : Option String) : Walk σ Unit := do
  match ← Walk.read readElementTag with
  | .scalar kind =>
    let s ← Walk.read (readScalar t kind)
    Walk.tell v (.value property s)
  | .marker =>
    match inner with
    | none => Walk.fail (.nestingLimit limit)
    | some element => tellMarker v t visible element property
  | .array =>
    match property with
    | none => Walk.fail (.malformed .nestedArray)
    | some name =>
      match inner with
      | none => Walk.fail (.nestingLimit limit)
      | some element => tellArray v element name

/-- An element when `room` markers and arrays may still be opened. -/
def elementIn (limit : Nat) : Nat → Option String → Walk σ Unit
  | 0 => tellElement v t visible limit none
  | room + 1 => tellElement v t visible limit (some (elementIn limit room))

/-- A marker when `room` markers and arrays may still be opened. -/
def markerIn (limit room : Nat) (property : Option String) : Walk σ Unit :=
  match room with
  | 0 => Walk.fail (.nestingLimit limit)
  | room + 1 => tellMarker v t visible (elementIn v t visible limit room) property

/-- The body of the attribute `name`: a count and as many markers, and nothing behind them. -/
def tellMarkers (limit : Nat) (name : String) : Walk σ Unit := do
  let count ← Walk.read Reader.u16
  Walk.times count.toNat (markerIn v t visible limit limit none)
  Walk.atEnd (.malformed (.trailingData name))

end Markers

/-! ## The descriptor -/

/-- The names that as many class constants give. -/
def readClassNames (t : ConstantTable) : Nat → List String → Reader (List String)
  | 0, names => Reader.done names.reverse
  | n + 1, names => do
    let name ← readIndexed t.className
    readClassNames t n (name :: names)

/-- The header, with the table of constants inside it. -/
def readHeader : Reader (Header × ConstantTable) := do
  if (← Reader.u32) != magic then Reader.fail .notSupported
  else
    let minor ← Reader.u16
    let major ← Reader.u16
    let t ← ConstantTable.read
    let flags ← Reader.u16
    let name ← readIndexed t.className
    let superIndex ← Reader.u16
    let super ←
      if superIndex = 0 then pure none
      else some <$> Reader.ofExcept (t.className superIndex)
    let count ← Reader.u16
    let interfaces ← readClassNames t count.toNat []
    return (⟨minor, major, flags, name, super, interfaces⟩, t)

/-- Reads `n` times and keeps nothing. -/
def readTimes : Nat → Reader Unit → Reader Unit
  | 0, _ => Reader.done ()
  | n + 1, r => do
    r
    readTimes n r

/-- Passes over an attribute: its name, its length and its body. -/
def skipAttribute : Reader Unit := do
  Reader.skip 2
  let length ← Reader.u32
  Reader.skip length.toNat

/-- Passes over a field or method: flags, name, descriptor and attributes. -/
def skipMember : Reader Unit := do
  Reader.skip 6
  let count ← Reader.u16
  readTimes count.toNat skipAttribute

/-- Passes over a table of fields or methods. -/
def skipMembers : Reader Unit := do
  let count ← Reader.u16
  readTimes count.toNat skipMember

/-- Whether the markers of an attribute are told, and then whether they are visible. -/
def markerVisibility? (o : Options) (name : String) : Option Bool :=
  if name = visibleMarkers then some true
  else if name = invisibleMarkers ∧ o.includeInvisible then some false
  else none

def tellAttribute {σ : Type} (o : Options) (v : Visitor σ) (t : ConstantTable) :
    Walk σ Unit := do
  let (name, body) ← Walk.read do
    let name ← readIndexed t.utf8
    let length ← Reader.u32
    return (name, ← Reader.take length.toNat)
  match markerVisibility? o name with
  | none => Walk.done ()
  | some visible => Walk.within body (tellMarkers v t visible o.maxNesting name)

def tellClass {σ : Type} (o : Options) (v : Visitor σ) : Walk σ Unit := do
  let (header, t) ← Walk.read readHeader
  Walk.tell v (.header header)
  let count ← Walk.read do
    skipMembers
    skipMembers
    Reader.u16
  Walk.times count.toNat (tellAttribute o v t)
  Walk.tellLast v .finish

/-- How telling a descriptor ends when nothing is wrong with it. -/
inductive Flow where
  | finished
  | declined
  deriving DecidableEq, Repr

/-- Tells the descriptor in `data` to the visitor, from state `s` on. -/
def decode {σ : Type} (o : Options) (v : Visitor σ) (data : Bytes) (s : σ) :
    Except Fault Flow × σ :=
  match tellClass o v data s with
  | (.ok (), _, s) => (.ok .finished, s)
  | (.error .declined, _, s) => (.ok .declined, s)
  | (.error (.fault f), _, s) => (.error f, s)

end MarkerIndex.ClassFile
