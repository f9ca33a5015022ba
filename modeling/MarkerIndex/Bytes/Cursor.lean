/-
Reading at a place.

A cursor keeps all of its bytes and the place that it has reached, which is a machine word. Before
it moves or looks, a step checks that the place it leads to exists: behind a place near the greatest
word there may be none, and a place behind the end is none either. A step that is refused for this
leaves the cursor where it is; one that finds damaged text has moved behind the text.
-/
import MarkerIndex.Bytes.Reader

namespace MarkerIndex

/-! ## Bytes in memory -/

/-- Bytes that are held in memory: a word counts them. -/
structure Buffer where
  bytes : Bytes
  fits : bytes.length < USize.size

namespace Buffer

def ofBytes? (bs : Bytes) : Option Buffer :=
  if fits : bs.length < USize.size then some ⟨bs, fits⟩ else none

def size (d : Buffer) : USize := .ofNat d.bytes.length

/-- The bytes from one place up to another. -/
def slice (d : Buffer) (place stop : USize) : Bytes :=
  (d.bytes.drop place.toNat).take (stop.toNat - place.toNat)

end Buffer

/-- The sum of two words, unless it is greater than every word. -/
def checkedAdd (a b : USize) : Option USize :=
  if a.toNat + b.toNat < USize.size then some (a + b) else none

/-! ## Numbers -/

/-- The kinds of numbers: words, numbers with a sign, and fractions, by their bits. -/
inductive NumberKind where
  | u8 | i8 | u16 | i16 | u32 | i32 | u64 | i64 | f32 | f64
  deriving DecidableEq, Repr

namespace NumberKind

/-- The numbers of a kind; a fraction is given by its bits. -/
abbrev Number : NumberKind → Type
  | .u8 => UInt8
  | .i8 => Int8
  | .u16 => UInt16
  | .i16 => Int16
  | .u32 | .f32 => UInt32
  | .i32 => Int32
  | .u64 | .f64 => UInt64
  | .i64 => Int64

/-- How many bytes a number of the kind takes. -/
def width : NumberKind → USize
  | .u8 | .i8 => 1
  | .u16 | .i16 => 2
  | .u32 | .i32 | .f32 => 4
  | .u64 | .i64 | .f64 => 8

/-- The number of the kind whose bytes spell `n`. -/
def ofValue : (kind : NumberKind) → Nat → kind.Number
  | .u8, n => .ofNat n
  | .i8, n => (UInt8.ofNat n).toInt8
  | .u16, n => .ofNat n
  | .i16, n => (UInt16.ofNat n).toInt16
  | .u32, n | .f32, n => .ofNat n
  | .i32, n => (UInt32.ofNat n).toInt32
  | .u64, n | .f64, n => .ofNat n
  | .i64, n => (UInt64.ofNat n).toInt64

end NumberKind

/-! ## Cursors -/

structure Cursor where
  data : Buffer
  position : USize

namespace Cursor

/-- A computation that moves a cursor. The cursor behind a fault is part of its outcome. -/
abbrev Step := ExceptT Fault (StateM Cursor)

/-- What a step answers, and the cursor behind it. -/
def Step.run {α : Type} (s : Step α) (c : Cursor) : Except Fault α × Cursor :=
  StateT.run (ExceptT.run s) c

def start (d : Buffer) : Cursor := ⟨d, 0⟩

def hasMore (c : Cursor) : Bool := c.position < c.data.size

/-- Passes over `n` bytes. -/
def advance (n : USize) : Step Unit := do
  let c ← get
  match checkedAdd c.position n with
  | none => throw .outOfBounds
  | some stop =>
    if stop ≤ c.data.size then set { c with position := stop } else throw .outOfBounds

/-- The number at a place, and the place behind it; where there is none the place stays. -/
def numberAt (kind : NumberKind) (d : Buffer) (place : USize) :
    Except Fault kind.Number × USize :=
  match checkedAdd place kind.width with
  | none => (.error .outOfBounds, place)
  | some stop =>
    if d.size < stop then (.error .outOfBounds, place)
    else (.ok (kind.ofValue (BigEndian.value (d.slice place stop))), stop)

def number (kind : NumberKind) : Step kind.Number := fun c =>
  let (answer, place) := numberAt kind c.data c.position
  (answer, { c with position := place })

def take (n : USize) : Step Bytes := do
  let place := (← get).position
  advance n
  let c ← get
  return c.data.slice place c.position

/-- The text in the next `n` bytes, which are taken even when they spell none. -/
def text (n : USize) : Step String := do
  match Text.ModifiedUtf8.decode (← take n) with
  | .ok s => return s
  | .error flaw => throw (.malformed (.encoding flaw))

end Cursor

end MarkerIndex
