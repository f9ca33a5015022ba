/-
Building a table of constants.

Interning gives every distinct constant one index: asked again for a constant it already has, the
builder answers with the same index and grows no further. The number of slots, which is the count
written in front of the table, stays below 65535.
-/
import Std.Data.HashMap
import MarkerIndex.Bytes.BigEndian
import MarkerIndex.ClassFile.Descriptor

namespace MarkerIndex.ClassFile

/-- The bytes of a constant behind the byte that announces it. -/
def Constant.body : Constant → Bytes
  | .utf8 s =>
    let bytes := Text.ModifiedUtf8.encode s
    BigEndian.encode 2 bytes.length ++ bytes
  | .integer n => BigEndian.u32 n.toUInt32
  | .float bits => BigEndian.u32 bits
  | .long n => BigEndian.u64 n.toUInt64
  | .double bits => BigEndian.u64 bits
  | .class i | .string i | .methodType i | .module i | .package i => BigEndian.u16 i
  | .reference _ a b | .nameAndType a b | .dynamic _ a b => BigEndian.u16 a ++ BigEndian.u16 b
  | .methodHandle kind i => kind :: BigEndian.u16 i

def Constant.encode (c : Constant) : Bytes := c.tag :: c.body

/-- A table that grows by interning. -/
structure TableBuilder where
  /-- The number of slots so far, which is the next index. -/
  next : Nat
  /-- The constants in the order of their indices. -/
  constants : Array Constant
  /-- The index of each constant. -/
  known : Std.HashMap Constant UInt16

namespace TableBuilder

/-- The slot zero alone. -/
def empty : TableBuilder := ⟨1, #[], ∅⟩

/-- The constant fits a table: a text has at most 65535 bytes. -/
def checkLength (c : Constant) : Except Fault Unit :=
  match c with
  | .utf8 s =>
    if (Text.ModifiedUtf8.encode s).length < 65536 then .ok ()
    else .error (.refused (.longText s))
  | _ => .ok ()

/-- The index of a constant, and the table that has it. -/
def intern (c : Constant) (t : TableBuilder) : Except Fault (UInt16 × TableBuilder) :=
  match t.known[c]? with
  | some index => .ok (index, t)
  | none =>
    if t.next + c.slots < 65535 then do
      checkLength c
      let index := UInt16.ofNat t.next
      return (index, ⟨t.next + c.slots, t.constants.push c, t.known.insert c index⟩)
    else .error (.refused .tableOverflow)

/-- The constants as bytes, without the count in front. -/
def encode (t : TableBuilder) : Bytes := t.constants.toList.flatMap Constant.encode

end TableBuilder

/-! ## Computations that intern -/

/-- A computation that may grow a table. -/
abbrev Interning := StateT TableBuilder (Except Fault)

namespace Interning

def constant (c : Constant) : Interning UInt16 := fun t => t.intern c

def text (s : String) : Interning UInt16 := constant (.utf8 s)

def className (name : String) : Interning UInt16 := do
  constant (.class (← text (Descriptor.toInternal name)))

/-- The index of the descriptor of a type by its name. -/
def typeName (name : String) : Interning UInt16 := text (Descriptor.ofName name)

/-- Ends with a refusal. -/
def refuse {α : Type} (cause : Refusal) : Interning α := fun _ => .error (.refused cause)

end Interning

end MarkerIndex.ClassFile
