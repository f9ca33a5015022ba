/-
The table of constants at the head of a class descriptor.

The table has as many slots as its leading count says. Slot zero is unused, and so is the slot
after each wide constant; every other slot holds the constant that was read for it. Looking up a
slot by the kind of its constant tells an unused or missing slot from one of another kind.
-/
import MarkerIndex.Bytes.Reader
import MarkerIndex.ClassFile.Descriptor

namespace MarkerIndex.ClassFile

/-- The slots of a table; an unused one holds nothing. -/
structure ConstantTable where
  slots : Array (Option Constant)
  deriving Repr

namespace ConstantTable

def empty : ConstantTable := ⟨#[]⟩

def size (t : ConstantTable) : Nat := t.slots.size

/-! ## Reading -/

def readReference (kind : MemberKind) : Reader Constant := do
  let owner ← Reader.u16
  let nameAndType ← Reader.u16
  return .reference kind owner nameAndType

def readDynamic (kind : DynamicKind) : Reader Constant := do
  let bootstrap ← Reader.u16
  let nameAndType ← Reader.u16
  return .dynamic kind bootstrap nameAndType

/-- The constant behind the byte that announces it, for the slot `index`. -/
def readBody (tag : UInt8) (index : Nat) : Reader Constant :=
  match tag.toNat with
  | 1 => do
    let length ← Reader.u16
    return .utf8 (← Reader.text length.toNat)
  | 3 => do return .integer (← Reader.i32)
  | 4 => do return .float (← Reader.u32)
  | 5 => do return .long (← Reader.i64)
  | 6 => do return .double (← Reader.u64)
  | 7 => do return .class (← Reader.u16)
  | 8 => do return .string (← Reader.u16)
  | 9 => readReference .field
  | 10 => readReference .method
  | 11 => readReference .interfaceMethod
  | 12 => do
    let name ← Reader.u16
    let descriptor ← Reader.u16
    return .nameAndType name descriptor
  | 15 => do
    let kind ← Reader.u8
    let reference ← Reader.u16
    return .methodHandle kind reference
  | 16 => do return .methodType (← Reader.u16)
  | 17 => readDynamic .dynamic
  | 18 => readDynamic .invokeDynamic
  | 19 => do return .module (← Reader.u16)
  | 20 => do return .package (← Reader.u16)
  | _ => Reader.fail (.malformed (.constantTag tag index))

def readConstant (index : Nat) : Reader Constant := do
  let tag ← Reader.u8
  readBody tag index

/-- Fills `open` more slots behind those of a table. -/
def readSlots : Nat → Array (Option Constant) → Reader ConstantTable
  | 0, slots => Reader.done ⟨slots⟩
  | rest + 1, slots => do
    let c ← readConstant slots.size
    if c.isWide then
      match rest with
      | 0 => Reader.fail (.malformed .wideInLastSlot)
      | rest + 1 => readSlots rest ((slots.push (some c)).push none)
    else readSlots rest (slots.push (some c))

/-- The table at the front of the bytes. -/
def read : Reader ConstantTable := do
  let count ← Reader.u16
  match count.toNat with
  | 0 => Reader.fail (.malformed .emptyTable)
  | count + 1 => readSlots count #[none]

/-! ## Look-up -/

/-- The constant of a slot. -/
def get (t : ConstantTable) (index : UInt16) : Except Fault Constant :=
  match t.slots[index.toNat]? with
  | some (some c) => .ok c
  | _ => .error (.malformed (.constantIndex index))

/-- The fault of a look-up that found another kind. -/
def wrongKind {α : Type} (expected : ConstantKind) (index : UInt16) (found : Constant) :
    Except Fault α :=
  .error (.malformed (.constantKind expected index found))

def utf8 (t : ConstantTable) (index : UInt16) : Except Fault String := do
  match ← t.get index with
  | .utf8 s => return s
  | other => wrongKind .utf8 index other

/-- The name of the type that a slot names. -/
def className (t : ConstantTable) (index : UInt16) : Except Fault String := do
  match ← t.get index with
  | .class name => return Descriptor.ofInternal (← t.utf8 name)
  | other => wrongKind .class index other

def integer (t : ConstantTable) (index : UInt16) : Except Fault Int32 := do
  match ← t.get index with
  | .integer n => return n
  | other => wrongKind .integer index other

def long (t : ConstantTable) (index : UInt16) : Except Fault Int64 := do
  match ← t.get index with
  | .long n => return n
  | other => wrongKind .long index other

/-- The bits of the 32-bit floating point number in a slot. -/
def float (t : ConstantTable) (index : UInt16) : Except Fault UInt32 := do
  match ← t.get index with
  | .float bits => return bits
  | other => wrongKind .float index other

/-- The bits of the 64-bit floating point number in a slot. -/
def double (t : ConstantTable) (index : UInt16) : Except Fault UInt64 := do
  match ← t.get index with
  | .double bits => return bits
  | other => wrongKind .double index other

end ConstantTable

end MarkerIndex.ClassFile
