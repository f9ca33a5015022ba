/-
Typed access to views.

An answer is read at a type: each type of scalar accepts its own kind alone, text accepts strings,
class names and constants, and a list reads every element. A record of typed accesses makes a whole
marker into a value of a type of its own.
-/
import MarkerIndex.View.Basic

namespace MarkerIndex

/-- A type at which an answer can be read. -/
class Readable (α : Type) where
  /-- The name of the type in messages. -/
  typeName : String
  ofViewValue : ViewValue → Except ConversionFlaw α

namespace Readable

variable {α : Type}

/-- The flaw of an answer of another form. -/
def mismatch (typeName : String) (value : ViewValue) : Except ConversionFlaw α :=
  .error (.incompatible value.formName typeName)

/-- A type that is read from scalars of one kind. -/
@[reducible] def ofScalar (typeName : String) (pick : Scalar → Option α) : Readable α where
  typeName := typeName
  ofViewValue value :=
    match value with
    | .scalar s =>
      match pick s with
      | some a => .ok a
      | none => mismatch typeName value
    | _ => mismatch typeName value

end Readable

instance : Readable Bool := .ofScalar "bool" fun | .bool b => some b | _ => none
instance : Readable Char := .ofScalar "char" fun | .char c => some c | _ => none
instance : Readable Int8 := .ofScalar "i8" fun | .byte n => some n | _ => none
instance : Readable Int16 := .ofScalar "i16" fun | .short n => some n | _ => none
instance : Readable Int32 := .ofScalar "i32" fun | .int n => some n | _ => none
instance : Readable Int64 := .ofScalar "i64" fun | .long n => some n | _ => none

/-- The bits of a floating point number of 32 bits. -/
instance : Readable UInt32 := .ofScalar "f32" fun | .float bits => some bits | _ => none

/-- The bits of a floating point number of 64 bits. -/
instance : Readable UInt64 := .ofScalar "f64" fun | .double bits => some bits | _ => none

instance : Readable String := .ofScalar "alloc::string::String" fun
  | .string s | .class s => some s
  | .enum _ constant => some constant
  | _ => none

instance : Readable Scalar := .ofScalar "metadigest::metadata::properties::ScalarValue" some

instance : Readable View where
  typeName := "metadigest::metadata::view::View"
  ofViewValue
    | .view v => .ok v
    | other => Readable.mismatch "metadigest::metadata::view::View" other

instance : Readable ViewValue where
  typeName := "metadigest::metadata::view::ViewValue"
  ofViewValue value := .ok value

instance {α : Type} [r : Readable α] : Readable (List α) where
  typeName := "alloc::vec::Vec<" ++ r.typeName ++ ">"
  ofViewValue
    | .array ss => ss.mapM fun s => r.ofViewValue (.scalar s)
    | .views vs => vs.mapM fun v => r.ofViewValue (.view v)
    | other => Readable.mismatch ("alloc::vec::Vec<" ++ r.typeName ++ ">") other

namespace View

/-- The answer of a method, read at a type. -/
def get (α : Type) [r : Readable α] (v : View) (method : String) : Except Fault (Option α) := do
  match ← v.invoke method with
  | none => return none
  | some value =>
    match r.ofViewValue value with
    | .ok a => return some a
    | .error flaw => .error (.conversion v.type method value.describe r.typeName flaw)

/-- The answer of a method, read at a type; absence is a fault. -/
def require (α : Type) [Readable α] (v : View) (method : String) : Except Fault α := do
  match ← v.get α method with
  | some a => return a
  | none => .error (.missingProperty v.type method)

end View

/-! ## Records -/

/-- A type whose values are read off whole markers. -/
class MarkerRecord (α : Type) where
  interface : Interface
  ofView : View → Except Fault α

/-- The record that a marker makes. -/
def MarkerOf.toRecord {ε : Type} (α : Type) [r : MarkerRecord α] (m : Marker ε) : Except Fault α :=
  r.ofView (View.make m r.interface .deep none)

/-- The record that the marker behind a method makes. -/
def View.nestedRecord (α : Type) [r : MarkerRecord α] (v : View) (method : String) :
    Except Fault (Option α) := do
  match ← v.get View method with
  | none => return none
  | some inner => some <$> r.ofView inner

end MarkerIndex
