/-
Faults: every way in which an operation of this library refuses.

A fault names its cause; `Fault.message` words it. Damage of an input, and a marker without a type,
are malformations. A conversion that fails is a flaw of its own, which a view wraps together with
the property it was asked for.
-/
import MarkerIndex.ClassFile.Constant
import MarkerIndex.Number.Reading
import MarkerIndex.Text.ModifiedUtf8

namespace MarkerIndex

open ClassFile

/-! ## Conversions -/

/-- Why a value does not convert. -/
inductive ConversionFlaw where
  | whole (flaw : Number.WholeFlaw)
  | real (flaw : Number.BinaryFlaw)
  | bool (text : String)
  | range (value : Int64) (target : String)
  | incompatible (source target : String)
  deriving DecidableEq, Repr

def ConversionFlaw.message : ConversionFlaw → String
  | .whole flaw => "invalid integer: " ++ flaw.message
  | .real flaw => "invalid floating point number: " ++ flaw.message
  | .bool text => "invalid boolean '" ++ text ++ "'"
  | .range value target => toString value.toInt ++ " is out of range for " ++ target
  | .incompatible source target => "no conversion from " ++ source ++ " to " ++ target

/-! ## Malformations -/

/-- What is damaged in an input or missing from a marker. -/
inductive Malformation where
  | encoding (flaw : Text.ModifiedUtf8.Flaw)
  | emptyTable
  | constantTag (tag : UInt8) (index : Nat)
  | wideInLastSlot
  | constantIndex (index : UInt16)
  | constantKind (expected : ConstantKind) (index : UInt16) (found : Constant)
  | descriptor (text : String)
  | voidArray (descriptor : String)
  | elementTag (tag : UInt8)
  | constantRange (value : Int32)
  | nestedArray
  | trailingData (table : String)
  | untypedMarker
  | unnamedValue
  | mixedArray
  | strayValue
  | strayArrayEnd
  | strayMarkerEnd
  | missingHeader
  deriving DecidableEq, Repr

def Malformation.message : Malformation → String
  | .encoding flaw => flaw.message
  | .emptyTable => "Constant pool count must be at least 1"
  | .constantTag tag index =>
    "Invalid constant pool tag " ++ toString tag.toNat ++ " at index " ++ toString index
  | .wideInLastSlot => "Two-slot constant in the last constant pool slot"
  | .constantIndex index => "Invalid constant pool index " ++ toString index.toNat
  | .constantKind expected index found =>
    "Expected " ++ expected.name ++ " constant at index " ++ toString index.toNat ++ ", found "
      ++ found.describe
  | .descriptor text => "Invalid type descriptor - " ++ text
  | .voidArray text => "Array of void - " ++ text
  | .elementTag tag => "Invalid element value tag - 0x" ++ Text.upperHexByte tag.toNat
  | .constantRange value => "Constant " ++ toString value.toInt ++ " out of range"
  | .nestedArray => "Nested arrays are not permitted"
  | .trailingData table => "Trailing data in " ++ table ++ " attribute"
  | .untypedMarker => "Marker datum without annotation type"
  | .unnamedValue => "Unnamed value inside a marker"
  | .mixedArray => "Mixed or nested array elements"
  | .strayValue => "Value outside of a marker"
  | .strayArrayEnd => "Array end without open array"
  | .strayMarkerEnd => "Marker end without open marker"
  | .missingHeader => "Class descriptor without header"

/-! ## Refusals -/

/-- A request that does not fit a limit or a state. -/
inductive Refusal where
  | tableOverflow
  | longText (text : String)
  | tooMany (what : String) (count : Nat)
  | longAttribute (length : Nat)
  | baseAlreadySet (type base : String)
  | typeRegistered (type : String)
  | notScalar (method : String)
  deriving DecidableEq, Repr

def Refusal.message : Refusal → String
  | .tableOverflow => "Constant pool overflow"
  | .longText text => "String constant too long - " ++ text
  | .tooMany what count => "Too many " ++ what ++ " - " ++ toString count
  | .longAttribute _ => "Attribute too long"
  | .baseAlreadySet type base =>
    "Base type of '" ++ type ++ "' already set, cannot set '" ++ base ++ "'"
  | .typeRegistered type => "Type '" ++ type ++ "' is already registered"
  | .notScalar method => "'" ++ method ++ "' converted to a non-scalar value"

/-! ## Faults -/

/-- Why an operation did not succeed. -/
inductive Fault where
  | malformed (cause : Malformation)
  | outOfBounds
  | notSupported
  | emptyInput
  | unreadableFile
  | refused (cause : Refusal)
  | nestingLimit (limit : Nat)
  | conflict (type name : String)
  | missingProperty (type property : String)
  | conversion (type property value target : String) (cause : ConversionFlaw)
  | unknownMethod (interface method : String)
  deriving DecidableEq, Repr

def Fault.message : Fault → String
  | .malformed cause => cause.message
  | .outOfBounds => "Out of Bound read would have occurred!"
  | .notSupported => "This file type is not supported"
  | .emptyInput => "Provided input was empty"
  | .unreadableFile => "The file cannot be read"
  | .refused cause => cause.message
  | .nestingLimit limit => "Reach the maximum recursion level allowed - " ++ toString limit
  | .conflict type name =>
    "Accessible member '" ++ name ++ "' is declared as both field and method for '" ++ type ++ "'"
  | .missingProperty type property =>
    "Required property '" ++ property ++ "' is missing on '" ++ type ++ "'"
  | .conversion type property value target cause =>
    "Cannot convert '" ++ value ++ "' of '" ++ type ++ "." ++ property ++ "' to " ++ target ++ ": "
      ++ cause.message
  | .unknownMethod interface method =>
    "Interface '" ++ interface ++ "' declares no method '" ++ method ++ "'"

end MarkerIndex
