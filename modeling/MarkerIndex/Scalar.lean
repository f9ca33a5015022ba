/-
Scalars: the indivisible values of a marker.

There are eleven kinds. A number of either floating point kind is its bit pattern, so two scalars
are equal exactly when they are of one kind and hold the same bits, text or constant.
-/
import MarkerIndex.Number.Text
import MarkerIndex.Text.Quoted

namespace MarkerIndex

open Number Text

inductive Kind where
  | bool | char | byte | short | int | long | float | double | string | enum | «class»
  deriving DecidableEq, Repr

def Kind.name : Kind → String
  | .bool => "boolean"
  | .char => "char"
  | .byte => "byte"
  | .short => "short"
  | .int => "int"
  | .long => "long"
  | .float => "float"
  | .double => "double"
  | .string => "string"
  | .enum => "enum"
  | .class => "class"

/-- An indivisible value. -/
inductive Scalar where
  | bool (value : Bool)
  | char (value : Char)
  | byte (value : Int8)
  | short (value : Int16)
  | int (value : Int32)
  | long (value : Int64)
  /-- A number of 32 bits, given by them. -/
  | float (bits : UInt32)
  /-- A number of 64 bits, given by them. -/
  | double (bits : UInt64)
  | string (value : String)
  /-- A constant of an enumeration, both by name. -/
  | enum (type constant : String)
  /-- A type named as a value. -/
  | «class» (name : String)
  deriving DecidableEq, Repr

namespace Scalar

def kind : Scalar → Kind
  | .bool _ => .bool
  | .char _ => .char
  | .byte _ => .byte
  | .short _ => .short
  | .int _ => .int
  | .long _ => .long
  | .float _ => .float
  | .double _ => .double
  | .string _ => .string
  | .enum _ _ => .enum
  | .class _ => .class

/-- The characters of a string scalar. -/
def string? : Scalar → Option String
  | .string s => some s
  | _ => none

/-- The plain text of a scalar: the value without any mark of its kind. -/
def text : Scalar → String
  | .bool b => toString b
  | .char c => c.toString
  | .byte n => toString n.toInt
  | .short n => toString n.toInt
  | .int n => toString n.toInt
  | .long n => toString n.toInt
  | .float bits => render .plain binary32 bits.toNat
  | .double bits => render .plain binary64 bits.toNat
  | .string s => s
  | .enum type constant => type ++ "." ++ constant
  | .class name => name

/-- The diagnostic text of a scalar, which shows its kind and sets off its characters. -/
def describe : Scalar → String
  | .bool b => "Bool(" ++ toString b ++ ")"
  | .char c => "Char(" ++ quotedChar c ++ ")"
  | .byte n => "Byte(" ++ toString n.toInt ++ ")"
  | .short n => "Short(" ++ toString n.toInt ++ ")"
  | .int n => "Int(" ++ toString n.toInt ++ ")"
  | .long n => "Long(" ++ toString n.toInt ++ ")"
  | .float bits => "Float(" ++ render .exact binary32 bits.toNat ++ ")"
  | .double bits => "Double(" ++ render .exact binary64 bits.toNat ++ ")"
  | .string s => "String(" ++ quoted s ++ ")"
  | .enum type constant =>
    "Enum \x7b type_name: " ++ quoted type ++ ", constant: " ++ quoted constant ++ " \x7d"
  | .class name => "Class(" ++ quoted name ++ ")"

end Scalar

end MarkerIndex
