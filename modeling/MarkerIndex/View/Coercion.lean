/-
Coercion of stored values to declared types.

Whole numbers convert among each other when the value fits, from a character by its code point and
from a text by reading it; floating point numbers widen and narrow by rounding once from 64 bits. A
text converts to a truth value, a character, a constant of an enumeration or a class name; anything
that is not nested converts to text. A single scalar may stand for an array of one.
-/
import MarkerIndex.Fault
import MarkerIndex.Text.Blank
import MarkerIndex.View.Interface

namespace MarkerIndex

open Number

/-- The flaw of a value of a form for which no conversion exists. -/
def incompatible {α : Type} (form : String) (target : ReturnType) : Except ConversionFlaw α :=
  .error (.incompatible form target.text)

namespace Scalar

/-- The whole number that a scalar denotes, within 64 bits. -/
def whole (s : Scalar) (target : ReturnType) : Except ConversionFlaw Int64 :=
  match s with
  | .byte n => .ok n.toInt64
  | .short n => .ok n.toInt64
  | .int n => .ok n.toInt64
  | .long n => .ok n
  | .char c => .ok (Int64.ofNat c.toNat)
  | .string text =>
    match readWhole (Text.trimChars text.toList) with
    | .ok n => .ok (Int64.ofInt n)
    | .error flaw => .error (.whole flaw)
  | other => incompatible other.kind.name target

/-- The whole number that a scalar denotes, if it lies between the bounds of a target. -/
def wholeWithin (low high : Int) (s : Scalar) (target : ReturnType) :
    Except ConversionFlaw Int64 :=
  match s.whole target with
  | .ok n => if low ≤ n.toInt ∧ n.toInt ≤ high then .ok n else .error (.range n target.text)
  | .error flaw => .error flaw

/-- The floating point number of 64 bits that a scalar denotes. -/
def real (s : Scalar) (target : ReturnType) : Except ConversionFlaw UInt64 :=
  match s with
  | .float bits => .ok (widen bits)
  | .double bits => .ok bits
  | .byte n => .ok (ofWhole n.toInt)
  | .short n => .ok (ofWhole n.toInt)
  | .int n => .ok (ofWhole n.toInt)
  | .long n => .ok (ofWhole n.toInt)
  | .string text =>
    match readBinary64 (Text.trimChars text.toList) with
    | .ok bits => .ok bits
    | .error flaw => .error (.real flaw)
  | other => incompatible other.kind.name target

/-- The truth value that a scalar denotes; the two words count in any case of letters. -/
def truth (s : Scalar) : Except ConversionFlaw Bool :=
  match s with
  | .bool b => .ok b
  | .string text =>
    let word := text.toList.map Char.toLower
    if word = "true".toList then .ok true
    else if word = "false".toList then .ok false
    else .error (.bool text)
  | other => incompatible other.kind.name .bool

/-- The character that a scalar denotes. -/
def character (s : Scalar) : Except ConversionFlaw Char :=
  match s with
  | .char c => .ok c
  | .string text =>
    match text.toList with
    | [c] => .ok c
    | _ => incompatible "string" .char
  | other => incompatible other.kind.name .char

/-- The text of a scalar, where a constant goes without its enumeration. -/
def characters : Scalar → String
  | .enum _ constant => constant
  | other => other.text

/-- The constant of the enumeration `type` that a scalar denotes. -/
def constantOf (type : String) (s : Scalar) : Except ConversionFlaw Scalar :=
  match s with
  | .enum stored constant =>
    if stored = type then .ok (.enum stored constant)
    else incompatible Kind.enum.name (.enum type)
  | .string text => .ok (.enum type text)
  | other => incompatible other.kind.name (.enum type)

/-- The name of the class that a scalar denotes. -/
def namedClass (s : Scalar) : Except ConversionFlaw String :=
  match s with
  | .class name | .string name => .ok name
  | other => incompatible other.kind.name .class

/-- The scalar converted to a scalar type. -/
def coerce (s : Scalar) (target : ReturnType) : Except ConversionFlaw Scalar :=
  match target with
  | .bool => .bool <$> s.truth
  | .char => .char <$> s.character
  | .byte => (fun n => .byte n.toInt8) <$> s.wholeWithin (-128) 127 target
  | .short => (fun n => .short n.toInt16) <$> s.wholeWithin (-32768) 32767 target
  | .int => (fun n => .int n.toInt32) <$> s.wholeWithin (-2147483648) 2147483647 target
  | .long => .long <$> s.whole target
  | .float => (fun bits => .float (narrow bits)) <$> s.real target
  | .double => .double <$> s.real target
  | .string => .ok (.string s.characters)
  | .enum type => s.constantOf type
  | .class => .class <$> s.namedClass
  | .array _ | .marker _ | .markers _ => incompatible s.kind.name target

end Scalar

/-- The value converted to a scalar type or an array of scalars. -/
def Value.coerce (v : Value) (target : ReturnType) : Except ConversionFlaw Value :=
  match v, target with
  | .scalar s, .array element => (fun s => .array [s]) <$> s.coerce element
  | .scalar s, target => .scalar <$> s.coerce target
  | .array ss, .array element => .array <$> ss.mapM fun s => s.coerce element
  | other, target => incompatible other.formName target

end MarkerIndex
