/-
Constants of a class descriptor.

A constant is text, a number, or a tuple of indices of other constants. Long and double constants
are wide: they occupy two slots of the table, of which the second is never used.
-/
import MarkerIndex.Number.Text
import MarkerIndex.Text.Quoted

namespace MarkerIndex.ClassFile

open Number Text

/-- What a reference constant refers to. -/
inductive MemberKind where
  | field | method | interfaceMethod
  deriving DecidableEq, Hashable, Repr

/-- How a dynamic constant is computed. -/
inductive DynamicKind where
  | dynamic | invokeDynamic
  deriving DecidableEq, Hashable, Repr

/-- An entry of the constant table. -/
inductive Constant where
  | utf8 (text : String)
  | integer (value : Int32)
  | float (bits : UInt32)
  | long (value : Int64)
  | double (bits : UInt64)
  | «class» (name : UInt16)
  | string (text : UInt16)
  | reference (kind : MemberKind) («class» nameAndType : UInt16)
  | nameAndType (name descriptor : UInt16)
  | methodHandle (kind : UInt8) (reference : UInt16)
  | methodType (descriptor : UInt16)
  | dynamic (kind : DynamicKind) (bootstrap nameAndType : UInt16)
  | module (name : UInt16)
  | package (name : UInt16)
  deriving DecidableEq, Hashable, Repr

def MemberKind.name : MemberKind → String
  | .field => "FieldRef"
  | .method => "MethodRef"
  | .interfaceMethod => "InterfaceMethodRef"

def DynamicKind.name : DynamicKind → String
  | .dynamic => "Dynamic"
  | .invokeDynamic => "InvokeDynamic"

namespace Constant

/-- The constant occupies two slots. -/
def isWide : Constant → Bool
  | .long _ | .double _ => true
  | _ => false

def slots (c : Constant) : Nat := if c.isWide then 2 else 1

/-- The byte that announces a constant. -/
def tag : Constant → UInt8
  | .utf8 _ => 1
  | .integer _ => 3
  | .float _ => 4
  | .long _ => 5
  | .double _ => 6
  | .class _ => 7
  | .string _ => 8
  | .reference .field _ _ => 9
  | .reference .method _ _ => 10
  | .reference .interfaceMethod _ _ => 11
  | .nameAndType _ _ => 12
  | .methodHandle _ _ => 15
  | .methodType _ => 16
  | .dynamic .dynamic _ _ => 17
  | .dynamic .invokeDynamic _ _ => 18
  | .module _ => 19
  | .package _ => 20

def describe : Constant → String
  | .utf8 s => "Utf8(" ++ quoted s ++ ")"
  | .integer n => "Integer(" ++ toString n.toInt ++ ")"
  | .float bits => "Float(" ++ render .exact binary32 bits.toNat ++ ")"
  | .long n => "Long(" ++ toString n.toInt ++ ")"
  | .double bits => "Double(" ++ render .exact binary64 bits.toNat ++ ")"
  | .class i => "Class(" ++ toString i.toNat ++ ")"
  | .string i => "String(" ++ toString i.toNat ++ ")"
  | .reference kind c n =>
    "Reference \x7b tag: " ++ kind.name ++ ", class: " ++ toString c.toNat ++ ", name_and_type: "
      ++ toString n.toNat ++ " \x7d"
  | .nameAndType n d =>
    "NameAndType \x7b name: " ++ toString n.toNat ++ ", descriptor: " ++ toString d.toNat
      ++ " \x7d"
  | .methodHandle kind r =>
    "MethodHandle \x7b kind: " ++ toString kind.toNat ++ ", reference: " ++ toString r.toNat
      ++ " \x7d"
  | .methodType i => "MethodType(" ++ toString i.toNat ++ ")"
  | .dynamic kind b n =>
    "Dynamic \x7b tag: " ++ kind.name ++ ", bootstrap: " ++ toString b.toNat
      ++ ", name_and_type: " ++ toString n.toNat ++ " \x7d"
  | .module i => "Module(" ++ toString i.toNat ++ ")"
  | .package i => "Package(" ++ toString i.toNat ++ ")"

end Constant

/-- The kinds of constants that are looked up by kind. -/
inductive ConstantKind where
  | utf8 | «class» | integer | long | float | double
  deriving DecidableEq, Repr

def ConstantKind.name : ConstantKind → String
  | .utf8 => "Utf8"
  | .class => "Class"
  | .integer => "Integer"
  | .long => "Long"
  | .float => "Float"
  | .double => "Double"

end MarkerIndex.ClassFile
