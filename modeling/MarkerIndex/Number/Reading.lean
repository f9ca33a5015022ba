/-
Numbers read from text.

`readWhole` reads a whole number of 64 bits: an optional sign and one or more digits, scanned from
the left, so the first digit that leaves the range and the first character that is no digit compete
by position. `readBinary64` reads a decimal with an optional fraction and exponent, or one of the
names of infinity and of no number in any case, and rounds once.
-/
import MarkerIndex.Number.Binary

namespace MarkerIndex.Number

/-- The value of a decimal digit. -/
def digitValue? (c : Char) : Option Nat :=
  if '0' ≤ c ∧ c ≤ '9' then some (c.toNat - '0'.toNat) else none

/-! ## Whole numbers -/

/-- Why a text is no whole number of 64 bits. -/
inductive WholeFlaw where
  | empty
  | invalidDigit
  | tooLarge
  | tooSmall
  deriving DecidableEq, Repr

def WholeFlaw.message : WholeFlaw → String
  | .empty => "cannot parse integer from empty string"
  | .invalidDigit => "invalid digit found in string"
  | .tooLarge => "number too large to fit in target type"
  | .tooSmall => "number too small to fit in target type"

def leastWhole : Int := -9223372036854775808

def greatestWhole : Int := 9223372036854775807

/-- The digits `cs` read after `acc`, each one added with the sign of the number. -/
def readDigits (negative : Bool) (acc : Int) : List Char → Except WholeFlaw Int
  | [] => .ok acc
  | c :: cs =>
    match digitValue? c with
    | none => .error .invalidDigit
    | some d =>
      let next := acc * 10 + (if negative then -(d : Int) else d)
      if next < leastWhole then .error .tooSmall
      else if greatestWhole < next then .error .tooLarge
      else readDigits negative next cs

/-- The whole number that the characters spell. -/
def readWhole (cs : List Char) : Except WholeFlaw Int :=
  match cs with
  | [] => .error .empty
  | ['+'] | ['-'] => .error .invalidDigit
  | '+' :: cs => readDigits false 0 cs
  | '-' :: cs => readDigits true 0 cs
  | cs => readDigits false 0 cs

/-! ## Numbers of the 64-bit format -/

/-- Why a text is no number. -/
inductive BinaryFlaw where
  | empty
  | invalid
  deriving DecidableEq, Repr

def BinaryFlaw.message : BinaryFlaw → String
  | .empty => "cannot parse float from empty string"
  | .invalid => "invalid float literal"

/-- The leading digits of a text, and the rest. -/
def spanDigits (cs : List Char) : List Char × List Char :=
  cs.span fun c => (digitValue? c).isSome

/-- The number that a sequence of digits spells. -/
def digitsValue (ds : List Char) : Nat :=
  ds.foldl (fun n c => 10 * n + (digitValue? c).getD 0) 0

/-- The exponent behind the digits: nothing, or a mark, a sign and at least one digit. -/
def readExponent : List Char → Option Int
  | [] => some 0
  | mark :: cs =>
    if mark = 'e' ∨ mark = 'E' then
      let (negative, cs) : Bool × List Char := match cs with
        | '-' :: cs => (true, cs)
        | '+' :: cs => (false, cs)
        | cs => (false, cs)
      match spanDigits cs with
      | ([], _) => none
      | (ds, []) => some (if negative then -(digitsValue ds : Int) else digitsValue ds)
      | (_, _ :: _) => none
    else none

/-- The unsigned decimal `digits * 10 ^ exponent` that the characters spell. -/
def readDecimal (cs : List Char) : Option (Nat × Int) :=
  let (whole, rest) := spanDigits cs
  let (fraction, rest) := match rest with
    | '.' :: rest => spanDigits rest
    | rest => ([], rest)
  if whole.isEmpty && fraction.isEmpty then none
  else (readExponent rest).map fun e => (digitsValue (whole ++ fraction), e - fraction.length)

/-- The unsigned pattern nearest to `digits * 10 ^ exponent`. Beyond five hundred places on either
side the answer is infinity or zero, so no power is formed there. -/
def nearestDecimal (f : Format) (digits : Nat) (exponent : Int) : Nat :=
  let size : Int := exponent + (Nat.toDigits 10 digits).length
  if digits = 0 then 0
  else if 500 < size then f.infinity
  else if size < -500 then 0
  else
    let (num, den) := scaleByTen digits exponent
    f.nearest num den

/-- The unsigned pattern of the characters after the sign. -/
def readUnsigned (cs : List Char) : Option Nat :=
  let name := String.ofList (cs.map Char.toLower)
  if name = "inf" ∨ name = "infinity" then some binary64.infinity
  else if name = "nan" then some binary64.quietNaN
  else (readDecimal cs).map fun (d, e) => nearestDecimal binary64 d e

/-- The 64-bit number that the characters spell. -/
def readBinary64 (cs : List Char) : Except BinaryFlaw UInt64 :=
  let (negative, rest) : Bool × List Char := match cs with
    | '-' :: rest => (true, rest)
    | '+' :: rest => (false, rest)
    | rest => (false, rest)
  if cs.isEmpty then .error .empty
  else
    match readUnsigned rest with
    | none => .error .invalid
    | some bits => .ok (UInt64.ofNat (binary64.signed negative bits))

end MarkerIndex.Number
