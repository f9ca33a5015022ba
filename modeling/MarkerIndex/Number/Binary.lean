/-
Binary floating point numbers as bit patterns.

A `Format` fixes the width of the fraction and exponent fields; a number is its bits. `magnitude`
gives the exact value of a finite pattern as a natural multiple of a power of two, and `nearest`
the pattern closest to a ratio, a tie going to the even pattern. Everything is exact arithmetic on
natural numbers, so each conversion between formats is one rounding of an exact value.
-/
namespace MarkerIndex.Number

def twoTo (n : Nat) : Nat := Nat.pow 2 n

def tenTo (n : Nat) : Nat := Nat.pow 10 n

/-- The layout of a binary format: sign, exponent field, fraction field. -/
structure Format where
  fractionBits : Nat
  exponentBits : Nat

def binary32 : Format := ⟨23, 8⟩

def binary64 : Format := ⟨52, 11⟩

namespace Format

/-- The weight of the sign bit. -/
def signWeight (f : Format) : Nat := twoTo (f.fractionBits + f.exponentBits)

/-- The pattern of positive infinity, above every positive finite pattern. -/
def infinity (f : Format) : Nat := (twoTo f.exponentBits - 1) * twoTo f.fractionBits

/-- The pattern of the plain number that stands for no number. -/
def quietNaN (f : Format) : Nat := f.infinity + twoTo (f.fractionBits - 1)

def isNegative (f : Format) (bits : Nat) : Bool := f.signWeight ≤ bits

/-- The pattern without its sign. -/
def unsigned (f : Format) (bits : Nat) : Nat := bits % f.signWeight

/-- Neither a number nor an infinity. -/
def isNaN (f : Format) (bits : Nat) : Bool := f.infinity < f.unsigned bits

def isInfinite (f : Format) (bits : Nat) : Bool := f.unsigned bits == f.infinity

/-- The exponent of the last place of the smallest numbers. -/
def leastExponent (f : Format) : Int := 2 - (twoTo (f.exponentBits - 1) : Int) - f.fractionBits

/-- `(m, e)` with `m * 2 ^ e` the absolute value of a finite pattern. -/
def magnitude (f : Format) (bits : Nat) : Nat × Int :=
  let exponent := f.unsigned bits / twoTo f.fractionBits
  let fraction := f.unsigned bits % twoTo f.fractionBits
  if exponent = 0 then (fraction, f.leastExponent)
  else (twoTo f.fractionBits + fraction, f.leastExponent + (exponent - 1 : Nat))

end Format

/-! ## Ratios -/

/-- `m * 2 ^ e` as a numerator and a denominator. -/
def scaleByTwo (m : Nat) (e : Int) : Nat × Nat :=
  if 0 ≤ e then (m * twoTo e.toNat, 1) else (m, twoTo (-e).toNat)

/-- `d * 10 ^ e` as a numerator and a denominator. -/
def scaleByTen (d : Nat) (e : Int) : Nat × Nat :=
  if 0 ≤ e then (d * tenTo e.toNat, 1) else (d, tenTo (-e).toNat)

/-- The whole number nearest to `num / den`, a tie going to the even one. -/
def divideToEven (num den : Nat) : Nat :=
  let q := num / den
  let twice := 2 * (num % den)
  if twice < den then q
  else if den < twice then q + 1
  else if q % 2 = 0 then q else q + 1

/-- The exponent of the greatest power of two that is at most `num / den`. -/
def floorLogTwo (num den : Nat) : Int :=
  let guess : Int := (num.log2 : Int) - (den.log2 : Int)
  let (a, b) := scaleByTwo den guess
  if a ≤ num * b then guess else guess - 1

/-- The unsigned pattern nearest to `num / den`. A carry out of the fraction raises the exponent by
itself, since patterns are ordered as the numbers they stand for. -/
def Format.nearest (f : Format) (num den : Nat) : Nat :=
  if num = 0 then 0
  else
    let least := f.leastExponent
    let place := max least (floorLogTwo num den - f.fractionBits)
    let (a, b) := scaleByTwo 1 place
    let significand := divideToEven (num * b) (den * a)
    min f.infinity ((place - least).toNat * twoTo f.fractionBits + significand)

/-! ## Conversions -/

/-- The pattern with a sign put on it. -/
def Format.signed (f : Format) (negative : Bool) (bits : Nat) : Nat :=
  if negative then f.signWeight + bits else bits

/-- The fraction of a pattern that is no number, carried to another width with its top bit set. -/
def carryPayload (source target : Format) (bits : Nat) : Nat :=
  let fraction := bits % twoTo source.fractionBits
  let moved := fraction * twoTo target.fractionBits / twoTo source.fractionBits
  let quiet := twoTo (target.fractionBits - 1)
  target.infinity + (quiet + moved % quiet)

/-- The pattern of `target` nearest to the number `bits` of `source`. -/
def convert (source target : Format) (bits : Nat) : Nat :=
  let unsigned :=
    if source.isNaN bits then carryPayload source target bits
    else if source.isInfinite bits then target.infinity
    else
      let (m, e) := source.magnitude bits
      let (num, den) := scaleByTwo m e
      target.nearest num den
  target.signed (source.isNegative bits) unsigned

/-- The 64-bit number of the same value. -/
def widen (bits : UInt32) : UInt64 :=
  UInt64.ofNat (convert binary32 binary64 bits.toNat)

/-- The nearest 32-bit number. -/
def narrow (bits : UInt64) : UInt32 :=
  UInt32.ofNat (convert binary64 binary32 bits.toNat)

/-- The 64-bit number nearest to a whole number. -/
def ofWhole (n : Int) : UInt64 :=
  UInt64.ofNat (binary64.signed (n < 0) (binary64.nearest n.natAbs 1))

end MarkerIndex.Number
