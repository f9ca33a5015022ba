/-
The texts of binary numbers.

Both texts show the shortest decimal that reads back. The plain text is always positional. The
exact text marks whole numbers by a zero after the point, and goes over to an exponent below one
ten-thousandth and from ten to the sixteenth on.
-/
import MarkerIndex.Number.Shortest

namespace MarkerIndex.Number

/-- How a number is laid out: what follows a whole number, and the numbers from and below which an
exponent is written, if ever. -/
structure Layout where
  wholeTail : String
  positional : Option ((Nat × Nat) × (Nat × Nat))

/-- Positional, whole numbers without a point. -/
def Layout.plain : Layout := ⟨"", none⟩

/-- Positional from `1e-4` to just below `1e16`, whole numbers with a zero after the point. -/
def Layout.exact : Layout := ⟨".0", some ((1, tenTo 4), (tenTo 16, 1))⟩

namespace Digits

private def zeros (n : Nat) : List Char := List.replicate n '0'

/-- All places written out. -/
def positional (wholeTail : String) (d : Digits) : String :=
  if d.exponent ≤ 0 then "0." ++ String.ofList (zeros (-d.exponent).toNat ++ d.digits)
  else
    let before := d.exponent.toNat
    if d.digits.length ≤ before then
      String.ofList (d.digits ++ zeros (before - d.digits.length)) ++ wholeTail
    else String.ofList (d.digits.take before) ++ "." ++ String.ofList (d.digits.drop before)

/-- One digit before the point, and the power of ten behind. -/
def scientific (d : Digits) : String :=
  let tail := d.digits.drop 1
  String.ofList (d.digits.take 1) ++ (if tail.isEmpty then "" else "." ++ String.ofList tail)
    ++ "e" ++ toString (d.exponent - 1)

end Digits

/-- The unsigned pattern lies where the layout is positional; zero always does. -/
def Layout.isPositional (l : Layout) (f : Format) (unsigned : Nat) : Bool :=
  match l.positional with
  | none => true
  | some ((lowNum, lowDen), (highNum, highDen)) =>
    unsigned == 0 || (f.nearest lowNum lowDen ≤ unsigned && unsigned < f.nearest highNum highDen)

/-- The text of a number in a layout. -/
def render (l : Layout) (f : Format) (bits : Nat) : String :=
  if f.isNaN bits then "NaN"
  else
    let sign := if f.isNegative bits then "-" else ""
    let unsigned := f.unsigned bits
    if f.isInfinite bits then sign ++ "inf"
    else if unsigned = 0 then sign ++ "0" ++ l.wholeTail
    else
      let d := shortest f unsigned
      sign ++ (if l.isPositional f unsigned then d.positional l.wholeTail else d.scientific)

end MarkerIndex.Number
