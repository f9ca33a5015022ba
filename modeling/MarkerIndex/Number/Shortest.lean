/-
The shortest decimal that reads back as a given binary number.

Every real strictly between the midpoints to the two neighbours rounds to the number, and so do the
midpoints when its significand is even. `shortest` looks on the grids of one, two, three, … decimal
digits for a point in that interval; on each grid only the two points around the number can lie in
it. The first grid with a hit decides the digit count, the nearer point the digits, and of two
points equally near the upper one is taken.
-/
import MarkerIndex.Number.Binary

namespace MarkerIndex.Number

/-- A decimal `0.d₁d₂… * 10 ^ exponent`, with no zero at either end of the digits. -/
structure Digits where
  digits : List Char
  exponent : Int
  deriving DecidableEq, Repr

/-- The reals that round to a number, all in units of a quarter of its last place. -/
structure Interval where
  low : Nat
  value : Nat
  high : Nat
  closed : Bool

namespace Interval

/-- The interval of the finite nonzero pattern `bits`, whose lower neighbour is only half as far
away when the fraction is zero above the smallest exponents. -/
def ofBits (f : Format) (bits : Nat) : Interval × Int :=
  let (m, e) := f.magnitude bits
  let narrowBelow := m = twoTo f.fractionBits ∧ e ≠ f.leastExponent
  (⟨4 * m - (if narrowBelow then 1 else 2), 4 * m, 4 * m + 2, m % 2 = 0⟩, e - 2)

/-- The point `point * scale` of a grid lies in the interval. -/
def holds (i : Interval) (scaled num den : Nat) : Bool :=
  if i.closed then i.low * num ≤ scaled * den && scaled * den ≤ i.high * num
  else i.low * num < scaled * den && scaled * den < i.high * num

end Interval

/-- The place of the first digit of `num / den`: the least `p` with `num / den < 10 ^ p`, for
ratios of at least `10 ^ (-400)`. -/
def leadingPlace (num den : Nat) : Int :=
  (Nat.toDigits 10 (num * tenTo 400 / den)).length - 400

/-- The multiple of `10 ^ place` in the interval that is nearest to the number, if there is one. -/
def onGrid (i : Interval) (num den : Nat) (place : Int) : Option Nat :=
  let (stepNum, stepDen) := scaleByTen 1 place
  let below := i.value * num * stepDen / (den * stepNum)
  let inside (c : Nat) : Bool := i.holds (c * stepNum) (num * stepDen) den
  let lower := below
  let upper := below + 1
  match inside lower, inside upper with
  | true, true =>
    if 2 * (i.value * num * stepDen) < (lower + upper) * (den * stepNum) then some lower
    else some upper
  | true, false => some lower
  | false, true => some upper
  | false, false => none

/-- The first hit on the grids of `count`, `count + 1`, … digits. -/
def searchGrids (i : Interval) (num den : Nat) (first : Int) : Nat → Nat → Option (Nat × Int)
  | 0, _ => none
  | fuel + 1, count =>
    let place := first - count
    match onGrid i num den place with
    | some c => some (c, place)
    | none => searchGrids i num den first fuel (count + 1)

/-- A decimal without the zeros at its end. -/
def Digits.ofScaled (c : Nat) (place : Int) : Digits :=
  let all := Nat.toDigits 10 c
  let kept := (all.reverse.dropWhile (· = '0')).reverse
  ⟨kept, place + all.length⟩

/-- The digits of the finite nonzero pattern `bits`. Seventeen always suffice for 64 bits. -/
def shortest (f : Format) (bits : Nat) : Digits :=
  let (i, e) := Interval.ofBits f bits
  let (num, den) := scaleByTwo 1 e
  match searchGrids i num den (leadingPlace (i.value * num) den) 20 1 with
  | some (c, place) => .ofScaled c place
  | none => ⟨['0'], 1⟩

end MarkerIndex.Number
