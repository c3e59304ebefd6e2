import GuidedGrammar.Binary.Rounding
import GuidedGrammar.Decimal.Numeral

/-!
# The shortest decimal of a binary number

A finite number of a binary format is written with the fewest decimal digits that round to it.
For one digit, two digits, and so on, the search looks at the two neighbours of the number on
the decimal grid of that many digits. The first grid with a neighbour that rounds to the number
wins; of two such neighbours the nearer one is taken, and a stated rule decides between equally
near ones.
-/

namespace GuidedGrammar

/-- Which of two equally near decimals is taken. -/
inductive Tie where
  /-- The one with the even last digit. -/
  | toEven
  /-- The greater one. -/
  | up
deriving DecidableEq, Repr

/-- **A positive decimal** `0.d₁d₂… * 10 ^ (exponent + 1)`: its digits, and the power of ten that
the first of them stands for. -/
structure ScaledDigits where
  /-- The digits, the most significant first. -/
  digits : List Digit
  /-- The power of ten of the first digit. -/
  exponent : Int
deriving DecidableEq, Repr

/-- The greatest `e` with `10 ^ e ≤ num / den`, for a positive fraction. -/
def floorLog10 (num den : Nat) : Int :=
  if den ≤ num then (Digits.count (num / den) : Int) - 1
  else
    let places := Digits.count (den / num)
    if num * tenTo (places - 1) = den then 1 - (places : Int) else -(places : Int)

namespace BinaryFormat

/-- Whether the decimal `significand * 10 ^ power` rounds to the magnitude. -/
def readsAs (f : BinaryFormat) (magnitude significand : Nat) (power : Int) : Bool :=
  f.nearest (significand * tenTo power.toNat) (tenTo (-power).toNat) == magnitude

/-- The decimal multiple of `10 ^ power` that rounds to the magnitude and is nearest to it, if
one of the two multiples around the magnitude rounds to it. -/
def onGrid (f : BinaryFormat) (tie : Tie) (magnitude : Nat) (power : Int) : Option Nat :=
  let num := f.numerator magnitude * tenTo (-power).toNat
  let den := f.denominator magnitude * tenTo power.toNat
  let below := num / den
  let twice := 2 * (num % den)
  match f.readsAs magnitude below power, f.readsAs magnitude (below + 1) power with
  | true, true =>
    if twice < den then some below
    else if den < twice then some (below + 1)
    else
      match tie with
      | .toEven => some (below + below % 2)
      | .up => some (below + 1)
  | true, false => some below
  | false, true => some (below + 1)
  | false, false => none

/-- Tries the grids of `count`, `count + 1`, … digits, `attempts` of them; the last one is taken
in any case. `exponent` is the power of ten of the first digit. -/
def shortestFrom (f : BinaryFormat) (tie : Tie) (magnitude : Nat) (exponent : Int) :
    (attempts count : Nat) → Nat × Int
  | 0, count =>
    let power := exponent + 1 - count
    (f.numerator magnitude * tenTo (-power).toNat / (f.denominator magnitude * tenTo power.toNat),
      power)
  | attempts + 1, count =>
    let power := exponent + 1 - count
    match f.onGrid tie magnitude power with
    | some significand => (significand, power)
    | none => f.shortestFrom tie magnitude exponent attempts (count + 1)

/-- **The fewest digits that round to a positive finite magnitude**, without zeros at the end. As
many decimal digits as the format has bits are always enough. -/
def shortest (f : BinaryFormat) (tie : Tie) (magnitude : Nat) : ScaledDigits :=
  let exponent := floorLog10 (f.numerator magnitude) (f.denominator magnitude)
  let (significand, power) := f.shortestFrom tie magnitude exponent (f.fractionBits + 1) 1
  let digits := Digits.ofNat significand
  ⟨Digits.trimZeros digits, power + digits.length - 1⟩

end BinaryFormat

end GuidedGrammar
