import GuidedGrammar.Binary.Format

/-!
# Rounding to a binary format

Every fraction of natural numbers has a nearest number in a binary format. Of two equally near
ones the one with the even fraction is taken, and what lies beyond the greatest finite number
rounds to infinity. All arithmetic is exact arithmetic on natural numbers followed by one
rounding.
-/

namespace GuidedGrammar

/-- **The quotient rounded to the nearest natural number**, a half to the even neighbour. -/
def roundHalfEven (num den : Nat) : Nat :=
  let quotient := num / den
  let twice := 2 * (num % den)
  if twice < den then quotient
  else if den < twice then quotient + 1
  else quotient + quotient % 2

namespace BinaryFormat

/-- The greatest `k` with `2 ^ k ≤ num / den`, for a positive fraction. The lengths of the two
numbers determine it up to one. -/
def floorLog2 (num den : Nat) : Int :=
  let k : Int := (num.log2 : Int) - den.log2
  if num * twoTo (-k).toNat < den * twoTo k.toNat then k - 1 else k

/-- **The magnitude nearest to a fraction.** The fraction is measured in units of the last place
that the format has at its size, and rounded to a whole number of them. Such a count, with the
exponent of its unit above it, is the magnitude field itself: a count that rounds up past the
last place of its size carries into the exponent. -/
def nearest (f : BinaryFormat) (num den : Nat) : Nat :=
  if num = 0 then 0
  else
    let unit := max f.leastExponent (floorLog2 num den - f.fractionBits)
    let count := roundHalfEven (num * twoTo (-unit).toNat) (den * twoTo unit.toNat)
    min f.infinity ((unit - f.leastExponent).toNat * twoTo f.fractionBits + count)

/-- The product of two finite magnitudes, rounded once. -/
def mul (f : BinaryFormat) (a b : Nat) : Nat :=
  f.nearest (f.numerator a * f.numerator b) (f.denominator a * f.denominator b)

/-- The quotient of two finite magnitudes, rounded once. -/
def div (f : BinaryFormat) (a b : Nat) : Nat :=
  f.nearest (f.numerator a * f.denominator b) (f.denominator a * f.numerator b)

end BinaryFormat

namespace Binary

variable {f : BinaryFormat}

/-- The number nearest to a natural number with a sign. -/
def ofNat (negative : Bool) (n : Nat) : Binary f :=
  ofMagnitude negative (f.nearest n 1)

/-- **The nearest number of another format.** Infinities and NaNs are kept as such. -/
def convert (g : BinaryFormat) (x : Binary f) : Binary g :=
  if x.isNaN then nan
  else if x.isFinite then
    ofMagnitude x.negative (g.nearest (f.numerator x.magnitude) (f.denominator x.magnitude))
  else infinite x.negative

end Binary

end GuidedGrammar
