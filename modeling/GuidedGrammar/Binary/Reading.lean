import GuidedGrammar.Binary.Rounding
import GuidedGrammar.Decimal.Numeral

/-!
# Reading a numeral as a binary number

A numeral is read as a whole number times a power of ten, in 64-bit arithmetic. The whole number
takes the digits of the numeral, from the left, as long as it fits in a 64-bit word; digits
before the point that no longer fit raise the power of ten, digits after the point that no longer
fit are dropped. The whole number is rounded once, and multiplying or dividing it by the power of
ten rounds once more. So up to fifteen digits with a power of ten of at most 22 are read to the
nearest number, and longer numerals may be one place off. A numeral beyond the greatest finite
number is refused.
-/

namespace GuidedGrammar

namespace Numeral

/-- The whole numbers below this fit in a word. -/
def wordLimit : Nat := UInt64.size

/-- Takes digits into the whole number `n` while it fits. The result is the number and the digits
that were not taken. -/
def takeWord (n : Nat) : List Digit → Nat × List Digit
  | [] => (n, [])
  | d :: ds =>
    if 10 * n + d.val < wordLimit then takeWord (10 * n + d.val) ds else (n, d :: ds)

/-- **Whole number and power of ten** of the numeral, sign apart, as far as they fit. -/
def wordAndPower (x : Numeral) : Nat × Int :=
  let (n, excess) := takeWord 0 (Digits.ofNat x.whole)
  let (m, dropped) := takeWord n x.fraction
  (m, (excess.length : Int) - (x.fraction.length - dropped.length : Nat) + x.exponent.getD 0)

/-- The greatest power of ten that is used as a factor in one step. -/
def greatestStep : Nat := 308

/-- The magnitude `m * 10 ^ power`, rounded at each step. Too small a power is divided out in
several steps. Nothing results if the product is infinite. -/
def scale (magnitude : Nat) (power : Int) : Option Nat :=
  if power.natAbs ≤ greatestStep then
    let factor := BinaryFormat.double.nearest (tenTo power.natAbs) 1
    if 0 ≤ power then
      let product := BinaryFormat.double.mul magnitude factor
      if product < BinaryFormat.double.infinity then some product else none
    else some (BinaryFormat.double.div magnitude factor)
  else if magnitude = 0 then some 0
  else if 0 ≤ power then none
  else
    scale (BinaryFormat.double.div magnitude (BinaryFormat.double.nearest (tenTo greatestStep) 1))
      (power + greatestStep)
termination_by power.natAbs
decreasing_by
  have : greatestStep = 308 := rfl
  omega

/-- **The 64-bit number of a numeral**, unless it is too large. -/
def toBinary64? (x : Numeral) : Option Binary64 :=
  let (n, power) := x.wordAndPower
  (scale (BinaryFormat.double.nearest n 1) power).map (Binary.ofMagnitude x.negative)

/-- Whether the numeral shows an integer that a signed or an unsigned word holds. The integer
zero with a minus sign is none of these. -/
def isWordInteger (x : Numeral) : Bool :=
  x.isWhole && (if x.negative then 0 < x.whole && x.whole ≤ twoTo 63 else x.whole < wordLimit)

/-- **The 32-bit number of a numeral**, unless it is too large for 64 bits. An integer is rounded
once; any other numeral is read as a 64-bit number and rounded to 32 bits, which may give
infinity. -/
def toBinary32? (x : Numeral) : Option Binary32 :=
  if x.isWordInteger then some (Binary.ofNat x.negative x.whole)
  else x.toBinary64?.map (Binary.convert .single)

end Numeral

end GuidedGrammar
