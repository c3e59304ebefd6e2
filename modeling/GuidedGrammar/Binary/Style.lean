import GuidedGrammar.Binary.Shortest

/-!
# Written forms of binary numbers

How the shortest digits of a number are laid out is a matter of style: which sizes are written
positionally and which with an exponent, and whether a whole number shows a zero after the point.
This module turns a finite number into a numeral of a given style and names the styles of this
library.
-/

namespace GuidedGrammar

/-- **How the digits of a number are laid out.** -/
structure NumeralStyle where
  /-- The choice between equally near decimals. -/
  tie : Tie
  /-- Whether a number whose first digit stands for this power of ten is written positionally. -/
  positional : Int → Bool
  /-- Whether a whole number written positionally shows a zero after the point. -/
  pointZero : Bool

namespace NumeralStyle

/-- Data of 64 bits: positional from `1e-5` up to but not including `1e16`. -/
def doubleData : NumeralStyle :=
  ⟨.toEven, fun e => -5 ≤ e && e < 16, true⟩

/-- Data of 32 bits: positional from `1e-6` up to but not including `1e13`. -/
def singleData : NumeralStyle :=
  ⟨.toEven, fun e => -6 ≤ e && e < 13, true⟩

/-- Text for people: always positional, and a whole number shows no point. -/
def display : NumeralStyle :=
  ⟨.up, fun _ => true, false⟩

/-- The digits after the point of a whole number. -/
def wholeFraction (style : NumeralStyle) : List Digit :=
  if style.pointZero then [.zero] else []

/-- The numeral of zero. -/
def zero (style : NumeralStyle) (negative : Bool) : Numeral :=
  ⟨negative, 0, style.wholeFraction, none⟩

/-- **The numeral of scaled digits.** Positionally, the point falls after the digit of the units
and zeros fill the places without a digit; with an exponent, it falls after the first digit. -/
def layOut (style : NumeralStyle) (negative : Bool) (x : ScaledDigits) : Numeral :=
  if style.positional x.exponent then
    if x.exponent < 0 then
      ⟨negative, 0, List.replicate (-x.exponent - 1).toNat .zero ++ x.digits, none⟩
    else
      let places := x.exponent.toNat + 1
      if x.digits.length ≤ places then
        ⟨negative, Digits.toNat x.digits * tenTo (places - x.digits.length), style.wholeFraction,
          none⟩
      else
        ⟨negative, Digits.toNat (x.digits.take places), x.digits.drop places, none⟩
  else
    ⟨negative, Digits.toNat (x.digits.take 1), x.digits.drop 1, some x.exponent⟩

end NumeralStyle

namespace Binary

variable {f : BinaryFormat}

/-- **The numeral of a finite number.** Infinities and NaNs have none. -/
def toNumeral? (style : NumeralStyle) (x : Binary f) : Option Numeral :=
  if x.isFinite then
    if x.magnitude = 0 then some (style.zero x.negative)
    else some (style.layOut x.negative (f.shortest style.tie x.magnitude))
  else none

/-- **The text of a number for people.** -/
def display (x : Binary f) : String :=
  match x.toNumeral? .display with
  | some numeral => String.ofList numeral.render
  | none => if x.isNaN then "NaN" else if x.negative then "-inf" else "inf"

end Binary

end GuidedGrammar
