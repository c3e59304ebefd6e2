import GuidedGrammar.Decimal.Power

/-!
# Binary floating-point numbers

A binary format is given by the widths of its fraction and of its exponent. A number of the
format is a word of one sign bit, the exponent and the fraction, in that order; this module reads
such words as signed multiples of powers of two, and names the special ones.
-/

namespace GuidedGrammar

/-- **A binary floating-point format**: the widths of its two fields. -/
structure BinaryFormat where
  /-- Bits of the fraction. -/
  fractionBits : Nat
  /-- Bits of the exponent. -/
  exponentBits : Nat
deriving DecidableEq, Repr

namespace BinaryFormat

/-- The format of 32 bits. -/
def single : BinaryFormat := ⟨23, 8⟩

/-- The format of 64 bits. -/
def double : BinaryFormat := ⟨52, 11⟩

/-- Bits of the exponent and the fraction together: all but the sign. -/
def magnitudeBits (f : BinaryFormat) : Nat :=
  f.exponentBits + f.fractionBits

/-- Bits of a whole word. -/
def width (f : BinaryFormat) : Nat :=
  f.magnitudeBits + 1

/-- The magnitude field of infinity: all exponent bits set and no fraction bit. A magnitude is
finite if it is less than this, and that of a NaN if it is greater. -/
def infinity (f : BinaryFormat) : Nat :=
  (twoTo f.exponentBits - 1) * twoTo f.fractionBits

/-- The magnitude field of the NaN that operations produce. -/
def quietNaN (f : BinaryFormat) : Nat :=
  f.infinity + twoTo (f.fractionBits - 1)

/-- The exponent of the power of two that the last fraction bit of the smallest numbers stands
for. -/
def leastExponent (f : BinaryFormat) : Int :=
  2 - (twoTo (f.exponentBits - 1) : Int) - f.fractionBits

/-- The factor `m` of the finite magnitude `m * 2 ^ q`. Exponent zero has no hidden bit. -/
def significand (f : BinaryFormat) (magnitude : Nat) : Nat :=
  if magnitude < twoTo f.fractionBits then magnitude
  else twoTo f.fractionBits + magnitude % twoTo f.fractionBits

/-- The exponent `q` of the finite magnitude `m * 2 ^ q`. -/
def exponent (f : BinaryFormat) (magnitude : Nat) : Int :=
  f.leastExponent + (magnitude / twoTo f.fractionBits - 1 : Nat)

/-- The numerator of a finite magnitude as a fraction. -/
def numerator (f : BinaryFormat) (magnitude : Nat) : Nat :=
  f.significand magnitude * twoTo (f.exponent magnitude).toNat

/-- The denominator of a finite magnitude as a fraction: a power of two. -/
def denominator (f : BinaryFormat) (magnitude : Nat) : Nat :=
  twoTo (-f.exponent magnitude).toNat

end BinaryFormat

/-- **A number of a binary format**, as its word. Two numbers are equal here when their words
are: the zeros of the two signs differ, and a NaN equals itself. -/
structure Binary (f : BinaryFormat) where
  /-- The word: the sign above the exponent above the fraction. -/
  bits : BitVec f.width
deriving DecidableEq, Repr

/-- Numbers of 32 bits. -/
abbrev Binary32 := Binary .single

/-- Numbers of 64 bits. -/
abbrev Binary64 := Binary .double

namespace Binary

variable {f : BinaryFormat}

/-- The number of the given sign and magnitude field. -/
def ofMagnitude (negative : Bool) (magnitude : Nat) : Binary f :=
  ⟨BitVec.ofNat f.width ((if negative then twoTo f.magnitudeBits else 0) + magnitude)⟩

/-- Whether the sign bit is set. -/
def negative (x : Binary f) : Bool :=
  x.bits.msb

/-- The magnitude field: all bits but the sign. -/
def magnitude (x : Binary f) : Nat :=
  x.bits.toNat % twoTo f.magnitudeBits

/-- Whether the number is no number. -/
def isNaN (x : Binary f) : Bool :=
  f.infinity < x.magnitude

/-- Whether the number is neither infinite nor a NaN. -/
def isFinite (x : Binary f) : Bool :=
  x.magnitude < f.infinity

/-- Positive zero. -/
def zero : Binary f :=
  ofMagnitude false 0

/-- The infinity of the given sign. -/
def infinite (negative : Bool) : Binary f :=
  ofMagnitude negative f.infinity

/-- The NaN that operations produce. -/
def nan : Binary f :=
  ofMagnitude false f.quietNaN

instance : Inhabited (Binary f) := ⟨zero⟩

end Binary

end GuidedGrammar
