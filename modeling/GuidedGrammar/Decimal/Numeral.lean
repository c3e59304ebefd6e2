/-!
# Decimal numerals

A numeral is a number as it is written: a sign, a whole part, the digits after the point and an
exponent. It keeps what the text shows and no more, so that `1`, `1.0` and `10e-1` are three
numerals of one value. Numbers in other representations are read from numerals and written
through them.

Main statement: the digits of a natural number stand for that number
(`Digits.toNat_ofNat`).
-/

namespace GuidedGrammar

/-- **A decimal digit.** -/
abbrev Digit := Fin 10

namespace Digit

/-- The digit zero. -/
def zero : Digit :=
  ⟨0, by decide⟩

/-- The character of a digit. -/
def toChar (d : Digit) : Char :=
  Char.ofNat ('0'.toNat + d.val)

/-- The digit that a character shows, if it is one of the ten. -/
def ofChar? (c : Char) : Option Digit :=
  if h : '0'.toNat ≤ c.toNat ∧ c.toNat < '0'.toNat + 10 then
    some ⟨c.toNat - '0'.toNat, by omega⟩
  else
    none

end Digit

/-! ### Digit sequences -/

namespace Digits

/-- The number that a digit sequence stands for, the most significant digit first. -/
def toNat (ds : List Digit) : Nat :=
  ds.foldl (fun n d => 10 * n + d.val) 0

/-- **The digits of a number**, the most significant first and without leading zeros. Zero has
the one digit `0`. -/
def ofNat (n : Nat) : List Digit :=
  if n < 10 then [⟨n % 10, Nat.mod_lt _ (by decide)⟩]
  else ofNat (n / 10) ++ [⟨n % 10, Nat.mod_lt _ (by decide)⟩]
termination_by n

@[simp]
theorem toNat_ofNat (n : Nat) : toNat (ofNat n) = n := by
  induction n using Nat.strongRecOn with
  | _ n ih =>
    rw [ofNat]
    by_cases hn : n < 10
    · simp [hn, toNat, Nat.mod_eq_of_lt hn]
    · have ih := ih (n / 10) (Nat.div_lt_self (by omega) (by decide))
      simp only [hn, if_false]
      rw [toNat, List.foldl_append, ← toNat, ih]
      simp only [List.foldl_cons, List.foldl_nil]
      omega

/-- How many digits a number has. -/
def count (n : Nat) : Nat :=
  (ofNat n).length

/-- The same digits without the zeros at the end. -/
def trimZeros (ds : List Digit) : List Digit :=
  (ds.reverse.dropWhile (· == .zero)).reverse

end Digits

/-! ### Numerals -/

/-- **A decimal numeral** as it is written. -/
structure Numeral where
  /-- Whether a minus sign is written. -/
  negative : Bool
  /-- What stands before the point. -/
  whole : Nat
  /-- The digits after the point. Without any, no point is written. -/
  fraction : List Digit
  /-- The written power of ten, if one is written. -/
  exponent : Option Int
deriving DecidableEq, Repr, Inhabited

namespace Numeral

/-- The numeral of a natural number: digits only. -/
def ofNat (n : Nat) : Numeral :=
  ⟨false, n, [], none⟩

/-- Whether the numeral shows neither a point nor an exponent. -/
def isWhole (x : Numeral) : Bool :=
  x.fraction.isEmpty && x.exponent.isNone

/-- The natural number of a numeral that shows neither sign, point nor exponent. -/
def toNat? (x : Numeral) : Option Nat :=
  if x.isWhole && !x.negative then some x.whole else none

/-- The characters of an exponent. The sign is always written. -/
def renderExponent (e : Int) : List Char :=
  'e' :: (if e < 0 then '-' else '+') :: (Digits.ofNat e.natAbs).map Digit.toChar

/-- **The characters of a numeral.** -/
def render (x : Numeral) : List Char :=
  (if x.negative then ['-'] else []) ++ (Digits.ofNat x.whole).map Digit.toChar ++
    (if x.fraction.isEmpty then [] else '.' :: x.fraction.map Digit.toChar) ++
    (match x.exponent with
      | none => []
      | some e => renderExponent e)

end Numeral

end GuidedGrammar
