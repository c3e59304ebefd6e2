import GuidedGrammar.Binary.Reading

/-!
# Integers within the range of 64 bits

A numeral that shows an integer of a word is not too large for a 64-bit number
(`Numeral.isSome_toBinary64?`), nor is any numeral that can be read as a 32-bit number. The reading
rounds twice, once for the integer and once for the product with the power of ten. Neither rounding
needs to be known exactly: a magnitude counts units of its last place, and the bound
`BinaryFormat.nearest_le` on that count in terms of binary lengths stays far below infinity.
-/

namespace GuidedGrammar

/-! ### Powers of two -/

theorem twoTo_pos (k : Nat) : 0 < twoTo k :=
  Nat.two_pow_pos k

theorem twoTo_add (j k : Nat) : twoTo (j + k) = twoTo j * twoTo k :=
  Nat.pow_add 2 j k

theorem twoTo_le_twoTo {j k : Nat} (h : j ≤ k) : twoTo j ≤ twoTo k :=
  Nat.pow_le_pow_right (by decide) h

theorem lt_twoTo_log2 (n : Nat) : n < twoTo (n.log2 + 1) :=
  Nat.lt_log2_self

theorem twoTo_log2_le {n : Nat} (h : n ≠ 0) : twoTo n.log2 ≤ n :=
  Nat.log2_self_le h

theorem log2_le_of_lt_twoTo {n k : Nat} (h : n < twoTo (k + 1)) : n.log2 ≤ k := by
  rcases Nat.eq_zero_or_pos n with rfl | hn
  · exact Nat.zero_le _
  · exact Nat.le_of_lt_succ ((Nat.log2_lt (Nat.ne_of_gt hn)).2 h)

/-! ### Bounds on rounding -/

theorem roundHalfEven_le (num den : Nat) : roundHalfEven num den ≤ num / den + 1 := by
  unfold roundHalfEven
  simp only
  split
  · omega
  · split <;> omega

namespace BinaryFormat

theorem floorLog2_le (num den : Nat) : floorLog2 num den ≤ (num.log2 : Int) - den.log2 := by
  unfold floorLog2
  simp only
  split <;> omega

theorem le_floorLog2 (num den : Nat) : (num.log2 : Int) - den.log2 - 1 ≤ floorLog2 num den := by
  unfold floorLog2
  simp only
  split <;> omega

/-- How many units a fraction holds, by the binary lengths of its terms. -/
theorem quotient_lt {num den bits : Nat} {unit : Int} (hden : den ≠ 0)
    (h : (num.log2 : Int) - den.log2 - 1 - bits ≤ unit) :
    num * twoTo (-unit).toNat / (den * twoTo unit.toNat) < twoTo (bits + 2) := by
  have hpos : 0 < den * twoTo unit.toNat :=
    Nat.mul_pos (Nat.pos_of_ne_zero hden) (twoTo_pos _)
  rw [Nat.div_lt_iff_lt_mul hpos]
  -- both sides are compared as powers of two, where the unit cancels
  calc num * twoTo (-unit).toNat
      < twoTo (num.log2 + 1) * twoTo (-unit).toNat :=
        Nat.mul_lt_mul_of_pos_right (lt_twoTo_log2 num) (twoTo_pos _)
    _ = twoTo (num.log2 + 1 + (-unit).toNat) := (twoTo_add ..).symm
    _ ≤ twoTo (bits + 2 + (den.log2 + unit.toNat)) := twoTo_le_twoTo (by omega)
    _ = twoTo (bits + 2) * (twoTo den.log2 * twoTo unit.toNat) := by
        rw [twoTo_add, twoTo_add den.log2]
    _ ≤ twoTo (bits + 2) * (den * twoTo unit.toNat) :=
        Nat.mul_le_mul_left _ (Nat.mul_le_mul_right _ (twoTo_log2_le hden))

/-- **The nearest magnitude is bounded** by the binary lengths of the terms. -/
theorem nearest_le (f : BinaryFormat) (num : Nat) {den : Nat} (hden : den ≠ 0) :
    f.nearest num den ≤
      (((num.log2 : Int) - den.log2 - f.fractionBits - f.leastExponent).toNat + 4) *
        twoTo f.fractionBits := by
  rw [nearest]
  split
  · exact Nat.zero_le _
  · have hle := floorLog2_le num den
    have hge := le_floorLog2 num den
    generalize hunit : max f.leastExponent (floorLog2 num den - f.fractionBits) = unit
    -- the unit is at least that of the leading bit, so the count of units has few bits
    have hquotient : num * twoTo (-unit).toNat / (den * twoTo unit.toNat) <
        twoTo (f.fractionBits + 2) := quotient_lt hden (by omega)
    have hcount := roundHalfEven_le (num * twoTo (-unit).toNat) (den * twoTo unit.toNat)
    -- above the least exponent, each doubling of the unit adds one run of fractions
    have hscale : (unit - f.leastExponent).toNat ≤
        ((num.log2 : Int) - den.log2 - f.fractionBits - f.leastExponent).toNat := by omega
    have hmul := Nat.mul_le_mul_right (twoTo f.fractionBits) hscale
    have hfour : twoTo (f.fractionBits + 2) = twoTo f.fractionBits * 4 := twoTo_add ..
    simp only
    rw [Nat.add_mul]
    omega

theorem significand_lt (f : BinaryFormat) (magnitude : Nat) :
    f.significand magnitude < twoTo (f.fractionBits + 1) := by
  have hmod := Nat.mod_lt magnitude (twoTo_pos f.fractionBits)
  have htwo : twoTo (f.fractionBits + 1) = twoTo f.fractionBits * 2 := twoTo_add ..
  rw [significand]
  split <;> omega

theorem denominator_ne_zero (f : BinaryFormat) (magnitude : Nat) : f.denominator magnitude ≠ 0 :=
  Nat.ne_of_gt (twoTo_pos _)

/-! ### Magnitudes of 64-bit numbers -/

/-- How many places from zero the magnitude of a fraction may be. -/
theorem nearest_double_le {num den bits : Nat} (hden : den ≠ 0) (hbits : 52 ≤ bits)
    (h : num < twoTo (bits + 1)) :
    double.nearest num den ≤ (bits + 1026) * twoTo double.fractionBits := by
  have hbound := double.nearest_le num hden
  have hlog : num.log2 ≤ bits := log2_le_of_lt_twoTo h
  have hleast : double.leastExponent = -1074 := by decide
  have hfraction : double.fractionBits = 52 := rfl
  refine Nat.le_trans hbound (Nat.mul_le_mul_right _ ?_)
  omega

theorem numerator_double_lt {magnitude : Nat} (h : magnitude ≤ 1089 * twoTo double.fractionBits) :
    double.numerator magnitude < twoTo 67 := by
  have hplace : magnitude / twoTo double.fractionBits ≤ 1089 :=
    Nat.div_le_of_le_mul (Nat.mul_comm .. ▸ h)
  have hexponent : (double.exponent magnitude).toNat ≤ 14 := by
    have hleast : double.leastExponent = -1074 := by decide
    rw [exponent, hleast]
    omega
  calc double.numerator magnitude
      < twoTo 53 * twoTo (double.exponent magnitude).toNat :=
        Nat.mul_lt_mul_of_pos_right (double.significand_lt magnitude) (twoTo_pos _)
    _ ≤ twoTo 53 * twoTo 14 := Nat.mul_le_mul_left _ (twoTo_le_twoTo hexponent)
    _ = twoTo 67 := (twoTo_add ..).symm

/-- The product of a word with one is finite. -/
theorem mul_one_lt_infinity {n : Nat} (h : n < twoTo 64) :
    double.mul (double.nearest n 1) (double.nearest 1 1) < double.infinity := by
  have hmagnitude : double.nearest n 1 ≤ 1089 * twoTo double.fractionBits :=
    nearest_double_le Nat.one_ne_zero (by decide) h
  -- the first numerator is below two to the 67, and that of one is two to the 52
  have hnum : double.numerator (double.nearest n 1) * double.numerator (double.nearest 1 1) <
      twoTo (118 + 1) := by
    have hone : double.numerator (double.nearest 1 1) = twoTo 52 := by decide
    calc double.numerator (double.nearest n 1) * double.numerator (double.nearest 1 1)
        < twoTo 67 * twoTo 52 :=
          hone ▸ Nat.mul_lt_mul_of_pos_right (numerator_double_lt hmagnitude) (twoTo_pos 52)
      _ = twoTo (118 + 1) := (twoTo_add ..).symm
  have hden := Nat.mul_ne_zero (double.denominator_ne_zero (double.nearest n 1))
    (double.denominator_ne_zero (double.nearest 1 1))
  have hproduct : double.mul (double.nearest n 1) (double.nearest 1 1) ≤
      1144 * twoTo double.fractionBits := nearest_double_le hden (by decide) hnum
  exact Nat.lt_of_le_of_lt hproduct (by decide)

end BinaryFormat

/-! ### Numerals of words -/

namespace Numeral

/-- Digits are taken as long as the number they lead to fits. -/
theorem takeWord_eq {n : Nat} {ds : List Digit}
    (h : ds.foldl (fun n d => 10 * n + d.val) n < wordLimit) :
    takeWord n ds = (ds.foldl (fun n d => 10 * n + d.val) n, []) := by
  -- more digits never make the number smaller, so no digit is refused on the way
  have hle : ∀ (ds : List Digit) (n : Nat), n ≤ ds.foldl (fun n d => 10 * n + d.val) n := by
    intro ds
    induction ds with
    | nil => exact fun n => Nat.le_refl n
    | cons d ds ih => exact fun n => Nat.le_trans (by omega) (ih (10 * n + d.val))
  induction ds generalizing n with
  | nil => rfl
  | cons d ds ih =>
    have hfits : 10 * n + d.val < wordLimit := Nat.lt_of_le_of_lt (hle ds _) h
    rw [takeWord, if_pos hfits, List.foldl_cons]
    exact ih h

theorem wordAndPower_of_isWhole {x : Numeral} (hwhole : x.isWhole = true)
    (h : x.whole < wordLimit) : x.wordAndPower = (x.whole, 0) := by
  obtain ⟨negative, whole, fraction, exponent⟩ := x
  simp only [isWhole, Bool.and_eq_true, List.isEmpty_iff, Option.isNone_iff_eq_none] at hwhole
  obtain ⟨rfl, rfl⟩ := hwhole
  have hdigits : takeWord 0 (Digits.ofNat whole) = (whole, []) := by
    have hvalue := Digits.toNat_ofNat whole
    rw [Digits.toNat] at hvalue
    rw [takeWord_eq (by rwa [hvalue]), hvalue]
  simp [wordAndPower, hdigits, takeWord]

/-- **An integer of a word is not too large** for a 64-bit number. -/
theorem isSome_toBinary64? {x : Numeral} (h : x.isWordInteger = true) :
    x.toBinary64?.isSome = true := by
  simp only [isWordInteger, Bool.and_eq_true] at h
  obtain ⟨hwhole, hrange⟩ := h
  -- of either sign, a word has at most 64 bits
  have hlimit : x.whole < twoTo 64 := by
    have hhalf : twoTo 63 < twoTo 64 := by decide
    have hword : wordLimit = twoTo 64 := rfl
    split at hrange
    · simp only [Bool.and_eq_true, decide_eq_true_eq] at hrange
      omega
    · simp only [decide_eq_true_eq] at hrange
      omega
  have hproduct := BinaryFormat.mul_one_lt_infinity hlimit
  -- the power is zero, and multiplying by one does not reach infinity
  have hscale : (scale (BinaryFormat.double.nearest x.whole 1) 0).isSome = true := by
    have hfactor : BinaryFormat.double.nearest (tenTo (0 : Int).natAbs) 1 =
        BinaryFormat.double.nearest 1 1 := rfl
    rw [scale, if_pos (by decide), if_pos (Int.le_refl 0), hfactor, if_pos hproduct]
    rfl
  rw [toBinary64?, wordAndPower_of_isWhole hwhole hlimit]
  simpa using hscale

theorem isSome_toBinary64?_of_toBinary32? {x : Numeral} {y : Binary32}
    (h : x.toBinary32? = some y) : x.toBinary64?.isSome = true := by
  rw [toBinary32?] at h
  split at h
  · next hword => exact isSome_toBinary64? hword
  · exact Option.isSome_of_mem (Option.map_eq_some_iff.1 h).choose_spec.1

end Numeral

end GuidedGrammar
