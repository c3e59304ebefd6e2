import Mathlib.Data.List.Basic
import GuidedGrammar.Text.Hex
import GuidedGrammar.Text.Utf8

/-!
# Reading UTF-8 back

Reading without failing reads well-formed bytes exactly (`decodeUtf8_utf8Bytes`): the bytes of one
character in front of any others are read as that character (`decodeFrom_utf8EncodeChar`). There is
one lemma for each number of bytes, about the low bits that they carry.
-/

namespace GuidedGrammar.Text

/-! ### Bytes as numbers -/

theorem toNat_ofNat_of_lt {n : Nat} (h : n < 256) : (UInt8.ofNat n).toNat = n := by
  rw [UInt8.toNat_ofNat', Nat.mod_eq_of_lt h]

theorem isWithin_ofNat {n : Nat} (h : n < 256) {low high : UInt8} :
    isWithin low high (UInt8.ofNat n) = true ↔ low.toNat ≤ n ∧ n ≤ high.toNat := by
  rw [isWithin, Bool.and_eq_true, decide_eq_true_iff, decide_eq_true_iff, UInt8.le_iff_toNat_le,
    UInt8.le_iff_toNat_le, toNat_ofNat_of_lt h]

/-- A byte above a range is not in it. -/
theorem isWithin_ofNat_add_of_lt {n m : Nat} (h : n + m < 256) {low high : UInt8}
    (hm : high.toNat < m) : isWithin low high (UInt8.ofNat (n + m)) = false := by
  rw [← Bool.not_eq_true, isWithin_ofNat h]
  omega

theorem not_ofNat_lt {n : Nat} (h : n < 256) (hn : 128 ≤ n) : ¬UInt8.ofNat n < 0x80 := by
  rw [UInt8.lt_iff_toNat_lt, toNat_ofNat_of_lt h]
  exact Nat.not_lt.2 hn

theorem ofNat_add_eq_iff {n m k : Nat} (h : n + m < 256) {b : UInt8} (hb : b.toNat = k + m) :
    UInt8.ofNat (n + m) = b ↔ n = k := by
  rw [← UInt8.toNat_inj, toNat_ofNat_of_lt h, hb, Nat.add_right_cancel_iff]

/-- The low bits of a byte, below its mark. -/
theorem toNat_ofNat_add_mod {n mark size : Nat} (h : n + mark < 256) (hn : n < size)
    (hmark : size ∣ mark) : (UInt8.ofNat (n + mark)).toNat % size = n := by
  rw [toNat_ofNat_of_lt h, Nat.add_mod, Nat.mod_eq_zero_of_dvd hmark, Nat.add_zero, Nat.mod_mod,
    Nat.mod_eq_of_lt hn]

theorem lowBits_ofNat {b : Nat} (h : b < 64) : lowBits (UInt8.ofNat (b + 128)) = b :=
  toNat_ofNat_add_mod (by omega) h (by decide)

/-- A byte that continues a character, where some lead bytes narrow its range. -/
theorem isWithin_continuation {b low high : Nat} (hb : b < 64) {lower upper : UInt8}
    (hlower : lower.toNat = low + 128) (hupper : upper.toNat = high + 127) {p q : Prop}
    [Decidable p] [Decidable q] (hp : p → low ≤ b) (hq : q → b < high) :
    isWithin (if p then lower else 0x80) (if q then upper else 0xbf) (UInt8.ofNat (b + 128)) =
      true := by
  rw [isWithin_ofNat (by omega)]
  constructor
  · split
    · next h =>
      rw [hlower]
      exact Nat.add_le_add_right (hp h) 128
    · exact Nat.le_add_left 128 b
  · split
    · next h =>
      rw [hupper]
      exact Nat.le_of_lt_succ (Nat.add_lt_add_right (hq h) 128)
    · exact Nat.le_of_lt_succ (Nat.add_lt_add_right hb 128)

theorem isContinuation_ofNat {b : Nat} (h : b < 64) :
    isContinuation (UInt8.ofNat (b + 128)) = true :=
  (isWithin_ofNat (by omega)).2
    ⟨Nat.le_add_left 128 b, Nat.le_of_lt_succ (Nat.add_lt_add_right h 128)⟩

theorem followsLead3_ofNat {a b : Nat} (ha : a < 16) (hb : b < 64) (hfirst : a = 0 → 32 ≤ b)
    (hsurrogate : a = 13 → b < 32) :
    followsLead3 (UInt8.ofNat (a + 224)) (UInt8.ofNat (b + 128)) = true := by
  have hzero : UInt8.ofNat (a + 224) = 0xe0 ↔ a = 0 := ofNat_add_eq_iff (by omega) rfl
  have hthirteen : UInt8.ofNat (a + 224) = 0xed ↔ a = 13 := ofNat_add_eq_iff (by omega) rfl
  exact isWithin_continuation hb rfl rfl (fun h => hfirst (hzero.1 h)) fun h =>
    hsurrogate (hthirteen.1 h)

theorem followsLead4_ofNat {a b : Nat} (ha : a < 8) (hb : b < 64) (hfirst : a = 0 → 16 ≤ b)
    (hlast : a = 4 → b < 16) :
    followsLead4 (UInt8.ofNat (a + 240)) (UInt8.ofNat (b + 128)) = true := by
  have hzero : UInt8.ofNat (a + 240) = 0xf0 ↔ a = 0 := ofNat_add_eq_iff (by omega) rfl
  have hfour : UInt8.ofNat (a + 240) = 0xf4 ↔ a = 4 := ofNat_add_eq_iff (by omega) rfl
  exact isWithin_continuation hb rfl rfl (fun h => hfirst (hzero.1 h)) fun h => hlast (hfour.1 h)

/-! ### One character -/

variable {a b c d : Nat} (done : String) (rest : List UInt8)

theorem decodeFrom_one (ha : a < 128) :
    decodeFrom done (UInt8.ofNat a :: rest) = decodeFrom (done.push (Char.ofNat a)) rest := by
  have hlt : UInt8.ofNat a < 0x80 := by
    rw [UInt8.lt_iff_toNat_lt, toNat_ofNat_of_lt (by omega)]
    exact ha
  rw [decodeFrom.eq_def]
  simp only [hlt, if_true, toNat_ofNat_of_lt (show a < 256 by omega)]

theorem decodeFrom_two (hlow : 2 ≤ a) (ha : a < 32) (hb : b < 64) :
    decodeFrom done (UInt8.ofNat (a + 192) :: UInt8.ofNat (b + 128) :: rest) =
      decodeFrom (done.push (charOfBits [a, b])) rest := by
  have hlead : isWithin 0xc2 0xdf (UInt8.ofNat (a + 192)) = true :=
    (isWithin_ofNat (by omega)).2 ⟨Nat.add_le_add_right hlow 192, by simp; omega⟩
  have hbits : (UInt8.ofNat (a + 192)).toNat % 32 = a :=
    toNat_ofNat_add_mod (by omega) (by omega) (by decide)
  have hlt : ¬UInt8.ofNat (a + 192) < 0x80 := not_ofNat_lt (by omega) (by omega)
  rw [decodeFrom.eq_def]
  simp only [hlt, hlead, isContinuation_ofNat hb, if_true, if_false, hbits, lowBits_ofNat hb]

theorem decodeFrom_three (ha : a < 16) (hb : b < 64) (hc : c < 64) (hfirst : a = 0 → 32 ≤ b)
    (hsurrogate : a = 13 → b < 32) :
    decodeFrom done
        (UInt8.ofNat (a + 224) :: UInt8.ofNat (b + 128) :: UInt8.ofNat (c + 128) :: rest) =
      decodeFrom (done.push (charOfBits [a, b, c])) rest := by
  -- the first byte is that of a character of three bytes
  have hlead2 : isWithin 0xc2 0xdf (UInt8.ofNat (a + 224)) = false :=
    isWithin_ofNat_add_of_lt (by omega) (by decide)
  have hlead3 : isWithin 0xe0 0xef (UInt8.ofNat (a + 224)) = true :=
    (isWithin_ofNat (by omega)).2 ⟨by simp, by simp; omega⟩
  have hbits : (UInt8.ofNat (a + 224)).toNat % 16 = a :=
    toNat_ofNat_add_mod (by omega) (by omega) (by decide)
  have hlt : ¬UInt8.ofNat (a + 224) < 0x80 := not_ofNat_lt (by omega) (by omega)
  rw [decodeFrom.eq_def]
  simp only [hlt, hlead2, hlead3, followsLead3_ofNat ha hb hfirst hsurrogate,
    isContinuation_ofNat hc, Bool.false_eq_true, if_true, if_false, hbits, lowBits_ofNat hb,
    lowBits_ofNat hc]

theorem decodeFrom_four (ha : a ≤ 4) (hb : b < 64) (hc : c < 64) (hd : d < 64)
    (hfirst : a = 0 → 16 ≤ b) (hlast : a = 4 → b < 16) :
    decodeFrom done
        (UInt8.ofNat (a + 240) :: UInt8.ofNat (b + 128) :: UInt8.ofNat (c + 128) ::
          UInt8.ofNat (d + 128) :: rest) =
      decodeFrom (done.push (charOfBits [a, b, c, d])) rest := by
  -- the first byte is that of a character of four bytes, and of no shorter one
  have hlead2 : isWithin 0xc2 0xdf (UInt8.ofNat (a + 240)) = false :=
    isWithin_ofNat_add_of_lt (by omega) (by decide)
  have hlead3 : isWithin 0xe0 0xef (UInt8.ofNat (a + 240)) = false :=
    isWithin_ofNat_add_of_lt (by omega) (by decide)
  have hlead4 : isWithin 0xf0 0xf4 (UInt8.ofNat (a + 240)) = true :=
    (isWithin_ofNat (by omega)).2 ⟨by simp, by simp; omega⟩
  have hbits : (UInt8.ofNat (a + 240)).toNat % 8 = a :=
    toNat_ofNat_add_mod (by omega) (by omega) (by decide)
  have hlt : ¬UInt8.ofNat (a + 240) < 0x80 := not_ofNat_lt (by omega) (by omega)
  rw [decodeFrom.eq_def]
  simp only [hlt, hlead2, hlead3, hlead4, followsLead4_ofNat (show a < 8 by omega) hb hfirst hlast,
    isContinuation_ofNat hc, isContinuation_ofNat hd, Bool.false_eq_true, if_true, if_false, hbits,
    lowBits_ofNat hb, lowBits_ofNat hc, lowBits_ofNat hd]

/-- **The bytes of a character are read as this character.** -/
theorem decodeFrom_utf8EncodeChar (ch : Char) :
    decodeFrom done (String.utf8EncodeChar ch ++ rest) = decodeFrom (done.push ch) rest := by
  -- The bounds that decide between the numbers of bytes also exclude overlong forms; surrogates and
  -- what lies beyond the last character are no characters.
  obtain hvalid : ch.toNat < 0xd800 ∨ 0xdfff < ch.toNat ∧ ch.toNat < 0x110000 := ch.valid
  have hch : Char.ofNat ch.toNat = ch := Char.ofNat_toNat ch
  have hval : ch.val.toNat = ch.toNat := rfl
  rw [String.utf8EncodeChar, hval]
  generalize ch.toNat = n at hvalid hch ⊢
  by_cases h1 : n ≤ 127
  · simp only [h1, if_true]
    rw [List.singleton_append, decodeFrom_one done rest (by omega), hch]
  by_cases h2 : n ≤ 2047
  · have hn : n / 64 % 32 * 64 + n % 64 = n := by omega
    simp only [h1, h2, if_true, if_false, List.cons_append, List.nil_append]
    rw [decodeFrom_two done rest (by omega) (by omega) (by omega)]
    simp only [charOfBits, List.foldl, Nat.zero_mul, Nat.zero_add, hn, hch]
  by_cases h3 : n ≤ 65535
  · have hn : (n / 4096 % 16 * 64 + n / 64 % 64) * 64 + n % 64 = n := by omega
    simp only [h1, h2, h3, if_true, if_false, List.cons_append, List.nil_append]
    rw [decodeFrom_three done rest (by omega) (by omega) (by omega) (by omega) (by omega)]
    simp only [charOfBits, List.foldl, Nat.zero_mul, Nat.zero_add, hn, hch]
  · have hn : ((n / 262144 % 8 * 64 + n / 4096 % 64) * 64 + n / 64 % 64) * 64 + n % 64 = n := by
      omega
    simp only [h1, h2, h3, if_false, List.cons_append, List.nil_append]
    rw [decodeFrom_four done rest (by omega) (by omega) (by omega) (by omega) (by omega) (by omega)]
    simp only [charOfBits, List.foldl, Nat.zero_mul, Nat.zero_add, hn, hch]

/-! ### Texts -/

theorem decodeFrom_flatMap_utf8EncodeChar (cs : List Char) :
    decodeFrom done (cs.flatMap String.utf8EncodeChar) = done ++ String.ofList cs := by
  induction cs generalizing done with
  | nil => rw [List.flatMap_nil, decodeFrom, String.ofList_nil, String.append_empty]
  | cons ch cs ih =>
    rw [List.flatMap_cons, decodeFrom_utf8EncodeChar, ih, ← String.toList_inj]
    simp

/-- **The bytes of a text are read as this text.** -/
theorem decodeUtf8_utf8Bytes (s : String) : decodeUtf8 (utf8Bytes s) = s := by
  rw [decodeUtf8, utf8Bytes, decodeFrom_flatMap_utf8EncodeChar, String.ofList_toList,
    String.empty_append]

end GuidedGrammar.Text
