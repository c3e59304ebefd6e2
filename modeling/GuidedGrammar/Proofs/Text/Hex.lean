import Mathlib.Data.List.Basic
import GuidedGrammar.Proofs.Data.Except
import GuidedGrammar.Text.Hex

/-!
# What a hexadecimal text shows

A text shows bytes if it writes each of them with two digits of either case (`ShowsHex`), and it has
a fault if it has an odd length or else a first byte that is no digit (`HexFault`). Decoding gives
the bytes that a text shows, and its fault where it shows none (`decodeHex_eq_ok_iff`,
`decodeHex_eq_error_iff`).

Texts are written in characters and decoded by bytes. A digit is a character of one byte, and no
byte of a longer character is a digit (`map_hexDigit?_utf8Bytes`).
-/

namespace GuidedGrammar.Text

/-! ### What is shown -/

/-- The two digits of a byte, in lower case. -/
def hexPair (b : UInt8) : List Char :=
  [Nat.digitChar (b.toNat / 16), Nat.digitChar (b.toNat % 16)]

/-- **A text shows bytes** if these are its digits, each in one of the two cases. -/
def ShowsHex (s : String) (bytes : List UInt8) : Prop :=
  s.toList.map Char.toLower = bytes.flatMap hexPair

instance (s : String) (bytes : List UInt8) : Decidable (ShowsHex s bytes) :=
  inferInstanceAs (Decidable (_ = _))

/-- The bytes that are digits. -/
def hexDigits : List UInt8 :=
  utf8Bytes "0123456789abcdefABCDEF"

/-- The first byte that is no digit, and where it stands. -/
def FirstNonDigit (digits : List UInt8) (position : Nat) (byte : UInt8) : Prop :=
  digits[position]? = some byte ∧ byte ∉ hexDigits ∧ ∀ b ∈ digits.take position, b ∈ hexDigits

/-- **The fault of a text.** -/
def HexFault (s : String) : HexError → Prop
  | .oddLength => (utf8Bytes s).length % 2 = 1
  | .invalidDigit byte position =>
    (utf8Bytes s).length % 2 = 0 ∧ FirstNonDigit (utf8Bytes s) position byte

/-! ### Digits -/

/-- A statement about bytes is checked one by one. -/
theorem forall_byte {p : UInt8 → Prop} (h : ∀ n < 256, p (UInt8.ofNat n)) (b : UInt8) : p b := by
  have hb := h b.toNat b.toNat_lt
  rwa [UInt8.ofNat_toNat] at hb

theorem isSome_hexDigit? : ∀ b, (hexDigit? b).isSome = true ↔ b ∈ hexDigits :=
  forall_byte (by decide +kernel)

theorem hexDigit?_eq_none_iff {b : UInt8} : hexDigit? b = none ↔ b ∉ hexDigits := by
  rw [← isSome_hexDigit?, Option.not_isSome_iff_eq_none]

theorem lt_of_hexDigit? : ∀ b, ∀ h ∈ hexDigit? b, h < 16 :=
  forall_byte (by decide +kernel)

/-- The values of the two digits of a byte. -/
def halves (b : UInt8) : List UInt8 :=
  [b / 16, b % 16]

theorem halves_eq_iff {b high low : UInt8} (hhigh : high < 16) (hlow : low < 16) :
    halves b = [high, low] ↔ b = high * 16 + low := by
  simp only [halves, List.cons.injEq, and_true, ← UInt8.toNat_inj, UInt8.lt_iff_toNat_lt,
    UInt8.toNat_div, UInt8.toNat_mod, UInt8.toNat_add, UInt8.toNat_mul, UInt8.toNat_ofNat,
    Nat.reducePow, Nat.reduceMod] at *
  omega

/-! ### Pairs of digits -/

variable {position : Nat} {digits bytes : List UInt8}

theorem hexPairs_eq_ok_iff :
    hexPairs position digits = .ok bytes ↔
      digits.map hexDigit? = (bytes.flatMap halves).map some := by
  induction position, digits using hexPairs.induct generalizing bytes with
  | case1 position =>
    cases bytes <;> simp [hexPairs, halves]
  | case2 position digit =>
    cases bytes <;> simp [hexPairs, halves]
  | case3 position high low rest hhigh =>
    cases bytes <;> simp [hexPairs, halves, hhigh]
  | case4 position high low rest h hlow hhigh =>
    cases bytes <;> simp [hexPairs, halves, hhigh, hlow]
  | case5 position high low rest h l hlow hhigh ih =>
    rw [hexPairs, hhigh, hlow, Except.map_eq_ok_iff]
    -- two digits make the byte whose halves they are
    have hbyte : ∀ b, b = h * 16 + l ↔ halves b = [h, l] := fun b =>
      (halves_eq_iff (lt_of_hexDigit? high h hhigh) (lt_of_hexDigit? low l hlow)).symm
    cases bytes with
    | nil => simp
    | cons b bytes =>
      simp only [List.cons.injEq, ih, List.map_cons, hhigh, hlow, List.flatMap_cons,
        List.map_append]
      constructor
      · rintro ⟨below, hbelow, rfl, rfl⟩
        rw [(hbyte _).1 rfl, hbelow]
        rfl
      · intro heq
        obtain ⟨hb, hrest⟩ : halves b = [h, l] ∧
            rest.map hexDigit? = (bytes.flatMap halves).map some := by
          simpa [halves, and_assoc, eq_comm] using heq
        exact ⟨bytes, hrest, ((hbyte b).2 hb).symm, rfl⟩

theorem firstNonDigit_cons_of_not_mem {d : UInt8} (hd : d ∉ hexDigits) {byte : UInt8} :
    FirstNonDigit (d :: digits) position byte ↔ position = 0 ∧ byte = d := by
  rw [FirstNonDigit]
  cases position with
  | zero =>
    have hbyte : byte = d → byte ∉ hexDigits := fun h => h ▸ hd
    simpa [eq_comm (a := d)] using hbyte
  | succ position => simp [hd]

theorem firstNonDigit_cons_of_mem {d : UInt8} (hd : d ∈ hexDigits) {byte : UInt8} :
    FirstNonDigit (d :: digits) position byte ↔
      ∃ before, position = before + 1 ∧ FirstNonDigit digits before byte := by
  rw [FirstNonDigit]
  cases position with
  | zero =>
    have hbyte : d = byte → byte ∈ hexDigits := fun h => h ▸ hd
    simpa using hbyte
  | succ position => simp [hd, FirstNonDigit]

theorem hexPairs_eq_error_iff (heven : digits.length % 2 = 0) {e : HexError} :
    hexPairs position digits = .error e ↔
      ∃ i byte, e = .invalidDigit byte (position + i) ∧ FirstNonDigit digits i byte := by
  induction position, digits using hexPairs.induct with
  | case1 position => simp [hexPairs, FirstNonDigit]
  | case2 position digit => exact absurd heven Nat.one_ne_zero
  | case3 position high low rest hhigh =>
    simp [hexPairs, hhigh, firstNonDigit_cons_of_not_mem (hexDigit?_eq_none_iff.1 hhigh), eq_comm]
  | case4 position high low rest h hlow hhigh =>
    have hmem : high ∈ hexDigits := (isSome_hexDigit? high).1 (Option.isSome_of_eq_some hhigh)
    simp [hexPairs, hhigh, hlow, firstNonDigit_cons_of_mem hmem, eq_comm,
      firstNonDigit_cons_of_not_mem (hexDigit?_eq_none_iff.1 hlow)]
  | case5 position high low rest h l hlow hhigh ih =>
    have hhigh' : high ∈ hexDigits := (isSome_hexDigit? high).1 (Option.isSome_of_eq_some hhigh)
    have hlow' : low ∈ hexDigits := (isSome_hexDigit? low).1 (Option.isSome_of_eq_some hlow)
    have heven' : rest.length % 2 = 0 := (Nat.add_mod_right rest.length 2).symm.trans heven
    have hposition : ∀ i, position + 2 + i = position + (i + 1 + 1) := by omega
    rw [hexPairs, hhigh, hlow, Except.map_eq_error_iff, ih heven', exists_comm]
    simp [firstNonDigit_cons_of_mem hhigh', firstNonDigit_cons_of_mem hlow', hposition]

/-! ### Characters -/

/-- The character of a digit's value. -/
def shown (n : UInt8) : Char :=
  Nat.digitChar n.toNat

theorem flatMap_hexPair (bytes : List UInt8) :
    bytes.flatMap hexPair = (bytes.flatMap halves).map shown := by
  rw [List.map_flatMap]
  refine List.flatMap_congr fun b _ => ?_
  simp [hexPair, halves, shown]

theorem lt_of_mem_halves {n : UInt8} (h : n ∈ bytes.flatMap halves) : n < 16 := by
  obtain ⟨b, -, hb⟩ := List.mem_flatMap.1 h
  have hbyte := b.toNat_lt
  rw [UInt8.lt_iff_toNat_lt]
  rcases List.mem_pair.1 hb with rfl | rfl
  · rw [UInt8.toNat_div]
    exact Nat.div_lt_of_lt_mul hbyte
  · rw [UInt8.toNat_mod]
    exact Nat.mod_lt _ (by decide)

theorem toLower_eq_shown_iff {c : Char} (hc : c.toNat < 128) {n : UInt8} (hn : n < 16) :
    c.toLower = shown n ↔ hexDigit? (UInt8.ofNat c.toNat) = some n := by
  have hall : ∀ i < 128, ∀ m < 16, (Char.ofNat i).toLower = shown (UInt8.ofNat m) ↔
      hexDigit? (UInt8.ofNat i) = some (UInt8.ofNat m) := by
    decide +kernel
  have h := hall c.toNat hc n.toNat hn
  rwa [Char.ofNat_toNat, UInt8.ofNat_toNat] at h

theorem toLower_ne_shown {c : Char} (hc : 128 ≤ c.toNat) {n : UInt8} (hn : n < 16) :
    c.toLower ≠ shown n := by
  have hshown : ∀ m < 16, (shown (UInt8.ofNat m)).toNat < 128 := by decide
  have hlt : (shown n).toNat < 128 := by
    have h := hshown n.toNat hn
    rwa [UInt8.ofNat_toNat] at h
  have hupper : ¬(c.val ≥ 'A'.val ∧ c.val ≤ 'Z'.val) := fun h =>
    absurd (Nat.le_trans hc (UInt32.le_iff_toNat_le.1 h.2)) (by decide)
  have hlower : c.toLower = c := dif_neg hupper
  rw [hlower]
  rintro rfl
  exact absurd hc (Nat.not_le.2 hlt)

/-- The first byte of a character of several bytes is no digit. -/
theorem exists_utf8EncodeChar_of_le {c : Char} (hc : 128 ≤ c.toNat) :
    ∃ b bs, String.utf8EncodeChar c = b :: bs ∧ hexDigit? b = none := by
  have hlead : ∀ k < 256, 192 ≤ k → hexDigit? (UInt8.ofNat k) = none := by decide +kernel
  have hone : ¬c.val.toNat ≤ 127 := Nat.not_le.2 hc
  rw [String.utf8EncodeChar]
  simp only [hone, if_false]
  split
  · exact ⟨_, _, rfl, hlead _ (by omega) (by omega)⟩
  · split
    · exact ⟨_, _, rfl, hlead _ (by omega) (by omega)⟩
    · exact ⟨_, _, rfl, hlead _ (by omega) (by omega)⟩

/-- The digits of a text are the digits of its bytes. -/
theorem map_hexDigit?_flatMap_utf8EncodeChar {cs : List Char} {ns : List UInt8}
    (hns : ∀ n ∈ ns, n < 16) :
    (cs.flatMap String.utf8EncodeChar).map hexDigit? = ns.map some ↔
      cs.map Char.toLower = ns.map shown := by
  induction cs generalizing ns with
  | nil => cases ns <;> simp
  | cons c cs ih =>
    cases ns with
    | nil => simp [String.utf8EncodeChar_ne_nil]
    | cons n ns =>
      obtain ⟨hn, hns⟩ := List.forall_mem_cons.1 hns
      by_cases hc : c.toNat < 128
      · -- a character below 128 is one byte
        have hbytes : String.utf8EncodeChar c = [UInt8.ofNat c.toNat] := by
          rw [String.utf8EncodeChar]
          exact if_pos (Nat.le_of_lt_succ hc)
        rw [List.flatMap_cons, hbytes, List.singleton_append, List.map_cons, List.map_cons,
          List.map_cons, List.map_cons, List.cons.injEq, List.cons.injEq, ih hns,
          toLower_eq_shown_iff hc hn]
      · have hc : 128 ≤ c.toNat := Nat.not_lt.1 hc
        -- any other one begins with a byte that is no digit
        obtain ⟨b, bs, hbytes, hb⟩ := exists_utf8EncodeChar_of_le hc
        simp [hbytes, hb, toLower_ne_shown hc hn]

/-- A text shows bytes if the bytes that it is made of are their digits. -/
theorem showsHex_iff {s : String} :
    ShowsHex s bytes ↔ (utf8Bytes s).map hexDigit? = (bytes.flatMap halves).map some := by
  rw [ShowsHex, flatMap_hexPair, utf8Bytes]
  exact (map_hexDigit?_flatMap_utf8EncodeChar fun _ => lt_of_mem_halves).symm

/-! ### Decoding -/

variable {s : String}

theorem length_flatMap_halves (bytes : List UInt8) :
    (bytes.flatMap halves).length = 2 * bytes.length := by
  simp [List.length_flatMap, halves, Nat.mul_comm]

/-- **Decoding gives the bytes that a text shows.** -/
theorem decodeHex_eq_ok_iff : decodeHex s = .ok bytes ↔ ShowsHex s bytes := by
  rw [showsHex_iff, decodeHex]
  by_cases hodd : (utf8Bytes s).length % 2 = 1
  · rw [if_pos hodd]
    refine iff_of_false nofun fun h => ?_
    have hlength := congrArg List.length h
    rw [List.length_map, List.length_map, length_flatMap_halves] at hlength
    omega
  · rw [if_neg hodd, hexPairs_eq_ok_iff]

/-- **Decoding gives the fault of a text.** -/
theorem decodeHex_eq_error_iff {e : HexError} : decodeHex s = .error e ↔ HexFault s e := by
  rw [decodeHex]
  by_cases hodd : (utf8Bytes s).length % 2 = 1
  · cases e <;> simp [hodd, HexFault]
  · have heven : (utf8Bytes s).length % 2 = 0 := by omega
    rw [if_neg hodd, hexPairs_eq_error_iff heven]
    cases e <;> simp [heven, HexFault]

/-- A text shows bytes or has a fault. -/
theorem exists_hexFault (h : ¬∃ bytes, ShowsHex s bytes) : ∃ e, HexFault s e := by
  cases hs : decodeHex s with
  | error e => exact ⟨e, decodeHex_eq_error_iff.1 hs⟩
  | ok bytes => exact absurd ⟨bytes, decodeHex_eq_ok_iff.1 hs⟩ h

end GuidedGrammar.Text
