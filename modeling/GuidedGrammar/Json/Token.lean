import GuidedGrammar.Json.Basic

/-!
# The tokens of a JSON text

A JSON text is a sequence of tokens with blanks between them: punctuation, the three words,
numerals and quoted texts. The reading is strict: a numeral has no superfluous zeros and at least
one digit wherever digits are called for, a quoted text holds no raw control character, and only
the escapes of the format are known.
-/

namespace GuidedGrammar.Json

/-- **A token of a JSON text.** -/
inductive Token where
  | openBracket
  | closeBracket
  | openBrace
  | closeBrace
  | comma
  | colon
  | null
  | bool (b : Bool)
  | number (x : Numeral)
  | text (s : JsonText)
deriving DecidableEq, Repr

namespace Token

/-! ### Numerals -/

/-- The longest run of digits at the front, and the rest. -/
def takeDigits : List Char → List Digit × List Char
  | [] => ([], [])
  | c :: cs =>
    match Digit.ofChar? c with
    | some d =>
      let (ds, rest) := takeDigits cs
      (d :: ds, rest)
    | none => ([], c :: cs)

/-- The fraction at the front, if there is a point. A point calls for a digit. -/
def takeFraction : List Char → Option (List Digit × List Char)
  | '.' :: cs =>
    match takeDigits cs with
    | ([], _) => none
    | (ds, rest) => some (ds, rest)
  | cs => some ([], cs)

/-- The sign of an exponent, and the rest. -/
def takeSign : List Char → Bool × List Char
  | '-' :: cs => (true, cs)
  | '+' :: cs => (false, cs)
  | cs => (false, cs)

/-- The exponent after its mark, which calls for a digit. -/
def takeExponentDigits (cs : List Char) : Option (Option Int × List Char) :=
  let (negative, cs) := takeSign cs
  match takeDigits cs with
  | ([], _) => none
  | (ds, rest) =>
    let n : Int := Digits.toNat ds
    some (some (if negative then -n else n), rest)

/-- The exponent at the front, if there is one. -/
def takeExponent : List Char → Option (Option Int × List Char)
  | 'e' :: cs => takeExponentDigits cs
  | 'E' :: cs => takeExponentDigits cs
  | cs => some (none, cs)

/-- The whole part at the front: `0`, or digits that start with another one. -/
def takeWhole (cs : List Char) : Option (Nat × List Char) :=
  match takeDigits cs with
  | ([], _) => none
  | ([d], rest) => some (d.val, rest)
  | (d :: ds, rest) => if d = .zero then none else some (Digits.toNat (d :: ds), rest)

/-- **The numeral at the front.** -/
def takeNumeral (cs : List Char) : Option (Numeral × List Char) := do
  let (negative, cs) :=
    match cs with
    | '-' :: cs => (true, cs)
    | cs => (false, cs)
  let (whole, cs) ← takeWhole cs
  let (fraction, cs) ← takeFraction cs
  let (exponent, cs) ← takeExponent cs
  some (⟨negative, whole, fraction, exponent⟩, cs)

/-! ### Quoted texts -/

/-- **A piece of a quoted text**: a character, or a 16-bit unit named by four hexadecimal
digits. -/
inductive Piece where
  | char (c : Char)
  | unit (n : Nat)
deriving DecidableEq, Repr

/-- The value of a hexadecimal digit of either case. -/
def hexValue? (c : Char) : Option Nat :=
  if '0' ≤ c && c ≤ '9' then some (c.toNat - '0'.toNat)
  else if 'a' ≤ c && c ≤ 'f' then some (c.toNat - 'a'.toNat + 10)
  else if 'A' ≤ c && c ≤ 'F' then some (c.toNat - 'A'.toNat + 10)
  else none

/-- The unit named by four hexadecimal digits. -/
def hexUnit? (a b c d : Char) : Option Nat := do
  let a ← hexValue? a
  let b ← hexValue? b
  let c ← hexValue? c
  let d ← hexValue? d
  some (((a * 16 + b) * 16 + c) * 16 + d)

/-- The character that a one-letter escape stands for. -/
def escaped? (c : Char) : Option Char :=
  match c with
  | '"' => some '"'
  | '\\' => some '\\'
  | '/' => some '/'
  | 'b' => some '\x08'
  | 'f' => some '\x0c'
  | 'n' => some '\n'
  | 'r' => some '\r'
  | 't' => some '\t'
  | _ => none

/-- The pieces of a quoted text up to its closing quote, last piece first in front of `done`, and
the rest after the quote. -/
def takePieces (done : List Piece) : List Char → Option (List Piece × List Char)
  | [] => none
  | '"' :: rest => some (done, rest)
  | '\\' :: 'u' :: a :: b :: c :: d :: rest =>
    match hexUnit? a b c d with
    | some n => takePieces (.unit n :: done) rest
    | none => none
  | '\\' :: c :: rest =>
    match escaped? c with
    | some e => takePieces (.char e :: done) rest
    | none => none
  | c :: rest => if c.toNat < 0x20 then none else takePieces (.char c :: done) rest

/-- Whether a unit is the first half of a surrogate pair. -/
def isLead (n : Nat) : Bool :=
  0xd800 ≤ n && n < 0xdc00

/-- Whether a unit is the second half of a surrogate pair. -/
def isTrail (n : Nat) : Bool :=
  0xdc00 ≤ n && n < 0xe000

/-- Puts the characters of the pieces, given last piece first, in front of `done`. Two halves of a
surrogate pair make one character; half a pair makes none. -/
def joinPieces (done : List Char) : List Piece → Option (List Char)
  | [] => some done
  | .char c :: ps => joinPieces (c :: done) ps
  | .unit n :: ps =>
    if isTrail n then
      match ps with
      | .unit m :: ps =>
        if isLead m then
          joinPieces (Char.ofNat (0x10000 + (m - 0xd800) * 0x400 + (n - 0xdc00)) :: done) ps
        else none
      | _ => none
    else if isLead n then none
    else joinPieces (Char.ofNat n :: done) ps

/-- **The quoted text** after its opening quote. -/
def takeText (cs : List Char) : Option (JsonText × List Char) :=
  (takePieces [] cs).map fun (pieces, rest) =>
    ((joinPieces [] pieces).map String.ofList, rest)

/-! ### Tokens -/

/-- Whether a character is a blank between tokens. -/
def isBlank (c : Char) : Bool :=
  c = ' ' || c = '\t' || c = '\n' || c = '\r'

/-- **The token at the front** of a text that starts with no blank. -/
def take? : List Char → Option (Token × List Char)
  | '[' :: cs => some (.openBracket, cs)
  | ']' :: cs => some (.closeBracket, cs)
  | '\x7b' :: cs => some (.openBrace, cs)
  | '\x7d' :: cs => some (.closeBrace, cs)
  | ',' :: cs => some (.comma, cs)
  | ':' :: cs => some (.colon, cs)
  | 'n' :: 'u' :: 'l' :: 'l' :: cs => some (.null, cs)
  | 't' :: 'r' :: 'u' :: 'e' :: cs => some (.bool true, cs)
  | 'f' :: 'a' :: 'l' :: 's' :: 'e' :: cs => some (.bool false, cs)
  | '"' :: cs => (takeText cs).map fun (s, rest) => (.text s, rest)
  | cs => (takeNumeral cs).map fun (x, rest) => (.number x, rest)

/-! ### Every token takes a character -/

theorem length_takeDigits_le (cs : List Char) : (takeDigits cs).2.length ≤ cs.length := by
  induction cs with
  | nil => simp [takeDigits]
  | cons c cs ih =>
    rw [takeDigits]
    split
    · simpa using Nat.le_succ_of_le ih
    · simp

theorem length_takeFraction_le {cs rest : List Char} {ds : List Digit}
    (h : takeFraction cs = some (ds, rest)) : rest.length ≤ cs.length := by
  unfold takeFraction at h
  split at h
  · next tail =>
    have hle := length_takeDigits_le tail
    split at h
    · simp at h
    · next heq =>
      simp only [Option.some.injEq, Prod.mk.injEq] at h
      rw [heq, h.2] at hle
      simpa using Nat.le_succ_of_le hle
  · simp only [Option.some.injEq, Prod.mk.injEq] at h
    simp [h.2]

theorem length_takeSign_le (cs : List Char) : (takeSign cs).2.length ≤ cs.length := by
  unfold takeSign
  split <;> simp

theorem length_takeExponentDigits_le {cs rest : List Char} {e : Option Int}
    (h : takeExponentDigits cs = some (e, rest)) : rest.length ≤ cs.length := by
  have hsign := length_takeSign_le cs
  have hdigits := length_takeDigits_le (takeSign cs).2
  unfold takeExponentDigits at h
  simp only at h
  split at h
  · simp at h
  · next heq =>
    simp only [Option.some.injEq, Prod.mk.injEq] at h
    rw [heq, h.2] at hdigits
    exact Nat.le_trans hdigits hsign

theorem length_takeExponent_le {cs rest : List Char} {e : Option Int}
    (h : takeExponent cs = some (e, rest)) : rest.length ≤ cs.length := by
  unfold takeExponent at h
  split at h
  · exact Nat.le_succ_of_le (length_takeExponentDigits_le h)
  · exact Nat.le_succ_of_le (length_takeExponentDigits_le h)
  · simp only [Option.some.injEq, Prod.mk.injEq] at h
    simp [h.2]

theorem length_takeDigits_lt {cs rest : List Char} {d : Digit} {ds : List Digit}
    (h : takeDigits cs = (d :: ds, rest)) : rest.length < cs.length := by
  cases cs with
  | nil => simp [takeDigits] at h
  | cons c cs =>
    have hle := length_takeDigits_le cs
    rw [takeDigits] at h
    split at h
    · simp only [Prod.mk.injEq] at h
      rw [h.2] at hle
      simpa using Nat.lt_succ_of_le hle
    · simp at h

theorem length_takeWhole_lt {cs rest : List Char} {n : Nat}
    (h : takeWhole cs = some (n, rest)) : rest.length < cs.length := by
  unfold takeWhole at h
  split at h
  · simp at h
  · next heq =>
    simp only [Option.some.injEq, Prod.mk.injEq] at h
    exact h.2 ▸ length_takeDigits_lt heq
  · next heq =>
    split at h
    · simp at h
    · simp only [Option.some.injEq, Prod.mk.injEq] at h
      exact h.2 ▸ length_takeDigits_lt heq

theorem length_takeNumeral_lt {cs rest : List Char} {x : Numeral}
    (h : takeNumeral cs = some (x, rest)) : rest.length < cs.length := by
  have key : ∀ {negative : Bool} {cs rest : List Char} {x : Numeral},
      (do
        let (whole, cs) ← takeWhole cs
        let (fraction, cs) ← takeFraction cs
        let (exponent, cs) ← takeExponent cs
        some ((⟨negative, whole, fraction, exponent⟩ : Numeral), cs)) = some (x, rest) →
      rest.length < cs.length := by
    intro negative cs rest x h
    simp only [Option.bind_eq_bind, Option.bind_eq_some_iff, Option.some.injEq,
      Prod.exists, Prod.mk.injEq] at h
    obtain ⟨whole, c1, h1, fraction, c2, h2, exponent, c3, h3, -, rfl⟩ := h
    exact Nat.lt_of_le_of_lt (length_takeExponent_le h3)
      (Nat.lt_of_le_of_lt (length_takeFraction_le h2) (length_takeWhole_lt h1))
  unfold takeNumeral at h
  split at h
  next heq =>
    split at heq
    · simp only [Prod.mk.injEq] at heq
      obtain ⟨rfl, rfl⟩ := heq
      exact Nat.lt_succ_of_lt (key h)
    · simp only [Prod.mk.injEq] at heq
      obtain ⟨rfl, rfl⟩ := heq
      exact key h

theorem length_takePieces_le {done pieces : List Piece} {cs rest : List Char}
    (h : takePieces done cs = some (pieces, rest)) : rest.length ≤ cs.length := by
  fun_induction takePieces done cs with
  | case1 => simp at h
  | case2 => simp_all
  | case3 done a b c d tail n hn ih =>
    have := ih h
    simp only [List.length_cons]
    omega
  | case4 => simp at h
  | case5 done c tail _ e he ih =>
    have := ih h
    simp only [List.length_cons]
    omega
  | case6 => simp at h
  | case7 => simp at h
  | case8 done c tail _ _ _ hc ih =>
    have := ih h
    simp only [List.length_cons]
    omega

theorem length_take_lt {cs rest : List Char} {t : Token} (h : take? cs = some (t, rest)) :
    rest.length < cs.length := by
  unfold take? at h
  split at h
  case h_10 tail =>
    simp only [takeText, Option.map_map, Option.map_eq_some_iff, Function.comp_apply,
      Prod.exists, Prod.mk.injEq] at h
    obtain ⟨pieces, r, hp, -, rfl⟩ := h
    exact Nat.lt_succ_of_le (length_takePieces_le hp)
  case h_11 =>
    simp only [Option.map_eq_some_iff, Prod.exists, Prod.mk.injEq] at h
    obtain ⟨x, r, hx, -, rfl⟩ := h
    exact length_takeNumeral_lt hx
  all_goals
    simp only [Option.some.injEq, Prod.mk.injEq] at h
    obtain ⟨-, rfl⟩ := h
    simp only [List.length_cons]
    omega

/-- The tokens of a text behind the tokens `done`, which are given last token first. -/
def scan (done : List Token) (cs : List Char) : Option (List Token) :=
  match _hcs : cs.dropWhile isBlank with
  | [] => some done.reverse
  | c :: tail =>
    match _htake : take? (c :: tail) with
    | none => none
    | some (t, rest) => scan (t :: done) rest
termination_by cs.length
decreasing_by
  have hrest := length_take_lt _htake
  have hblank := (List.dropWhile_suffix (l := cs) isBlank).length_le
  rw [_hcs] at hblank
  omega

end Token

end GuidedGrammar.Json
