/-!
# Bytes in hexadecimal

A byte is written as two hexadecimal digits of either case. A text of an odd number of bytes is
refused for its length, any other one for the first byte of its UTF-8 form that is no digit.
-/

namespace GuidedGrammar.Text

/-- The bytes of a text in UTF-8. -/
def utf8Bytes (s : String) : List UInt8 :=
  s.toList.flatMap String.utf8EncodeChar

/-- **Why a text is not hexadecimal.** -/
inductive HexError where
  /-- The number of digits is odd. -/
  | oddLength
  /-- The byte at this position is no digit. -/
  | invalidDigit (byte : UInt8) (position : Nat)
deriving DecidableEq, Repr

/-- The value of a hexadecimal digit. -/
def hexDigit? (b : UInt8) : Option UInt8 :=
  if 0x30 ≤ b && b ≤ 0x39 then some (b - 0x30)
  else if 0x41 ≤ b && b ≤ 0x46 then some (b - 0x41 + 10)
  else if 0x61 ≤ b && b ≤ 0x66 then some (b - 0x61 + 10)
  else none

/-- The bytes of pairs of digits, the first of which stands at `position`. -/
def hexPairs (position : Nat) : List UInt8 → Except HexError (List UInt8)
  | [] => .ok []
  | [_] => .error .oddLength
  | high :: low :: rest =>
    match hexDigit? high, hexDigit? low with
    | none, _ => .error (.invalidDigit high position)
    | some _, none => .error (.invalidDigit low (position + 1))
    | some h, some l => (hexPairs (position + 2) rest).map ((h * 16 + l) :: ·)

/-- **The bytes that a text shows in hexadecimal.** -/
def decodeHex (s : String) : Except HexError (List UInt8) :=
  let digits := utf8Bytes s
  if digits.length % 2 = 1 then .error .oddLength else hexPairs 0 digits

/-- The hexadecimal digits of a number, without leading zeros. -/
def hexOf (n : Nat) : String :=
  String.ofList (Nat.toDigits 16 n)

/-- A byte as the character of the same number, between single quotes. Quotes, the backslash and
control characters are escaped, and so are the two that have no visible form. -/
def quoteByte (b : UInt8) : String :=
  let shown :=
    if b = 0 then "\\0"
    else if b = 9 then "\\t"
    else if b = 10 then "\\n"
    else if b = 13 then "\\r"
    else if b = 39 then "\\'"
    else if b = 92 then "\\\\"
    else if b < 0x20 || (0x7f ≤ b && b ≤ 0xa0) || b = 0xad then
      "\\u\x7b" ++ hexOf b.toNat ++ "\x7d"
    else String.singleton (Char.ofNat b.toNat)
  "'" ++ shown ++ "'"

/-- **The wording of an error.** -/
def HexError.message : HexError → String
  | oddLength => "Odd number of digits"
  | invalidDigit byte position =>
    "Invalid character " ++ quoteByte byte ++ " at position " ++ toString position

end GuidedGrammar.Text
