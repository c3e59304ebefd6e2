/-!
# Bytes as readable text

Printable ASCII stands for itself, except for quotes and the backslash, which are escaped; three
control characters have escapes of their own; every other byte is written in hexadecimal.
-/

namespace GuidedGrammar.Text

/-- The readable form of one byte. -/
def escapeByte (b : UInt8) : String :=
  if b = 9 then "\\t"
  else if b = 10 then "\\n"
  else if b = 13 then "\\r"
  else if b = 34 then "\\\""
  else if b = 39 then "\\'"
  else if b = 92 then "\\\\"
  else if 0x20 ≤ b ∧ b ≤ 0x7e then String.singleton (Char.ofNat b.toNat)
  else
    "\\x" ++ String.ofList [Nat.digitChar (b.toNat / 16), Nat.digitChar (b.toNat % 16)]

/-- **The readable form of a byte sequence.** -/
def escapeBytes (bytes : List UInt8) : String :=
  String.join (bytes.map escapeByte)

end GuidedGrammar.Text
