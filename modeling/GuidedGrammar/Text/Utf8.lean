/-!
# Reading UTF-8 without failing

Bytes are read as UTF-8. Where they are not well formed, each longest beginning of a character
that cannot be completed, or else a single byte, is replaced by one replacement character.
-/

namespace GuidedGrammar.Text

/-- The replacement character. -/
def replacement : Char := '\ufffd'

/-- Whether a byte lies between two bounds. -/
def isWithin (low high b : UInt8) : Bool :=
  low ≤ b && b ≤ high

/-- Whether a byte continues a character. -/
def isContinuation (b : UInt8) : Bool :=
  isWithin 0x80 0xbf b

/-- Whether a byte can follow the first byte of a character of three bytes. This excludes
overlong forms and surrogates. -/
def followsLead3 (lead b : UInt8) : Bool :=
  isWithin (if lead = 0xe0 then 0xa0 else 0x80) (if lead = 0xed then 0x9f else 0xbf) b

/-- Whether a byte can follow the first byte of a character of four bytes. This excludes overlong
forms and what lies beyond the last character. -/
def followsLead4 (lead b : UInt8) : Bool :=
  isWithin (if lead = 0xf0 then 0x90 else 0x80) (if lead = 0xf4 then 0x8f else 0xbf) b

/-- The character with the low bits of its bytes given. -/
def charOfBits (bits : List Nat) : Char :=
  Char.ofNat (bits.foldl (fun n b => n * 64 + b) 0)

/-- The low bits of a byte that continues a character. -/
def lowBits (b : UInt8) : Nat :=
  b.toNat % 64

/-- Appends the characters of the bytes to `done`. -/
def decodeFrom (done : String) : List UInt8 → String
  | [] => done
  | b0 :: rest =>
    if b0 < 0x80 then decodeFrom (done.push (Char.ofNat b0.toNat)) rest
    else if isWithin 0xc2 0xdf b0 then
      match rest with
      | [] => done.push replacement
      | b1 :: rest1 =>
        if isContinuation b1 then
          decodeFrom (done.push (charOfBits [b0.toNat % 32, lowBits b1])) rest1
        else decodeFrom (done.push replacement) (b1 :: rest1)
    else if isWithin 0xe0 0xef b0 then
      match rest with
      | [] => done.push replacement
      | b1 :: rest1 =>
        if followsLead3 b0 b1 then
          match rest1 with
          | [] => done.push replacement
          | b2 :: rest2 =>
            if isContinuation b2 then
              decodeFrom (done.push (charOfBits [b0.toNat % 16, lowBits b1, lowBits b2])) rest2
            else decodeFrom (done.push replacement) (b2 :: rest2)
        else decodeFrom (done.push replacement) (b1 :: rest1)
    else if isWithin 0xf0 0xf4 b0 then
      match rest with
      | [] => done.push replacement
      | b1 :: rest1 =>
        if followsLead4 b0 b1 then
          match rest1 with
          | [] => done.push replacement
          | b2 :: rest2 =>
            if isContinuation b2 then
              match rest2 with
              | [] => done.push replacement
              | b3 :: rest3 =>
                if isContinuation b3 then
                  decodeFrom
                    (done.push
                      (charOfBits [b0.toNat % 8, lowBits b1, lowBits b2, lowBits b3])) rest3
                else decodeFrom (done.push replacement) (b3 :: rest3)
            else decodeFrom (done.push replacement) (b2 :: rest2)
        else decodeFrom (done.push replacement) (b1 :: rest1)
    else decodeFrom (done.push replacement) rest

/-- **The text of bytes in UTF-8.** -/
def decodeUtf8 (bytes : List UInt8) : String :=
  decodeFrom "" bytes

end GuidedGrammar.Text
