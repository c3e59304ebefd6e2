/-!
# Quoted text

The quoted form of a text stands between double quotes. A quote, a backslash and the control
characters below U+0020 are escaped; every other character, the slash, U+007F and all of Unicode
included, stands for itself.
-/

namespace GuidedGrammar.Text

/-- The escaped form of one character of a quoted text. -/
def escape (c : Char) : List Char :=
  if c = '"' then ['\\', '"']
  else if c = '\\' then ['\\', '\\']
  else if c = '\n' then ['\\', 'n']
  else if c = '\r' then ['\\', 'r']
  else if c = '\t' then ['\\', 't']
  else if c = '\x08' then ['\\', 'b']
  else if c = '\x0c' then ['\\', 'f']
  else if c.toNat < 0x20 then
    ['\\', 'u', '0', '0', Nat.digitChar (c.toNat / 16), Nat.digitChar (c.toNat % 16)]
  else [c]

/-- **The quoted form** of a sequence of characters. -/
def quoteChars (cs : List Char) : List Char :=
  '"' :: (cs.flatMap escape ++ ['"'])

/-- **The quoted form** of a text. -/
def quote (s : String) : String :=
  String.ofList (quoteChars s.toList)

end GuidedGrammar.Text
