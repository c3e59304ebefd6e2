import GuidedGrammar.Decimal.Numeral

/-!
# JSON values

A JSON value as its text shows it: numbers stay numerals, and the members of an object stay in
order, repetitions included. What a number or a repeated member means is left to those who read
the value.
-/

namespace GuidedGrammar

/-- **A JSON text value.** Escapes may name half a surrogate pair, which no string holds; such a
text is `none`. -/
abbrev JsonText := Option String

/-- **A JSON value.** -/
inductive Json where
  | null
  | bool (b : Bool)
  | number (x : Numeral)
  | text (s : JsonText)
  | array (items : List Json)
  | object (members : List (JsonText × Json))
deriving Inhabited

namespace Json

/-- The value of a string. -/
def ofString (s : String) : Json :=
  .text (some s)

/-- The value of a natural number. -/
def ofNat (n : Nat) : Json :=
  .number (.ofNat n)

/-- The object with the given members. -/
def ofMembers (members : List (String × Json)) : Json :=
  .object (members.map fun (name, value) => (some name, value))

end Json

end GuidedGrammar
