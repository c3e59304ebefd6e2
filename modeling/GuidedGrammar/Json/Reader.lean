import GuidedGrammar.Json.Token

/-!
# Reading JSON

A token sequence is read from left to right. The containers that are still open are kept on a
stack, so the depth of a text is not limited by the call stack. A text has a value only if its
tokens are exactly one value: commas separate and do not end, and nothing follows the value.
-/

namespace GuidedGrammar.Json

/-- **An open container**: what has been read of it, last item first. -/
inductive Frame where
  /-- An array with its items so far. -/
  | items (done : List Json)
  /-- An object with its members so far and the name of the member being read. -/
  | members (done : List (JsonText × Json)) (name : JsonText)

/-- **Reads the tokens** inside the open containers `stack`. Either a value is to be read next, or
`value` has just been completed. -/
def ofTokens? (stack : List Frame) (value : Option Json) (tokens : List Token) : Option Json :=
  match value, stack, tokens with
  | none, stack, .openBracket :: .closeBracket :: rest => ofTokens? stack (some (.array [])) rest
  | none, stack, .openBracket :: rest => ofTokens? (.items [] :: stack) none rest
  | none, stack, .openBrace :: .closeBrace :: rest => ofTokens? stack (some (.object [])) rest
  | none, stack, .openBrace :: .text name :: .colon :: rest =>
    ofTokens? (.members [] name :: stack) none rest
  | none, stack, .null :: rest => ofTokens? stack (some .null) rest
  | none, stack, .bool b :: rest => ofTokens? stack (some (.bool b)) rest
  | none, stack, .number x :: rest => ofTokens? stack (some (.number x)) rest
  | none, stack, .text s :: rest => ofTokens? stack (some (.text s)) rest
  | some v, [], [] => some v
  | some v, .items done :: stack, .comma :: rest =>
    ofTokens? (.items (v :: done) :: stack) none rest
  | some v, .items done :: stack, .closeBracket :: rest =>
    ofTokens? stack (some (.array (v :: done).reverse)) rest
  | some v, .members done name :: stack, .comma :: .text next :: .colon :: rest =>
    ofTokens? (.members ((name, v) :: done) next :: stack) none rest
  | some v, .members done name :: stack, .closeBrace :: rest =>
    ofTokens? stack (some (.object ((name, v) :: done).reverse)) rest
  | _, _, _ => none
termination_by tokens.length

/-- **The value of a JSON text**, if it is one. -/
def parse? (s : String) : Option Json :=
  (Token.scan [] s.toList).bind (ofTokens? [] none)

end GuidedGrammar.Json
