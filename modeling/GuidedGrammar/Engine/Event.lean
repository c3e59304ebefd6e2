import GuidedGrammar.Binary.Format

/-!
# Events of the engine

While the engine produces text under a grammar it reports what happens as a stream of events: a
node with a capture name was matched, bytes were added to the output, the output is complete.
Bytes are given in hexadecimal, and once more as text.
-/

namespace GuidedGrammar

/-- **A node with a capture name was matched.** -/
structure CaptureEvent where
  name : String
  /-- The matched bytes in hexadecimal. -/
  hex : String
  /-- The matched bytes as text. -/
  str : String
  logProb : Binary64
deriving DecidableEq, Repr

/-- **The output is complete.** -/
structure FinalTextEvent where
  hex : String := ""
  str : String := ""
deriving DecidableEq, Repr

/-- **Counters of the engine.** -/
structure Stats where
  runtimeMicroseconds : UInt64 := 0
  rows : UInt64 := 0
  definitiveBytes : UInt64 := 0
  lexerOps : UInt64 := 0
  allItems : UInt64 := 0
  hiddenBytes : UInt64 := 0
deriving DecidableEq, Repr

/-- **Bytes were added to the output.** -/
structure TextEvent where
  /-- The bytes in hexadecimal. -/
  hex : String
  /-- The bytes as text. -/
  str : String
  logProb : Binary64 := .zero
  tokenCount : UInt32 := 0
  /-- Whether the bytes were chosen by the model and not forced by the grammar. -/
  isGenerated : Bool := false
  stats : Stats := {}
deriving DecidableEq, Repr

/-- **An event of the engine.** -/
inductive Event where
  | capture (e : CaptureEvent)
  | finalText (e : FinalTextEvent)
  | text (e : TextEvent)
deriving DecidableEq, Repr

end GuidedGrammar
