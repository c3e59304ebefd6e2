/-!
# Regexes

A regex is either text, a set of bytes or the source of a pattern, or it combines other regexes.
Regexes are never matched here: pattern source is carried along as it is. How a regex refers to
the regexes it combines is a parameter, so that one type serves regexes kept in a store, entries
of a table and whole trees.
-/

namespace GuidedGrammar

/-- **The place of a regex** in a store. -/
abbrev RegexId := Nat

/-- **A regex** whose parts are given by references of type `ρ`. -/
inductive Regex (ρ : Type) where
  /-- Exactly this text. -/
  | literal (text : String)
  /-- Exactly these bytes. -/
  | byteLiteral (bytes : List UInt8)
  /-- Exactly this byte. -/
  | byte (b : UInt8)
  /-- Any one byte of a set of 256, given in words of 32: byte `b` is bit `b % 32` of word
  `b / 32`. -/
  | byteSet (words : List UInt32)
  /-- Pattern source. -/
  | pattern (source : String)
  /-- What one of the parts matches. Without parts, nothing. -/
  | union (parts : List ρ)
  /-- What all of the parts match. -/
  | intersection (parts : List ρ)
  /-- What the parts match one after the other. Without parts, the empty text. -/
  | concatenation (parts : List ρ)
  /-- What the part does not match. -/
  | complement (part : ρ)
  /-- What is followed by what the part matches. -/
  | lookahead (part : ρ)
  /-- What the part matches, at least `min` and at most `max` times in a row. -/
  | repetition (part : ρ) (min : UInt32) (max : Option UInt32)
  /-- The empty text. -/
  | emptyText
  /-- Nothing. -/
  | nothing
deriving DecidableEq, Repr, Inhabited

/-- **Regexes by their ids.** -/
abbrev RegexStore := Array (Regex RegexId)

namespace Regex

variable {ρ σ : Type}

/-- **The references to the parts**, in order. -/
def parts : Regex ρ → List ρ
  | union ps | intersection ps | concatenation ps => ps
  | complement p | lookahead p | repetition p _ _ => [p]
  | literal _ | byteLiteral _ | byte _ | byteSet _ | pattern _ | emptyText | nothing => []

/-- **The same regex with other references**, unless one of the references has no counterpart. -/
def mapParts? (f : ρ → Option σ) : Regex ρ → Option (Regex σ)
  | literal text => some (literal text)
  | byteLiteral bytes => some (byteLiteral bytes)
  | byte b => some (byte b)
  | byteSet words => some (byteSet words)
  | pattern source => some (pattern source)
  | union ps => (ps.mapM f).map union
  | intersection ps => (ps.mapM f).map intersection
  | concatenation ps => (ps.mapM f).map concatenation
  | complement p => (f p).map complement
  | lookahead p => (f p).map lookahead
  | repetition p min max => (f p).map (repetition · min max)
  | emptyText => some emptyText
  | nothing => some nothing

/-- The same regex with the references changed by `f`. -/
def map (f : ρ → σ) : Regex ρ → Regex σ
  | literal text => literal text
  | byteLiteral bytes => byteLiteral bytes
  | byte b => byte b
  | byteSet words => byteSet words
  | pattern source => pattern source
  | union ps => union (ps.map f)
  | intersection ps => intersection (ps.map f)
  | concatenation ps => concatenation (ps.map f)
  | complement p => complement (f p)
  | lookahead p => lookahead (f p)
  | repetition p min max => repetition (f p) min max
  | emptyText => emptyText
  | nothing => nothing

/-! ### Byte sets -/

/-- The word at position `index` of the set of the given bytes. -/
def byteSetWord (index : Nat) (bytes : List UInt8) : UInt32 :=
  bytes.foldl
    (fun (word : UInt32) b =>
      if b.toNat / 32 = index then word ||| ((1 : UInt32) <<< (b.toNat % 32).toUInt32) else word)
    0

/-- **The eight words of the set of the given bytes.** -/
def byteSetWords (bytes : List UInt8) : List UInt32 :=
  (List.range 8).map fun index => byteSetWord index bytes

/-- How many bits of a word are set. -/
def countBits (word : UInt32) : Nat :=
  (List.range 32).countP fun i => word.toNat.testBit i

/-- How many bytes a set has. -/
def byteSetSize (words : List UInt32) : Nat :=
  words.foldl (fun n word => n + countBits word) 0

end Regex

end GuidedGrammar
