import GuidedGrammar.Binary.Format
import GuidedGrammar.Regex.Basic

/-!
# Grammar nodes

A node of a grammar is a terminal, a choice or a sequence. Terminals are literal text, generations
bounded by regexes, lexemes, and references to other grammars. Nodes are kept in an arena and
refer to each other by their places there.
-/

namespace GuidedGrammar

/-- **The place of a node** in an arena. -/
abbrev NodeId := Nat

/-- **Where a generation stops.** -/
inductive Stop where
  /-- Nowhere in particular, so far. -/
  | unset
  /-- At what the regex matches. -/
  | explicit (regex : RegexId)
  /-- At the character that starts the literal `source`, which follows the generation. The regex
  is the literal regex of that character. -/
  | inferred (char : Char) (regex : RegexId) (source : NodeId)
deriving DecidableEq, Repr, Inhabited

namespace Stop

/-- The regex of a stop. -/
def regex? : Stop → Option RegexId
  | unset => none
  | explicit regex => some regex
  | inferred _ regex _ => some regex

/-- Whether the stop may still be inferred, or confirmed by inference. -/
def isOpen : Stop → Bool
  | unset => true
  | explicit _ => false
  | inferred .. => true

end Stop

/-- **Generated text.** -/
structure Generation where
  /-- What the text matches. -/
  body : RegexId
  /-- Where the text ends. -/
  stop : Stop
  /-- Whether the shortest match is taken. -/
  lazy : Option Bool
  temperature : Option Binary32
  /-- The name under which the text that matched the stop is reported. -/
  stopCaptureName : Option String
deriving DecidableEq, Repr, Inhabited

/-- **A token of a lexer.** -/
structure Lexeme where
  regex : RegexId
  /-- Whether the lexeme is only recognised where it is allowed; without a value, as the grammar
  has it. -/
  contextual : Option Bool
  temperature : Option Binary32
deriving DecidableEq, Repr, Inhabited

/-- **What a node stands for.** -/
inductive NodeKind where
  /-- Exactly this text. -/
  | literal (text : String)
  /-- Generated text. -/
  | generation (g : Generation)
  /-- A token of a lexer. -/
  | lexeme (l : Lexeme)
  /-- What the grammar that starts at `start` matches, with `skip` ignored between its lexemes.
  A grammar can be referred to before its start is known. -/
  | nested (start : Option NodeId) (skip : Option RegexId)
  /-- One of the alternatives. Without alternatives, nothing matches. -/
  | choice (alternatives : List NodeId)
  /-- The elements one after the other. -/
  | sequence (elements : List NodeId)
deriving DecidableEq, Repr, Inhabited

/-- **Properties that any node can have.** -/
structure Props where
  /-- How many tokens the matched text may have. -/
  maxTokens : Option UInt32 := none
  /-- The name under which the matched text is reported. -/
  captureName : Option String := none
deriving DecidableEq, Repr, Inhabited

/-- **A node of a grammar.** -/
structure Node where
  kind : NodeKind
  props : Props := {}
  /-- Whether the node matches the empty text. -/
  nullable : Bool
deriving DecidableEq, Repr, Inhabited

namespace Node

/-- Whether the node is neither a choice nor a sequence. -/
def isTerminal (n : Node) : Bool :=
  match n.kind with
  | .choice _ | .sequence _ => false
  | .literal _ | .generation _ | .lexeme _ | .nested .. => true

/-- **The nodes directly below a node.** Below a nested grammar there is its start. -/
def children (n : Node) : List NodeId :=
  match n.kind with
  | .choice alternatives => alternatives
  | .sequence elements => elements
  | .nested start _ => start.toList
  | .literal _ | .generation _ | .lexeme _ => []

/-- The nodes directly below a node in the same grammar. -/
def inlineChildren (n : Node) : List NodeId :=
  match n.kind with
  | .choice alternatives => alternatives
  | .sequence elements => elements
  | .literal _ | .generation _ | .lexeme _ | .nested .. => []

/-- The text of a literal. -/
def literal? (n : Node) : Option String :=
  match n.kind with
  | .literal text => some text
  | _ => none

/-- The generation of a generation node. -/
def generation? (n : Node) : Option Generation :=
  match n.kind with
  | .generation g => some g
  | _ => none

/-- The temperature of a node that has one. -/
def temperature? (n : Node) : Option Binary32 :=
  match n.kind with
  | .generation g => g.temperature
  | .lexeme l => l.temperature
  | _ => none

/-- Whether the node is a reference to another grammar. -/
def isNested (n : Node) : Bool :=
  match n.kind with
  | .nested .. => true
  | _ => false

end Node

end GuidedGrammar
