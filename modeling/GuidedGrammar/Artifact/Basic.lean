import GuidedGrammar.Binary.Format
import GuidedGrammar.Regex.Basic

/-!
# Compiled grammars

The result of compiling is a list of grammars. The first one is the entry; the others are reached
from it through nodes that name a grammar by its position in the list. Within a grammar, nodes and
regexes are named by their positions in the grammar's own lists, and the first node is the start.

The type of the positions is a parameter: compiling counts in natural numbers, the written form
holds 32-bit words.
-/

namespace GuidedGrammar

namespace Artifact

/-- **A regex**: the position of an entry, or pattern source in place. -/
inductive RegexRef (ι : Type) where
  | entry (i : ι)
  | source (s : String)
deriving DecidableEq, Repr, Inhabited

/-- **Properties that any compiled node can have.** -/
structure Props where
  /-- How many tokens the matched text may have. -/
  maxTokens : Option UInt32 := none
  name : Option String := none
  /-- The name under which the matched text is reported. -/
  captureName : Option String := none
deriving DecidableEq, Repr, Inhabited

/-- **What a compiled node stands for.** -/
inductive NodeKind (ι : Type) where
  /-- Exactly this text. -/
  | literal (text : String)
  /-- Text that matches `body` and ends before what matches `stop`. A stop of empty source is the
  end of the output. -/
  | generation (body stop : RegexRef ι) (stopCaptureName : Option String) (lazy : Option Bool)
      (temperature : Option Binary32)
  /-- A token of a lexer. -/
  | lexeme (regex : RegexRef ι) (contextual : Option Bool) (temperature : Option Binary32)
  /-- What another grammar matches. -/
  | grammar (position : ι) (temperature : Option Binary32) (maxTokens : Option UInt32)
  /-- One of the nodes. -/
  | choice (alternatives : List ι)
  /-- The nodes one after the other. -/
  | sequence (elements : List ι)
deriving DecidableEq, Repr, Inhabited

/-- **A compiled node.** -/
structure Node (ι : Type) where
  kind : NodeKind ι
  props : Props := {}
deriving DecidableEq, Repr, Inhabited

/-- **A compiled grammar.** -/
structure Grammar (ι : Type) where
  /-- The nodes. The first one is the start. -/
  nodes : List (Node ι)
  /-- Whether the lexer takes the longest match. -/
  greedyLexer : Bool
  /-- What is ignored between lexemes. -/
  skip : Option (RegexRef ι)
  /-- Whether lexemes are contextual that do not say. -/
  contextual : Option Bool
  /-- The regexes. -/
  regexes : List (Regex ι)
deriving DecidableEq, Repr, Inhabited

end Artifact

/-- **A compiled set of grammars.** -/
structure Artifact (ι : Type) where
  /-- The grammars. The first one is the entry. -/
  grammars : List (Artifact.Grammar ι)
  /-- How many tokens the output may have. -/
  maxTokens : Option UInt32
  testTrace : Bool
deriving DecidableEq, Repr, Inhabited

namespace Artifact

variable {ι κ : Type}

/-! ### Changing positions -/

/-- The same reference with its position changed by `f`. -/
def RegexRef.map (f : ι → κ) : RegexRef ι → RegexRef κ
  | entry i => entry (f i)
  | source s => source s

/-- The same kind with its positions changed by `f`. -/
def NodeKind.map (f : ι → κ) : NodeKind ι → NodeKind κ
  | literal text => literal text
  | generation body stop stopCaptureName lazy temperature =>
    generation (body.map f) (stop.map f) stopCaptureName lazy temperature
  | lexeme regex contextual temperature => lexeme (regex.map f) contextual temperature
  | grammar position temperature maxTokens => grammar (f position) temperature maxTokens
  | choice alternatives => choice (alternatives.map f)
  | sequence elements => sequence (elements.map f)

/-- The same node with its positions changed by `f`. -/
def Node.map (f : ι → κ) (n : Node ι) : Node κ :=
  ⟨n.kind.map f, n.props⟩

/-- The same grammar with its positions changed by `f`. -/
def Grammar.map (f : ι → κ) (g : Grammar ι) : Grammar κ :=
  ⟨g.nodes.map (Node.map f), g.greedyLexer, g.skip.map (RegexRef.map f), g.contextual,
    g.regexes.map (Regex.map f)⟩

/-- The same artifact with its positions changed by `f`. -/
def map (f : ι → κ) (t : Artifact ι) : Artifact κ :=
  ⟨t.grammars.map (Grammar.map f), t.maxTokens, t.testTrace⟩

/-- The same artifact with its positions in 32-bit words. A position that has no place there wraps
around. -/
def narrow (t : Artifact Nat) : Artifact UInt32 :=
  t.map Nat.toUInt32

/-! ### Stops -/

/-- The stop at the end of the output. -/
def RegexRef.endOfOutput : RegexRef ι :=
  source ""

/-- The stop of a generation node. -/
def Node.stop? (n : Node ι) : Option (RegexRef ι) :=
  match n.kind with
  | .generation _ stop _ _ _ => some stop
  | _ => none

end Artifact

end GuidedGrammar
