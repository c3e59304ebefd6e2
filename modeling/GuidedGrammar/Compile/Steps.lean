import GuidedGrammar.Artifact.Basic
import GuidedGrammar.Grammar.Printer
import GuidedGrammar.Regex.Table

/-!
# Steps of writing a grammar

A grammar is written with a table of regexes of its own. Nodes are counted over all grammars. The
steps here fail on a regex that cannot be written, on a generation without a stop where one is
demanded, and on the first node beyond the limit.
-/

namespace GuidedGrammar

/-- **What becomes of a generation without a stop.** -/
inductive StopPolicy where
  /-- It stops at the end of the output. -/
  | endOfOutput
  /-- It is an error. -/
  | error
deriving DecidableEq, Repr, Inhabited

/-- **The options of compiling.** -/
structure CompileOptions where
  stopPolicy : StopPolicy := .endOfOutput
  /-- Copied to the result. -/
  maxTokens : Option UInt32 := none
  /-- Copied to the result. -/
  testTrace : Bool := false
  /-- How many nodes all grammars together may have. -/
  nodeLimit : Option Nat := none
deriving DecidableEq, Repr, Inhabited

namespace Compile

/-- What is kept while a grammar is written: its regexes, and how many nodes have been counted over
all grammars. -/
structure State where
  table : RegexTable
  count : Nat

/-- **A step of writing a grammar.** -/
abbrev Writer := StateT State (Except Error)

/-- Adds a regex to the table of the grammar. -/
def writeRegex (store : RegexStore) (id : RegexId) : Writer Nat := fun s =>
  let ⟨table, count⟩ := s
  match table.add store id with
  | (.ok i, table) => .ok (i, ⟨table, count⟩)
  | (.error e, _) => .error e

/-- Counts a node. -/
def countNode (limit : Option Nat) : Writer Unit := fun s =>
  let count := s.count + 1
  match limit.filter (· < count) with
  | some limit => .error (.nodeLimitExceeded limit)
  | none => .ok ((), { s with count })

/-- The stop of a generation. -/
def writeStop (options : CompileOptions) (a : Arena) (id : NodeId) (g : Generation) :
    Writer (Artifact.RegexRef Nat) :=
  match g.stop.regex?, options.stopPolicy with
  | some regex, _ => do
    let i ← writeRegex a.regexes regex
    return .entry i
  | none, .endOfOutput => return .endOfOutput
  | none, .error => throw (.unresolvedStop (a.cite id))

/-- A generation, its body before its stop. -/
def writeGeneration (options : CompileOptions) (a : Arena) (id : NodeId) (g : Generation) :
    Writer (Artifact.NodeKind Nat) := do
  let body ← writeRegex a.regexes g.body
  let stop ← writeStop options a id g
  return .generation (.entry body) stop g.stopCaptureName g.lazy g.temperature

/-- A lexeme. -/
def writeLexeme (a : Arena) (l : Lexeme) : Writer (Artifact.NodeKind Nat) := do
  let regex ← writeRegex a.regexes l.regex
  return .lexeme (.entry regex) l.contextual l.temperature

/-- What a grammar skips. -/
def writeSkip (a : Arena) : Option RegexId → Writer (Option (Artifact.RegexRef Nat))
  | none => return none
  | some skip => do
    let skip ← writeRegex a.regexes skip
    return some (.entry skip)

/-- A compiled node of this kind, with the properties of `n`. -/
def compiledNode (n : Node) (kind : Artifact.NodeKind Nat) : Artifact.Node Nat :=
  ⟨kind, ⟨n.props.maxTokens, none, n.props.captureName⟩⟩

end Compile

end GuidedGrammar
