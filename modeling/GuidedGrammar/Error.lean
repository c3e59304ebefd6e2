/-!
# Errors of building and compiling

An error says what is wrong and with which node or regex. Where its message shows a node or a
regex, the error carries that rendering, because the grammar may have grown by the time the
message is read. The wording of all messages is in this module.
-/

namespace GuidedGrammar

/-- **Something an error points at**: its id, and its rendering when the error arose. -/
structure Cited where
  /-- The id of the node or regex. -/
  id : Nat
  /-- Its rendering. -/
  text : String
deriving DecidableEq, Repr

/-- **The operations that check their arguments**, as messages call them. -/
inductive Operation where
  | union
  | intersection
  | concatenation
  | complement
  | lookahead
  | repetition
  | regex
  | grammar
  | generation
  | definition
  | properties
  | root
deriving DecidableEq, Repr

namespace Operation

/-- The name of an operation in a message. -/
def name : Operation → String
  | union => "or"
  | intersection => "and"
  | concatenation => "concat"
  | complement => "not"
  | lookahead => "lookahead"
  | repetition => "repeat"
  | regex => "regex"
  | grammar => "grammar"
  | generation => "generation"
  | definition => "define_nested"
  | properties => "props"
  | root => "root"

end Operation

/-- **What is wrong with the arguments** of an operation. -/
inductive Fault where
  /-- No grammar node has this id. -/
  | unknownNode (id : Nat)
  /-- No regex has this id. -/
  | unknownRegex (id : Nat)
  /-- A repetition allows fewer matches than it demands. -/
  | boundsReversed (min max : UInt32)
  /-- A list capture has no name. -/
  | unnamedList
  /-- The nested grammar has its start already. -/
  | alreadyDefined (id : Nat)
  /-- The node to be defined is no nested grammar. -/
  | notNested (node : Cited)
deriving DecidableEq, Repr

namespace Fault

/-- The wording of a fault. -/
def message : Fault → String
  | unknownNode id => "unknown grammar node #" ++ toString id
  | unknownRegex id => "unknown regex #" ++ toString id
  | boundsReversed min max => "max " ++ toString max.toNat ++ " is below min " ++ toString min.toNat
  | unnamedList => "list_append needs a capture name"
  | alreadyDefined id => "grammar #" ++ toString id ++ " is already defined"
  | notNested node => node.text ++ " is not a nested grammar"

end Fault

/-- **An error of building or compiling a grammar.** -/
inductive Error where
  /-- An operation was given arguments it cannot take. -/
  | malformed (operation : Operation) (fault : Fault)
  /-- A regex reaches itself through its children. -/
  | circularRegex (regex : Cited)
  /-- A generation is followed by something that is no literal. -/
  | cannotInferStop (generation follower : Cited)
  /-- A generation is followed by literals that start differently. -/
  | ambiguousStop (generation first second : Cited)
  /-- A generation is followed by differently starting literals in different places. -/
  | conflictingStop (generation previous current : Cited)
  /-- A generation has no stop where one is demanded. -/
  | unresolvedStop (generation : Cited)
  /-- A nested grammar has no start. -/
  | undefinedGrammar (id : Nat)
  /-- The grammars have more nodes than allowed. -/
  | nodeLimitExceeded (limit : Nat)
  /-- A state that cannot arise. -/
  | unreachable (what : String)
deriving DecidableEq, Repr

namespace Error

/-- **The message of an error.** -/
def message : Error → String
  | malformed operation fault => "malformed " ++ operation.name ++ ": " ++ fault.message
  | circularRegex regex => "circular regex reference: " ++ regex.text
  | cannotInferStop generation follower =>
    "cannot infer stop: " ++ generation.text ++ " followed by " ++ follower.text
  | ambiguousStop generation first second =>
    "ambiguous stop for " ++ generation.text ++ ": " ++ first.text ++ " and " ++ second.text ++
      " start differently"
  | conflictingStop generation previous current =>
    "conflicting stops for " ++ generation.text ++ ": " ++ previous.text ++ " then " ++
      current.text
  | unresolvedStop generation => "no stop for " ++ generation.text
  | undefinedGrammar id => "undefined nested grammar #" ++ toString id
  | nodeLimitExceeded limit => "grammar exceeds " ++ toString limit ++ " nodes"
  | unreachable what => "unreachable: " ++ what

end Error

end GuidedGrammar
