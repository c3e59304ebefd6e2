import GuidedGrammar.Grammar.Builder

/-!
# Calls as data

A call names one of the ways to build a regex or a node, with its arguments. An arena that is
built by calls, failing ones included, is one that starts empty and carries out a list of them.
-/

namespace GuidedGrammar

/-- **A call that builds something.** -/
inductive Call where
  | regexLiteral (text : String)
  | pattern (source : String)
  | regexItem (x : RegexItem)
  | nothing
  | emptyText
  | byte (b : UInt8)
  | byteLiteral (bytes : List UInt8)
  | byteSet (bytes : List UInt8)
  | union (parts : List RegexId)
  | intersection (parts : List RegexId)
  | concatenation (parts : List RegexId)
  | complement (part : RegexId)
  | lookahead (part : RegexId)
  | repetition (part : RegexId) (min : UInt32) (max : Option UInt32)
  | literal (text : String)
  | item (x : Item)
  | generation (options : GenerationOptions)
  | lexeme (regex : RegexItem) (contextual : Option Bool) (temperature : Option Binary32)
  | keyword (text : String)
  | choice (alternatives : List Item)
  | sequence (elements : List Item)
  | pair (first second : Item)
  | nested (start : Item) (skip : Option RegexId)
  | placeholder
  | define (id : NodeId) (start : Item)
  | oneOrMore (x : Item)
  | zeroOrMore (x : Item)
  | capture (id : NodeId) (name : String)
  | listCapture (id : NodeId) (name : String)
  | limitTokens (id : NodeId) (maxTokens : UInt32)
deriving DecidableEq, Repr

/-- **What a call returns.** -/
inductive Call.Result where
  | regex (id : RegexId)
  | node (id : NodeId)
  | done
deriving DecidableEq, Repr

namespace Call

/-- **Carries out a call.** -/
def run : Call → Builder Result
  | regexLiteral text => .regex <$> Builder.regexLiteral text
  | pattern source => .regex <$> Builder.pattern source
  | regexItem x => .regex <$> Builder.regexItem x
  | nothing => .regex <$> Builder.nothing
  | emptyText => .regex <$> Builder.emptyText
  | byte b => .regex <$> Builder.byte b
  | byteLiteral bytes => .regex <$> Builder.byteLiteral bytes
  | byteSet bytes => .regex <$> Builder.byteSet bytes
  | union parts => .regex <$> Builder.union parts
  | intersection parts => .regex <$> Builder.intersection parts
  | concatenation parts => .regex <$> Builder.concatenation parts
  | complement part => .regex <$> Builder.complement part
  | lookahead part => .regex <$> Builder.lookahead part
  | repetition part min max => .regex <$> Builder.repetition part min max
  | literal text => .node <$> Builder.literal text
  | item x => .node <$> Builder.item x
  | generation options => .node <$> Builder.generation options
  | lexeme regex contextual temperature =>
    .node <$> Builder.lexeme regex contextual temperature
  | keyword text => .node <$> Builder.keyword text
  | choice alternatives => .node <$> Builder.choice alternatives
  | sequence elements => .node <$> Builder.sequence elements
  | pair first second => .node <$> Builder.pair first second
  | nested start skip => .node <$> Builder.nested start skip
  | placeholder => .node <$> Builder.placeholder
  | define id start => (fun _ => .done) <$> Builder.define id start
  | oneOrMore x => .node <$> Builder.oneOrMore x
  | zeroOrMore x => .node <$> Builder.zeroOrMore x
  | capture id name => .node <$> Builder.capture id name
  | listCapture id name => .node <$> Builder.listCapture id name
  | limitTokens id maxTokens => .node <$> Builder.limitTokens id maxTokens

/-- **The arena after a call**, whether or not the call succeeds. -/
def after (a : Arena) (call : Call) : Arena :=
  match call.run a with
  | .ok _ a => a
  | .error _ a => a

end Call

/-- **The arena that a list of calls builds**, starting empty. -/
def Arena.ofCalls (calls : List Call) : Arena :=
  calls.foldl Call.after ∅

end GuidedGrammar
