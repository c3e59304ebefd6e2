import GuidedGrammar.CaptureName
import GuidedGrammar.Grammar.StopInference
import GuidedGrammar.Regex.Table

/-!
# Building grammars

Every function of this module adds nodes or regexes to an arena and returns the id of the last
one, or fails. What a failed call has added before it failed stays, except that a failed sequence
leaves the arena as it was.

Nodes are built after the nodes they refer to. The only way to close a loop is a nested grammar
whose start is given later. A node is never changed afterwards, with two exceptions: that start,
and the stop of a generation that a sequence infers.
-/

namespace GuidedGrammar

/-- **A computation that adds to an arena** and may fail. -/
abbrev Builder := EStateM Error Arena

/-- **A node, or text** to become a literal node. -/
inductive Item where
  | node (id : NodeId)
  | text (s : String)
deriving DecidableEq, Repr

/-- **A regex, or pattern source** to become a regex. -/
inductive RegexItem where
  | regex (id : RegexId)
  | source (s : String)
deriving DecidableEq, Repr

/-- **Text or a regex** at which a generation stops. -/
inductive StopItem where
  | text (s : String)
  | regex (item : RegexItem)
deriving DecidableEq, Repr

/-- **The options of a generation.** -/
structure GenerationOptions where
  /-- The name under which the text is reported. -/
  name : Option String := none
  /-- What the text matches; without it, anything within a line. -/
  regex : Option RegexItem := none
  /-- Where the text stops. Empty text is no stop. -/
  stop : Option StopItem := none
  lazy : Option Bool := none
  temperature : Option Binary32 := none
  maxTokens : Option UInt32 := none
  /-- Whether each match is appended to the list called `name`. -/
  listAppend : Bool := false
  stopCaptureName : Option String := none
deriving DecidableEq, Repr

namespace Builder

/-! ### Adding and checking -/

/-- Adds a regex. -/
def addRegex (regex : Regex RegexId) : Builder RegexId :=
  modifyGet fun a => (a.regexes.size, { a with regexes := a.regexes.push regex })

/-- Adds a node. -/
def addNode (n : Node) : Builder NodeId :=
  modifyGet fun a => (a.nodes.size, { a with nodes := a.nodes.push n })

/-- The node of an id, which has to exist. -/
def needNode (operation : Operation) (id : NodeId) : Builder Node := do
  match (← get).node? id with
  | some n => return n
  | none => throw (.malformed operation (.unknownNode id))

/-- Demands that an id is that of a regex. -/
def needRegex (operation : Operation) (id : RegexId) : Builder Unit := do
  if (← get).regexes.size ≤ id then throw (.malformed operation (.unknownRegex id))

/-- Demands that a regex and everything below it exists and that no regex reaches itself. -/
def checkRegex (id : RegexId) : Builder Unit := do
  match (← get).regexes.check id with
  | .ok () => return ()
  | .error e => throw e

/-! ### Regexes -/

/-- The regex of exactly this text. -/
def regexLiteral (text : String) : Builder RegexId :=
  addRegex (.literal text)

/-- The regex of pattern source. -/
def pattern (source : String) : Builder RegexId :=
  addRegex (.pattern source)

/-- A regex as it is, or a new one of pattern source. A given regex is not checked. -/
def regexItem : RegexItem → Builder RegexId
  | .regex id => return id
  | .source s => pattern s

/-- The regex that matches nothing. -/
def nothing : Builder RegexId :=
  addRegex .nothing

/-- The regex of the empty text. -/
def emptyText : Builder RegexId :=
  addRegex .emptyText

/-- The regex of one byte. -/
def byte (b : UInt8) : Builder RegexId :=
  addRegex (.byte b)

/-- The regex of exactly these bytes. -/
def byteLiteral (bytes : List UInt8) : Builder RegexId :=
  addRegex (.byteLiteral bytes)

/-- The regex of any one of these bytes. -/
def byteSet (bytes : List UInt8) : Builder RegexId :=
  addRegex (.byteSet (Regex.byteSetWords bytes))

/-- The regex of what one of the parts matches. -/
def union (parts : List RegexId) : Builder RegexId := do
  parts.forM (needRegex .union)
  addRegex (.union parts)

/-- The regex of what all of the parts match. -/
def intersection (parts : List RegexId) : Builder RegexId := do
  parts.forM (needRegex .intersection)
  addRegex (.intersection parts)

/-- The regex of what the parts match one after the other. -/
def concatenation (parts : List RegexId) : Builder RegexId := do
  parts.forM (needRegex .concatenation)
  addRegex (.concatenation parts)

/-- The regex of what the part does not match. -/
def complement (part : RegexId) : Builder RegexId := do
  needRegex .complement part
  addRegex (.complement part)

/-- The regex of what is followed by the part. -/
def lookahead (part : RegexId) : Builder RegexId := do
  needRegex .lookahead part
  addRegex (.lookahead part)

/-- The regex of the part repeated at least `min` and at most `max` times. -/
def repetition (part : RegexId) (min : UInt32) (max : Option UInt32) : Builder RegexId := do
  needRegex .repetition part
  match max.filter (· < min) with
  | some max => throw (.malformed .repetition (.boundsReversed min max))
  | none => addRegex (.repetition part min max)

/-! ### Terminals -/

/-- Literal text. Only the empty literal matches the empty text. -/
def literal (text : String) : Builder NodeId :=
  addNode ⟨.literal text, {}, text.isEmpty⟩

/-- A node as it is, or a new literal. -/
def item : Item → Builder NodeId
  | .node id => do
    let _ ← needNode .grammar id
    return id
  | .text s => literal s

/-- The pattern of a generation that is given none. -/
def defaultPattern : String := ".*"

/-- The name under which a generation is reported. -/
def generationName (options : GenerationOptions) : Builder (Option String) :=
  match options.name, options.listAppend with
  | some name, true => return some (CaptureName.ofList name)
  | none, true => throw (.malformed .generation .unnamedList)
  | name, false => return name

/-- The stop of a generation, as far as the options give one. -/
def generationStop : Option StopItem → Builder Stop
  | none => return .unset
  | some (.text s) =>
    if s.isEmpty then return .unset else return .explicit (← regexLiteral s)
  | some (.regex r) => return .explicit (← regexItem r)

/-- **Generated text.** -/
def generation (options : GenerationOptions) : Builder NodeId := do
  let captureName ← generationName options
  let body ← regexItem (options.regex.getD (.source defaultPattern))
  checkRegex body
  let stop ← generationStop options.stop
  match stop.regex? with
  | some regex => checkRegex regex
  | none => pure ()
  addNode ⟨.generation ⟨body, stop, options.lazy, options.temperature, options.stopCaptureName⟩,
    ⟨options.maxTokens, captureName⟩, false⟩

/-- **A lexeme.** -/
def lexeme (regex : RegexItem) (contextual : Option Bool := none)
    (temperature : Option Binary32 := none) : Builder NodeId := do
  let regex ← regexItem regex
  checkRegex regex
  addNode ⟨.lexeme ⟨regex, contextual, temperature⟩, {}, false⟩

/-- A contextual lexeme of exactly this text. -/
def keyword (text : String) : Builder NodeId := do
  let regex ← regexLiteral text
  lexeme (.regex regex) (some true)

/-! ### Choices and sequences -/

/-- The nodes of the items, in order. -/
def items (xs : List Item) : Builder (List NodeId) :=
  xs.mapM item

/-- **One of the alternatives**, in order of preference. -/
def choice (alternatives : List Item) : Builder NodeId := do
  let ids ← items alternatives
  addNode ⟨.choice ids, {}, ids.any (← get).isNullable⟩

/-- Changes the stop of a generation node. -/
def withStop (stop : Stop) (n : Node) : Node :=
  match n.kind with
  | .generation g => { n with kind := .generation { g with stop } }
  | _ => n

/-- Gives a generation an inferred stop. A stop at the same character is kept as it is. -/
def setStop (generation : NodeId) (stop : InferredStop) : Builder Unit := do
  match (← get).generation? generation with
  | none => throw (.unreachable "stop inferred for a non-gen node")
  | some g =>
    match g.stop with
    | .inferred c _ _ => if c = stop.char then return ()
    | _ => pure ()
    let regex ← regexLiteral (String.singleton stop.char)
    modify fun a =>
      { a with nodes := a.nodes.modify generation (withStop (.inferred stop.char regex stop.source)) }

/-- The nodes of the items, and the stops that they give to generations as a sequence. -/
def inferredItems (elements : List Item) : Builder (List NodeId × StopAssignment) := do
  let ids ← items elements
  match (← get).inferStops ids with
  | .ok stops => return (ids, stops)
  | .error e => throw e

/-- **A computation whose failure drops the nodes** that it has added. -/
def undoingNodes {α : Type} (m : Builder α) : Builder α := do
  let mark := (← get).nodes.size
  tryCatch m fun e => do
    modify fun a => { a with nodes := a.nodes.take mark }
    throw e

/-- **The elements one after the other.** Generations without a stop are given the stops that
follow from the elements. If that fails, the literals among the elements are dropped again. -/
def sequence (elements : List Item) : Builder NodeId := do
  let (ids, stops) ← undoingNodes (inferredItems elements)
  stops.forM fun (generation, stop) => setStop generation stop
  addNode ⟨.sequence ids, {}, ids.all (← get).isNullable⟩

/-- Two elements one after the other. The literals among them are added first. -/
def pair (first second : Item) : Builder NodeId := do
  let first ← item first
  let second ← item second
  sequence [.node first, .node second]

/-! ### Nested grammars -/

/-- **A reference to a grammar** that starts with `start` and ignores `skip` between lexemes. -/
def nested (start : Item) (skip : Option RegexId) : Builder NodeId := do
  let start ← item start
  match skip with
  | some skip => checkRegex skip
  | none => pure ()
  addNode ⟨.nested (some start) skip, {}, false⟩

/-- A reference to a grammar whose start is given later. -/
def placeholder : Builder NodeId :=
  addNode ⟨.nested none none, {}, false⟩

/-- Gives a nested grammar a start. -/
def withStart (start : NodeId) (n : Node) : Node :=
  match n.kind with
  | .nested _ skip => { n with kind := .nested (some start) skip }
  | _ => n

/-- **Gives the nested grammar of a placeholder its start.** -/
def define (id : NodeId) (start : Item) : Builder Unit := do
  let start ← item start
  let n ← needNode .definition id
  match n.kind with
  | .nested none _ => modify fun a => { a with nodes := a.nodes.modify id (withStart start) }
  | .nested (some _) _ => throw (.malformed .definition (.alreadyDefined id))
  | _ => throw (.malformed .definition (.notNested ((← get).cite id)))

/-- **The item, one or more times.** -/
def oneOrMore (x : Item) : Builder NodeId := do
  let once ← item x
  let repeated ← placeholder
  let more ← sequence [.node repeated, .node once]
  let body ← choice [.node once, .node more]
  define repeated (.node body)
  return repeated

/-- **The item, any number of times.** -/
def zeroOrMore (x : Item) : Builder NodeId := do
  let once ← item x
  let empty ← literal ""
  let repeated ← placeholder
  let more ← sequence [.node repeated, .node once]
  let body ← choice [.node empty, .node more]
  define repeated (.node body)
  return repeated

/-! ### Properties -/

/-- A copy of a node with changed properties. -/
def copyWith (id : NodeId) (change : Props → Props) : Builder NodeId := do
  let n ← needNode .properties id
  addNode { n with props := change n.props }

/-- A copy of a node whose text is reported under a name. -/
def capture (id : NodeId) (name : String) : Builder NodeId :=
  copyWith id fun props => { props with captureName := some name }

/-- A copy of a node whose texts are appended to a list. -/
def listCapture (id : NodeId) (name : String) : Builder NodeId :=
  capture id (CaptureName.ofList name)

/-- A copy of a node whose text is limited to a number of tokens. -/
def limitTokens (id : NodeId) (maxTokens : UInt32) : Builder NodeId :=
  copyWith id fun props => { props with maxTokens := some maxTokens }

end Builder

end GuidedGrammar
