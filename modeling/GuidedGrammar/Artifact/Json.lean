import GuidedGrammar.Artifact.Basic
import GuidedGrammar.Binary.Style
import GuidedGrammar.Json.Decode
import GuidedGrammar.Json.Printer
import GuidedGrammar.Json.Reader

/-!
# The written form of compiled grammars

A compiled grammar is written as JSON and read back from it. Nodes and regexes are objects with
one member, whose name says what they are. Optional fields without a value are left out; numbers
that are not finite are written as null. When a node is read, the members of its payload that are
not fields of its own are set aside, so they have to be storable.
-/

namespace GuidedGrammar

namespace Json

/-- A number, or null if it is not finite. -/
def ofBinary {f : BinaryFormat} (style : NumeralStyle) (x : Binary f) : Json :=
  (x.toNumeral? style).elim .null .number

/-- A 32-bit floating-point number. -/
def ofBinary32 (x : Binary32) : Json :=
  ofBinary .singleData x

/-- A 64-bit floating-point number. -/
def ofBinary64 (x : Binary64) : Json :=
  ofBinary .doubleData x

/-- A 32-bit word. -/
def ofUInt32 (n : UInt32) : Json :=
  ofNat n.toNat

/-- A byte. -/
def ofUInt8 (n : UInt8) : Json :=
  ofNat n.toNat

/-- The items of a list. -/
def ofList {α : Type} (item : α → Json) (xs : List α) : Json :=
  .array (xs.map item)

/-- A member that is left out without a value. -/
def optionalMember {α : Type} (name : String) (value : α → Json) (x : Option α) :
    List (String × Json) :=
  x.elim [] fun x => [(name, value x)]

/-- The object with one member. -/
def ofVariant (name : String) (payload : Json) : Json :=
  ofMembers [(name, payload)]

end Json

open Json (ofBinary32 ofUInt32 ofUInt8 ofList ofMembers ofVariant optionalMember toBool? toString?
  toUInt32? toUInt8? toBinary32? toList? required optional defaulted)

/-! ### Regexes -/

namespace Regex

/-- **The written form of an entry.** -/
def toJson : Regex UInt32 → Json
  | intersection parts => ofVariant "And" (ofList ofUInt32 parts)
  | union parts => ofVariant "Or" (ofList ofUInt32 parts)
  | concatenation parts => ofVariant "Concat" (ofList ofUInt32 parts)
  | lookahead part => ofVariant "LookAhead" (ofUInt32 part)
  | complement part => ofVariant "Not" (ofUInt32 part)
  | repetition part min max =>
    ofVariant "Repeat" (.array [ofUInt32 part, ofUInt32 min, max.elim .null ofUInt32])
  | emptyText => ofVariant "EmptyString" (.object [])
  | nothing => ofVariant "NoMatch" (.object [])
  | pattern source => ofVariant "Regex" (.ofString source)
  | literal text => ofVariant "Literal" (.ofString text)
  | byteLiteral bytes => ofVariant "ByteLiteral" (ofList ofUInt8 bytes)
  | byte b => ofVariant "Byte" (ofUInt8 b)
  | byteSet words => ofVariant "ByteSet" (ofList ofUInt32 words)

/-- Whether a value is the payload of a form without fields: an object, whatever its members hold,
or an empty array. -/
def isEmptyPayload : Json → Bool
  | .array items => items.isEmpty
  | v => v.hasNamedMembers

/-- The part and the bounds of a repetition. -/
def repetitionOfJson? : Json → Option (Regex UInt32)
  | .array [part, min, max] => do
    let part ← part.toUInt32?
    let min ← min.toUInt32?
    let max ← optional toUInt32? (some max)
    some (repetition part min max)
  | _ => none

/-- **The entry of a written form.** -/
def ofJson? (v : Json) : Option (Regex UInt32) := do
  let (name, payload) ← v.variant?
  match name with
  | "And" => (toList? toUInt32? payload).map intersection
  | "Or" => (toList? toUInt32? payload).map union
  | "Concat" => (toList? toUInt32? payload).map concatenation
  | "LookAhead" => payload.toUInt32?.map lookahead
  | "Not" => payload.toUInt32?.map complement
  | "Repeat" => repetitionOfJson? payload
  | "EmptyString" => if isEmptyPayload payload then some emptyText else none
  | "NoMatch" => if isEmptyPayload payload then some nothing else none
  | "Regex" => payload.toString?.map pattern
  | "Literal" => payload.toString?.map literal
  | "ByteLiteral" => (toList? toUInt8? payload).map byteLiteral
  | "Byte" => payload.toUInt8?.map byte
  | "ByteSet" => (toList? toUInt32? payload).map byteSet
  | _ => none

end Regex

namespace Artifact

/-- The written form of a reference to a regex. -/
def RegexRef.toJson : RegexRef UInt32 → Json
  | entry i => ofUInt32 i
  | source s => .ofString s

/-- The reference of a written form. -/
def RegexRef.ofJson? : Json → Option (RegexRef UInt32)
  | .text s => s.map source
  | v => v.toUInt32?.map entry

/-! ### Nodes -/

/-- The members of the properties. -/
def Props.members (p : Props) : List (String × Json) :=
  optionalMember "max_tokens" ofUInt32 p.maxTokens ++
    (optionalMember "name" .ofString p.name ++
      optionalMember "capture_name" .ofString p.captureName)

/-- The names of the members of the properties. -/
def Props.names : List String :=
  ["max_tokens", "name", "capture_name"]

/-- The properties of their fields. -/
def Props.ofFields? : List (Option Json) → Option Props
  | [maxTokens, name, captureName] => do
    let maxTokens ← optional toUInt32? maxTokens
    let name ← optional toString? name
    let captureName ← optional toString? captureName
    some ⟨maxTokens, name, captureName⟩
  | _ => none

/-- The name of a kind of node. -/
def NodeKind.name {ι : Type} : NodeKind ι → String
  | literal _ => "String"
  | generation .. => "Gen"
  | lexeme .. => "Lexeme"
  | grammar .. => "GenGrammar"
  | choice _ => "Select"
  | sequence _ => "Join"

/-- The members of a kind of node. -/
def NodeKind.members : NodeKind UInt32 → List (String × Json)
  | literal text => [("literal", .ofString text)]
  | generation body stop stopCaptureName lazy temperature =>
    [("body_rx", body.toJson), ("stop_rx", stop.toJson)] ++
      (optionalMember "stop_capture_name" .ofString stopCaptureName ++
        (optionalMember "lazy" .bool lazy ++ optionalMember "temperature" ofBinary32 temperature))
  | lexeme regex contextual temperature =>
    ("rx", regex.toJson) ::
      (optionalMember "contextual" .bool contextual ++
        optionalMember "temperature" ofBinary32 temperature)
  | grammar position temperature maxTokens =>
    ("grammar", ofUInt32 position) ::
      (optionalMember "temperature" ofBinary32 temperature ++
        optionalMember "max_tokens_grm" ofUInt32 maxTokens)
  | choice alternatives => [("among", ofList ofUInt32 alternatives)]
  | sequence elements => [("sequence", ofList ofUInt32 elements)]

/-- The names of the members of the kind of node called `name`. -/
def NodeKind.fieldNames? (name : String) : Option (List String) :=
  match name with
  | "String" => some ["literal"]
  | "Gen" => some ["body_rx", "stop_rx", "stop_capture_name", "lazy", "temperature"]
  | "Lexeme" => some ["rx", "contextual", "temperature"]
  | "GenGrammar" => some ["grammar", "temperature", "max_tokens_grm"]
  | "Select" => some ["among"]
  | "Join" => some ["sequence"]
  | _ => none

/-- The kind of node called `name`, of its fields. -/
def NodeKind.ofFields? (name : String) (fields : List (Option Json)) : Option (NodeKind UInt32) :=
  match name, fields with
  | "String", [text] => (required toString? text).map literal
  | "Gen", [body, stop, stopCaptureName, lazy, temperature] => do
    let body ← required RegexRef.ofJson? body
    let stop ← required RegexRef.ofJson? stop
    let stopCaptureName ← optional toString? stopCaptureName
    let lazy ← optional toBool? lazy
    let temperature ← optional toBinary32? temperature
    some (generation body stop stopCaptureName lazy temperature)
  | "Lexeme", [regex, contextual, temperature] => do
    let regex ← required RegexRef.ofJson? regex
    let contextual ← optional toBool? contextual
    let temperature ← optional toBinary32? temperature
    some (lexeme regex contextual temperature)
  | "GenGrammar", [position, temperature, maxTokens] => do
    let position ← required toUInt32? position
    let temperature ← optional toBinary32? temperature
    let maxTokens ← optional toUInt32? maxTokens
    some (grammar position temperature maxTokens)
  | "Select", [alternatives] => (required (toList? toUInt32?) alternatives).map choice
  | "Join", [elements] => (required (toList? toUInt32?) elements).map sequence
  | _, _ => none

/-- **The written form of a node.** -/
def Node.toJson (n : Node UInt32) : Json :=
  ofVariant n.kind.name (ofMembers (n.kind.members ++ n.props.members))

/-- How many containers deep a text may nest what is set aside. -/
def nestingLimit : Nat := 127

/-- How many containers enclose the payload of a node: the artifact, its list of grammars, the
grammar, its list of nodes and the node. -/
def payloadDepth : Nat := 5

/-- **The node of a written form.** -/
def Node.ofJson? (v : Json) : Option (Node UInt32) := do
  let (name, payload) ← v.variant?
  let names ← NodeKind.fieldNames? name
  if !payload.isStorable (nestingLimit - payloadDepth) then none
  let kind ← NodeKind.ofFields? name (← payload.objectFields? names)
  let props ← Props.ofFields? (← payload.objectFields? Props.names)
  some ⟨kind, props⟩

/-! ### Grammars -/

/-- **The written form of a grammar.** -/
def Grammar.toJson (g : Grammar UInt32) : Json :=
  ofMembers
    ([("nodes", ofList Node.toJson g.nodes), ("greedy_lexer", .bool g.greedyLexer)] ++
      (optionalMember "greedy_skip_rx" RegexRef.toJson g.skip ++
        (optionalMember "contextual" .bool g.contextual ++
          [("rx_nodes", ofList Regex.toJson g.regexes)])))

/-- **The grammar of a written form.** -/
def Grammar.ofJson? (v : Json) : Option (Grammar UInt32) := do
  match ← v.recordFields? ["nodes", "greedy_lexer", "greedy_skip_rx", "contextual", "rx_nodes"] with
  | [nodes, greedyLexer, skip, contextual, regexes] =>
    let nodes ← required (toList? Node.ofJson?) nodes
    let greedyLexer ← required toBool? greedyLexer
    let skip ← optional RegexRef.ofJson? skip
    let contextual ← optional toBool? contextual
    let regexes ← required (toList? Regex.ofJson?) regexes
    some ⟨nodes, greedyLexer, skip, contextual, regexes⟩
  | _ => none

/-- **The written form of an artifact.** -/
def toJson (t : Artifact UInt32) : Json :=
  ofMembers
    (("grammars", ofList Grammar.toJson t.grammars) ::
      (optionalMember "max_tokens" ofUInt32 t.maxTokens ++
        if t.testTrace then [("test_trace", .bool true)] else []))

/-- **The artifact of a written form.** -/
def ofJson? (v : Json) : Option (Artifact UInt32) := do
  match ← v.recordFields? ["grammars", "max_tokens", "test_trace"] with
  | [grammars, maxTokens, testTrace] =>
    let grammars ← required (toList? Grammar.ofJson?) grammars
    let maxTokens ← optional toUInt32? maxTokens
    let testTrace ← defaulted false toBool? testTrace
    some ⟨grammars, maxTokens, testTrace⟩
  | _ => none

/-- **The compact text of an artifact.** -/
def render (t : Artifact UInt32) : String :=
  t.toJson.render

/-- **The indented text of an artifact.** -/
def renderIndented (t : Artifact UInt32) : String :=
  t.toJson.renderIndented

/-- **The artifact of a text**, if it is one. -/
def parse? (s : String) : Option (Artifact UInt32) :=
  (Json.parse? s).bind ofJson?

end Artifact

end GuidedGrammar
