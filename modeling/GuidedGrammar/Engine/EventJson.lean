import GuidedGrammar.Artifact.Json
import GuidedGrammar.Engine.Event

/-!
# The written form of events

An event is written as a JSON object whose member `object` says what kind of event it is. It is
read from such an object, in which that member may stand anywhere, or from the array of the kind
and the fields. Everything but the kind is set aside until the kind is known, so it has to be
storable.
-/

namespace GuidedGrammar

open Json (ofBinary64 ofUInt32 ofMembers toBool? toString? toUInt32? toUInt64? toBinary64? required
  defaulted member?)

/-! ### Writing -/

/-- A 64-bit word. -/
def Json.ofUInt64 (n : UInt64) : Json :=
  ofNat n.toNat

/-- The members of a capture. -/
def CaptureEvent.members (e : CaptureEvent) : List (String × Json) :=
  [("name", .ofString e.name), ("hex", .ofString e.hex), ("str", .ofString e.str),
    ("log_prob", ofBinary64 e.logProb)]

/-- The members of the end of the output. -/
def FinalTextEvent.members (e : FinalTextEvent) : List (String × Json) :=
  [("hex", .ofString e.hex), ("str", .ofString e.str)]

/-- The written form of the counters. -/
def Stats.toJson (s : Stats) : Json :=
  ofMembers
    [("runtime_us", .ofUInt64 s.runtimeMicroseconds), ("rows", .ofUInt64 s.rows),
      ("definitive_bytes", .ofUInt64 s.definitiveBytes), ("lexer_ops", .ofUInt64 s.lexerOps),
      ("all_items", .ofUInt64 s.allItems), ("hidden_bytes", .ofUInt64 s.hiddenBytes)]

/-- The members of an addition to the output. -/
def TextEvent.members (e : TextEvent) : List (String × Json) :=
  [("hex", .ofString e.hex), ("str", .ofString e.str), ("log_prob", ofBinary64 e.logProb),
    ("num_tokens", ofUInt32 e.tokenCount), ("is_generated", .bool e.isGenerated),
    ("stats", e.stats.toJson)]

namespace Event

/-- The member that says what kind of event an object is. -/
def kindMember : String := "object"

/-- The name of the kind of an event. -/
def kindName : Event → String
  | capture _ => "capture"
  | finalText _ => "final_text"
  | text _ => "text"

/-- The members of an event, its kind apart. -/
def members : Event → List (String × Json)
  | capture e => e.members
  | finalText e => e.members
  | text e => e.members

/-- **The written form of an event.** -/
def toJson (e : Event) : Json :=
  ofMembers ((kindMember, .ofString e.kindName) :: e.members)

end Event

/-! ### Reading -/

/-- The capture of a record. -/
def CaptureEvent.ofJson? (v : Json) : Option CaptureEvent := do
  match ← v.recordFields? ["name", "hex", "str", "log_prob"] with
  | [name, hex, str, logProb] =>
    let name ← required toString? name
    let hex ← required toString? hex
    let str ← required toString? str
    let logProb ← required toBinary64? logProb
    some ⟨name, hex, str, logProb⟩
  | _ => none

/-- The end of the output of a record. -/
def FinalTextEvent.ofJson? (v : Json) : Option FinalTextEvent := do
  match ← v.recordFields? ["hex", "str"] with
  | [hex, str] =>
    let hex ← defaulted "" toString? hex
    let str ← defaulted "" toString? str
    some ⟨hex, str⟩
  | _ => none

/-- The counters of a record. -/
def Stats.ofJson? (v : Json) : Option Stats := do
  let names := ["runtime_us", "rows", "definitive_bytes", "lexer_ops", "all_items", "hidden_bytes"]
  match ← (← v.recordFields? names).mapM (defaulted 0 toUInt64?) with
  | [runtime, rows, definitiveBytes, lexerOps, allItems, hiddenBytes] =>
    some ⟨runtime, rows, definitiveBytes, lexerOps, allItems, hiddenBytes⟩
  | _ => none

/-- The addition to the output of a record. -/
def TextEvent.ofJson? (v : Json) : Option TextEvent := do
  let names := ["hex", "str", "log_prob", "num_tokens", "is_generated", "stats"]
  match ← v.recordFields? names with
  | [hex, str, logProb, tokenCount, isGenerated, stats] =>
    let hex ← required toString? hex
    let str ← required toString? str
    let logProb ← defaulted .zero toBinary64? logProb
    let tokenCount ← defaulted 0 toUInt32? tokenCount
    let isGenerated ← defaulted false toBool? isGenerated
    let stats ← defaulted {} Stats.ofJson? stats
    some ⟨hex, str, logProb, tokenCount, isGenerated, stats⟩
  | _ => none

namespace Event

/-- The name of the kind, and the record of the fields. In an object the kind is one more member,
which the fields ignore. -/
def kindAndFields? : Json → Option (String × Json)
  | .array (kind :: fields) => kind.toString?.map fun kind => (kind, .array fields)
  | .object members => do
    let kind ← required toString? (← member? members kindMember)
    some (kind, .object members)
  | _ => none

/-- **The event of a written form.** -/
def ofJson? (v : Json) : Option Event := do
  if !v.isStorable Artifact.nestingLimit then none
  let (kind, fields) ← kindAndFields? v
  match kind with
  | "capture" => (CaptureEvent.ofJson? fields).map capture
  | "final_text" => (FinalTextEvent.ofJson? fields).map finalText
  | "text" => (TextEvent.ofJson? fields).map text
  | _ => none

/-- **The text of an event.** -/
def render (e : Event) : String :=
  e.toJson.render

/-- **The event of a text**, if it is one. -/
def parse? (s : String) : Option Event :=
  (Json.parse? s).bind ofJson?

end Event

end GuidedGrammar
