import GuidedGrammar.CaptureName
import GuidedGrammar.Engine.EventJson
import GuidedGrammar.Text.Hex
import GuidedGrammar.Text.Lines
import GuidedGrammar.Text.Utf8

/-!
# Transcripts

A transcript collects what the engine reports: the text, the captures by name, the warnings, and
whether the output is complete. Events come one to a line of the engine's log, among warnings and
other lines.

Captures are listed in the order in which their names first arrived; a later capture of the same
name takes the place of the earlier one. A capture whose name is marked as that of a list is
appended to that list instead.
-/

namespace GuidedGrammar

/-! ### Lists of named values -/

/-- **Values by name**, in the order in which the names arrived. -/
abbrev Named (α : Type) := List (String × α)

namespace Named

variable {α : Type}

/-- The value of a name. -/
def value? (xs : Named α) (name : String) : Option α :=
  xs.lookup name

/-- Changes the value of a name with `change`, which is given the value it had. A new name goes to
the end. -/
def update (name : String) (change : Option α → α) : Named α → Named α
  | [] => [(name, change none)]
  | (other, x) :: rest =>
    if other = name then (other, change (some x)) :: rest
    else (other, x) :: update name change rest

end Named

/-- **Why the output of the engine cannot be used.** -/
inductive OutputError where
  /-- A line announces an event and does not hold one. -/
  | malformedEvent
  /-- Bytes are not given in hexadecimal. -/
  | malformedHex (e : Text.HexError)
deriving DecidableEq, Repr

/-- **The wording of an error.** What is wrong with a malformed event is not said. -/
def OutputError.message : OutputError → String
  | malformedEvent => "malformed engine output:"
  | malformedHex e => "malformed hex in engine output: " ++ e.message

/-- **What the engine has reported.** -/
structure Transcript where
  /-- The last capture of each name. -/
  captures : Named CaptureEvent := []
  /-- All captures of each list. -/
  listCaptures : Named (List CaptureEvent) := []
  /-- The additions to the output. -/
  text : Array TextEvent := #[]
  warnings : Array String := #[]
  isDone : Bool := false
deriving DecidableEq

namespace Transcript

/-! ### Collecting -/

/-- **Adds an event.** -/
def handle (t : Transcript) : Event → Transcript
  | .capture e =>
    match CaptureName.list? e.name with
    | some list =>
      { t with listCaptures := t.listCaptures.update list fun es => es.getD [] ++ [e] }
    | none => { t with captures := t.captures.update e.name fun _ => e }
  | .finalText _ => { t with isDone := true }
  | .text e => { t with text := t.text.push e }

/-- What a line with an event starts with. -/
def eventMark : String := "JSON-OUT: "

/-- What a warning starts with. -/
def warningMark : String := "Warning: "

/-- **Adds a line of the log.** A warning is kept whole; a line that is neither an event nor a
warning says nothing. -/
def handleLine (line : String) : EStateM OutputError Transcript Unit := do
  match Text.after? eventMark line with
  | some json =>
    match Event.parse? json with
    | some e => modify (·.handle e)
    | none => throw .malformedEvent
  | none =>
    if (Text.after? warningMark line).isSome then
      modify fun t => { t with warnings := t.warnings.push line }

/-- **Adds the lines of a piece of the log**, up to the first one that is malformed. -/
def handleLog (log : String) : EStateM OutputError Transcript Unit :=
  (Text.lines log).forM handleLine

/-! ### Results -/

/-- The bytes of a hexadecimal text. -/
def bytesOf (hex : String) : Except OutputError (List UInt8) :=
  (Text.decodeHex hex).mapError .malformedHex

/-- **All bytes of the output.** -/
def textBytes (t : Transcript) : Except OutputError (List UInt8) :=
  (t.text.toList.mapM fun e => bytesOf e.hex).map List.flatten

/-- **The output as text.** -/
def textString (t : Transcript) : Except OutputError String :=
  t.textBytes.map Text.decodeUtf8

/-- The text of a capture. -/
def capture? (t : Transcript) (name : String) : Option String :=
  (t.captures.value? name).map (·.str)

/-- The bytes of a capture. -/
def captureBytes? (t : Transcript) (name : String) : Except OutputError (Option (List UInt8)) :=
  match t.captures.value? name with
  | none => .ok none
  | some e => (bytesOf e.hex).map some

/-- The texts of the captures of a list, in the order of arrival. -/
def listCapture? (t : Transcript) (name : String) : Option (List String) :=
  (t.listCaptures.value? name).map fun es => es.map (·.str)

end Transcript

end GuidedGrammar
