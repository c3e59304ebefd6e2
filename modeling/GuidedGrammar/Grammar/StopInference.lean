import GuidedGrammar.Grammar.Frontier
import GuidedGrammar.Grammar.Printer

/-!
# Inferring where generations stop

A generation without a stop of its own learns from what follows it where it ends. At every
boundary of a sequence, the generations that can come last on its left side stop at the first
character of the literals that can come first on its right side. That needs agreement: only
literals may follow, they must start with the same character, and a generation that is met at
several boundaries, or has an inferred stop already, must be given the same character each time.

Nothing is changed here; the result lists the stops for the builder of the sequence to set.
-/

namespace GuidedGrammar

/-- **A stop chosen for a generation**: a character, and the literal that starts with it. -/
structure InferredStop where
  char : Char
  source : NodeId
deriving DecidableEq, Repr

/-- **Chosen stops** by generation, in the order in which they were chosen. -/
abbrev StopAssignment := List (NodeId × InferredStop)

namespace StopAssignment

/-- The stop chosen for a generation. -/
def stop? (chosen : StopAssignment) (generation : NodeId) : Option InferredStop :=
  chosen.lookup generation

/-- Chooses a stop for a generation, unless there is one for it. -/
def choose (chosen : StopAssignment) (generation : NodeId) (stop : InferredStop) :
    StopAssignment :=
  if (chosen.stop? generation).isSome then chosen else chosen ++ [(generation, stop)]

end StopAssignment

namespace Arena

/-- Whether the id is that of a generation whose stop may be inferred. -/
def hasOpenStop (a : Arena) (id : NodeId) : Bool :=
  (a.generation? id).any (·.stop.isOpen)

/-- **The boundaries of a sequence**: each element but the last, with the elements after it. -/
def boundaries : List NodeId → List (NodeId × List NodeId)
  | [] => []
  | [_] => []
  | x :: y :: rest => (x, y :: rest) :: boundaries (y :: rest)

/-- The generations at the end of a node whose stops may be inferred. -/
def pending (a : Arena) (id : NodeId) : List NodeId :=
  (a.lastFrontier [id]).filter a.hasOpenStop

/-- The terminals other than empty literals that can come first in a sequence. -/
def followers (a : Arena) (rest : List NodeId) : List NodeId :=
  (a.firstFrontier rest).filter fun id => a.literal? id != some ""

/-- The first character of a literal, with the literal, as a stop. -/
def leadingChar? (a : Arena) (id : NodeId) : Option InferredStop :=
  (a.literal? id).bind fun text => text.toList.head?.map fun c => ⟨c, id⟩

/-- **The stop on which all followers agree**, if there are any; `generation` is the one that an
error shows. -/
def agreedStop (a : Arena) (generation : NodeId) (followers : List NodeId) :
    Except Error (Option InferredStop) :=
  match followers.find? fun id => (a.literal? id).isNone with
  | some other => .error (.cannotInferStop (a.cite generation) (a.cite other))
  | none =>
    match followers.filterMap a.leadingChar? with
    | [] => .ok none
    | stop :: others =>
      match others.find? fun other => other.char != stop.char with
      | some other =>
        .error (.ambiguousStop (a.cite generation) (a.cite stop.source) (a.cite other.source))
      | none => .ok (some stop)

/-- The stop that a generation has been given by inference before, in this sequence or an earlier
one. -/
def previousStop? (a : Arena) (chosen : StopAssignment) (generation : NodeId) :
    Option InferredStop :=
  match chosen.stop? generation with
  | some stop => some stop
  | none =>
    match (a.generation? generation).map Generation.stop with
    | some (.inferred c _ source) => some ⟨c, source⟩
    | _ => none

/-- Chooses a stop for a generation, unless it conflicts with a previous one. -/
def chooseStop (a : Arena) (stop : InferredStop) (chosen : StopAssignment) (generation : NodeId) :
    Except Error StopAssignment :=
  match (a.previousStop? chosen generation).filter (·.char != stop.char) with
  | some previous =>
    .error (.conflictingStop (a.cite generation) (a.cite previous.source) (a.cite stop.source))
  | none => .ok (chosen.choose generation stop)

/-- **The choices at one boundary.** Where the right side can match the empty text, its left side
may run to the end of the output, and nothing is chosen. -/
def chooseAtBoundary (a : Arena) (chosen : StopAssignment) (boundary : NodeId × List NodeId) :
    Except Error StopAssignment :=
  match a.pending boundary.1 with
  | [] => .ok chosen
  | generation :: others =>
    if boundary.2.all a.isNullable then .ok chosen
    else
      match a.agreedStop generation (a.followers boundary.2) with
      | .error e => .error e
      | .ok none => .ok chosen
      | .ok (some stop) => (generation :: others).foldlM (a.chooseStop stop) chosen

/-- **The stops that a sequence gives to generations**, boundary by boundary from the front. -/
def inferStops (a : Arena) (elements : List NodeId) : Except Error StopAssignment :=
  (boundaries elements).foldlM a.chooseAtBoundary []

end Arena

end GuidedGrammar
