import GuidedGrammar.Binary.Style
import GuidedGrammar.Error
import GuidedGrammar.Grammar.Arena
import GuidedGrammar.Regex.Printer

/-!
# Grammars as readable text

A node is shown with everything below it on one line. A node that is met more than once is shown
in full the first time, with its id as a label, and as a mere reference afterwards; so shared
parts are shown once, and a grammar that refers to itself has a finite rendering.

The rendering is a list of pieces. The full text writes them all; the shortened one stops at a
limit of bytes.
-/

namespace GuidedGrammar

/-! ### Pieces -/

/-- **A piece of the rendering of a node.** -/
inductive Piece where
  /-- Fixed text. -/
  | text (s : String)
  /-- The place where the rendering of a node starts, labelled if the node is shared. -/
  | heading (id : NodeId) (labelled : Bool)
  /-- A mention of a node that has been met before. -/
  | reference (id : NodeId)
  /-- A mention of an id that no node has. -/
  | unknown (id : NodeId)
  /-- A regex. -/
  | regex (id : RegexId)
deriving DecidableEq, Repr

namespace Piece

/-- **The text of a piece.** -/
def toText (store : RegexStore) : Piece → String
  | text s => s
  | heading id true => "#" ++ toString id ++ ": "
  | heading _ false => ""
  | reference id => "#" ++ toString id
  | unknown id => "<unknown #" ++ toString id ++ ">"
  | regex id => Regex.render store id

end Piece

/-- **A step of showing a node**: show a node, or write a piece. -/
inductive Node.PrintTask where
  | node (id : NodeId)
  | piece (p : Piece)

namespace Node

open PrintTask

/-- The task of writing fixed text. -/
def write (s : String) : PrintTask :=
  piece (.text s)

/-- The properties of a node, each after a blank. -/
def propsTasks (n : Node) : List PrintTask :=
  (n.props.maxTokens.elim [] fun count => [write (" maxTokens:" ++ toString count.toNat)]) ++
    (n.temperature?.elim [] fun temperature => [write (" temp:" ++ temperature.display)]) ++
    (n.props.captureName.elim [] fun name => [write (" name:" ++ Text.quote name)])

/-- The tasks that show the nodes with `separator` between them. -/
def listTasks (separator : String) (ids : List NodeId) : List PrintTask :=
  (ids.map node).intersperse (write separator)

/-- **The tasks that show a node**, given the piece that its rendering starts with. -/
def printTasks (n : Node) (heading : Piece) : List PrintTask :=
  match n.kind with
  | .literal text => piece heading :: write (Text.quote text) :: n.propsTasks
  | .generation g =>
    piece heading :: write "gen(regex:" :: piece (.regex g.body) ::
      ((g.stop.regex?.elim [] fun regex => [write " stop:", piece (.regex regex)]) ++
        (n.propsTasks ++ [write ")"]))
  | .lexeme l =>
    piece heading :: write (if l.contextual = some true then "keyword(" else "lexeme(") ::
      piece (.regex l.regex) :: (n.propsTasks ++ [write ")"])
  | .nested start _ =>
    write "(" :: piece heading :: write "grammar(" :: start.elim (write "?") node :: write ")" ::
      (n.propsTasks ++ [write ")"])
  | .choice alternatives =>
    write "(" :: piece heading :: (listTasks " | " alternatives ++ (n.propsTasks ++ [write ")"]))
  | .sequence elements =>
    write "(" :: piece heading :: (listTasks " + " elements ++ (n.propsTasks ++ [write ")"]))

end Node

namespace Arena

open GuidedGrammar.Graph (unseen unseen_insert_le unseen_insert_lt)

/-- **How often one arrives at each node** when everything reachable from `root` is expanded once.
-/
def arrivals (a : Arena) (root : NodeId) : Std.TreeMap NodeId Nat :=
  (a.graph Node.children).arrivals [root]

/-- Carries out the tasks in order and appends the pieces to `done`. The nodes in `seen` have been
met before; those with more than one arrival are labelled. -/
def print (a : Arena) (arrivals : Std.TreeMap NodeId Nat) (tasks : List Node.PrintTask)
    (seen : Std.TreeSet NodeId) (done : Array Piece) : Array Piece :=
  match tasks with
  | [] => done
  | .piece p :: rest => a.print arrivals rest seen (done.push p)
  | .node id :: rest =>
    if id ∈ seen then a.print arrivals rest seen (done.push (.reference id))
    else if hid : id < a.nodes.size then
      let heading := .heading id (1 < arrivals.getD id 0)
      a.print arrivals (a.nodes[id].printTasks heading ++ rest) (seen.insert id) done
    else a.print arrivals rest (seen.insert id) (done.push (.unknown id))
termination_by (unseen a.nodes.size seen, tasks.length)
decreasing_by
  · exact Prod.Lex.right _ (Nat.lt_succ_self _)
  · exact Prod.Lex.right _ (Nat.lt_succ_self _)
  · exact Prod.Lex.left _ _ (unseen_insert_lt hid ‹_›)
  · rcases Nat.lt_or_eq_of_le (unseen_insert_le a.nodes.size seen id) with h | h
    · exact Prod.Lex.left _ _ h
    · rw [h]
      exact Prod.Lex.right _ (Nat.lt_succ_self _)

/-- **The pieces of the rendering of a node** and everything below it. -/
def pieces (a : Arena) (root : NodeId) : List Piece :=
  (a.print (a.arrivals root) [.node root] ∅ #[]).toList

/-- **The full rendering of a node.** -/
def render (a : Arena) (root : NodeId) : String :=
  String.join ((a.pieces root).map (Piece.toText a.regexes))

/-- **The rendering of a node, cut to `limit` bytes**, with an ellipsis if it is longer. -/
def renderWithin (a : Arena) (limit : Nat) (root : NodeId) : String :=
  Text.writeWithin limit (Piece.toText a.regexes) "" (a.pieces root)

/-- How many bytes of a rendering an error shows. -/
def citeLimit : Nat := 1024

/-- A node as an error shows it. -/
def cite (a : Arena) (id : NodeId) : Cited :=
  ⟨id, a.renderWithin citeLimit id⟩

end Arena

end GuidedGrammar
