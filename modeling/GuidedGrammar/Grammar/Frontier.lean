import GuidedGrammar.Grammar.Arena

/-!
# First and last frontiers

The first frontier of a sequence of nodes holds the terminals that can come first when the nodes
are matched one after the other: a choice contributes all of its alternatives, a sequence its
elements up to and including the first one that cannot match the empty text. The last frontier is
the same for the other end. Both are listed in the order of a walk that takes alternatives and
elements in the order in which they would be met from that end.
-/

namespace GuidedGrammar.Arena

/-- The leading nodes up to and including the first one that cannot match the empty text. -/
def untilSolid (a : Arena) : List NodeId → List NodeId
  | [] => []
  | id :: rest => if a.isNullable id then id :: a.untilSolid rest else [id]

/-- What can come first in a node. -/
def leading (a : Arena) (n : Node) : List NodeId :=
  match n.kind with
  | .choice alternatives => alternatives
  | .sequence elements => a.untilSolid elements
  | .literal _ | .generation _ | .lexeme _ | .nested .. => []

/-- What can come last in a node. -/
def trailing (a : Arena) (n : Node) : List NodeId :=
  match n.kind with
  | .choice alternatives => alternatives
  | .sequence elements => a.untilSolid elements.reverse
  | .literal _ | .generation _ | .lexeme _ | .nested .. => []

/-- **The terminals that can come first** when the nodes are matched one after the other. -/
def firstFrontier (a : Arena) (nodes : List NodeId) : List NodeId :=
  ((a.graph a.leading).depthFirst (a.untilSolid nodes)).filter a.isTerminal

/-- **The terminals that can come last** when the nodes are matched one after the other. -/
def lastFrontier (a : Arena) (nodes : List NodeId) : List NodeId :=
  ((a.graph a.trailing).depthFirst (a.untilSolid nodes.reverse)).filter a.isTerminal

/-- Whether all nodes that have to be looked at, from the front, are in the arena. -/
def knowsLeading (a : Arena) (nodes : List NodeId) : Bool :=
  (a.untilSolid nodes).all fun id => (a.node? id).isSome

/-- The first frontier, unless a node that has to be looked at is not in the arena. -/
def firstFrontier? (a : Arena) (nodes : List NodeId) : Option (List NodeId) :=
  if a.knowsLeading nodes then some (a.firstFrontier nodes) else none

/-- The last frontier, unless a node that has to be looked at is not in the arena. -/
def lastFrontier? (a : Arena) (nodes : List NodeId) : Option (List NodeId) :=
  if a.knowsLeading nodes.reverse then some (a.lastFrontier nodes) else none

end GuidedGrammar.Arena
