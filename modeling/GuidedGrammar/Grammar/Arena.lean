import GuidedGrammar.Grammar.Node
import GuidedGrammar.Graph.Traversal

/-!
# Arenas

An arena holds all nodes and regexes that have been built so far, each at the place that is its
id. Ids that no node or regex has can be asked about like any other.
-/

namespace GuidedGrammar

/-- **All nodes and regexes built so far.** -/
structure Arena where
  nodes : Array Node
  regexes : RegexStore
deriving DecidableEq, Inhabited

namespace Arena

/-- The arena without nodes and regexes. -/
def empty : Arena :=
  ⟨#[], #[]⟩

instance : EmptyCollection Arena := ⟨empty⟩

/-- The node of an id. -/
def node? (a : Arena) (id : NodeId) : Option Node :=
  a.nodes[id]?

/-- The text of the literal of an id. -/
def literal? (a : Arena) (id : NodeId) : Option String :=
  (a.node? id).bind Node.literal?

/-- The generation of an id. -/
def generation? (a : Arena) (id : NodeId) : Option Generation :=
  (a.node? id).bind Node.generation?

/-- Whether the id is that of a node that can match the empty text. -/
def isNullable (a : Arena) (id : NodeId) : Bool :=
  (a.node? id).any (·.nullable)

/-- Whether the id is that of a terminal. -/
def isTerminal (a : Arena) (id : NodeId) : Bool :=
  (a.node? id).any (·.isTerminal)

/-- Whether the id is that of a reference to another grammar. -/
def isNested (a : Arena) (id : NodeId) : Bool :=
  (a.node? id).any (·.isNested)

/-- The graph of the nodes in which a node leads to those for which `below` holds of it. -/
def graph (a : Arena) (below : Node → List NodeId) : Digraph where
  size := a.nodes.size
  next id := (a.node? id).elim [] below

/-- **Everything reachable from a node**, itself included, in depth-first preorder. The starts of
nested grammars are followed. -/
def reachable (a : Arena) (root : NodeId) : List NodeId :=
  (a.graph Node.children).depthFirst [root]

end Arena

end GuidedGrammar
