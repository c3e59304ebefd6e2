import GuidedGrammar.Proofs.Compile.Layout

/-!
# Writing in order

A set of grammars written from their layout: the grammars in their order, and in each grammar its
nodes in theirs. A node refers to other nodes, and to other grammars, by the places that they have
in these lists, so nothing is reserved and filled in later, and nothing is registered on the way.
-/

namespace GuidedGrammar

namespace Compile

/-- What a node becomes. The grammars are those of `keys`, and the nodes of this grammar are
`nodes`. -/
def writeKind (options : CompileOptions) (a : Arena) (keys nodes : List NodeId) (id : NodeId) :
    NodeKind → Writer (Artifact.NodeKind Nat)
  | .literal text => return .literal text
  | .generation g => writeGeneration options a id g
  | .lexeme l => writeLexeme a l
  | .nested .. => return .grammar (keys.idxOf id) none none
  | .choice parts => return .choice (parts.map nodes.idxOf)
  | .sequence parts => return .sequence (parts.map nodes.idxOf)

/-- Writes a node. -/
def writeNode (options : CompileOptions) (a : Arena) (keys nodes : List NodeId) (id : NodeId) :
    Writer (Artifact.Node Nat) := do
  match a.node? id with
  | none => throw (.malformed .grammar (.unknownNode id))
  | some n =>
    countNode options.nodeLimit
    let kind ← writeKind options a keys nodes id n.kind
    return compiledNode n kind

/-- Writes the grammar of `key`: its nodes, and then what it skips. The state is the number of
nodes counted before. -/
def writeGrammar (options : CompileOptions) (a : Arena) (keys : List NodeId) (key : NodeId) :
    StateT Nat (Except Error) (Artifact.Grammar Nat) := fun count =>
  match a.grammarStart? key with
  | none => .error (.undefinedGrammar key)
  | some _ => do
    let ids := a.grammarNodes key
    let (nodes, s) ← ids.mapM (writeNode options a keys ids) ⟨.empty, count⟩
    let (skip, s) ← writeSkip a (a.grammarSkip? key) s
    return (⟨nodes, false, skip, some false, s.table.entries.toList⟩, s.count)

end Compile

/-- Compiles the grammars of a root in order. -/
def Arena.compileInOrder (a : Arena) (options : CompileOptions) (root : NodeId) :
    Except Error (Artifact Nat) :=
  match a.node? root with
  | none => .error (.malformed .root (.unknownNode root))
  | some _ => do
    let keys := a.grammarOrder root
    let (grammars, _) ← keys.mapM (Compile.writeGrammar options a keys) 0
    return ⟨grammars, options.maxTokens, options.testTrace⟩

end GuidedGrammar
