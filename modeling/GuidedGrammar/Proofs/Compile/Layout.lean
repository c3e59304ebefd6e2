import GuidedGrammar.Compile.Writer
import GuidedGrammar.Proofs.Grammar.Derivation

/-!
# The layout of compiled grammars

Which nodes belong to a grammar, and which grammars to a root, depends on the arena alone, and so
does the order of both. This module gives these orders as walks over graphs.

The grammars that are listed for a root are the root and the nested grammars that it reaches
through the nodes below each node, starts of nested grammars included (`mem_grammarOrder`). The
nodes that are listed for a grammar are those that its start reaches without entering nested
grammars (`mem_grammarNodes`). Both lists have no repetitions, and begin with the root and with
the start.
-/

namespace GuidedGrammar.Arena

/-! ### The two lists -/

/-- The nodes of a grammar, in depth-first preorder from its start. References to other
grammars are not entered. -/
def grammarNodes (a : Arena) (key : NodeId) : List NodeId :=
  (a.grammarStart? key).elim [] fun start => (a.graph Node.inlineChildren).depthFirst [start]

/-- The graph in which a grammar leads to the grammars that its nodes refer to. -/
def grammarGraph (a : Arena) : Digraph where
  size := a.nodes.size
  next key := (a.grammarNodes key).filter a.isNested

/-- The grammars reachable from a root, in the order in which they are met when grammars are
listed one after the other. -/
def grammarOrder (a : Arena) (root : NodeId) : List NodeId :=
  a.grammarGraph.breadthFirst [root]

variable {a : Arena} {key start : NodeId}

/-! ### Where a grammar starts -/

/-- Where the grammar of a node starts, and what it skips. -/
inductive GrammarAt (a : Arena) (key : NodeId) : NodeId → Option RegexId → Prop
  | nested {start : NodeId} {skip : Option RegexId}
    (hkey : a.kind? key = some (.nested (some start) skip)) : GrammarAt a key start skip
  | plain (hkey : a.isNested key = false) : GrammarAt a key key none

/-- A grammar that has a start is at a nested grammar with a start or at any other node. -/
theorem grammarAt_of_start (h : a.grammarStart? key = some start) :
    a.GrammarAt key start (a.grammarSkip? key) := by
  unfold grammarStart? at h
  unfold grammarSkip?
  split at h
  · rename_i start' skip hkind
    rw [h] at hkind
    exact .nested hkind
  · rename_i hkind
    obtain rfl := Option.some.inj h
    -- every other kind of node is its own start
    have hplain : a.isNested key = false := by
      rw [Bool.eq_false_iff]
      intro hnested
      obtain ⟨start, skip, hkey⟩ := isNested_iff.1 hnested
      exact hkind start skip hkey
    exact .plain hplain

/-- Every node but a nested grammar without a start is where a grammar is. -/
theorem start_of_grammarAt {skip : Option RegexId} (h : a.GrammarAt key start skip) :
    a.grammarStart? key = some start := by
  cases h with
  | nested hkey =>
    rw [grammarStart?, show (a.node? key).map Node.kind = _ from hkey]
  | plain hkey =>
    unfold grammarStart?
    split
    · rename_i hkind
      rw [isNested_iff.2 ⟨_, _, hkind⟩] at hkey
      cases hkey
    · rfl

theorem skip_of_grammarAt {skip : Option RegexId} (h : a.GrammarAt key start skip) :
    a.grammarSkip? key = skip := by
  cases h with
  | nested hkey => rw [grammarSkip?, show (a.node? key).map Node.kind = _ from hkey]
  | plain hkey =>
    unfold grammarSkip?
    split
    · rename_i hkind
      rw [isNested_iff.2 ⟨_, _, hkind⟩] at hkey
      cases hkey
    · rfl

/-! ### The nodes of a grammar -/

/-- **The nodes of a grammar.** -/
theorem mem_grammarNodes (hstart : a.grammarStart? key = some start) (x : NodeId) :
    x ∈ a.grammarNodes key ↔ (a.graph Node.inlineChildren).Reaches start x := by
  rw [grammarNodes, hstart, Option.elim_some, Digraph.mem_depthFirst,
    Digraph.reachesFrom_singleton]

theorem nodup_grammarNodes (key : NodeId) : (a.grammarNodes key).Nodup := by
  rw [grammarNodes]
  cases a.grammarStart? key with
  | none => exact List.nodup_nil
  | some start => exact Digraph.nodup_depthFirst [start]

theorem head?_grammarNodes (hstart : a.grammarStart? key = some start) :
    (a.grammarNodes key).head? = some start := by
  rw [grammarNodes, hstart, Option.elim_some, Digraph.head?_depthFirst]

theorem exists_start_of_mem {x : NodeId} (hx : x ∈ a.grammarNodes key) :
    ∃ start, a.grammarStart? key = some start := by
  cases hstart : a.grammarStart? key with
  | none =>
    rw [grammarNodes, hstart] at hx
    exact absurd hx List.not_mem_nil
  | some start => exact ⟨start, rfl⟩

/-- What a node reaches within its grammar it reaches. -/
theorem reaches_of_reaches_inline {x y : NodeId} (h : (a.graph Node.inlineChildren).Reaches x y) :
    (a.graph Node.children).Reaches x y := by
  refine Relation.ReflTransGen.mono (fun u v huv => ?_) _ _ h
  obtain ⟨n, hn, hv⟩ := edge_graph_iff.1 huv
  exact edge_graph_iff.2 ⟨n, hn, n.mem_children hv⟩

/-- What a nested grammar has among its nodes is below it. -/
theorem transGen_of_mem_grammarNodes (hnested : a.isNested key = true) {x : NodeId}
    (hx : x ∈ a.grammarNodes key) : Relation.TransGen (a.graph Node.children).Edge key x := by
  obtain ⟨start, hstart⟩ := exists_start_of_mem hx
  have hat := grammarAt_of_start hstart
  generalize a.grammarSkip? key = skip at hat
  cases hat with
  | plain hplain =>
    rw [hnested] at hplain
    cases hplain
  | nested hkey =>
    obtain ⟨n, hn, hkind⟩ := kind?_eq_some.1 hkey
    -- the step to the start is what makes the path not empty
    have hedge : (a.graph Node.children).Edge key start := by
      refine edge_graph_iff.2 ⟨n, hn, ?_⟩
      rw [Node.children, hkind]
      exact List.mem_singleton_self start
    exact .head' hedge (reaches_of_reaches_inline ((mem_grammarNodes hstart x).1 hx))

/-- What a grammar has reached within itself its key reaches. -/
theorem reaches_of_mem_grammarNodes {x : NodeId} (hx : x ∈ a.grammarNodes key) :
    (a.graph Node.children).Reaches key x := by
  by_cases hnested : a.isNested key = true
  · exact (transGen_of_mem_grammarNodes hnested hx).to_reflTransGen
  · have hstart := start_of_grammarAt (.plain (Bool.eq_false_iff.2 hnested))
    exact reaches_of_reaches_inline ((mem_grammarNodes hstart x).1 hx)

/-- What is below the key of a grammar is in the grammar. -/
theorem mem_grammarNodes_of_key {x : NodeId} (hx : (a.graph Node.children).Edge key x) :
    x ∈ a.grammarNodes key := by
  obtain ⟨n, hn, hx⟩ := edge_graph_iff.1 hx
  -- a nested grammar is numbered from its start, any other one from the node itself
  cases hnested : n.isNested with
  | true =>
    unfold Node.isNested at hnested
    split at hnested
    · rename_i start skip hkind
      rw [Node.children, hkind, Option.mem_toList] at hx
      have hkey : a.kind? key = some (.nested (some x) skip) :=
        kind?_eq_some.2 ⟨n, hn, hx ▸ hkind⟩
      exact (mem_grammarNodes (start_of_grammarAt (.nested hkey)) x).2 (Digraph.Reaches.refl x)
    · cases hnested
  | false =>
    have hplain : a.isNested key = false := (isNested_eq hn).trans hnested
    refine (mem_grammarNodes (start_of_grammarAt (.plain hplain)) x).2 ?_
    exact (Digraph.Reaches.refl key).tail
      (edge_graph_iff.2 ⟨n, hn, n.mem_inlineChildren hnested hx⟩)

/-- What is below a node of a grammar is in the grammar, too, unless the node is a nested
grammar. -/
theorem mem_grammarNodes_of_mem {x y : NodeId} (hx : x ∈ a.grammarNodes key)
    (hplain : a.isNested x = false) (hy : (a.graph Node.children).Edge x y) :
    y ∈ a.grammarNodes key := by
  obtain ⟨start, hstart⟩ := exists_start_of_mem hx
  obtain ⟨n, hn, hy⟩ := edge_graph_iff.1 hy
  refine (mem_grammarNodes hstart y).2 (((mem_grammarNodes hstart x).1 hx).tail ?_)
  exact edge_graph_iff.2 ⟨n, hn, n.mem_inlineChildren ((isNested_eq hn).symm.trans hplain) hy⟩

/-! ### The grammars of a root -/

/-- A grammar leads to the nested grammars among its nodes, in their order. -/
theorem successors_grammarGraph (key : NodeId) :
    a.grammarGraph.successors key = (a.grammarNodes key).filter a.isNested := by
  rw [Digraph.successors]
  show (if key < a.nodes.size then (a.grammarNodes key).filter a.isNested else []) = _
  by_cases hkey : key < a.nodes.size
  · rw [if_pos hkey]
  · rw [if_neg hkey]
    refine (List.filter_eq_nil_iff.2 fun k hk hnested => ?_).symm
    -- a node that is not there reaches only itself
    have hsame : key = k :=
      Digraph.Reaches.eq_of_le (g := a.graph Node.children) (Nat.not_lt.1 hkey)
        (reaches_of_mem_grammarNodes hk)
    rw [← hsame, isNested, node?, Array.getElem?_eq_none (Nat.not_lt.1 hkey)] at hnested
    cases hnested

theorem edge_grammarGraph_iff {k : NodeId} :
    a.grammarGraph.Edge key k ↔ k ∈ a.grammarNodes key ∧ a.isNested k = true := by
  rw [Digraph.Edge, successors_grammarGraph, List.mem_filter]

theorem mem_grammarOrder_iff_reaches {root k : NodeId} :
    k ∈ a.grammarOrder root ↔ a.grammarGraph.Reaches root k := by
  rw [grammarOrder, Digraph.mem_breadthFirst, Digraph.reachesFrom_singleton]

/-- Whatever is below a root, in any number of steps, is in one of its grammars. -/
theorem exists_grammar_of_transGen {root x : NodeId}
    (h : Relation.TransGen (a.graph Node.children).Edge root x) :
    ∃ key ∈ a.grammarOrder root, x ∈ a.grammarNodes key := by
  induction h with
  | single hedge =>
    exact ⟨root, mem_grammarOrder_iff_reaches.2 (.refl root), mem_grammarNodes_of_key hedge⟩
  | @tail x y _ hedge ih =>
    obtain ⟨key, hkey, hx⟩ := ih
    -- a path goes on in the grammar it is in, until it comes to a nested one
    by_cases hnested : a.isNested x = true
    · have hreaches := mem_grammarOrder_iff_reaches.1 hkey
      have hstep : a.grammarGraph.Edge key x := edge_grammarGraph_iff.2 ⟨hx, hnested⟩
      exact ⟨x, mem_grammarOrder_iff_reaches.2 (hreaches.tail hstep),
        mem_grammarNodes_of_key hedge⟩
    · exact ⟨key, hkey, mem_grammarNodes_of_mem hx (Bool.eq_false_iff.2 hnested) hedge⟩

/-- Whatever a root reaches is in one of its grammars, or is the root. -/
theorem exists_grammar_of_reaches {root x : NodeId} (h : (a.graph Node.children).Reaches root x) :
    x = root ∨ ∃ key ∈ a.grammarOrder root, x ∈ a.grammarNodes key :=
  (Relation.reflTransGen_iff_eq_or_transGen.1 h).imp_right exists_grammar_of_transGen

/-- What a root reaches is in one of its grammars unless it is a nested grammar. -/
theorem exists_grammar_of_plain {root x : NodeId} (hplain : a.isNested x = false)
    (h : (a.graph Node.children).Reaches root x) :
    ∃ key ∈ a.grammarOrder root, x ∈ a.grammarNodes key := by
  rcases exists_grammar_of_reaches h with rfl | hmem
  · exact ⟨x, mem_grammarOrder_iff_reaches.2 (.refl x),
      (mem_grammarNodes (start_of_grammarAt (.plain hplain)) x).2 (.refl x)⟩
  · exact hmem

/-- **The grammars of a root.** -/
theorem mem_grammarOrder {root k : NodeId} :
    k ∈ a.grammarOrder root ↔
      k = root ∨ a.isNested k = true ∧ (a.graph Node.children).Reaches root k := by
  constructor
  · intro h
    have hroot := mem_grammarOrder_iff_reaches.1 h
    clear h
    -- each grammar that is met is a nested grammar which the one before reaches
    induction hroot with
    | refl => exact Or.inl rfl
    | tail _ hedge ih =>
      obtain ⟨hmem, hnested⟩ := edge_grammarGraph_iff.1 hedge
      have hreaches := reaches_of_mem_grammarNodes hmem
      rcases ih with rfl | ⟨-, hroot⟩
      · exact Or.inr ⟨hnested, hreaches⟩
      · exact Or.inr ⟨hnested, hroot.trans hreaches⟩
  · rintro (rfl | ⟨hnested, h⟩)
    · exact mem_grammarOrder_iff_reaches.2 (.refl k)
    · rcases exists_grammar_of_reaches h with rfl | ⟨key, hkey, hk⟩
      · exact mem_grammarOrder_iff_reaches.2 (.refl k)
      · exact mem_grammarOrder_iff_reaches.2 ((mem_grammarOrder_iff_reaches.1 hkey).tail
          (edge_grammarGraph_iff.2 ⟨hk, hnested⟩))

/-- The grammars of a root are reached by it. -/
theorem reaches_of_mem_grammarOrder {root k : NodeId} (hk : k ∈ a.grammarOrder root) :
    (a.graph Node.children).Reaches root k := by
  rcases mem_grammarOrder.1 hk with rfl | ⟨-, h⟩
  · exact .refl k
  · exact h

theorem nodup_grammarOrder (root : NodeId) : (a.grammarOrder root).Nodup :=
  Digraph.nodup_breadthFirst [root]

theorem head?_grammarOrder (root : NodeId) : (a.grammarOrder root).head? = some root :=
  Digraph.head?_breadthFirst root

end GuidedGrammar.Arena
