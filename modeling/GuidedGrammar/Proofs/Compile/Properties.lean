import GuidedGrammar.Proofs.Compile.References

/-!
# What becomes of properties

A compiled node that stands for a node of an arena has its properties: how many tokens it may match
and the name under which the match is reported. So properties are kept wherever there is such a
node, and there is one for every node that the root reaches (`Arena.compile_keeps_props`), with one
exception. A root that is a nested grammar is compiled as that grammar; no compiled node stands for
the reference to it unless the grammar refers to itself. The properties of such a root are lost
(`Arena.compile_drops_props_of_nested_root`).
-/

namespace GuidedGrammar.Arena

variable {a : Arena} {root key x : NodeId} {options : CompileOptions} {t : Artifact Nat}

/-- A compiled node that stands for a node: it is at the place of that node in one of the
grammars. -/
inductive WritesNode (a : Arena) (root : NodeId) (t : Artifact Nat) (x : NodeId) :
    Artifact.Node Nat → Prop
  | intro {i j : Nat} {key : NodeId} {g : Artifact.Grammar Nat} {compiled : Artifact.Node Nat}
    (hkey : (a.grammarOrder root)[i]? = some key) (hg : t.grammars[i]? = some g)
    (hx : (a.grammarNodes key)[j]? = some x) (hcompiled : g.nodes[j]? = some compiled) :
    WritesNode a root t x compiled

/-- Whether a compiled node is there to stand for a node: the root reaches it, and is not itself
that node as a nested grammar which does not refer to itself. -/
def IsWritten (a : Arena) (root x : NodeId) : Prop :=
  (a.graph Node.children).Reaches root x ∧
    (x = root → a.isNested root = true →
      Relation.TransGen (a.graph Node.children).Edge root root)

/-! ### The nodes that are written -/

/-- The nodes of the grammars of a root. -/
theorem exists_mem_grammarNodes_iff :
    (∃ key ∈ a.grammarOrder root, x ∈ a.grammarNodes key) ↔ a.IsWritten root x := by
  constructor
  · rintro ⟨key, hkey, hx⟩
    have hroot := reaches_of_mem_grammarOrder hkey
    refine ⟨hroot.trans (reaches_of_mem_grammarNodes hx), ?_⟩
    rintro rfl hnested
    -- the way from the root to the grammar and on to the root is not empty
    rcases Relation.reflTransGen_iff_eq_or_transGen.1 hroot with rfl | hroot
    · exact transGen_of_mem_grammarNodes hnested hx
    · exact hroot.trans_left (reaches_of_mem_grammarNodes hx)
  · rintro ⟨hx, hback⟩
    by_cases hnested : a.isNested x = true
    · rcases Relation.reflTransGen_iff_eq_or_transGen.1 hx with rfl | hx
      · exact exists_grammar_of_transGen (hback rfl hnested)
      · exact exists_grammar_of_transGen hx
    · exact exists_grammar_of_plain (Bool.eq_false_iff.2 hnested) hx

/-- The nodes of a grammar that is compiled are at the places of the nodes they stand for. -/
theorem forall₂_grammarNodes_of_compile (h : a.compile options root = .ok t) :
    List.Forall₂ (fun key (g : Artifact.Grammar Nat) => ∃ entries,
      List.Forall₂ (a.TranslatesNode entries (a.grammarOrder root) (a.grammarNodes key))
        (a.grammarNodes key) g.nodes) (a.grammarOrder root) t.grammars := by
  refine (forall₂_of_compile h).1.imp fun key g hwrites => ?_
  cases hwrites with
  | intro hstart hnodes => exact ⟨_, hnodes⟩

/-- The nodes that compiled nodes stand for. -/
theorem exists_writesNode_iff (h : a.compile options root = .ok t) :
    (∃ compiled, a.WritesNode root t x compiled) ↔ a.IsWritten root x := by
  rw [← exists_mem_grammarNodes_iff]
  constructor
  · rintro ⟨_, ⟨hkey, -, hx, -⟩⟩
    exact ⟨_, List.mem_of_getElem? hkey, List.mem_of_getElem? hx⟩
  · rintro ⟨key, hkey, hx⟩
    obtain ⟨i, hi⟩ := List.mem_iff_getElem?.1 hkey
    obtain ⟨j, hj⟩ := List.mem_iff_getElem?.1 hx
    obtain ⟨g, hg, entries, hnodes⟩ :=
      exists_right_of_forall₂ (forall₂_grammarNodes_of_compile h) hi
    obtain ⟨compiled, hcompiled, -⟩ := exists_right_of_forall₂ hnodes hj
    exact ⟨compiled, .intro hi hg hj hcompiled⟩

/-- A compiled node has the properties of the node that it stands for. -/
theorem props_of_writesNode (h : a.compile options root = .ok t) {compiled : Artifact.Node Nat}
    (hx : a.WritesNode root t x compiled) {n : Node} (hn : a.node? x = some n) :
    compiled.props = ⟨n.props.maxTokens, none, n.props.captureName⟩ := by
  obtain ⟨hkey, hg, hx, hcompiled⟩ := hx
  obtain ⟨g', hg', entries, hnodes⟩ :=
    exists_right_of_forall₂ (forall₂_grammarNodes_of_compile h) hkey
  obtain rfl := Option.some.inj (hg.symm.trans hg')
  obtain ⟨compiled', hcompiled', htranslates⟩ := exists_right_of_forall₂ hnodes hx
  obtain rfl := Option.some.inj (hcompiled.symm.trans hcompiled')
  cases htranslates with
  | intro hid =>
    obtain rfl := Option.some.inj (hn.symm.trans hid)
    rfl

/-! ### Properties -/

/-- **Properties are kept** of every node that the root reaches, except for a root that is a nested
grammar and does not refer to itself: whatever else the root reaches, compiled nodes stand for it,
and these have its properties. -/
theorem compile_keeps_props (a : Arena) (options : CompileOptions) (root : NodeId)
    (t : Artifact Nat) (h : a.compile options root = .ok t) (x : NodeId) (n : Node)
    (hn : a.node? x = some n) :
    ((∃ compiled, a.WritesNode root t x compiled) ↔ a.IsWritten root x) ∧
      ∀ compiled, a.WritesNode root t x compiled →
        compiled.props.maxTokens = n.props.maxTokens ∧
          compiled.props.captureName = n.props.captureName := by
  refine ⟨exists_writesNode_iff h, fun compiled hx => ?_⟩
  rw [props_of_writesNode h hx hn]
  exact ⟨rfl, rfl⟩

/-- A captured reference in a choice. -/
theorem compile_keeps_props_captured : ∃ compiled,
    (ofCalls [.literal "x", .nested (.node 0) none, .capture 1 "c",
      .choice [.node 2, .node 1]]).WritesNode 3
        ⟨[⟨[⟨.choice [1, 2], {}⟩, ⟨.grammar 1 none none, ⟨none, none, some "c"⟩⟩,
            ⟨.grammar 2 none none, {}⟩], false, none, some false, []⟩,
          ⟨[⟨.literal "x", {}⟩], false, none, some false, []⟩,
          ⟨[⟨.literal "x", {}⟩], false, none, some false, []⟩], none, false⟩ 2 compiled ∧
      compiled.props.captureName = some "c" := by
  have hcompile : (ofCalls [.literal "x", .nested (.node 0) none, .capture 1 "c",
        .choice [.node 2, .node 1]]).compile {} 3 =
      .ok ⟨[⟨[⟨.choice [1, 2], {}⟩, ⟨.grammar 1 none none, ⟨none, none, some "c"⟩⟩,
            ⟨.grammar 2 none none, {}⟩], false, none, some false, []⟩,
          ⟨[⟨.literal "x", {}⟩], false, none, some false, []⟩,
          ⟨[⟨.literal "x", {}⟩], false, none, some false, []⟩], none, false⟩ := by
    rw [compile_eq_compileInOrder]
    cbv
  have hnode : (ofCalls [.literal "x", .nested (.node 0) none, .capture 1 "c",
        .choice [.node 2, .node 1]]).node? 2 =
      some ⟨.nested (some 0) none, ⟨none, some "c"⟩, false⟩ := by cbv
  have hroot : (ofCalls [.literal "x", .nested (.node 0) none, .capture 1 "c",
        .choice [.node 2, .node 1]]).node? 3 = some ⟨.choice [2, 1], {}, false⟩ := by cbv
  obtain ⟨hwritten, hprops⟩ := compile_keeps_props _ _ _ _ hcompile 2 _ hnode
  have hedge : Relation.ReflTransGen ((ofCalls [.literal "x", .nested (.node 0) none, .capture 1 "c",
      .choice [.node 2, .node 1]]).graph Node.children).Edge 3 2 :=
    .single (edge_graph_iff.2 ⟨_, hroot, List.mem_cons_self ..⟩)
  obtain ⟨compiled, hcompiled⟩ := hwritten.2 ⟨hedge, fun h => absurd h (by decide)⟩
  exact ⟨compiled, hcompiled, (hprops compiled hcompiled).2⟩

/-- **The capture name of a nested grammar is lost** if that grammar is the root. -/
theorem compile_drops_props_of_nested_root :
    let a := ofCalls [.literal "x", .nested (.node 0) none, .capture 1 "c"]
    (∃ n, a.node? 2 = some n ∧ n.props.captureName = some "c") ∧
      ∃ t, a.compile {} 2 = .ok t ∧
        ∀ g ∈ t.grammars, ∀ n ∈ g.nodes, n.props.captureName = none := by
  refine ⟨⟨⟨.nested (some 0) none, ⟨none, some "c"⟩, false⟩, by cbv, rfl⟩,
    ⟨[⟨[⟨.literal "x", {}⟩], false, none, some false, []⟩], none, false⟩, ?_, ?_⟩
  · rw [compile_eq_compileInOrder]
    cbv
  · intro g hg n hn
    rw [List.mem_singleton.1 hg] at hn
    rw [List.mem_singleton.1 hn]

end GuidedGrammar.Arena
