import GuidedGrammar.Proofs.Compile.ExplicitStop
import GuidedGrammar.Proofs.Grammar.Repetition

/-!
# Copies with other properties

A copy of a node shares everything below with the node, and has other properties. It compiles to
what the node compiles to, with other properties at the entry, and the node itself compiles as
before (`Arena.compile_copy`). Nested grammars are left out: what they compile to does not show
them.

The node may be reached from its own copy, through a nested grammar that starts with it. It is there
under its own name, and its copy is not reached from anywhere, so this is no renaming. But nothing
that comes before a node leads to the node, so the first grammar of the copy has the copy in place
of the node, and the other grammars are those of the node.
-/

namespace GuidedGrammar

namespace Artifact

variable {ι : Type}

/-- The same node with its properties changed. -/
def Node.modifyProps (change : Props → Props) (n : Node ι) : Node ι :=
  { n with props := change n.props }

/-- The same grammar with the properties of its start changed. -/
def Grammar.modifyStart (change : Props → Props) (g : Grammar ι) : Grammar ι :=
  { g with nodes := g.nodes.modifyHead (Node.modifyProps change) }

/-- The same artifact with the properties of its entry changed: those of the first node of the
first grammar. -/
def modifyEntry (change : Props → Props) (t : Artifact ι) : Artifact ι :=
  { t with grammars := t.grammars.modifyHead (Grammar.modifyStart change) }

/-- Whether the first grammar has a first node. -/
def HasEntry (t : Artifact ι) : Prop :=
  ∃ g n, t.grammars[0]? = some g ∧ g.nodes[0]? = some n

end Artifact

/-! ### Arenas that were extended -/

namespace Arena

variable {a b : Arena} {root : NodeId}

theorem WellFormed.lt_size_of_reaches (ha : a.WellFormed) (hroot : root < a.nodes.size) {x : NodeId}
    (hx : (a.graph Node.children).Reaches root x) : x < a.nodes.size := by
  obtain ⟨n, hn⟩ := ha.linked.exists_node? (exists_node?_of_lt hroot) hx
  exact node?_eq_some_lt hn

namespace Extends

variable (h : a.Extends b) (ha : a.WellFormed)

include h ha

theorem renames (hroot : root < a.nodes.size) : a.Renames b root fun x => x where
  injective _ _ _ _ heq := heq
  node x hx := by
    obtain ⟨n, hn⟩ := exists_node?_of_lt (ha.lt_size_of_reaches hroot hx)
    refine ⟨n, n, hn, h.nodes x n hn, Node.renamed_self fun r hr => ?_⟩
    exact ha.sameTree_of_extends (RegexStore.Extends.refl _) h.regexes
      ((ha.node x n hn).regexes_lt r hr)

theorem cite_eq {x : NodeId} {g : Generation} (hg : a.generation? x = some g)
    (hstop : g.stop.regex? = none) : b.cite x = a.cite x := by
  obtain ⟨n, hn, hkind⟩ := kind?_eq_some.1 (generation?_eq_some.1 hg)
  have hbody : g.body ∈ n.kind.regexes := by
    rw [hkind]
    exact List.mem_cons_self ..
  exact cite_congr hn (h.nodes x n hn) hkind hstop
    (ha.render_of_extends h.regexes ((ha.node x n hn).regexes_lt _ hbody))

theorem errorsAgree : Compile.ErrorsAgree a b root (fun x => x) fun e e' => e' = e where
  refl _ := rfl
  undefined _ _ := rfl
  unresolved x g _ hg hstop := by rw [h.cite_eq ha hg hstop]

/-- What was there compiles as before, or fails with the same error. -/
theorem compile_eq (hroot : root < a.nodes.size) (options : CompileOptions) :
    b.compile options root = a.compile options root :=
  ((h.renames ha hroot).agrees_compile (h.errorsAgree ha) options).eq

/-- The nodes of a grammar that was there. -/
theorem grammarNodes_eq (hroot : root < a.nodes.size) :
    b.grammarNodes root = a.grammarNodes root := by
  have hnodes := (h.renames ha hroot).grammarNodes_eq (Digraph.Reaches.refl root)
  rwa [List.map_id_fun'] at hnodes

end Extends

end Arena

/-! ### The layout of a copy -/

namespace Arena

/-- The arena with a copy of a node that has other properties. -/
def withCopy (a : Arena) (n : Node) (props : Props) : Arena :=
  a.withNode { n with props }

/-- The name under which a node is in the first grammar of a copy: that of the copy in place of the
node. -/
def copyName (a : Arena) (id x : NodeId) : NodeId :=
  if x = id then a.nodes.size else x

/-- A node whose copies are of interest: it is not a nested grammar. -/
structure Copyable (a : Arena) (id : NodeId) (n : Node) : Prop where
  wellFormed : a.WellFormed
  node : a.node? id = some n
  plain : n.isNested = false

variable {a : Arena} {id x y : NodeId} {n : Node}

theorem extends_withCopy (a : Arena) (n : Node) (props : Props) : a.Extends (a.withCopy n props) :=
  .withNode a _

theorem node?_withCopy (a : Arena) (n : Node) (props : Props) :
    (a.withCopy n props).node? a.nodes.size = some { n with props } := by
  rw [withCopy, node?_withNode, if_pos rfl]

theorem copyName_self : a.copyName id id = a.nodes.size :=
  if_pos rfl

theorem copyName_of_ne (hx : x ≠ id) : a.copyName id x = x :=
  if_neg hx

theorem copyName_injective (hx : x < a.nodes.size) (hy : y < a.nodes.size)
    (h : a.copyName id x = a.copyName id y) : x = y := by
  unfold copyName at h
  split_ifs at h with hxid hyid hyid
  · rw [hxid, hyid]
  · exact absurd h (Nat.ne_of_gt hy)
  · exact absurd h (Nat.ne_of_lt hx)
  · exact h

/-- Lists without the node are not changed. -/
theorem map_copyName {xs : List NodeId} (h : ∀ x ∈ xs, x ≠ id) : xs.map (a.copyName id) = xs :=
  map_eq_self fun x hx => copyName_of_ne (h x hx)

/-- A list that begins with the node begins with the copy instead. -/
theorem exists_map_copyName_eq_cons {xs : List NodeId} (hhead : xs.head? = some id)
    (hnodup : xs.Nodup) :
    ∃ rest, xs = id :: rest ∧ xs.map (a.copyName id) = a.nodes.size :: rest := by
  obtain ⟨rest, rfl⟩ := List.head?_eq_some_iff.1 hhead
  have hne : ∀ x ∈ rest, x ≠ id := by
    rintro x hx rfl
    exact (List.nodup_cons.1 hnodup).1 hx
  exact ⟨rest, rfl, by rw [List.map_cons, copyName_self, map_copyName hne]⟩

namespace Copyable

variable (h : a.Copyable id n) (props : Props)

include h

theorem lt_size : id < a.nodes.size :=
  node?_eq_some_lt h.node

theorem isNested_eq : a.isNested id = false :=
  (Arena.isNested_eq h.node).trans h.plain

/-- Neither the node nor its copy is a nested grammar, so both are where a grammar starts. -/
theorem isNested_copy : (a.withCopy n props).isNested a.nodes.size = false :=
  (Arena.isNested_eq (node?_withCopy a n props)).trans h.plain

theorem start : a.grammarStart? id = some id :=
  start_of_grammarAt (.plain h.isNested_eq)

theorem start_copy : (a.withCopy n props).grammarStart? a.nodes.size = some a.nodes.size :=
  start_of_grammarAt (.plain (h.isNested_copy props))

theorem ne_of_isNested (hx : a.isNested x = true) : x ≠ id := by
  rintro rfl
  rw [h.isNested_eq] at hx
  cases hx

/-- Under either name there are nodes of the same kind. -/
theorem exists_kind (hx : x < a.nodes.size) : ∃ n₁ n₂, a.node? x = some n₁ ∧
    (a.withCopy n props).node? (a.copyName id x) = some n₂ ∧ n₂.kind = n₁.kind := by
  by_cases hid : x = id
  · subst hid
    rw [copyName_self]
    exact ⟨n, _, h.node, node?_withCopy a n props, rfl⟩
  · obtain ⟨n₁, hn₁⟩ := exists_node?_of_lt hx
    rw [copyName_of_ne hid]
    exact ⟨n₁, n₁, hn₁, (extends_withCopy a n props).nodes x n₁ hn₁, rfl⟩

theorem isNested_copyName (hx : x < a.nodes.size) :
    (a.withCopy n props).isNested (a.copyName id x) = a.isNested x := by
  obtain ⟨n₁, n₂, hn₁, hn₂, hkind⟩ := h.exists_kind props hx
  rw [Arena.isNested_eq hn₁, Arena.isNested_eq hn₂, Node.isNested, Node.isNested, hkind]

/-- The nodes within the grammar of the copy. None of them leads back to the node, since they come
before it. -/
theorem graph_inlineChildren : (a.graph Node.inlineChildren).Renames
    ((a.withCopy n props).graph Node.inlineChildren) (· ≤ id) (a.copyName id) where
  injective x y hx hy :=
    copyName_injective (Nat.lt_of_le_of_lt hx h.lt_size) (Nat.lt_of_le_of_lt hy h.lt_size)
  closed x y hx hxy := (Nat.lt_of_lt_of_le (h.wellFormed.ordered.lt_of_edge x y hxy) hx).le
  successors x hx := by
    obtain ⟨n₁, n₂, hn₁, hn₂, hkind⟩ := h.exists_kind props (Nat.lt_of_le_of_lt hx h.lt_size)
    have hbelow : ∀ y ∈ n₁.inlineChildren, y ≠ id := fun y hy =>
      Nat.ne_of_lt (Nat.lt_of_lt_of_le ((h.wellFormed.node x n₁ hn₁).inlineChildren_lt y hy) hx)
    rw [successors_graph hn₁, successors_graph hn₂, map_copyName hbelow, Node.inlineChildren,
      Node.inlineChildren, hkind]

theorem lt_size_of_mem_grammarNodes {key : NodeId} (hkey : key < a.nodes.size)
    (hx : x ∈ a.grammarNodes key) : x < a.nodes.size :=
  h.wellFormed.lt_size_of_reaches hkey (reaches_of_mem_grammarNodes hx)

theorem le_of_mem_grammarNodes (hx : x ∈ a.grammarNodes id) : x ≤ id := by
  have hreaches := (mem_grammarNodes h.start x).1 hx
  clear hx
  induction hreaches with
  | refl => exact Nat.le_refl id
  | tail _ hedge ih => exact (h.graph_inlineChildren {}).closed _ _ ih hedge

/-- The nodes of the first grammar: the copy, and what is below the node. -/
theorem grammarNodes_eq :
    (a.withCopy n props).grammarNodes a.nodes.size = (a.grammarNodes id).map (a.copyName id) := by
  rw [grammarNodes, grammarNodes, h.start, h.start_copy, Option.elim_some, Option.elim_some]
  have hdepthFirst := Digraph.depthFirst_rename (h.graph_inlineChildren props)
    (List.forall_mem_singleton.2 (Nat.le_refl id))
  rwa [List.map_singleton, copyName_self] at hdepthFirst

/-- The grammars that a grammar leads to do not depend on the copy. -/
theorem filter_isNested {key : NodeId} (hkey : key < a.nodes.size)
    (hplain : key = id ∨ a.isNested key = true) :
    ((a.withCopy n props).grammarNodes (a.copyName id key)).filter (a.withCopy n props).isNested =
      (a.grammarNodes key).filter a.isNested := by
  have hlt : ∀ x ∈ a.grammarNodes key, x < a.nodes.size :=
    fun _ => h.lt_size_of_mem_grammarNodes hkey
  rcases hplain with rfl | hnested
  · -- the copy is not nested itself, and below it nothing is renamed
    rw [copyName_self, h.grammarNodes_eq, List.filter_map]
    have hfilter : (a.grammarNodes key).filter ((a.withCopy n props).isNested ∘ a.copyName key) =
        (a.grammarNodes key).filter a.isNested :=
      List.filter_congr fun x hx => h.isNested_copyName props (hlt x hx)
    rw [hfilter]
    exact map_copyName fun x hx => h.ne_of_isNested (List.mem_filter.1 hx).2
  · have hext := extends_withCopy a n props
    rw [copyName_of_ne (h.ne_of_isNested hnested), hext.grammarNodes_eq h.wellFormed hkey]
    exact List.filter_congr fun x hx => hext.isNested_eq (hlt x hx)

/-- The graph of grammars with the copy in place of the node. -/
theorem grammarGraph : a.grammarGraph.Renames (a.withCopy n props).grammarGraph
    (fun key => key < a.nodes.size ∧ (key = id ∨ a.isNested key = true)) (a.copyName id) where
  injective x y hx hy := copyName_injective hx.1 hy.1
  closed x y hx hxy := by
    obtain ⟨hy, hnested⟩ := edge_grammarGraph_iff.1 hxy
    exact ⟨h.lt_size_of_mem_grammarNodes hx.1 hy, .inr hnested⟩
  successors x hx := by
    rw [successors_grammarGraph, successors_grammarGraph, h.filter_isNested props hx.1 hx.2]
    exact (map_copyName fun y hy => h.ne_of_isNested (List.mem_filter.1 hy).2).symm

/-- The grammars of the copy are those of the node. -/
theorem grammarOrder_eq :
    (a.withCopy n props).grammarOrder a.nodes.size = (a.grammarOrder id).map (a.copyName id) := by
  have horder := Digraph.breadthFirst_rename (h.grammarGraph props)
    (List.forall_mem_singleton.2 ⟨h.lt_size, .inl rfl⟩)
  rwa [List.map_singleton, copyName_self] at horder

end Copyable

/-! ### Compiling a copy -/

/-- Errors of a node and of its copy are the same, except that either may be blamed for having no
stop. -/
inductive BlamesCopy (a b : Arena) (id copy : NodeId) : Error → Error → Prop
  | same (e : Error) : BlamesCopy a b id copy e e
  | copy : BlamesCopy a b id copy (.unresolvedStop (a.cite id)) (.unresolvedStop (b.cite copy))

namespace Copyable

open Compile (Alike Same SamePlaces Twin writeGrammar writeKind writeNode)

variable (h : a.Copyable id n) {props : Props} {change : Artifact.Props → Artifact.Props}
  (hchange : (⟨props.maxTokens, none, props.captureName⟩ : Artifact.Props) =
    change ⟨n.props.maxTokens, none, n.props.captureName⟩)
  (options : CompileOptions) {keys keys' : List NodeId} {s s' : Compile.State}

include h

theorem errorsAgree : Compile.ErrorsAgree a (a.withCopy n props) id (fun x => x)
    (a.BlamesCopy (a.withCopy n props) id a.nodes.size) where
  refl e := .same e
  undefined key _ := .same _
  unresolved x g _ hg hstop := by
    rw [(extends_withCopy a n props).cite_eq h.wellFormed hg hstop]
    exact .same _

theorem samePlaces : SamePlaces a id (fun x => x) (a.grammarOrder id)
    ((a.withCopy n props).grammarOrder a.nodes.size) := by
  intro x hx hnested
  have hkeys : ∀ key ∈ a.grammarOrder id,
      key < a.nodes.size ∧ (key = id ∨ a.isNested key = true) := fun key hkey =>
    ⟨h.wellFormed.lt_size_of_reaches h.lt_size (reaches_of_mem_grammarOrder hkey),
      (mem_grammarOrder.1 hkey).imp_right And.left⟩
  have hsame := idxOf_map (h.grammarGraph props).injective hkeys
    ⟨h.wellFormed.lt_size_of_reaches h.lt_size hx, .inr hnested⟩
  rwa [copyName_of_ne (h.ne_of_isNested hnested), ← h.grammarOrder_eq] at hsame

/-- What is below the node is at the same places in the first grammar. -/
theorem idxOf_grammarNodes (hx : x < a.nodes.size) (hne : x ≠ id) :
    ((a.withCopy n props).grammarNodes a.nodes.size).idxOf x = (a.grammarNodes id).idxOf x := by
  have hsame := idxOf_map (P := (· < a.nodes.size)) (f := a.copyName id)
    (fun _ _ => copyName_injective) (fun _ => h.lt_size_of_mem_grammarNodes h.lt_size) hx
  rwa [copyName_of_ne hne, ← h.grammarNodes_eq] at hsame

/-- Writing what is below the node within its grammar. -/
theorem agrees_writeNode_below (props : Props) (hkeys : SamePlaces a id (fun x => x) keys keys')
    (ht : Twin a.regexes a.regexes s s') (hx : x ∈ a.grammarNodes id) :
    Except.Agrees (Same a.regexes a.regexes) (a.BlamesCopy (a.withCopy n props) id a.nodes.size)
      (writeNode options a keys (a.grammarNodes id) x s)
      (writeNode options (a.withCopy n props) keys'
        ((a.withCopy n props).grammarNodes a.nodes.size) x s') := by
  refine Compile.agrees_writeNode options
    ((extends_withCopy a n props).renames h.wellFormed h.lt_size)
    h.errorsAgree ht hkeys (reaches_of_mem_grammarNodes hx) fun y hxy => ?_
  have hlt : y < id := Nat.lt_of_lt_of_le (h.wellFormed.ordered.lt_of_edge x y hxy)
    (h.le_of_mem_grammarNodes hx)
  exact h.idxOf_grammarNodes (Nat.lt_trans hlt h.lt_size) (Nat.ne_of_lt hlt)

include hchange

/-- Writing the copy gives what writing the node gives, with other properties. -/
theorem agrees_writeNode_copy (keys keys' : List NodeId) (ht : Twin a.regexes a.regexes s s') :
    Except.Agrees (Alike (fun r r' => r' = r.modifyProps change) a.regexes a.regexes)
      (a.BlamesCopy (a.withCopy n props) id a.nodes.size)
      (writeNode options a keys (a.grammarNodes id) id s)
      (writeNode options (a.withCopy n props) keys'
        ((a.withCopy n props).grammarNodes a.nodes.size) a.nodes.size s') := by
  have hkind : n.kind.Renamed (fun x => x) a.regexes a.regexes n.kind :=
    (Node.renamed_self fun r hr => h.wellFormed.sameTree_of_extends (RegexStore.Extends.refl _)
      (RegexStore.Extends.refl _) ((h.wellFormed.node id n h.node).regexes_lt r hr)).kind
  have hnested : n.isNested = true → keys'.idxOf a.nodes.size = keys.idxOf id := fun hnested =>
    absurd (h.plain.symm.trans hnested) Bool.false_ne_true
  -- elements come earlier in the arena, so their places do not depend on which node is first
  have hbelow : ∀ y ∈ n.inlineChildren,
      ((a.withCopy n props).grammarNodes a.nodes.size).idxOf y = (a.grammarNodes id).idxOf y := by
    intro y hy
    have hlt := (h.wellFormed.node id n h.node).inlineChildren_lt y hy
    exact h.idxOf_grammarNodes (Nat.lt_trans hlt h.lt_size) (Nat.ne_of_lt hlt)
  unfold writeNode
  rw [h.node, node?_withCopy]
  have hcount : Except.Agrees _ (a.BlamesCopy (a.withCopy n props) id a.nodes.size) _ _ :=
    Compile.agrees_countNode .same ht options.nodeLimit
  refine hcount.bindState fun _ t _ t' ht => ?_
  have hwrite : Except.Agrees _ (a.BlamesCopy (a.withCopy n props) id a.nodes.size) _ _ :=
    Compile.agrees_writeKind (b := a.withCopy n props) options ht.state hkind hnested hbelow
      fun _ _ _ => .copy
  refine hwrite.bindState fun kind u kind' u' hu => ?_
  obtain ⟨rfl, hu⟩ := hu
  exact .ok ⟨congrArg (Artifact.Node.mk kind') hchange, hu⟩

/-- Writing the first grammar, whose other nodes are the same, and which skips nothing. -/
theorem agrees_writeGrammar (hkeys : SamePlaces a id (fun x => x) keys keys') (count : Nat) :
    Except.Agrees (fun p p' => p' = (p.1.modifyStart change, p.2))
      (a.BlamesCopy (a.withCopy n props) id a.nodes.size)
      (writeGrammar options a keys id count)
      (writeGrammar options (a.withCopy n props) keys' a.nodes.size count) := by
  obtain ⟨below, hids, hids'⟩ := exists_map_copyName_eq_cons (a := a)
    (head?_grammarNodes h.start) (nodup_grammarNodes id)
  rw [← h.grammarNodes_eq props] at hids'
  have hmem : ∀ x ∈ below, x ∈ a.grammarNodes id := fun x hx => hids ▸ List.mem_cons_of_mem _ hx
  have hbelow := fun x (hx : x ∈ below) t t' (ht : Twin a.regexes a.regexes t t') =>
    h.agrees_writeNode_below options props hkeys ht (hmem x hx)
  -- the first node of the grammar is the one copied, and the others are not changed
  have hentry := h.agrees_writeNode_copy hchange options keys keys'
    (Compile.twin_empty a.regexes a.regexes count)
  unfold writeGrammar
  rw [h.start, h.start_copy, skip_of_grammarAt (.plain h.isNested_eq),
    skip_of_grammarAt (.plain (h.isNested_copy props))]
  dsimp only
  generalize writeNode options a keys (a.grammarNodes id) = write at hentry hbelow ⊢
  generalize writeNode options (a.withCopy n props) keys'
    ((a.withCopy n props).grammarNodes a.nodes.size) = write' at hentry hbelow ⊢
  rw [hids, hids', List.mapM_cons, List.mapM_cons]
  refine Except.Agrees.bind
    (R := Alike (fun r r' => r' = r.modifyHead (.modifyProps change)) a.regexes a.regexes) ?_
    fun p p' hp => ?_
  · refine hentry.bindState fun node t node' t' hnode => ?_
    obtain ⟨rfl, ht⟩ := hnode
    refine (Compile.agrees_mapM_same hbelow ht).bindState fun nodes u nodes' u' hnodes => ?_
    obtain ⟨rfl, hu⟩ := hnodes
    exact .ok ⟨rfl, hu⟩
  · obtain ⟨nodes, t⟩ := p
    obtain ⟨nodes', t'⟩ := p'
    obtain ⟨rfl, ht⟩ := hp
    refine .ok ?_
    rw [ht.entries_eq, ht.count]
    rfl

/-- The copy compiles to what the node compiles to, with other properties at the entry. -/
theorem agrees_compile :
    Except.Agrees (fun t t' => t' = t.modifyEntry change)
      (a.BlamesCopy (a.withCopy n props) id a.nodes.size) (a.compile options id)
      ((a.withCopy n props).compile options a.nodes.size) := by
  have hplaces : SamePlaces a id (fun x => x) (a.grammarOrder id)
      ((a.withCopy n props).grammarOrder a.nodes.size) := h.samePlaces
  obtain ⟨rest, hkeys, hkeys'⟩ := exists_map_copyName_eq_cons (a := a)
    (head?_grammarOrder id) (nodup_grammarOrder id)
  rw [← h.grammarOrder_eq props] at hkeys'
  have hrest : ∀ key ∈ rest, (a.graph Node.children).Reaches id key := fun key hkey =>
    reaches_of_mem_grammarOrder (hkeys ▸ List.mem_cons_of_mem _ hkey)
  rw [compile_eq_compileInOrder, compile_eq_compileInOrder]
  unfold compileInOrder
  rw [h.node, node?_withCopy]
  have hentry := h.agrees_writeGrammar hchange options hplaces 0
  have hall := fun count => Compile.agrees_mapM_writeGrammar options
    ((extends_withCopy a n props).renames h.wellFormed h.lt_size) h.errorsAgree hplaces hrest count
  dsimp only
  generalize writeGrammar options a (a.grammarOrder id) = write at hentry hall ⊢
  generalize writeGrammar options (a.withCopy n props)
    ((a.withCopy n props).grammarOrder a.nodes.size) = write' at hentry hall ⊢
  rw [hkeys, hkeys', List.mapM_cons, List.mapM_cons]
  refine Except.Agrees.bind
    (R := fun p p' => p' = (p.1.modifyHead (.modifyStart change), p.2)) ?_ fun p p' hp => .ok ?_
  · refine hentry.bindState fun g k g' k' hg => ?_
    obtain ⟨rfl, rfl⟩ := Prod.mk.inj hg
    have hrest := hall k'
    rw [List.map_id_fun'] at hrest
    refine hrest.bindState fun gs l gs' l' hgs => .ok ?_
    obtain ⟨rfl, rfl⟩ := Prod.mk.inj hgs
    rfl
  · rw [hp]
    rfl

end Copyable

/-- Where compiling succeeds, the first grammar has a first node. -/
theorem hasEntry_of_compile {root : NodeId} {options : CompileOptions} {t : Artifact Nat}
    (h : a.compile options root = .ok t) : t.HasEntry := by
  have hroot : (a.grammarOrder root)[0]? = some root := by
    rw [← List.head?_eq_getElem?, head?_grammarOrder]
  obtain ⟨g, hg, hwrites⟩ := exists_right_of_forall₂ (forall₂_of_compile h).1 hroot
  cases hwrites with
  | intro hstart hnodes =>
    have hhead := head?_grammarNodes hstart
    rw [List.head?_eq_getElem?] at hhead
    obtain ⟨n, hn, -⟩ := exists_right_of_forall₂ hnodes hhead
    exact ⟨_, n, hg, hn⟩

/-- A copy that compiles like its original, before and after it was made. -/
structure CompilesLike (a b : Arena) (id copy : NodeId) (change : Artifact.Props → Artifact.Props) :
    Prop where
  /-- The original compiles as before. -/
  original : ∀ options, b.compile options id = a.compile options id
  /-- The copy compiles to the same, with the properties of the entry changed. -/
  ok : ∀ options t, a.compile options id = .ok t →
    t.HasEntry ∧ b.compile options copy = .ok (t.modifyEntry change)
  /-- The copy fails if the original does. -/
  error : ∀ options e, a.compile options id = .error e →
    ∃ e', b.compile options copy = .error e' ∧ a.BlamesCopy b id copy e e'

theorem Copyable.compilesLike (h : a.Copyable id n) {props : Props}
    {change : Artifact.Props → Artifact.Props}
    (hchange : (⟨props.maxTokens, none, props.captureName⟩ : Artifact.Props) =
      change ⟨n.props.maxTokens, none, n.props.captureName⟩) :
    a.CompilesLike (a.withCopy n props) id a.nodes.size change where
  original options := (extends_withCopy a n props).compile_eq h.wellFormed h.lt_size options
  ok options t ht := by
    refine ⟨hasEntry_of_compile ht, ?_⟩
    have hagrees := h.agrees_compile hchange options
    rw [ht] at hagrees
    obtain ⟨t', ht', rfl⟩ := hagrees.of_ok
    exact ht'
  error options e he := by
    have hagrees := h.agrees_compile hchange options
    rw [he] at hagrees
    exact hagrees.of_error

end Arena

theorem Builder.copyWith_run {a : Arena} {id : NodeId} {n : Node} (hn : a.node? id = some n)
    (change : Props → Props) :
    copyWith id change a = .ok a.nodes.size (a.withCopy n (change n.props)) :=
  run_bind_of_ok (needNode_of_some hn)

namespace Arena

/-- **Copies with other properties compile alike.** A copy of a known node that is no nested grammar
compiles, under the same options, to what the node compiles to with the capture name, or the number
of tokens, of the first node of the first grammar replaced. The node itself compiles to the same
before and after the copy is made. -/
theorem compile_copy (calls : List Call) (id : NodeId) (n : Node)
    (hn : (ofCalls calls).node? id = some n) (hplain : n.isNested = false) :
    (∀ name, ∃ copy b, Builder.capture id name (ofCalls calls) = .ok copy b ∧
      (ofCalls calls).CompilesLike b id copy fun props => { props with captureName := some name }) ∧
    (∀ name, ∃ copy b, Builder.listCapture id name (ofCalls calls) = .ok copy b ∧
      (ofCalls calls).CompilesLike b id copy fun props =>
        { props with captureName := some (CaptureName.listMark ++ name) }) ∧
    ∀ count, ∃ copy b, Builder.limitTokens id count (ofCalls calls) = .ok copy b ∧
      (ofCalls calls).CompilesLike b id copy fun props => { props with maxTokens := some count } := by
  have h : (ofCalls calls).Copyable id n := ⟨(consistent_ofCalls calls).toWellFormed, hn, hplain⟩
  refine ⟨fun name => ?_, fun name => ?_, fun count => ?_⟩
  · exact ⟨_, _, Builder.copyWith_run hn _, h.compilesLike rfl⟩
  · have hrun : Builder.listCapture id name (ofCalls calls) = _ :=
      Builder.copyWith_run hn fun props =>
        { props with captureName := some (CaptureName.ofList name) }
    exact ⟨_, _, hrun, h.compilesLike rfl⟩
  · exact ⟨_, _, Builder.copyWith_run hn _, h.compilesLike rfl⟩

/-- A choice that is reached from its own copy, through a nested grammar that starts with it. The
first grammar has the copy, and the second one the choice. -/
theorem compile_copy_recursive :
    ∃ copy b, Builder.capture 2 "c" (ofCalls [.literal "a", .placeholder,
        .choice [.node 0, .node 1], .define 1 (.node 2)]) = .ok copy b ∧
      b.compile {} copy = .ok ⟨[
        ⟨[⟨.choice [1, 2], ⟨none, none, some "c"⟩⟩, ⟨.literal "a", {}⟩, ⟨.grammar 1 none none, {}⟩],
          false, none, some false, []⟩,
        ⟨[⟨.choice [1, 2], {}⟩, ⟨.literal "a", {}⟩, ⟨.grammar 1 none none, {}⟩],
          false, none, some false, []⟩], none, false⟩ := by
  have hn : (ofCalls [.literal "a", .placeholder, .choice [.node 0, .node 1],
      .define 1 (.node 2)]).node? 2 = some ⟨.choice [0, 1], {}, false⟩ := by cbv
  have hcompile : (ofCalls [.literal "a", .placeholder, .choice [.node 0, .node 1],
      .define 1 (.node 2)]).compile {} 2 = .ok ⟨[
        ⟨[⟨.choice [1, 2], {}⟩, ⟨.literal "a", {}⟩, ⟨.grammar 1 none none, {}⟩],
          false, none, some false, []⟩,
        ⟨[⟨.choice [1, 2], {}⟩, ⟨.literal "a", {}⟩, ⟨.grammar 1 none none, {}⟩],
          false, none, some false, []⟩], none, false⟩ := by
    rw [compile_eq_compileInOrder]
    cbv
  obtain ⟨copy, b, hcopy, hlike⟩ := (compile_copy _ 2 _ hn rfl).1 "c"
  exact ⟨copy, b, hcopy, (hlike.ok {} _ hcompile).2⟩

end Arena

end GuidedGrammar
