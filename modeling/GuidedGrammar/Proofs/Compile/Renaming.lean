import GuidedGrammar.Proofs.Compile.Closed
import GuidedGrammar.Proofs.Graph.Renaming

/-!
# Compiling and names

Compiling depends on nothing but what the root reaches, and not on the ids that nodes and regexes
have there. If the nodes below a root have other ids in another arena, and regexes that have the
same trees in place of theirs (`Arena.Renames`), the two roots compile alike
(`Renames.agrees_compile`): to the same grammars, or to errors that correspond.

Grammars and nodes are listed in the same order under their new names, so positions are the same.
Tables list the same trees, so entries are the same.
-/

namespace GuidedGrammar

/-! ### Renamed nodes -/

/-- Regexes that have the same tree, or none on either side. -/
def RegexStore.SameTree? (store : RegexStore) (id : Option RegexId) (store' : RegexStore)
    (id' : Option RegexId) : Prop :=
  Option.Rel (fun id id' => store.SameTree id store' id') id id'

theorem RegexStore.SameTree?.cases {store store' : RegexStore} {id id' : Option RegexId}
    (h : store.SameTree? id store' id') : id = none ∧ id' = none ∨
      ∃ r r', id = some r ∧ id' = some r' ∧ store.SameTree r store' r' := by
  cases h with
  | none => exact Or.inl ⟨rfl, rfl⟩
  | some htree => exact Or.inr ⟨_, _, rfl, rfl, htree⟩

/-- Kinds that are the same up to names. Nodes are renamed by `f`, and in place of each regex of
the one store there is one of the other store with the same tree. -/
inductive NodeKind.Renamed (f : NodeId → NodeId) (store store' : RegexStore) :
    NodeKind → NodeKind → Prop
  | literal (text : String) : Renamed f store store' (.literal text) (.literal text)
  | generation {g g' : Generation} (hbody : store.SameTree g.body store' g'.body)
    (hstop : store.SameTree? g.stop.regex? store' g'.stop.regex?) (hlazy : g'.lazy = g.lazy)
    (htemperature : g'.temperature = g.temperature)
    (hname : g'.stopCaptureName = g.stopCaptureName) :
    Renamed f store store' (.generation g) (.generation g')
  | lexeme {l l' : Lexeme} (hregex : store.SameTree l.regex store' l'.regex)
    (hcontextual : l'.contextual = l.contextual) (htemperature : l'.temperature = l.temperature) :
    Renamed f store store' (.lexeme l) (.lexeme l')
  | nested {start : Option NodeId} {skip skip' : Option RegexId}
    (hskip : store.SameTree? skip store' skip') :
    Renamed f store store' (.nested start skip) (.nested (start.map f) skip')
  | choice (xs : List NodeId) : Renamed f store store' (.choice xs) (.choice (xs.map f))
  | sequence (xs : List NodeId) : Renamed f store store' (.sequence xs) (.sequence (xs.map f))

/-- Nodes that are the same up to names. The nullable flag does not count. -/
structure Node.Renamed (f : NodeId → NodeId) (store store' : RegexStore) (n n' : Node) : Prop where
  kind : n.kind.Renamed f store store' n'.kind
  props : n'.props = n.props

namespace Node.Renamed

variable {f : NodeId → NodeId} {store store' : RegexStore} {n n' : Node}

theorem inlineChildren_eq (h : n.Renamed f store store' n') :
    n'.inlineChildren = n.inlineChildren.map f := by
  have hkind := h.kind
  unfold inlineChildren
  generalize n.kind = kind at hkind
  generalize n'.kind = kind' at hkind
  cases hkind <;> rfl

theorem isNested_eq (h : n.Renamed f store store' n') : n'.isNested = n.isNested := by
  have hkind := h.kind
  unfold isNested
  generalize n.kind = kind at hkind
  generalize n'.kind = kind' at hkind
  cases hkind <;> rfl

end Node.Renamed

namespace Arena

/-- **Other names for what a root reaches.** No name is given twice, and under its new name every
node is the same up to names. -/
structure Renames (a b : Arena) (root : NodeId) (f : NodeId → NodeId) : Prop where
  injective : ∀ x y, (a.graph Node.children).Reaches root x →
    (a.graph Node.children).Reaches root y → f x = f y → x = y
  node : ∀ x, (a.graph Node.children).Reaches root x → ∃ n n', a.node? x = some n ∧
    b.node? (f x) = some n' ∧ n.Renamed f a.regexes b.regexes n'

/-- What reaches a grammar reaches its start. -/
theorem reaches_of_start {a : Arena} {root key start : NodeId}
    (hkey : (a.graph Node.children).Reaches root key)
    (hstart : a.grammarStart? key = some start) :
    (a.graph Node.children).Reaches root start := by
  have hmem : start ∈ a.grammarNodes key :=
    (mem_grammarNodes hstart start).2 (Digraph.Reaches.refl start)
  exact hkey.trans (reaches_of_mem_grammarNodes hmem)

namespace Renames

variable {a b : Arena} {root : NodeId} {f : NodeId → NodeId}

/-! ### The layout -/

theorem isNested_eq (h : a.Renames b root f) {x : NodeId}
    (hx : (a.graph Node.children).Reaches root x) : b.isNested (f x) = a.isNested x := by
  obtain ⟨n, n', hn, hn', hrenamed⟩ := h.node x hx
  rw [Arena.isNested_eq hn, Arena.isNested_eq hn', hrenamed.isNested_eq]

/-- The graph of nodes within grammars under new names. -/
theorem graph_inlineChildren (h : a.Renames b root f) :
    (a.graph Node.inlineChildren).Renames (b.graph Node.inlineChildren)
      ((a.graph Node.children).Reaches root) f where
  injective := h.injective
  closed x y hx hxy := by
    obtain ⟨n, hn, hy⟩ := edge_graph_iff.1 hxy
    exact hx.tail (edge_graph_iff.2 ⟨n, hn, n.mem_children hy⟩)
  successors x hx := by
    obtain ⟨n, n', hn, hn', hrenamed⟩ := h.node x hx
    rw [successors_graph hn, successors_graph hn', hrenamed.inlineChildren_eq]

/-- Grammars start at the same nodes, and skip the same. -/
theorem grammarStart?_eq (h : a.Renames b root f) {key : NodeId}
    (hkey : (a.graph Node.children).Reaches root key) :
    b.grammarStart? (f key) = (a.grammarStart? key).map f ∧
      a.regexes.SameTree? (a.grammarSkip? key) b.regexes (b.grammarSkip? (f key)) := by
  obtain ⟨n, n', hn, hn', hrenamed⟩ := h.node key hkey
  have hkind := hrenamed.kind
  unfold grammarStart? grammarSkip?
  rw [hn, hn', Option.map_some, Option.map_some]
  generalize n.kind = kind at hkind
  generalize n'.kind = kind' at hkind
  cases hkind with
  | nested hskip => exact ⟨rfl, hskip⟩
  | literal | generation | lexeme | choice | sequence => exact ⟨rfl, .none⟩

/-- The nodes of a grammar are listed in the same order. -/
theorem grammarNodes_eq (h : a.Renames b root f) {key : NodeId}
    (hkey : (a.graph Node.children).Reaches root key) :
    b.grammarNodes (f key) = (a.grammarNodes key).map f := by
  rw [grammarNodes, grammarNodes, (h.grammarStart?_eq hkey).1]
  cases hstart : a.grammarStart? key with
  | none => rfl
  | some start =>
    have hreaches := reaches_of_start hkey hstart
    exact Digraph.depthFirst_rename h.graph_inlineChildren
      (List.forall_mem_singleton.2 hreaches)

theorem filter_isNested_map (h : a.Renames b root f) {xs : List NodeId}
    (hxs : ∀ x ∈ xs, (a.graph Node.children).Reaches root x) :
    (xs.map f).filter b.isNested = (xs.filter a.isNested).map f := by
  rw [List.filter_map]
  exact congrArg (List.map f) (List.filter_congr fun x hx => h.isNested_eq (hxs x hx))

/-- The graph of grammars under new names. -/
theorem grammarGraph (h : a.Renames b root f) :
    a.grammarGraph.Renames b.grammarGraph ((a.graph Node.children).Reaches root) f where
  injective := h.injective
  closed key k hkey hk :=
    hkey.trans (reaches_of_mem_grammarNodes (edge_grammarGraph_iff.1 hk).1)
  successors key hkey := by
    rw [successors_grammarGraph, successors_grammarGraph, h.grammarNodes_eq hkey]
    exact h.filter_isNested_map fun x hx => hkey.trans (reaches_of_mem_grammarNodes hx)

/-- The grammars of the root are listed in the same order. -/
theorem grammarOrder_eq (h : a.Renames b root f) :
    b.grammarOrder (f root) = (a.grammarOrder root).map f :=
  Digraph.breadthFirst_rename h.grammarGraph
    (List.forall_mem_singleton.2 (Digraph.Reaches.refl root))

end Renames

end Arena

namespace Compile

open RegexTable (Holds)

/-! ### Writing side by side -/

section Writers

variable {α β : Type} {store store' : RegexStore} {s s' : State} {E : Error → Error → Prop}

/-- States that correspond: the tables list the same trees, and as many nodes have been
counted. -/
structure Twin (store store' : RegexStore) (s s' : State) : Prop where
  tables : ∃ trees, Holds store s.table trees ∧ Holds store' s'.table trees
  count : s'.count = s.count

/-- Tables of states that correspond have the same entries. -/
theorem Twin.entries_eq (h : Twin store store' s s') : s'.table.entries = s.table.entries := by
  obtain ⟨trees, hs, hs'⟩ := h.tables
  exact hs'.lists.eq hs.lists hs'.represents.position_unique

/-- The states in which grammars are begun. -/
theorem twin_empty (store store' : RegexStore) (count : Nat) :
    Twin store store' ⟨.empty, count⟩ ⟨.empty, count⟩ :=
  ⟨⟨[], RegexTable.holds_empty _, RegexTable.holds_empty _⟩, rfl⟩

/-- What two steps of writing leave behind, side by side: `R` relates what they return, and their
states correspond. -/
structure Alike (R : α → β → Prop) (store store' : RegexStore) (p : α × State) (p' : β × State) :
    Prop where
  value : R p.1 p'.1
  state : Twin store store' p.2 p'.2

/-- The two steps return the same. -/
abbrev Same (store store' : RegexStore) : α × State → α × State → Prop :=
  Alike (fun r r' => r' = r) store store'

/-- Regexes with the same tree are given the same position. -/
theorem agrees_writeRegex (h : Twin store store' s s') {id id' : RegexId}
    (hid : store.SameTree id store' id') :
    Except.Agrees (Same store store') E (writeRegex store id s) (writeRegex store' id' s') := by
  obtain ⟨trees, hs, hs'⟩ := h.tables
  obtain ⟨tree, htree, htree'⟩ := hid
  obtain ⟨i, t, hadd, ht, hi⟩ := hs.add htree
  obtain ⟨i', t', hadd', ht', hi'⟩ := hs'.add htree'
  -- both positions are that of the tree among what is listed
  have hlisted := (ht.lists.getElem?_iff).2 hi
  have hsame : i' = i :=
    hi'.place_unique ht'.represents.position_unique ((ht'.lists.getElem?_iff).1 hlisted)
  have hrun : writeRegex store id s = .ok (i, ⟨t, s.count⟩) := by
    rw [writeRegex, hadd]
  have hrun' : writeRegex store' id' s' = .ok (i', ⟨t', s'.count⟩) := by
    rw [writeRegex, hadd']
  rw [hrun, hrun']
  exact .ok ⟨hsame, ⟨_, ht, ht'⟩, h.count⟩

theorem agrees_countNode (hE : ∀ e, E e e) (h : Twin store store' s s') (limit : Option Nat) :
    Except.Agrees (Same store store') E (countNode limit s) (countNode limit s') := by
  unfold countNode
  dsimp only
  rw [h.count]
  split
  · exact .error (hE _)
  · exact .ok ⟨rfl, h.tables, rfl⟩

theorem agrees_writeSkip {a b : Arena} {skip skip' : Option RegexId}
    (h : Twin a.regexes b.regexes s s') (hskip : a.regexes.SameTree? skip b.regexes skip') :
    Except.Agrees (Same a.regexes b.regexes) E (writeSkip a skip s) (writeSkip b skip' s') := by
  cases hskip with
  | none => exact .ok ⟨rfl, h⟩
  | some htree =>
    refine (agrees_writeRegex h htree).bindState fun i t i' t' hi => ?_
    obtain ⟨rfl, ht⟩ := hi
    exact .ok ⟨rfl, ht⟩

/-- Writing one thing after the other. -/
theorem agrees_mapM_same {γ : Type} {w w' : γ → Writer α} {xs : List γ}
    (hw : ∀ x ∈ xs, ∀ t t', Twin store store' t t' →
      Except.Agrees (Same store store') E (w x t) (w' x t')) (h : Twin store store' s s') :
    Except.Agrees (Same store store') E (xs.mapM w s) (xs.mapM w' s') := by
  refine Except.Agrees.mapM (J := fun _ => Same store store')
    (fun _ x hx ys t ys' t' ht => ?_) ⟨rfl, h⟩
  obtain ⟨heq, ht⟩ := ht
  refine (hw x hx t t' ht).imp fun q q' hq => ⟨?_, hq.state⟩
  rw [hq.value, show ys' = ys from heq]

end Writers

/-! ### Writing what was renamed -/

/-- Errors that correspond under new names. -/
structure ErrorsAgree (a b : Arena) (root : NodeId) (f : NodeId → NodeId)
    (E : Error → Error → Prop) : Prop where
  refl : ∀ e, E e e
  undefined : ∀ key, (a.graph Node.children).Reaches root key →
    E (.undefinedGrammar key) (.undefinedGrammar (f key))
  unresolved : ∀ (x : NodeId) (g : Generation), (a.graph Node.children).Reaches root x →
    a.generation? x = some g → g.stop.regex? = none →
      E (.unresolvedStop (a.cite x)) (.unresolvedStop (b.cite (f x)))

section Renamed

variable {a b : Arena} {root : NodeId} {f : NodeId → NodeId} {E : Error → Error → Prop}
  (options : CompileOptions) {s s' : State} {keys keys' ids ids' : List NodeId}

theorem agrees_writeStop (h : Twin a.regexes b.regexes s s') {x x' : NodeId}
    {g g' : Generation} (hstop : a.regexes.SameTree? g.stop.regex? b.regexes g'.stop.regex?)
    (hunresolved : g.stop.regex? = none →
      E (.unresolvedStop (a.cite x)) (.unresolvedStop (b.cite x'))) :
    Except.Agrees (Same a.regexes b.regexes) E (writeStop options a x g s)
      (writeStop options b x' g' s') := by
  unfold writeStop
  rcases hstop.cases with ⟨hnone, hnone'⟩ | ⟨regex, regex', hregex, hregex', htree⟩
  · rw [hnone, hnone']
    -- only without a stop does the policy matter, and then the node is cited
    cases options.stopPolicy with
    | endOfOutput => exact .ok ⟨rfl, h⟩
    | error => exact .error (hunresolved hnone)
  · rw [hregex, hregex']
    refine (agrees_writeRegex h htree).bindState fun i t i' t' hi => ?_
    obtain ⟨rfl, ht⟩ := hi
    exact .ok ⟨rfl, ht⟩

/-- Writing what a node becomes. Of the names it matters only where they are listed: that of a
nested grammar among the grammars, and those directly below the node among the nodes. -/
theorem agrees_writeKind (h : Twin a.regexes b.regexes s s') {x x' : NodeId} {n : Node}
    {kind : NodeKind} (hkind : n.kind.Renamed f a.regexes b.regexes kind)
    (hnested : n.isNested = true → keys'.idxOf x' = keys.idxOf x)
    (hbelow : ∀ y ∈ n.inlineChildren, ids'.idxOf (f y) = ids.idxOf y)
    (hunresolved : ∀ g, n.kind = .generation g → g.stop.regex? = none →
      E (.unresolvedStop (a.cite x)) (.unresolvedStop (b.cite x'))) :
    Except.Agrees (Same a.regexes b.regexes) E (writeKind options a keys ids x n.kind s)
      (writeKind options b keys' ids' x' kind s') := by
  -- places do not change under the renaming, so the lists of places are equal
  have hall : ∀ xs : List NodeId, (∀ y ∈ xs, ids'.idxOf (f y) = ids.idxOf y) →
      (xs.map f).map ids'.idxOf = xs.map ids.idxOf := fun xs hxs => by
    rw [List.map_map]
    exact List.map_congr_left hxs
  unfold Node.isNested at hnested
  unfold Node.inlineChildren at hbelow
  generalize n.kind = kind₀ at hkind hnested hbelow hunresolved
  cases hkind with
  | literal text => exact .ok ⟨rfl, h⟩
  | @generation g g' hbody hstop hlazy htemperature hname =>
    refine (agrees_writeRegex h hbody).bindState fun body t body' t' ht => ?_
    obtain ⟨rfl, ht⟩ := ht
    refine (agrees_writeStop options ht hstop (hunresolved g rfl)).bindState
      fun stop u stop' u' hu => ?_
    obtain ⟨rfl, hu⟩ := hu
    rw [hlazy, htemperature, hname]
    exact .ok ⟨rfl, hu⟩
  | @lexeme l l' hregex hcontextual htemperature =>
    refine (agrees_writeRegex h hregex).bindState fun regex t regex' t' ht => ?_
    obtain ⟨rfl, ht⟩ := ht
    rw [hcontextual, htemperature]
    exact .ok ⟨rfl, ht⟩
  | nested => exact .ok ⟨congrArg (Artifact.NodeKind.grammar · none none) (hnested rfl), h⟩
  | choice xs => exact .ok ⟨congrArg Artifact.NodeKind.choice (hall xs hbelow), h⟩
  | sequence xs => exact .ok ⟨congrArg Artifact.NodeKind.sequence (hall xs hbelow), h⟩

/-- Lists of grammars that correspond: every nested grammar that the root reaches is at the same
place under its new name. -/
def SamePlaces (a : Arena) (root : NodeId) (f : NodeId → NodeId) (keys keys' : List NodeId) :
    Prop :=
  ∀ x, (a.graph Node.children).Reaches root x → a.isNested x = true →
    keys'.idxOf (f x) = keys.idxOf x

/-- Writing a node, when what is directly below it is at the same places. -/
theorem agrees_writeNode (hab : a.Renames b root f) (hE : ErrorsAgree a b root f E)
    (h : Twin a.regexes b.regexes s s') (hkeys : SamePlaces a root f keys keys')
    {x : NodeId} (hx : (a.graph Node.children).Reaches root x)
    (hids : ∀ y, (a.graph Node.inlineChildren).Edge x y → ids'.idxOf (f y) = ids.idxOf y) :
    Except.Agrees (Same a.regexes b.regexes) E (writeNode options a keys ids x s)
      (writeNode options b keys' ids' (f x) s') := by
  obtain ⟨n, n', hn, hn', hrenamed⟩ := hab.node x hx
  have hnested : n.isNested = true → keys'.idxOf (f x) = keys.idxOf x := fun hnested =>
    hkeys x hx ((Arena.isNested_eq hn).trans hnested)
  have hbelow : ∀ y ∈ n.inlineChildren, ids'.idxOf (f y) = ids.idxOf y := fun y hy =>
    hids y (Arena.edge_graph_iff.2 ⟨n, hn, hy⟩)
  have hunresolved : ∀ g, n.kind = .generation g → g.stop.regex? = none →
      E (.unresolvedStop (a.cite x)) (.unresolvedStop (b.cite (f x))) := fun g hg =>
    hE.unresolved x g hx (Arena.generation?_eq_some.2 (Arena.kind?_eq_some.2 ⟨n, hn, hg⟩))
  unfold writeNode
  rw [hn, hn']
  -- counting cannot tell the arenas apart, and so the same node is refused
  refine (agrees_countNode hE.refl h options.nodeLimit).bindState fun _ t _ t' ht => ?_
  have hkind : Except.Agrees _ E (writeKind options a keys ids x n.kind t)
      (writeKind options b keys' ids' (f x) n'.kind t') :=
    agrees_writeKind options ht.state hrenamed.kind hnested hbelow hunresolved
  refine hkind.bindState fun kind u kind' u' hu => ?_
  obtain ⟨rfl, hu⟩ := hu
  refine .ok ⟨?_, hu⟩
  rw [compiledNode, compiledNode, hrenamed.props]

/-- Writing a grammar. -/
theorem agrees_writeGrammar (hab : a.Renames b root f) (hE : ErrorsAgree a b root f E)
    (hkeys : SamePlaces a root f keys keys') {key : NodeId}
    (hkey : (a.graph Node.children).Reaches root key) (count : Nat) :
    Except.Agrees (fun p p' => p' = p) E (writeGrammar options a keys key count)
      (writeGrammar options b keys' (f key) count) := by
  have hids : ∀ x ∈ a.grammarNodes key, (a.graph Node.children).Reaches root x :=
    fun x hx => hkey.trans (Arena.reaches_of_mem_grammarNodes hx)
  obtain ⟨hstart, hskip⟩ := hab.grammarStart?_eq hkey
  unfold writeGrammar
  rw [hstart]
  cases a.grammarStart? key with
  | none => exact .error (hE.undefined key hkey)
  | some start =>
    dsimp only [Option.map_some]
    rw [hab.grammarNodes_eq hkey, List.mapM_map]
    refine Except.Agrees.bind (agrees_mapM_same (fun x hx t t' ht => ?_)
      (twin_empty a.regexes b.regexes count)) fun p p' hp => ?_
    · -- a renamed node has the place of the node it stands for
      refine agrees_writeNode options hab hE ht hkeys (hids x hx) fun y hy => ?_
      exact idxOf_map hab.injective hids
        ((hids x hx).trans (Arena.reaches_of_reaches_inline (.single hy)))
    · obtain ⟨nodes, t⟩ := p
      obtain ⟨nodes', t'⟩ := p'
      obtain ⟨rfl, ht⟩ := hp
      refine Except.Agrees.bind (agrees_writeSkip ht hskip) fun q q' hq => .ok ?_
      rw [hq.value, hq.state.entries_eq, hq.state.count]

/-- Writing grammars one after the other. -/
theorem agrees_mapM_writeGrammar (hab : a.Renames b root f) (hE : ErrorsAgree a b root f E)
    (hkeys : SamePlaces a root f keys keys') {rest : List NodeId}
    (hrest : ∀ k ∈ rest, (a.graph Node.children).Reaches root k) (count : Nat) :
    Except.Agrees (fun p p' => p' = p) E (rest.mapM (writeGrammar options a keys) count)
      ((rest.map f).mapM (writeGrammar options b keys') count) := by
  rw [List.mapM_map]
  refine Except.Agrees.mapM (J := fun _ p p' => p' = p) (fun _ key hkey gs n gs' n' heq => ?_) rfl
  obtain ⟨rfl, rfl⟩ := Prod.mk.inj heq
  exact (agrees_writeGrammar options hab hE hkeys (hrest key hkey) _).imp
    fun q q' hq => by rw [hq]

end Renamed

end Compile

/-- **Roots that are the same up to names compile alike.** -/
theorem Arena.Renames.agrees_compile {a b : Arena} {root : NodeId} {f : NodeId → NodeId}
    {E : Error → Error → Prop} (hab : a.Renames b root f) (hE : Compile.ErrorsAgree a b root f E)
    (options : CompileOptions) :
    Except.Agrees (fun t t' => t' = t) E (a.compile options root)
      (b.compile options (f root)) := by
  obtain ⟨n, n', hn, hn', -⟩ := hab.node root (Digraph.Reaches.refl root)
  have hkeys : ∀ k ∈ a.grammarOrder root, (a.graph Node.children).Reaches root k :=
    fun k hk => reaches_of_mem_grammarOrder hk
  -- the renaming is injective on what is reached, which is where keys are looked for
  have hplaces : Compile.SamePlaces a root f (a.grammarOrder root) ((a.grammarOrder root).map f) :=
    fun x hx _ => idxOf_map hab.injective hkeys hx
  rw [compile_eq_compileInOrder, compile_eq_compileInOrder]
  unfold Arena.compileInOrder
  rw [hn, hn', hab.grammarOrder_eq]
  refine (Compile.agrees_mapM_writeGrammar options hab hE hplaces hkeys 0).bind
    fun p p' hp => .ok ?_
  rw [hp]

/-- **Compiling depends on what is reached up to names.** If the nodes that one root reaches
correspond to those that another root reaches, under other ids and with regexes of the same trees,
then what the one compiles to the other compiles to. -/
theorem Arena.compile_rename (a b : Arena) (root root' : NodeId) (f : NodeId → NodeId)
    (hf : Set.BijOn f {x | (a.graph Node.children).Reaches root x}
      {y | (b.graph Node.children).Reaches root' y})
    (hroot : f root = root')
    (hnode : ∀ x n, (a.graph Node.children).Reaches root x → a.node? x = some n →
      ∃ n', b.node? (f x) = some n' ∧ n.Renamed f a.regexes b.regexes n')
    (options : CompileOptions) (t : Artifact Nat) (h : a.compile options root = .ok t) :
    b.compile options root' = .ok t := by
  have hab : a.Renames b root f := by
    refine ⟨fun x y hx hy => hf.injOn hx hy, fun x hx => ?_⟩
    obtain ⟨n, hn⟩ := exists_node?_of_reaches h hx
    obtain ⟨n', hn', hrenamed⟩ := hnode x n hx hn
    exact ⟨n, n', hn, hn', hrenamed⟩
  -- which errors correspond does not matter, because there are none
  have hE : Compile.ErrorsAgree a b root f fun _ _ => True :=
    ⟨fun _ => trivial, fun _ _ => trivial, fun _ _ _ _ _ => trivial⟩
  have hagrees := hab.agrees_compile hE options
  rw [h, hroot] at hagrees
  obtain ⟨t', ht', rfl⟩ := hagrees.of_ok
  exact ht'

/-- A generation up to a full stop, built in another order and with its stop given: the same
compiled grammar. -/
theorem Arena.compile_rename_explicit_stop :
    ∃ t, (ofCalls [.generation {}, .sequence [.node 0, .text "."]]).compile {} 2 = .ok t ∧
      (ofCalls [.regexLiteral "x", .literal ".", .generation { stop := some (.text ".") },
        .sequence [.node 1, .node 0]]).compile {} 2 = .ok t := by
  have hcompile : (ofCalls [.generation {}, .sequence [.node 0, .text "."]]).compile {} 2 =
      .ok ⟨[⟨[⟨.sequence [1, 2], {}⟩, ⟨.generation (.entry 0) (.entry 1) none none none, {}⟩,
        ⟨.literal ".", {}⟩], false, none, some false, [.pattern ".*", .literal "."]⟩],
        none, false⟩ := by
    rw [compile_eq_compileInOrder]
    cbv
  have ha : ofCalls [.generation {}, .sequence [.node 0, .text "."]] =
      ⟨#[⟨.generation ⟨0, .inferred '.' 1 1, none, none, none⟩, {}, false⟩,
        ⟨.literal ".", {}, false⟩, ⟨.sequence [0, 1], {}, false⟩],
        #[.pattern ".*", .literal "."]⟩ := by cbv
  have hb : ofCalls [.regexLiteral "x", .literal ".", .generation { stop := some (.text ".") },
      .sequence [.node 1, .node 0]] =
      ⟨#[⟨.literal ".", {}, false⟩, ⟨.generation ⟨1, .explicit 2, none, none, none⟩, {}, false⟩,
        ⟨.sequence [1, 0], {}, false⟩], #[.literal "x", .pattern ".*", .literal "."]⟩ := by cbv
  refine ⟨_, hcompile, ?_⟩
  -- what is reached on either side, listed in the order of a walk
  have hreaches : ∀ x, ((ofCalls [.generation {}, .sequence [.node 0, .text "."]]).graph
      Node.children).Reaches 2 x ↔ x ∈ [2, 0, 1] := by
    intro x
    rw [← Digraph.reachesFrom_singleton, ← Digraph.mem_depthFirst]
    exact iff_of_eq (congrArg (x ∈ ·) (by cbv))
  have hreaches' : ∀ x, ((ofCalls [.regexLiteral "x", .literal ".",
      .generation { stop := some (.text ".") }, .sequence [.node 1, .node 0]]).graph
      Node.children).Reaches 2 x ↔ x ∈ [2, 1, 0] := by
    intro x
    rw [← Digraph.reachesFrom_singleton, ← Digraph.mem_depthFirst]
    exact iff_of_eq (congrArg (x ∈ ·) (by cbv))
  refine compile_rename _ _ 2 2 (fun x => [1, 0, 2].getD x x) ?_ rfl (fun x n hx hn => ?_) {} _
    hcompile
  · simp only [hreaches, hreaches']
    have hinj : ∀ x ∈ [2, 0, 1], ∀ y ∈ [2, 0, 1],
        [1, 0, 2].getD x x = [1, 0, 2].getD y y → x = y := by decide
    have hmaps : ∀ x ∈ [2, 0, 1], [1, 0, 2].getD x x ∈ [2, 1, 0] := by decide
    have hsurj : ∀ y ∈ [2, 1, 0], ∃ x ∈ [2, 0, 1], [1, 0, 2].getD x x = y := by decide
    exact ⟨hmaps, fun x hx y hy => hinj x hx y hy, hsurj⟩
  · rw [hreaches] at hx
    rw [ha] at hn
    rw [ha, hb]
    rcases List.mem_cons.1 hx with rfl | hx
    · obtain rfl := Option.some.inj hn
      exact ⟨_, rfl, .sequence [0, 1], rfl⟩
    rcases List.mem_cons.1 hx with rfl | hx
    · obtain rfl := Option.some.inj hn
      refine ⟨_, rfl, .generation ?_ (.some ?_) rfl rfl rfl, rfl⟩
      · exact .of_leaf rfl rfl rfl
      · exact .of_leaf rfl rfl rfl
    · obtain rfl := List.mem_singleton.1 hx
      obtain rfl := Option.some.inj hn
      exact ⟨_, rfl, .literal ".", rfl⟩

end GuidedGrammar
