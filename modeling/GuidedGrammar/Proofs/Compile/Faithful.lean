import GuidedGrammar.Grammar.Call
import GuidedGrammar.Proofs.Compile.Serializer
import GuidedGrammar.Proofs.Regex.Sorted

/-!
# Compiling is faithful

What a compiled set of grammars has to do with the arena it was compiled from is said by a relation
that knows nothing of how compiling proceeds (`Arena.TranslatesGrammar`, and what it is made of).
The grammars correspond to a list of nodes, the nodes of each grammar to a list of nodes that its
start reaches, references are positions in these lists, and regexes are entries with the same tree.
Compiling produces such a set whenever it succeeds (`Arena.compile_faithful`).

While a grammar is written, regexes are added to its table in a fixed order: those of its nodes,
node by node, and then what it skips (`Arena.grammarRegexes`). Nothing else becomes of the table. So
what a step of writing leaves behind is known (`Compile.Leaves`), and what was written before keeps
its meaning, because a table only grows at its end.
-/

namespace GuidedGrammar

/-! ### Translations -/

/-- An entry that stands for a regex has its tree. -/
inductive Artifact.RegexRef.StandsFor (store entries : RegexStore) (id : RegexId) :
    Artifact.RegexRef Nat → Prop
  | entry {i : Nat} (h : store.SameTree id entries i) : StandsFor store entries id (.entry i)

/-- A stop that is not set becomes the end of the output. -/
inductive Stop.Translates (store entries : RegexStore) : Stop → Artifact.RegexRef Nat → Prop
  | unset : Translates store entries .unset .endOfOutput
  | set {stop : Stop} {regex : RegexId} {ref : Artifact.RegexRef Nat}
    (hstop : stop.regex? = some regex) (h : ref.StandsFor store entries regex) :
    Translates store entries stop ref

/-- A compiled node that stands for a node of this kind. The grammars are those of `keys`, and
the nodes of this grammar are `nodes`. -/
inductive NodeKind.Translates (store entries : RegexStore) (keys nodes : List NodeId)
    (id : NodeId) : NodeKind → Artifact.NodeKind Nat → Prop
  | literal (text : String) : Translates store entries keys nodes id (.literal text) (.literal text)
  | generation {g : Generation} {body stop : Artifact.RegexRef Nat}
    (hbody : body.StandsFor store entries g.body) (hstop : g.stop.Translates store entries stop) :
    Translates store entries keys nodes id (.generation g)
      (.generation body stop g.stopCaptureName g.lazy g.temperature)
  | lexeme {l : Lexeme} {regex : Artifact.RegexRef Nat}
    (hregex : regex.StandsFor store entries l.regex) :
    Translates store entries keys nodes id (.lexeme l) (.lexeme regex l.contextual l.temperature)
  | nested {start : Option NodeId} {skip : Option RegexId} {i : Nat} (hi : keys[i]? = some id) :
    Translates store entries keys nodes id (.nested start skip) (.grammar i none none)
  | choice {xs : List NodeId} {is : List Nat}
    (h : List.Forall₂ (fun x (i : Nat) => nodes[i]? = some x) xs is) :
    Translates store entries keys nodes id (.choice xs) (.choice is)
  | sequence {xs : List NodeId} {is : List Nat}
    (h : List.Forall₂ (fun x (i : Nat) => nodes[i]? = some x) xs is) :
    Translates store entries keys nodes id (.sequence xs) (.sequence is)

namespace Arena

/-- A compiled node that stands for a node has its properties and no name. -/
inductive TranslatesNode (a : Arena) (entries : RegexStore) (keys nodes : List NodeId)
    (id : NodeId) : Artifact.Node Nat → Prop
  | intro {n : Node} {kind : Artifact.NodeKind Nat} (hid : a.node? id = some n)
    (hkind : n.kind.Translates a.regexes entries keys nodes id kind) :
    TranslatesNode a entries keys nodes id ⟨kind, ⟨n.props.maxTokens, none, n.props.captureName⟩⟩

/-- What a grammar skips. -/
inductive TranslatesSkip (a : Arena) (entries : RegexStore) :
    Option RegexId → Option (Artifact.RegexRef Nat) → Prop
  | none : TranslatesSkip a entries none none
  | some {skip : RegexId} {ref : Artifact.RegexRef Nat}
    (h : ref.StandsFor a.regexes entries skip) : TranslatesSkip a entries (some skip) (some ref)

/-- **A compiled grammar that stands for the grammar of a node.** Its nodes stand for the nodes that
the start of that grammar reaches without entering nested grammars, each once, the start first. -/
inductive TranslatesGrammar (a : Arena) (keys : List NodeId) (key : NodeId) :
    Artifact.Grammar Nat → Prop
  | intro {start : NodeId} {skip : Option RegexId} {ids : List NodeId}
    {nodes : List (Artifact.Node Nat)} {ref : Option (Artifact.RegexRef Nat)}
    {entries : List (Regex Nat)}
    (hkey : a.GrammarAt key start skip) (hnodup : ids.Nodup) (hhead : ids.head? = some start)
    (hids : ∀ id, id ∈ ids ↔ (a.graph Node.inlineChildren).Reaches start id)
    (hnodes : List.Forall₂ (a.TranslatesNode entries.toArray keys ids) ids nodes)
    (hskip : a.TranslatesSkip entries.toArray skip ref) :
    TranslatesGrammar a keys key ⟨nodes, false, ref, some false, entries⟩

end Arena

/-! ### What lasts while entries are added -/

section Mono

variable {store entries entries' : RegexStore} {keys nodes : List NodeId} {id : NodeId}

theorem Artifact.RegexRef.StandsFor.mono (hext : entries.Extends entries')
    {ref : Artifact.RegexRef Nat} (h : ref.StandsFor store entries id) :
    ref.StandsFor store entries' id := by
  cases h with
  | entry hsame => exact .entry (hsame.mono hext)

theorem Stop.Translates.mono (hext : entries.Extends entries') {stop : Stop}
    {ref : Artifact.RegexRef Nat} (h : stop.Translates store entries ref) :
    stop.Translates store entries' ref := by
  cases h with
  | unset => exact .unset
  | set hstop hregex => exact .set hstop (hregex.mono hext)

theorem NodeKind.Translates.mono (hext : entries.Extends entries') {kind : NodeKind}
    {compiled : Artifact.NodeKind Nat}
    (h : kind.Translates store entries keys nodes id compiled) :
    kind.Translates store entries' keys nodes id compiled := by
  cases h with
  | literal text => exact .literal text
  | generation hbody hstop => exact .generation (hbody.mono hext) (hstop.mono hext)
  | lexeme hregex => exact .lexeme (hregex.mono hext)
  | nested hi => exact .nested hi
  | choice h => exact .choice h
  | sequence h => exact .sequence h

theorem Arena.TranslatesNode.mono {a : Arena} {compiled : Artifact.Node Nat}
    (hext : entries.Extends entries') (h : a.TranslatesNode entries keys nodes id compiled) :
    a.TranslatesNode entries' keys nodes id compiled := by
  cases h with
  | intro hid hkind => exact .intro hid (hkind.mono hext)

end Mono

/-! ### The regexes of a grammar -/

/-- The regexes that are written with a node. What a nested grammar skips is written with its own
grammar. -/
def NodeKind.inlineRegexes : NodeKind → List RegexId
  | generation g => g.body :: g.stop.regex?.toList
  | lexeme l => [l.regex]
  | literal _ | nested .. | choice _ | sequence _ => []

namespace Arena

/-- The regexes that are written with the node of an id. -/
def inlineRegexes (a : Arena) (id : NodeId) : List RegexId :=
  (a.kind? id).elim [] NodeKind.inlineRegexes

/-- **The regexes of a grammar**, in the order in which they are written. -/
def grammarRegexes (a : Arena) (key : NodeId) : List RegexId :=
  (a.grammarNodes key).flatMap a.inlineRegexes ++ (a.grammarSkip? key).toList

/-- What is written for the grammar of `key`: a translation of each of its nodes, in order, and of
what it skips. The entries are those of an empty table to which its regexes were added. -/
inductive WritesGrammar (a : Arena) (keys : List NodeId) (key : NodeId) :
    Artifact.Grammar Nat → Prop
  | intro {start : NodeId} {nodes : List (Artifact.Node Nat)} {ref : Option (Artifact.RegexRef Nat)}
    {entries : List (Regex Nat)} (hstart : a.grammarStart? key = some start)
    (hnodes : List.Forall₂ (a.TranslatesNode entries.toArray keys (a.grammarNodes key))
      (a.grammarNodes key) nodes)
    (hskip : a.TranslatesSkip entries.toArray (a.grammarSkip? key) ref)
    (hentries : entries.toArray =
      ((∅ : RegexTable).addAll a.regexes (a.grammarRegexes key)).2.entries) :
    WritesGrammar a keys key ⟨nodes, false, ref, some false, entries⟩

end Arena

namespace Compile

open RegexTable

variable {α β : Type} {store : RegexStore} {s t u : State} {rs rs' : List RegexId} {k l : Nat}

/-- The number of nodes in all grammars. -/
def nodeCount (grammars : List (Artifact.Grammar Nat)) : Nat :=
  (grammars.map fun g => g.nodes.length).sum

/-! ### What steps leave behind -/

/-- The state after regexes have been added and nodes have been counted. -/
def State.adding (s : State) (store : RegexStore) (rs : List RegexId) (k : Nat) : State :=
  ⟨(s.table.addAll store rs).2, s.count + k⟩

/-- **What a step of writing leaves behind** in a state, besides what it returns: the regexes `rs`
have been added, and `k` nodes have been counted. If the table said what it should before, then `Q`
holds of what is returned and the entries. -/
structure Leaves (store : RegexStore) (rs : List RegexId) (k : Nat) (Q : α → RegexStore → Prop)
    (s : State) (p : α × State) : Prop where
  state : p.2 = s.adding store rs k
  value : Represents store (fun _ => True) s.table → Q p.1 p.2.table.entries

/-- A step that leaves the state as it is. -/
theorem leaves_same {Q : α → RegexStore → Prop} {r : α} (h : Q r s.table.entries) :
    Leaves store [] 0 Q s (r, s) :=
  ⟨rfl, fun _ => h⟩

namespace Leaves

variable {Q : α → RegexStore → Prop} {R : β → RegexStore → Prop} {p : α × State}

theorem count_eq (h : Leaves store rs k Q s p) : p.2.count = s.count + k :=
  congrArg State.count h.state

theorem represents (h : Leaves store rs k Q s p) (hs : Represents store (fun _ => True) s.table) :
    Represents store (fun _ => True) p.2.table := by
  rw [h.state]
  exact (represents_addAll rs hs).1

theorem extends_entries (h : Leaves store rs k Q s p)
    (hs : Represents store (fun _ => True) s.table) :
    RegexStore.Extends s.table.entries p.2.table.entries := by
  rw [h.state]
  exact (represents_addAll rs hs).2.1

/-- One step after another. What is known of the first one has to last while entries are
added. -/
theorem andThen {r : α} {r' : β} {γ : Type} {S : γ → RegexStore → Prop} {x : γ}
    (h : Leaves store rs k Q s (r, t)) (h' : Leaves store rs' l R t (r', u))
    (hx : ∀ entries entries', RegexStore.Extends entries entries' → Q r entries → R r' entries' →
      S x entries') : Leaves store (rs ++ rs') (k + l) S s (x, u) where
  state := by
    rw [show u = _ from h'.state, show t = _ from h.state, State.adding, State.adding, State.adding,
      addAll_append, Nat.add_assoc]
  value hs :=
    hx _ _ (h'.extends_entries (h.represents hs)) (h.value hs) (h'.value (h.represents hs))

theorem imp {Q' : β → RegexStore → Prop} {r' : β} (h : Leaves store rs k Q s p)
    (hQ : ∀ entries, Q p.1 entries → Q' r' entries) : Leaves store rs k Q' s (r', p.2) :=
  ⟨h.state, fun hs => hQ _ (h.value hs)⟩

end Leaves

/-! ### Steps of writing -/

theorem leaves_writeRegex (id : RegexId) (s : State) :
    Except.Ensures (Leaves store [id] 0 (fun i entries => store.SameTree id entries i) s)
      (fun _ => True) (writeRegex store id s) := by
  obtain ⟨table, count⟩ := s
  rw [writeRegex]
  cases hadd : table.add store id with
  | mk result table' =>
    have htable : (table.addAll store [id]).2 = table' := by
      simp only [RegexTable.addAll, hadd]
    cases result with
    | error e => trivial
    | ok i =>
      refine ⟨?_, fun hs => ?_⟩
      · rw [State.adding, htable]
        rfl
      · have hsame := sameTree_of_add (fun _ _ _ _ => trivial) trivial hs (congrArg Prod.fst hadd)
        rwa [hadd] at hsame

theorem leaves_countNode (store : RegexStore) (limit : Option Nat) (s : State) :
    Except.Ensures (Leaves store [] 1 (fun _ _ => True) s) (fun _ => True) (countNode limit s) := by
  simp only [countNode]
  split
  · trivial
  · exact ⟨rfl, fun _ => trivial⟩

section Nodes

variable {a : Arena} {options : CompileOptions} {keys ids : List NodeId}

theorem leaves_writeStop (id : NodeId) (g : Generation) (s : State) :
    Except.Ensures (Leaves a.regexes g.stop.regex?.toList 0
        (fun ref entries => g.stop.Translates a.regexes entries ref) s) (fun _ => True)
      (writeStop options a id g s) := by
  unfold writeStop
  cases hregex : g.stop.regex? with
  | some regex =>
    exact (leaves_writeRegex regex s).bindState fun _ _ hi =>
      hi.imp fun _ htree => .set hregex (.entry htree)
  | none =>
    cases options.stopPolicy with
    | error => trivial
    | endOfOutput =>
      refine leaves_same ?_
      -- only a stop that is not set has no regex
      cases hstop : g.stop with
      | unset => exact .unset
      | explicit | inferred =>
        rw [hstop] at hregex
        cases hregex

theorem leaves_writeGeneration (id : NodeId) (g : Generation) (s : State) :
    Except.Ensures (Leaves a.regexes (g.body :: g.stop.regex?.toList) 0 (fun kind entries =>
        NodeKind.Translates a.regexes entries keys ids id (.generation g) kind) s) (fun _ => True)
      (writeGeneration options a id g s) :=
  (leaves_writeRegex g.body s).bindState fun _ t hbody =>
    (leaves_writeStop id g t).bindState fun _ _ hstop =>
      hbody.andThen hstop fun _ _ hext htree hstop =>
        .generation (.entry (htree.mono hext)) hstop

theorem leaves_writeLexeme (id : NodeId) (lexeme : Lexeme) (s : State) :
    Except.Ensures (Leaves a.regexes [lexeme.regex] 0 (fun kind entries =>
        NodeKind.Translates a.regexes entries keys ids id (.lexeme lexeme) kind) s) (fun _ => True)
      (writeLexeme a lexeme s) :=
  (leaves_writeRegex lexeme.regex s).bindState fun _ _ hregex =>
    hregex.imp fun _ htree => .lexeme (.entry htree)

theorem leaves_writeSkip (skip : Option RegexId) (s : State) :
    Except.Ensures (Leaves a.regexes skip.toList 0
        (fun ref entries => a.TranslatesSkip entries skip ref) s) (fun _ => True)
      (writeSkip a skip s) := by
  cases skip with
  | none => exact leaves_same .none
  | some skip =>
    exact (leaves_writeRegex skip s).bindState fun _ _ hi =>
      hi.imp fun _ htree => .some (.entry htree)

/-- The place of something that is listed. -/
theorem getElem?_idxOf {xs : List NodeId} {x : NodeId} (h : x ∈ xs) : xs[xs.idxOf x]? = some x := by
  have hlt := List.idxOf_lt_length_of_mem h
  rw [List.getElem?_eq_getElem hlt, List.getElem_idxOf hlt]

theorem forall₂_idxOf {xs : List NodeId} (h : ∀ x ∈ xs, x ∈ ids) :
    List.Forall₂ (fun x (i : Nat) => ids[i]? = some x) xs (xs.map ids.idxOf) :=
  List.forall₂_map_right_iff.2 (List.forall₂_same.2 fun x hx => getElem?_idxOf (h x hx))

/-- Writing what a node becomes. All that the node leads to has a place: a nested grammar among
`keys`, and the parts of a choice or a sequence among `ids`. -/
theorem leaves_writeKind (a : Arena) (options : CompileOptions) {id : NodeId} {n : Node}
    (hkey : n.isNested = true → id ∈ keys) (hparts : ∀ x ∈ n.inlineChildren, x ∈ ids) (s : State) :
    Except.Ensures (Leaves a.regexes n.kind.inlineRegexes 0
        (fun kind entries => n.kind.Translates a.regexes entries keys ids id kind) s)
      (fun _ => True) (writeKind options a keys ids id n.kind s) := by
  obtain ⟨kind, props, nullable⟩ := n
  cases kind with
  | literal text => exact leaves_same (.literal text)
  | generation g => exact leaves_writeGeneration id g s
  | lexeme lexeme => exact leaves_writeLexeme id lexeme s
  | nested start skip => exact leaves_same (.nested (getElem?_idxOf (hkey rfl)))
  | choice xs => exact leaves_same (.choice (forall₂_idxOf hparts))
  | sequence xs => exact leaves_same (.sequence (forall₂_idxOf hparts))

/-- Writing a node. -/
theorem leaves_writeNode {id : NodeId} (hkey : a.isNested id = true → id ∈ keys)
    (hparts : ∀ x, (a.graph Node.inlineChildren).Edge id x → x ∈ ids) (s : State) :
    Except.Ensures (Leaves a.regexes (a.inlineRegexes id) 1
        (fun compiled entries => a.TranslatesNode entries keys ids id compiled) s) (fun _ => True)
      (writeNode options a keys ids id s) := by
  unfold writeNode
  cases hn : a.node? id with
  | none => trivial
  | some n =>
    have hkind : a.inlineRegexes id = n.kind.inlineRegexes := by
      simp only [Arena.inlineRegexes, Arena.kind?, hn, Option.map_some, Option.elim_some]
    rw [Arena.isNested_eq hn] at hkey
    rw [hkind]
    -- the node is counted first, and then its regexes are added
    refine (leaves_countNode a.regexes options.nodeLimit s).bindState fun _ t hcount => ?_
    have hwrite := leaves_writeKind a options hkey
      (fun x hx => hparts x (Arena.edge_graph_iff.2 ⟨n, hn, hx⟩)) t
    exact hwrite.bindState fun _ _ hkind =>
      hcount.andThen hkind fun _ _ _ _ hkind => .intro hn hkind

/-! ### Grammars -/

/-- Writing the nodes of a grammar, one after the other. -/
theorem leaves_mapM_writeNode
    (hkeys : ∀ x ∈ ids, a.isNested x = true → x ∈ keys)
    (hparts : ∀ x ∈ ids, ∀ y, (a.graph Node.inlineChildren).Edge x y → y ∈ ids) (s : State) :
    Except.Ensures (Leaves a.regexes (ids.flatMap a.inlineRegexes) ids.length (fun nodes entries =>
        List.Forall₂ (a.TranslatesNode entries keys ids) ids nodes) s) (fun _ => True)
      (ids.mapM (writeNode options a keys ids) s) := by
  refine Except.Ensures.mapM
    (J := fun done => Leaves a.regexes (done.flatMap a.inlineRegexes) done.length
      (fun nodes entries => List.Forall₂ (a.TranslatesNode entries keys ids) done nodes) s)
    (fun done x hx nodes t hdone => ?_) (leaves_same .nil)
  refine (leaves_writeNode (hkeys x hx) (hparts x hx) t).imp fun q hq => ?_
  -- what was written for the nodes before holds in the larger table too
  have hboth := hdone.andThen hq (S := fun nodes entries =>
    List.Forall₂ (a.TranslatesNode entries keys ids) (done ++ [x]) nodes) (x := nodes ++ [q.1])
    fun _ _ hext hnodes hnode =>
      List.rel_append (hnodes.imp fun _ _ h => h.mono hext) (.cons hnode .nil)
  rwa [List.flatMap_append, List.length_append, List.flatMap_singleton]

/-- Writing a grammar. All nested grammars among its nodes are among `keys`. -/
theorem ensures_writeGrammar {key : NodeId}
    (hkeys : ∀ x ∈ a.grammarNodes key, a.isNested x = true → x ∈ keys) (count : Nat) :
    Except.Ensures (fun p => a.WritesGrammar keys key p.1 ∧ p.2 = count + p.1.nodes.length)
      (fun _ => True) (writeGrammar options a keys key count) := by
  unfold writeGrammar
  cases hstart : a.grammarStart? key with
  | none => trivial
  | some start =>
    have hparts : ∀ x ∈ a.grammarNodes key, ∀ y, (a.graph Node.inlineChildren).Edge x y →
        y ∈ a.grammarNodes key := fun x hx y hxy =>
      (Arena.mem_grammarNodes hstart y).2 (((Arena.mem_grammarNodes hstart x).1 hx).tail hxy)
    refine (leaves_mapM_writeNode hkeys hparts ⟨.empty, count⟩).bind fun p hnodes => ?_
    obtain ⟨nodes, t⟩ := p
    refine (leaves_writeSkip (a.grammarSkip? key) t).bind fun p hskip => ?_
    obtain ⟨ref, u⟩ := p
    -- the table starts empty, so everything in it was written for this grammar
    have hall : Leaves a.regexes (a.grammarRegexes key) (a.grammarNodes key).length
        (fun written entries => List.Forall₂ (a.TranslatesNode entries keys (a.grammarNodes key))
          (a.grammarNodes key) written.1 ∧ a.TranslatesSkip entries (a.grammarSkip? key) written.2)
        ⟨.empty, count⟩ ((nodes, ref), u) :=
      hnodes.andThen hskip fun _ _ hext hnodes hskip => ⟨hnodes.imp fun _ _ h => h.mono hext, hskip⟩
    obtain ⟨hnodes, hskip⟩ := hall.value (represents_empty a.regexes _)
    refine ⟨.intro hstart ?_ ?_ ?_, ?_⟩
    · rwa [Array.toArray_toList]
    · rwa [Array.toArray_toList]
    · rw [Array.toArray_toList]
      exact congrArg (fun s => s.table.entries) hall.state
    · rw [show u = _ from hall.state]
      exact congrArg (count + ·) hnodes.length_eq

end Nodes

end Compile

namespace Arena

variable {a : Arena} {root key : NodeId} {keys : List NodeId} {options : CompileOptions}
  {t : Artifact Nat} {grammar : Artifact.Grammar Nat}

/-- A nested grammar that a grammar of the root refers to is a grammar of the root. -/
theorem mem_grammarOrder_of_mem_grammarNodes (hkey : key ∈ a.grammarOrder root) {x : NodeId}
    (hx : x ∈ a.grammarNodes key) (hnested : a.isNested x = true) : x ∈ a.grammarOrder root :=
  mem_grammarOrder_iff_reaches.2
    ((mem_grammarOrder_iff_reaches.1 hkey).tail (edge_grammarGraph_iff.2 ⟨hx, hnested⟩))

/-- What is written for a grammar stands for it. -/
theorem WritesGrammar.translatesGrammar (h : a.WritesGrammar keys key grammar) :
    a.TranslatesGrammar keys key grammar := by
  cases h with
  | intro hstart hnodes hskip =>
    exact .intro (grammarAt_of_start hstart) (nodup_grammarNodes key) (head?_grammarNodes hstart)
      (mem_grammarNodes hstart) hnodes hskip

/-- Compiling writes the grammars of the root, in order, and counts their nodes. -/
theorem ensures_mapM_writeGrammar (a : Arena) (options : CompileOptions) (root : NodeId) :
    Except.Ensures (fun p => List.Forall₂ (a.WritesGrammar (a.grammarOrder root))
        (a.grammarOrder root) p.1 ∧ p.2 = Compile.nodeCount p.1) (fun _ => True)
      ((a.grammarOrder root).mapM (Compile.writeGrammar options a (a.grammarOrder root)) 0) := by
  refine Except.Ensures.mapM (J := fun done p =>
    List.Forall₂ (a.WritesGrammar (a.grammarOrder root)) done p.1 ∧ p.2 = Compile.nodeCount p.1)
    (fun done key hkey grammars count hdone => ?_) ⟨.nil, rfl⟩
  refine (Compile.ensures_writeGrammar (fun x => mem_grammarOrder_of_mem_grammarNodes hkey)
    count).imp fun q hq => ⟨List.rel_append hdone.1 (.cons hq.1 .nil), ?_⟩
  rw [hq.2, show count = _ from hdone.2]
  simp [Compile.nodeCount]

/-- What is compiled has been written, grammar by grammar. -/
theorem forall₂_of_compile (h : a.compile options root = .ok t) :
    List.Forall₂ (a.WritesGrammar (a.grammarOrder root)) (a.grammarOrder root) t.grammars ∧
      t.maxTokens = options.maxTokens ∧ t.testTrace = options.testTrace := by
  rw [compile_eq_compileInOrder] at h
  have hensures : Except.Ensures (fun t => List.Forall₂ (a.WritesGrammar (a.grammarOrder root))
      (a.grammarOrder root) t.grammars ∧ t.maxTokens = options.maxTokens ∧
        t.testTrace = options.testTrace) (fun _ => True) (a.compileInOrder options root) := by
    unfold compileInOrder
    cases a.node? root with
    | none => trivial
    | some n => exact (ensures_mapM_writeGrammar a options root).bind fun p hp => ⟨hp.1, rfl, rfl⟩
  rw [h] at hensures
  exact hensures

end Arena

/-- **Compiling is faithful.** The compiled grammars stand for those of the root and of the nested
grammars that the root reaches, each once, the root first. -/
theorem Arena.compile_faithful (a : Arena) (options : CompileOptions) (root : NodeId)
    (t : Artifact Nat) (h : a.compile options root = .ok t) :
    ∃ keys : List NodeId, keys.Nodup ∧ keys.head? = some root ∧
      (∀ k, k ∈ keys ↔ k = root ∨ a.isNested k = true ∧ (a.graph Node.children).Reaches root k) ∧
      List.Forall₂ (a.TranslatesGrammar keys) keys t.grammars ∧
      t.maxTokens = options.maxTokens ∧ t.testTrace = options.testTrace := by
  obtain ⟨hgrammars, hoptions⟩ := forall₂_of_compile h
  exact ⟨a.grammarOrder root, nodup_grammarOrder root, head?_grammarOrder root,
    fun _ => mem_grammarOrder, hgrammars.imp fun _ _ h => h.translatesGrammar, hoptions⟩

/-- Sentences, each generated up to its full stop: one grammar that refers to itself. -/
theorem Arena.compile_faithful_sentences :
    ∃ keys : List NodeId, keys.Nodup ∧ keys.head? = some 3 ∧
      List.Forall₂ ((Arena.ofCalls [.generation {}, .sequence [.node 0, .text "."],
          .oneOrMore (.node 2)]).TranslatesGrammar keys) keys
        [⟨[⟨.choice [1, 4], {}⟩, ⟨.sequence [2, 3], {}⟩,
          ⟨.generation (.entry 0) (.entry 1) none none none, {}⟩, ⟨.literal ".", {}⟩,
          ⟨.sequence [5, 1], {}⟩, ⟨.grammar 0 none none, {}⟩], false, none, some false,
          [.pattern ".*", .literal "."]⟩] := by
  have hcompile : (Arena.ofCalls [.generation {}, .sequence [.node 0, .text "."],
        .oneOrMore (.node 2)]).compile {} 3 =
      .ok ⟨[⟨[⟨.choice [1, 4], {}⟩, ⟨.sequence [2, 3], {}⟩,
          ⟨.generation (.entry 0) (.entry 1) none none none, {}⟩, ⟨.literal ".", {}⟩,
          ⟨.sequence [5, 1], {}⟩, ⟨.grammar 0 none none, {}⟩], false, none, some false,
          [.pattern ".*", .literal "."]⟩], none, false⟩ := by
    rw [Arena.compile_eq_compileInOrder]
    cbv
  obtain ⟨keys, hnodup, hhead, -, hgrammars, -⟩ := Arena.compile_faithful _ {} 3 _ hcompile
  exact ⟨keys, hnodup, hhead, hgrammars⟩

end GuidedGrammar
