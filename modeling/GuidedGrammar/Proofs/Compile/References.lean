import GuidedGrammar.Proofs.Compile.Faithful
import GuidedGrammar.Proofs.Grammar.Construction

/-!
# References of compiled grammars

Who reads a compiled set of grammars follows references: to grammars, to nodes, to regexes and from
entries to their parts. In a well-formed set (`Artifact.WellFormed`) every reference leads to
something that is there, no chain of references within a grammar is infinite, and nothing is there
that no reference leads to. Compiling produces well-formed sets (`Arena.compile_wellFormed`).

References in a compiled grammar stand for references in the arena. So they are in range because
positions are taken from the lists of what is written, chains are finite because in an arena nodes
come after what is below them, and everything is reached because only what is reached is written.
-/

namespace GuidedGrammar

namespace Artifact

variable {ι : Type}

/-! ### What refers to what -/

/-- The position of the entry that is referred to, if it is not source in place. -/
def RegexRef.entries : RegexRef ι → List ι
  | entry i => [i]
  | source _ => []

/-- The positions of the nodes that a kind of node refers to. -/
def NodeKind.nodes : NodeKind ι → List ι
  | choice alternatives => alternatives
  | sequence elements => elements
  | literal _ | generation .. | lexeme .. | grammar .. => []

/-- The position of the grammar that a kind of node refers to. -/
def NodeKind.grammars : NodeKind ι → List ι
  | grammar position _ _ => [position]
  | literal _ | generation .. | lexeme .. | choice _ | sequence _ => []

/-- The positions of the entries that a kind of node refers to. -/
def NodeKind.entries : NodeKind ι → List ι
  | generation body stop _ _ _ => body.entries ++ stop.entries
  | lexeme regex _ _ => regex.entries
  | literal _ | grammar .. | choice _ | sequence _ => []

/-- The entries that a grammar refers to, from its nodes and as what it skips. -/
def Grammar.entries (g : Grammar ι) : List ι :=
  g.nodes.flatMap (fun n => n.kind.entries) ++ g.skip.toList.flatMap RegexRef.entries

/-- A node leads to a node of the same grammar. -/
def Grammar.Leads (g : Grammar Nat) (i j : Nat) : Prop :=
  ∃ n, g.nodes[i]? = some n ∧ j ∈ n.kind.nodes

/-- A grammar leads to a grammar through one of its nodes. -/
def Leads (t : Artifact Nat) (i j : Nat) : Prop :=
  ∃ g, t.grammars[i]? = some g ∧ ∃ n ∈ g.nodes, j ∈ n.kind.grammars

/-! ### Well-formed references -/

/-- **A compiled grammar whose references can be followed.** -/
structure Grammar.WellFormed (g : Grammar Nat) : Prop where
  /-- There is a start. -/
  nodes_ne_nil : g.nodes ≠ []
  node_lt : ∀ i j, g.Leads i j → j < g.nodes.length
  /-- No chain of references between nodes is infinite. -/
  wellFounded : WellFounded fun j i => g.Leads i j
  /-- The start leads to every node. -/
  node_reached : ∀ i < g.nodes.length, Relation.ReflTransGen g.Leads 0 i
  entry_lt : ∀ i ∈ g.entries, i < g.regexes.length
  /-- The parts of an entry come before it. -/
  part_lt : ∀ (i : Nat) (r : Regex Nat), g.regexes[i]? = some r → ∀ p ∈ r.parts, p < i
  nodup : g.regexes.Nodup
  /-- Every entry is below one that the grammar refers to. -/
  entry_reached : ∀ i < g.regexes.length,
    ∃ ref ∈ g.entries, RegexStore.Reaches g.regexes.toArray ref i

/-- **A compiled set of grammars whose references can be followed.** -/
structure WellFormed (t : Artifact Nat) : Prop where
  /-- There is an entry grammar. -/
  grammars_ne_nil : t.grammars ≠ []
  grammar_lt : ∀ i j, t.Leads i j → j < t.grammars.length
  /-- The entry grammar leads to every grammar. -/
  grammar_reached : ∀ i < t.grammars.length, Relation.ReflTransGen t.Leads 0 i
  grammar : ∀ g ∈ t.grammars, g.WellFormed

end Artifact

/-- Positions lead to one another as what is listed does. The list is that of the vertices that
its head reaches. -/
theorem Digraph.positions_lead {graph : Digraph} {ids : List Nat} {start : Nat}
    {Leads : Nat → Nat → Prop} (hnodup : ids.Nodup) (hhead : ids.head? = some start)
    (hids : ∀ x, x ∈ ids ↔ graph.Reaches start x)
    (hedge : ∀ x y i, ids[i]? = some x → graph.Edge x y → ∃ j, ids[j]? = some y ∧ Leads i j)
    {i : Nat} (hi : i < ids.length) : Relation.ReflTransGen Leads 0 i := by
  have hget : ids[i]? = some ids[i] := List.getElem?_eq_getElem hi
  have hreaches := (hids ids[i]).1 (List.getElem_mem hi)
  generalize ids[i] = x at hget hreaches
  -- the vertices that are met on the way lead to one another
  induction hreaches generalizing i with
  | refl =>
    have hzero : ids[0]? = some start := by rw [← List.head?_eq_getElem?, hhead]
    rw [(List.getElem?_inj hi hnodup).1 (hget.trans hzero.symm)]
  | @tail x y hreaches hxy ih =>
    obtain ⟨k, hk⟩ := List.mem_iff_getElem?.1 ((hids x).2 hreaches)
    obtain ⟨j, hj, hleads⟩ := hedge x y k hk hxy
    rw [(List.getElem?_inj hi hnodup).1 (hget.trans hj.symm)]
    exact (ih (List.getElem?_eq_some_iff.1 hk).1 hk).tail hleads

/-! ### References of translated nodes -/

section Translated

variable {store entries : RegexStore} {keys ids : List NodeId} {id : NodeId}
  {compiled : Artifact.NodeKind Nat}

theorem Artifact.RegexRef.StandsFor.exists_entry {ref : Artifact.RegexRef Nat} {r : RegexId}
    (h : ref.StandsFor store entries r) : ∃ i ∈ ref.entries, store.SameTree r entries i := by
  cases h with
  | @entry i hsame => exact ⟨i, List.mem_singleton_self i, hsame⟩

theorem Artifact.RegexRef.StandsFor.lt_size {ref : Artifact.RegexRef Nat} {r : RegexId}
    (h : ref.StandsFor store entries r) : ∀ i ∈ ref.entries, i < entries.size := by
  intro i hi
  cases h with
  | entry hsame =>
    obtain ⟨tree, -, htree⟩ := hsame
    rw [List.mem_singleton.1 hi]
    exact htree.lt_size

/-- A stop that has a regex refers to its entry. -/
theorem Stop.Translates.exists_entry {stop : Stop} {ref : Artifact.RegexRef Nat}
    (h : stop.Translates store entries ref) {r : RegexId} (hr : stop.regex? = some r) :
    ∃ i ∈ ref.entries, store.SameTree r entries i := by
  cases h with
  | unset => cases hr
  | set hstop hregex =>
    obtain rfl := Option.some.inj (hstop.symm.trans hr)
    exact hregex.exists_entry

theorem Stop.Translates.lt_size {stop : Stop} {ref : Artifact.RegexRef Nat}
    (h : stop.Translates store entries ref) : ∀ i ∈ ref.entries, i < entries.size := by
  cases h with
  | unset => exact fun i hi => absurd hi List.not_mem_nil
  | set hstop hregex => exact hregex.lt_size

namespace NodeKind.Translates

/-- The regexes of a node have entries that its translation refers to. -/
theorem exists_entry {kind : NodeKind}
    (h : kind.Translates store entries keys ids id compiled) :
    ∀ r ∈ kind.inlineRegexes, ∃ i ∈ compiled.entries, store.SameTree r entries i := by
  intro r hr
  cases h with
  | generation hbody hstop =>
    rcases List.mem_cons.1 hr with rfl | hr
    · obtain ⟨i, hi, hsame⟩ := hbody.exists_entry
      exact ⟨i, List.mem_append_left _ hi, hsame⟩
    · obtain ⟨i, hi, hsame⟩ := hstop.exists_entry (Option.mem_toList.1 hr)
      exact ⟨i, List.mem_append_right _ hi, hsame⟩
  | lexeme hregex =>
    obtain rfl := List.mem_singleton.1 hr
    exact hregex.exists_entry
  | literal | nested | choice | sequence => exact absurd hr List.not_mem_nil

theorem entry_lt {kind : NodeKind} (h : kind.Translates store entries keys ids id compiled) :
    ∀ i ∈ compiled.entries, i < entries.size := by
  intro i hi
  cases h with
  | generation hbody hstop =>
    rcases List.mem_append.1 hi with hi | hi
    · exact hbody.lt_size i hi
    · exact hstop.lt_size i hi
  | lexeme hregex => exact hregex.lt_size i hi
  | literal | nested | choice | sequence => exact absurd hi List.not_mem_nil

/-- A translation refers to grammars at the positions of nested grammars. -/
theorem getElem?_of_mem_grammars {kind : NodeKind} {j : Nat}
    (h : kind.Translates store entries keys ids id compiled) (hj : j ∈ compiled.grammars) :
    keys[j]? = some id := by
  cases h with
  | nested hi =>
    rw [List.mem_singleton.1 hj]
    exact hi
  | literal | generation | lexeme | choice | sequence => exact absurd hj List.not_mem_nil

theorem exists_mem_grammars {start : Option NodeId} {skip : Option RegexId}
    (h : (NodeKind.nested start skip).Translates store entries keys ids id compiled) :
    ∃ j ∈ compiled.grammars, keys[j]? = some id := by
  cases h with
  | @nested _ _ i hi => exact ⟨i, List.mem_singleton_self i, hi⟩

/-- A translation refers to nodes that are directly below the node, in the same grammar. -/
theorem exists_of_mem_nodes {n : Node} {j : Nat}
    (h : n.kind.Translates store entries keys ids id compiled) (hj : j ∈ compiled.nodes) :
    ∃ x ∈ n.inlineChildren, ids[j]? = some x := by
  unfold Node.inlineChildren
  generalize n.kind = kind at h
  cases h with
  | choice hpositions | sequence hpositions =>
    obtain ⟨k, hk⟩ := List.mem_iff_getElem?.1 hj
    obtain ⟨x, hx, hxj⟩ := exists_left_of_forall₂ hpositions hk
    exact ⟨x, List.mem_of_getElem? hx, hxj⟩
  | literal | generation | lexeme | nested => exact absurd hj List.not_mem_nil

/-- The same for every node directly below. -/
theorem exists_mem_nodes {n : Node} {x : NodeId}
    (h : n.kind.Translates store entries keys ids id compiled) (hx : x ∈ n.inlineChildren) :
    ∃ j ∈ compiled.nodes, ids[j]? = some x := by
  unfold Node.inlineChildren at hx
  generalize n.kind = kind at h hx
  cases h with
  | choice hpositions | sequence hpositions =>
    obtain ⟨k, hk⟩ := List.mem_iff_getElem?.1 hx
    obtain ⟨j, hj, hxj⟩ := exists_right_of_forall₂ hpositions hk
    exact ⟨j, List.mem_of_getElem? hj, hxj⟩
  | literal | generation | lexeme | nested => exact absurd hx List.not_mem_nil

end NodeKind.Translates

end Translated

namespace Arena

variable {a : Arena} {keys : List NodeId} {key root : NodeId} {g : Artifact.Grammar Nat}
  {start : NodeId} {ids : List NodeId} {nodes : List (Artifact.Node Nat)} {entries : RegexStore}

/-! ### References within a grammar -/

/-- What a compiled node leads to stands for a node that is directly below in the arena. -/
theorem edge_of_leads (hnodes : List.Forall₂ (a.TranslatesNode entries keys ids) ids nodes)
    {g : Artifact.Grammar Nat} (hg : g.nodes = nodes) {i j : Nat} (h : g.Leads i j) :
    ∃ x y, ids[i]? = some x ∧ ids[j]? = some y ∧ (a.graph Node.inlineChildren).Edge x y := by
  obtain ⟨compiled, hi, hj⟩ := h
  rw [hg] at hi
  obtain ⟨x, hx, htranslates⟩ := exists_left_of_forall₂ hnodes hi
  cases htranslates with
  | @intro n kind hid hkind =>
    obtain ⟨y, hy, hyj⟩ := hkind.exists_of_mem_nodes hj
    exact ⟨x, y, hx, hyj, edge_graph_iff.2 ⟨n, hid, hy⟩⟩

/-- What is directly below in the arena a compiled node leads to. -/
theorem exists_leads_of_edge (hnodes : List.Forall₂ (a.TranslatesNode entries keys ids) ids nodes)
    {g : Artifact.Grammar Nat} (hg : g.nodes = nodes) {x y : NodeId} {i : Nat}
    (hi : ids[i]? = some x) (hedge : (a.graph Node.inlineChildren).Edge x y) :
    ∃ j, ids[j]? = some y ∧ g.Leads i j := by
  obtain ⟨n, hn, hy⟩ := edge_graph_iff.1 hedge
  obtain ⟨compiled, hcompiled, htranslates⟩ := exists_right_of_forall₂ hnodes hi
  cases htranslates with
  | @intro n' kind hid hkind =>
    obtain rfl := Option.some.inj (hn.symm.trans hid)
    obtain ⟨j, hj, hyj⟩ := hkind.exists_mem_nodes hy
    exact ⟨j, hyj, _, hg ▸ hcompiled, hj⟩

/-- In a well-formed arena no chain of references between compiled nodes is infinite: they stand for
nodes with ever smaller ids. -/
theorem WellFormed.wellFounded_leads (ha : a.WellFormed)
    (hnodes : List.Forall₂ (a.TranslatesNode entries keys ids) ids nodes)
    (hg : g.nodes = nodes) : WellFounded fun j i => g.Leads i j := by
  refine Subrelation.wf ?_ (measure fun i => ids.getD i 0).wf
  intro j i h
  obtain ⟨x, y, hx, hy, hedge⟩ := edge_of_leads hnodes hg h
  obtain ⟨n, hn, hmem⟩ := edge_graph_iff.1 hedge
  have hlt : y < x := (ha.node x n hn).inlineChildren_lt y hmem
  show ids.getD j 0 < ids.getD i 0
  rw [List.getD_eq_getElem?_getD, List.getD_eq_getElem?_getD, hx, hy]
  exact hlt

/-! ### References to regexes -/

/-- The regexes of a grammar have entries that its translation refers to. -/
theorem TranslatesGrammar.exists_entry (h : a.TranslatesGrammar keys key g) :
    ∀ r ∈ a.grammarRegexes key,
      ∃ ref ∈ g.entries, a.regexes.SameTree r g.regexes.toArray ref := by
  intro r hr
  cases h with
  | @intro start skip ids nodes ref entries hkey hnodup hhead hids hnodes hskip =>
    rcases List.mem_append.1 hr with hr | hr
    · obtain ⟨x, hx, hr⟩ := List.mem_flatMap.1 hr
      have hmem := (hids x).2 ((mem_grammarNodes (start_of_grammarAt hkey) x).1 hx)
      -- the regex of a node is an entry of the node that was written for it
      obtain ⟨i, hi⟩ := List.mem_iff_getElem?.1 hmem
      obtain ⟨compiled, hcompiled, htranslates⟩ := exists_right_of_forall₂ hnodes hi
      cases htranslates with
      | @intro n kind hid hkind =>
        rw [inlineRegexes, kind?, hid] at hr
        obtain ⟨j, hj, hsame⟩ := hkind.exists_entry r hr
        have hnode := List.mem_of_getElem? hcompiled
        exact ⟨j, List.mem_append_left _ (List.mem_flatMap.2 ⟨⟨kind, _⟩, hnode, hj⟩), hsame⟩
    · rw [skip_of_grammarAt hkey] at hr
      cases hskip with
      | none => exact absurd hr List.not_mem_nil
      | some href =>
        obtain rfl := List.mem_singleton.1 hr
        obtain ⟨j, hj, hsame⟩ := href.exists_entry
        exact ⟨j, List.mem_append_right _ (List.mem_flatMap.2 ⟨_, List.mem_singleton_self _, hj⟩),
          hsame⟩

theorem TranslatesGrammar.entry_lt (h : a.TranslatesGrammar keys key g) :
    ∀ i ∈ g.entries, i < g.regexes.length := by
  intro i hi
  cases h with
  | @intro start skip ids nodes ref entries hkey hnodup hhead hids hnodes hskip =>
    rw [← List.size_toArray]
    rcases List.mem_append.1 hi with hi | hi
    · obtain ⟨compiled, hcompiled, hi⟩ := List.mem_flatMap.1 hi
      obtain ⟨k, hk⟩ := List.mem_iff_getElem?.1 hcompiled
      obtain ⟨x, -, htranslates⟩ := exists_left_of_forall₂ hnodes hk
      cases htranslates with
      | intro hid hkind => exact hkind.entry_lt i hi
    · cases hskip with
      | none => exact absurd hi List.not_mem_nil
      | some href =>
        obtain ⟨_, href', hi'⟩ := List.mem_flatMap.1 hi
        obtain rfl := List.mem_singleton.1 href'
        exact href.lt_size i hi'

/-- The entries of a grammar that was written are those of a table to which its regexes were
added. -/
theorem WritesGrammar.entries_eq (h : a.WritesGrammar keys key g) :
    g.regexes.toArray =
      ((∅ : RegexTable).addAll a.regexes (a.grammarRegexes key)).2.entries := by
  cases h with
  | intro hstart hnodes hskip hentries => exact hentries

/-- A compiled grammar is well-formed. -/
theorem WellFormed.wellFormed_grammar (ha : a.WellFormed) (h : a.WritesGrammar keys key g) :
    g.WellFormed := by
  have hsorted := RegexTable.sorted_addAll_empty a.regexes (a.grammarRegexes key)
  have htable := h.entries_eq
  have hentry := h.translatesGrammar.exists_entry
  have hlt := h.translatesGrammar.entry_lt
  replace h := h.translatesGrammar
  generalize ((∅ : RegexTable).addAll a.regexes (a.grammarRegexes key)).2 = table at *
  -- two places with one entry would be two places of one tree
  have hdistinct : g.regexes.Nodup := by
    rw [List.nodup_iff_getElem?_ne_getElem?]
    intro i j hij hj heq
    have hget : g.regexes[j]? = some g.regexes[j] := List.getElem?_eq_getElem hj
    rw [hget, ← List.getElem?_toArray, htable] at heq
    rw [← List.getElem?_toArray, htable] at hget
    exact Nat.ne_of_lt hij (hsorted.position_unique i j _ heq hget)
  cases h with
  | @intro start skip ids nodes ref entries hkey hnodup hhead hids hnodes hskip =>
    refine
      { nodes_ne_nil := ?_
        node_lt := fun i j hij => ?_
        wellFounded := ha.wellFounded_leads hnodes rfl
        node_reached := fun i hi => ?_
        entry_lt := hlt
        part_lt := fun i r hr => hsorted.parts_lt i r ?_
        nodup := hdistinct
        entry_reached := fun i hi => ?_ }
    · -- the start is listed
      rintro rfl
      rw [List.forall₂_nil_right_iff.1 hnodes] at hhead
      cases hhead
    · obtain ⟨x, y, -, hy, -⟩ := edge_of_leads hnodes rfl hij
      exact hnodes.length_eq ▸ (List.getElem?_eq_some_iff.1 hy).1
    · exact Digraph.positions_lead hnodup hhead hids
        (fun x y i hx hedge => exists_leads_of_edge hnodes rfl hx hedge) (hnodes.length_eq ▸ hi)
    · rw [← htable, List.getElem?_toArray]
      exact hr
    · rw [htable] at hentry ⊢
      exact hsorted.exists_reaches hentry (by rw [← htable, List.size_toArray]; exact hi)

/-! ### References between grammars -/

/-- A compiled grammar leads to the grammars that its nodes refer to. -/
theorem TranslatesGrammar.getElem?_of_mem_grammars (h : a.TranslatesGrammar keys key g)
    {n : Artifact.Node Nat} (hn : n ∈ g.nodes) {j : Nat} (hj : j ∈ n.kind.grammars) :
    ∃ k, keys[j]? = some k := by
  cases h with
  | intro hkey hnodup hhead hids hnodes hskip =>
    obtain ⟨i, hi⟩ := List.mem_iff_getElem?.1 hn
    obtain ⟨x, -, htranslates⟩ := exists_left_of_forall₂ hnodes hi
    cases htranslates with
    | intro hid hkind => exact ⟨x, hkind.getElem?_of_mem_grammars hj⟩

theorem TranslatesGrammar.exists_mem_grammars (h : a.TranslatesGrammar keys key g) {k : NodeId}
    (hk : k ∈ a.grammarNodes key) (hnested : a.isNested k = true) :
    ∃ n ∈ g.nodes, ∃ j ∈ n.kind.grammars, keys[j]? = some k := by
  obtain ⟨start', skip', hkind'⟩ := isNested_iff.1 hnested
  cases h with
  | intro hkey hnodup hhead hids hnodes hskip =>
    have hmem := (hids k).2 ((mem_grammarNodes (start_of_grammarAt hkey) k).1 hk)
    obtain ⟨i, hi⟩ := List.mem_iff_getElem?.1 hmem
    obtain ⟨compiled, hcompiled, htranslates⟩ := exists_right_of_forall₂ hnodes hi
    cases htranslates with
    | @intro n kind hid hkind =>
      rw [kind_of_kind? hid hkind'] at hkind
      obtain ⟨j, hj, hkey⟩ := hkind.exists_mem_grammars
      exact ⟨_, List.mem_of_getElem? hcompiled, j, hj, hkey⟩

/-- What can be compiled from a well-formed arena is well-formed. -/
theorem WellFormed.wellFormed_of_compile (ha : a.WellFormed) {options : CompileOptions}
    {t : Artifact Nat} (h : a.compile options root = .ok t) : t.WellFormed := by
  obtain ⟨hgrammars, -⟩ := forall₂_of_compile h
  have hlength := hgrammars.length_eq
  have hhead := head?_grammarOrder (a := a) root
  refine
    { grammars_ne_nil := ?_
      grammar_lt := fun i j hij => ?_
      grammar_reached := fun i hi => ?_
      grammar := fun g hg => ?_ }
  · -- the root has a grammar of its own
    intro hnil
    rw [hnil] at hgrammars
    rw [List.forall₂_nil_right_iff.1 hgrammars] at hhead
    cases hhead
  · obtain ⟨g, hg, n, hn, hj⟩ := hij
    obtain ⟨key, -, hwrites⟩ := exists_left_of_forall₂ hgrammars hg
    obtain ⟨k, hk⟩ := hwrites.translatesGrammar.getElem?_of_mem_grammars hn hj
    exact hlength ▸ (List.getElem?_eq_some_iff.1 hk).1
  · -- a grammar is numbered when it is reached, and the reference to it is written
    refine Digraph.positions_lead (nodup_grammarOrder root) hhead
      (fun x => mem_grammarOrder_iff_reaches) (fun key k m hm hedge => ?_) (hlength ▸ hi)
    obtain ⟨g, hg, hwrites⟩ := exists_right_of_forall₂ hgrammars hm
    obtain ⟨hk, hnested⟩ := edge_grammarGraph_iff.1 hedge
    obtain ⟨n, hn, j, hj, hkj⟩ := hwrites.translatesGrammar.exists_mem_grammars hk hnested
    exact ⟨j, hkj, g, hg, n, hn, hj⟩
  · obtain ⟨i, hi⟩ := List.mem_iff_getElem?.1 hg
    obtain ⟨key, -, hwrites⟩ := exists_left_of_forall₂ hgrammars hi
    exact ha.wellFormed_grammar hwrites

/-- **What is compiled is well-formed**: every reference can be followed, and everything is reached
by following references. -/
theorem compile_wellFormed (calls : List Call) (options : CompileOptions) (root : NodeId)
    (t : Artifact Nat) (h : (ofCalls calls).compile options root = .ok t) : t.WellFormed :=
  (consistent_ofCalls calls).toWellFormed.wellFormed_of_compile h

/-- Words between which blanks are skipped, referred to twice by a choice that is met twice. -/
theorem compile_wellFormed_words :
    (⟨[⟨[⟨.sequence [1, 2, 1], {}⟩, ⟨.choice [2, 3, 2], {}⟩, ⟨.grammar 1 none none, {}⟩,
        ⟨.literal "x", {}⟩], false, none, some false, []⟩,
      ⟨[⟨.lexeme (.entry 0) none none, {}⟩], false, some (.entry 1), some false,
        [.pattern "[a-z]+", .pattern " +"]⟩], none, false⟩ : Artifact Nat).WellFormed := by
  have hcompile : (ofCalls [.pattern " +", .lexeme (.source "[a-z]+") none none,
        .nested (.node 0) (some 0), .choice [.node 1, .text "x", .node 1],
        .sequence [.node 3, .node 1, .node 3]]).compile {} 4 =
      .ok ⟨[⟨[⟨.sequence [1, 2, 1], {}⟩, ⟨.choice [2, 3, 2], {}⟩, ⟨.grammar 1 none none, {}⟩,
          ⟨.literal "x", {}⟩], false, none, some false, []⟩,
        ⟨[⟨.lexeme (.entry 0) none none, {}⟩], false, some (.entry 1), some false,
          [.pattern "[a-z]+", .pattern " +"]⟩], none, false⟩ := by
    rw [compile_eq_compileInOrder]
    cbv
  exact compile_wellFormed _ _ _ _ hcompile

end Arena

end GuidedGrammar
