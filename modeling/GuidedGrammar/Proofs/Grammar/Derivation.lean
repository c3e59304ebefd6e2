import GuidedGrammar.Grammar.Arena
import GuidedGrammar.Proofs.Data.List
import GuidedGrammar.Proofs.Graph.Reachability

/-!
# Derivations

A node derives lists of terminals: a terminal derives itself, a choice what one of its
alternatives derives, and a sequence what its elements derive, one after the other. A reference to
another grammar is a terminal here; its grammar is not entered.

Empty literals are terminals as well, so they appear in derivations; `AllEmpty` says that a list
holds nothing else. What can come last in a derivation of a node, and what can come first in a
derivation of a sequence, is meant up to them (`CanEnd`, `CanStart`).
-/

namespace GuidedGrammar

/-- What is below a node in its grammar is below it. -/
theorem Node.mem_children {n : Node} {x : NodeId} (hx : x ∈ n.inlineChildren) :
    x ∈ n.children := by
  unfold inlineChildren at hx
  unfold children
  split at hx <;> rename_i hkind <;> rw [hkind]
  · exact hx
  · exact hx
  all_goals exact absurd hx List.not_mem_nil

/-- Everything below a node is in its grammar, unless the node is a nested grammar. -/
theorem Node.mem_inlineChildren {n : Node} (hn : n.isNested = false) {x : NodeId}
    (hx : x ∈ n.children) : x ∈ n.inlineChildren := by
  unfold children at hx
  unfold inlineChildren
  split at hx <;> rename_i hkind <;> rw [hkind]
  · exact hx
  · exact hx
  · rw [isNested, hkind] at hn
    cases hn
  all_goals exact absurd hx List.not_mem_nil

namespace Arena

variable {a : Arena}

/-- The kind of the node of an id. -/
def kind? (a : Arena) (id : NodeId) : Option NodeKind :=
  (a.node? id).map Node.kind

mutual

/-- What a node derives. -/
inductive Derives (a : Arena) : NodeId → List NodeId → Prop
  | terminal {id : NodeId} (hid : a.isTerminal id = true) : Derives a id [id]
  | choice {id x : NodeId} {alternatives ts : List NodeId}
    (hid : a.kind? id = some (.choice alternatives)) (hx : x ∈ alternatives)
    (hts : Derives a x ts) : Derives a id ts
  | sequence {id : NodeId} {elements ts : List NodeId}
    (hid : a.kind? id = some (.sequence elements)) (hts : DerivesAll a elements ts) :
    Derives a id ts

/-- What nodes derive one after the other. -/
inductive DerivesAll (a : Arena) : List NodeId → List NodeId → Prop
  | nil : DerivesAll a [] []
  | cons {x : NodeId} {rest ts us : List NodeId} (hx : Derives a x ts)
    (hrest : DerivesAll a rest us) : DerivesAll a (x :: rest) (ts ++ us)

end

/-- Whether all ids are those of empty literals. -/
def AllEmpty (a : Arena) (ids : List NodeId) : Prop :=
  ∀ id ∈ ids, a.literal? id = some ""

/-- **A terminal that a derivation of a node can end with**, up to empty literals. -/
def CanEnd (a : Arena) (x t : NodeId) : Prop :=
  ∃ ts es, a.Derives x (ts ++ t :: es) ∧ a.AllEmpty es

/-- **A terminal, not an empty literal, that a derivation of a sequence can start with**, up to
empty literals. -/
def CanStart (a : Arena) (xs : List NodeId) (t : NodeId) : Prop :=
  ∃ es ts, a.DerivesAll xs (es ++ t :: ts) ∧ a.AllEmpty es ∧ a.literal? t ≠ some ""

/-! ### Looking up -/

theorem node?_eq_some_lt {id : NodeId} {n : Node} (h : a.node? id = some n) :
    id < a.nodes.size :=
  (Array.getElem?_eq_some_iff.1 h).1

theorem exists_node?_of_lt {id : NodeId} (h : id < a.nodes.size) : ∃ n, a.node? id = some n :=
  ⟨a.nodes[id], Array.getElem?_eq_getElem h⟩

theorem kind?_eq_some {id : NodeId} {kind : NodeKind} :
    a.kind? id = some kind ↔ ∃ n, a.node? id = some n ∧ n.kind = kind :=
  Option.map_eq_some_iff

theorem isTerminal_iff {id : NodeId} :
    a.isTerminal id = true ↔ ∃ n, a.node? id = some n ∧ n.isTerminal = true :=
  Option.any_eq_true _ _

theorem literal?_eq_some {id : NodeId} {text : String} :
    a.literal? id = some text ↔ a.kind? id = some (.literal text) := by
  rw [literal?, Option.bind_eq_some_iff, kind?_eq_some]
  refine exists_congr fun n => and_congr_right fun _ => ?_
  unfold Node.literal?
  split
  · rename_i text' hkind
    rw [hkind, Option.some.injEq, NodeKind.literal.injEq]
  · rename_i hkind
    exact iff_of_false (fun h => nomatch h) (fun h => hkind text h)

theorem generation?_eq_some {id : NodeId} {g : Generation} :
    a.generation? id = some g ↔ a.kind? id = some (.generation g) := by
  rw [generation?, Option.bind_eq_some_iff, kind?_eq_some]
  refine exists_congr fun n => and_congr_right fun _ => ?_
  unfold Node.generation?
  split
  · rename_i g' hkind
    rw [hkind, Option.some.injEq, NodeKind.generation.injEq]
  · rename_i hkind
    exact iff_of_false (fun h => nomatch h) (fun h => hkind g h)

theorem lt_size_of_kind? {id : NodeId} {kind : NodeKind} (h : a.kind? id = some kind) :
    id < a.nodes.size := by
  obtain ⟨n, hn, -⟩ := kind?_eq_some.1 h
  exact node?_eq_some_lt hn

theorem lt_size_of_generation? {id : NodeId} {g : Generation} (h : a.generation? id = some g) :
    id < a.nodes.size :=
  lt_size_of_kind? (generation?_eq_some.1 h)

theorem lt_size_of_isTerminal {id : NodeId} (h : a.isTerminal id = true) : id < a.nodes.size := by
  obtain ⟨n, hn, -⟩ := isTerminal_iff.1 h
  exact node?_eq_some_lt hn

theorem isNested_iff {id : NodeId} :
    a.isNested id = true ↔ ∃ start skip, a.kind? id = some (.nested start skip) := by
  rw [isNested, Option.any_eq_true]
  constructor
  · rintro ⟨n, hn, h⟩
    unfold Node.isNested at h
    split at h
    · rename_i start skip hkind
      exact ⟨start, skip, kind?_eq_some.2 ⟨n, hn, hkind⟩⟩
    · cases h
  · rintro ⟨start, skip, h⟩
    obtain ⟨n, hn, hkind⟩ := kind?_eq_some.1 h
    exact ⟨n, hn, by rw [Node.isNested, hkind]⟩

theorem isNested_eq {id : NodeId} {n : Node} (hn : a.node? id = some n) :
    a.isNested id = n.isNested := by
  rw [isNested, hn, Option.any_some]

theorem successors_graph {below : Node → List NodeId} {x : NodeId} {n : Node}
    (hn : a.node? x = some n) : (a.graph below).successors x = below n := by
  show (if x < a.nodes.size then (a.node? x).elim [] below else []) = _
  rw [if_pos (node?_eq_some_lt hn), hn, Option.elim_some]

/-- The edges of the graph in which a node leads to those for which `below` holds of it. -/
theorem edge_graph_iff {below : Node → List NodeId} {x y : NodeId} :
    (a.graph below).Edge x y ↔ ∃ n, a.node? x = some n ∧ y ∈ below n := by
  rw [Digraph.Edge, Digraph.successors]
  show y ∈ (if x < a.nodes.size then (a.node? x).elim [] below else []) ↔ _
  constructor
  · intro h
    split at h
    · rename_i hx
      obtain ⟨n, hn⟩ := exists_node?_of_lt hx
      rw [hn] at h
      exact ⟨n, hn, h⟩
    · cases h
  · rintro ⟨n, hn, hy⟩
    rw [if_pos (node?_eq_some_lt hn), hn]
    exact hy

/-! ### Derivations of sequences -/

theorem AllEmpty.append {es fs : List NodeId} (hes : a.AllEmpty es) (hfs : a.AllEmpty fs) :
    a.AllEmpty (es ++ fs) := by
  intro id hid
  rcases List.mem_append.1 hid with h | h
  · exact hes id h
  · exact hfs id h

theorem DerivesAll.append {xs ys ts us : List NodeId} (hxs : a.DerivesAll xs ts)
    (hys : a.DerivesAll ys us) : a.DerivesAll (xs ++ ys) (ts ++ us) := by
  induction xs generalizing ts with
  | nil =>
    cases hxs
    exact hys
  | cons x xs ih =>
    cases hxs with
    | cons hx hrest =>
      rw [List.append_assoc]
      exact .cons hx (ih hrest)

/-- A derivation of two lists of nodes is one of the first and then one of the second. -/
theorem DerivesAll.split {xs ys ts : List NodeId} (h : a.DerivesAll (xs ++ ys) ts) :
    ∃ us vs, ts = us ++ vs ∧ a.DerivesAll xs us ∧ a.DerivesAll ys vs := by
  induction xs generalizing ts with
  | nil => exact ⟨[], ts, rfl, .nil, h⟩
  | cons x xs ih =>
    cases h with
    | cons hx hrest =>
      obtain ⟨us, vs, rfl, hus, hvs⟩ := ih hrest
      exact ⟨_, vs, (List.append_assoc ..).symm, .cons hx hus, hvs⟩

theorem DerivesAll.singleton {x : NodeId} {ts : List NodeId} :
    a.DerivesAll [x] ts ↔ a.Derives x ts := by
  constructor
  · intro h
    cases h with
    | cons hx hrest =>
      cases hrest
      rwa [List.append_nil]
  · intro h
    rw [← List.append_nil ts]
    exact .cons h .nil

/-- A node that derives anything is there. -/
theorem Derives.lt_size {id : NodeId} {ts : List NodeId} (h : a.Derives id ts) :
    id < a.nodes.size := by
  cases h with
  | terminal hid => exact lt_size_of_isTerminal hid
  | choice hid => exact lt_size_of_kind? hid
  | sequence hid => exact lt_size_of_kind? hid

mutual

/-- Derivations consist of terminals. -/
theorem Derives.isTerminal {id t : NodeId} {ts : List NodeId} (h : a.Derives id ts)
    (ht : t ∈ ts) : a.isTerminal t = true := by
  match h with
  | .terminal hid => exact List.mem_singleton.1 ht ▸ hid
  | .choice _ _ hts => exact hts.isTerminal ht
  | .sequence _ hts => exact hts.isTerminal ht

theorem DerivesAll.isTerminal {t : NodeId} {xs ts : List NodeId} (h : a.DerivesAll xs ts)
    (ht : t ∈ ts) : a.isTerminal t = true := by
  match h with
  | .nil => exact absurd ht List.not_mem_nil
  | .cons hx hrest =>
    rcases List.mem_append.1 ht with h | h
    · exact hx.isTerminal h
    · exact hrest.isTerminal h

end

end Arena

end GuidedGrammar
