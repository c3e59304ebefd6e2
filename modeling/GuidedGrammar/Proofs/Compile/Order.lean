import GuidedGrammar.Proofs.Compile.Layout
import GuidedGrammar.Proofs.Grammar.Growth
import GuidedGrammar.Proofs.Graph.Order

/-!
# The order of nodes and grammars

The order in which nodes and grammars are laid out has a description that knows nothing of the
search that finds it. The nodes of a grammar are in the order of their first visit by the plain walk
from its start (`Arena.VisitsInOrder`), and a grammar refers to others in the order in which its
nodes do (`Arena.RefersInOrder`). The grammars of a root are in the order in which they are
encountered while grammars are processed one after the other (`Encounters`). That much is known even
of a beginning of the list, after which there may be a grammar without a start
(`Arena.Ordered.exists_encounters`).
-/

namespace GuidedGrammar.Arena

/-- **The nodes of a grammar in the order of their first visit** by the plain walk from its
start. -/
inductive VisitsInOrder (a : Arena) (key : NodeId) : List NodeId → Prop
  | intro {start : NodeId} {skip : Option RegexId} {walk : List NodeId}
    (hkey : a.GrammarAt key start skip)
    (hwalk : (a.graph Node.inlineChildren).Preorder [start] walk) :
    VisitsInOrder a key walk.eraseDups

/-- **The nested grammars that a grammar refers to**, in the order in which its nodes do. -/
inductive RefersInOrder (a : Arena) (key : NodeId) : List NodeId → Prop
  | intro {ids : List NodeId} (h : a.VisitsInOrder key ids) :
    RefersInOrder a key (ids.filter a.isNested)

variable {a : Arena} {key root start : NodeId} {ids ids' : List NodeId}

/-! ### There is one order -/

theorem VisitsInOrder.nodup (h : a.VisitsInOrder key ids) : ids.Nodup := by
  cases h with
  | intro => exact nodup_eraseDups _

theorem VisitsInOrder.unique (h : a.VisitsInOrder key ids) (h' : a.VisitsInOrder key ids') :
    ids = ids' := by
  cases h with
  | intro hkey hwalk =>
    cases h' with
    | intro hkey' hwalk' =>
      have hstart := (start_of_grammarAt hkey).symm.trans (start_of_grammarAt hkey')
      obtain rfl := Option.some.inj hstart
      rw [hwalk.unique hwalk']

theorem VisitsInOrder.exists_start (h : a.VisitsInOrder key ids) :
    ∃ start, a.grammarStart? key = some start := by
  cases h with
  | intro hkey => exact ⟨_, start_of_grammarAt hkey⟩

theorem RefersInOrder.unique (h : a.RefersInOrder key ids) (h' : a.RefersInOrder key ids') :
    ids = ids' := by
  cases h with
  | intro hids =>
    cases h' with
    | intro hids' => rw [hids.unique hids']

/-- A grammar that refers to others has a start. -/
theorem RefersInOrder.exists_start (h : a.RefersInOrder key ids) :
    ∃ start, a.grammarStart? key = some start := by
  cases h with
  | intro hids => exact hids.exists_start

/-! ### The layout is in order -/

namespace Ordered

/-- Edges within a grammar lead down. -/
theorem lt_of_edge (ha : a.Ordered) (x y : NodeId)
    (h : (a.graph Node.inlineChildren).Edge x y) : y < x := by
  obtain ⟨n, hn, hy⟩ := edge_graph_iff.1 h
  exact ha x n hn y hy

/-- The nodes of a grammar are listed in the order of their first visit. -/
theorem visitsInOrder (ha : a.Ordered) (hstart : a.grammarStart? key = some start) :
    a.VisitsInOrder key (a.grammarNodes key) := by
  have hbelow : ∀ v ∈ [start], v < start + 1 := fun v hv =>
    Nat.lt_succ_of_le (Nat.le_of_eq (List.mem_singleton.1 hv))
  obtain ⟨walk, hwalk⟩ := Digraph.exists_preorder ha.lt_of_edge hbelow
  have hnodes : a.grammarNodes key = walk.eraseDups := by
    rw [grammarNodes, hstart, Option.elim_some, Digraph.depthFirst_of_preorder hwalk]
  rw [hnodes]
  exact .intro (grammarAt_of_start hstart) hwalk

theorem refersInOrder (ha : a.Ordered) (hstart : a.grammarStart? key = some start) :
    a.RefersInOrder key (a.grammarGraph.successors key) := by
  rw [successors_grammarGraph]
  exact .intro (ha.visitsInOrder hstart)

/-- **The grammars up to one that may have no start** have been encountered when they have been
processed, and that one is encountered next. -/
theorem exists_encounters (ha : a.Ordered) {before after : List NodeId}
    (horder : a.grammarOrder root = before ++ after)
    (hbefore : ∀ k ∈ before, ∃ start, a.grammarStart? k = some start) :
    ∃ more, Encounters a.RefersInOrder root before.length (before ++ more) ∧
      more.head? = after.head? :=
  Digraph.exists_encounters_breadthFirst horder fun k hk =>
    let ⟨_, hstart⟩ := hbefore k hk
    ha.refersInOrder hstart

/-- The grammars of a root are listed in the order in which they are encountered, if all of them
have a start. -/
theorem encounters (ha : a.Ordered)
    (hstarts : ∀ k ∈ a.grammarOrder root, ∃ start, a.grammarStart? k = some start) :
    Encounters a.RefersInOrder root (a.grammarOrder root).length (a.grammarOrder root) :=
  Digraph.encounters_breadthFirst fun k hk =>
    let ⟨_, hstart⟩ := hstarts k hk
    ha.refersInOrder hstart

end Ordered

/-! ### What is encountered is reached -/

theorem reaches_of_refersInOrder {ys : List NodeId} (h : a.RefersInOrder key ys) {y : NodeId}
    (hy : y ∈ ys) : (a.graph Node.children).Reaches key y := by
  cases h with
  | intro hids =>
    cases hids with
    | intro hkey hwalk =>
      have hstart := start_of_grammarAt hkey
      have hmem : y ∈ a.grammarNodes key := by
        rw [grammarNodes, hstart, Option.elim_some, Digraph.depthFirst_of_preorder hwalk]
        exact (List.mem_filter.1 hy).1
      exact reaches_of_mem_grammarNodes hmem

/-- Whatever is encountered from a root the root reaches. -/
theorem reaches_of_encounters {i : Nat} {found : List NodeId}
    (h : Encounters a.RefersInOrder root i found) :
    ∀ x ∈ found, (a.graph Node.children).Reaches root x := by
  induction h with
  | root =>
    intro x hx
    obtain rfl := List.mem_singleton.1 hx
    exact .refl x
  | process _ hx hys ih =>
    intro y hy
    rcases List.mem_append.1 (List.mem_eraseDups.1 hy) with hy | hy
    · exact ih y hy
    · exact (ih _ (List.mem_of_getElem? hx)).trans (reaches_of_refersInOrder hys hy)

end GuidedGrammar.Arena
