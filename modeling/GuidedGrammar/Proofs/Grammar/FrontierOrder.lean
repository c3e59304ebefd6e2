import GuidedGrammar.Proofs.Grammar.Construction
import GuidedGrammar.Proofs.Grammar.Outline
import GuidedGrammar.Proofs.Graph.Order

/-!
# Frontiers in order

The terminals that can come first in a sequence have a recursive description (`Arena.Opens`): a
terminal opens itself, a choice is opened by what opens its alternatives, in their order, and a
sequence by what opens its elements, up to and including the first one that cannot match the empty
text. The recursion goes down again to whatever it meets again.

The first frontier lists the first occurrences in what the recursion lists, in the same order, and
the last frontier of an arena is the first frontier of its mirror image
(`Arena.frontiers_follow_recursion`). The search that finds the frontiers keeps what it has met, so
it meets every node once; that nothing is lost or moved by this is the law of depth-first search
(`Digraph.depthFirst_of_preorder`).
-/

namespace GuidedGrammar

namespace Arena

variable {a : Arena}

/-! ### The recursion -/

mutual

/-- **The terminals that open a node**, as the plain recursion lists them. -/
inductive Opens (a : Arena) : NodeId → List NodeId → Prop
  | terminal {id : NodeId} (hid : a.isTerminal id = true) : Opens a id [id]
  | choice {id : NodeId} {alternatives ts : List NodeId}
    (hid : a.kind? id = some (.choice alternatives)) (hts : OpensEach a alternatives ts) :
    Opens a id ts
  | sequence {id : NodeId} {elements ts : List NodeId}
    (hid : a.kind? id = some (.sequence elements)) (hts : OpensSequence a elements ts) :
    Opens a id ts

/-- What opens nodes, each of them in turn. -/
inductive OpensEach (a : Arena) : List NodeId → List NodeId → Prop
  | nil : OpensEach a [] []
  | cons {x : NodeId} {rest ts us : List NodeId} (hx : Opens a x ts)
    (hrest : OpensEach a rest us) : OpensEach a (x :: rest) (ts ++ us)

/-- What opens a sequence of nodes: nothing that comes after one that cannot match the empty
text. -/
inductive OpensSequence (a : Arena) : List NodeId → List NodeId → Prop
  | nil : OpensSequence a [] []
  | solid {x : NodeId} {rest ts : List NodeId} (hsolid : a.isNullable x = false)
    (hx : Opens a x ts) : OpensSequence a (x :: rest) ts
  | nullable {x : NodeId} {rest ts us : List NodeId} (hnull : a.isNullable x = true)
    (hx : Opens a x ts) (hrest : OpensSequence a rest us) : OpensSequence a (x :: rest) (ts ++ us)

end

/-- Each node up to the first solid one opens a sequence. -/
theorem opensSequence_of_untilSolid {xs ts : List NodeId} (h : a.OpensEach (a.untilSolid xs) ts) :
    a.OpensSequence xs ts := by
  induction xs generalizing ts with
  | nil =>
    cases h
    exact .nil
  | cons x xs ih =>
    rw [untilSolid] at h
    -- the list stops behind the first solid element, as the recursion does
    cases hx : a.isNullable x with
    | true =>
      rw [hx, if_pos rfl] at h
      cases h with
      | cons hopens hrest => exact .nullable hx hopens (ih hrest)
    | false =>
      rw [hx, if_neg Bool.false_ne_true] at h
      cases h with
      | cons hopens hrest =>
        cases hrest
        rw [List.append_nil]
        exact .solid hx hopens

theorem kind?_of_isTerminal {id : NodeId} (hid : a.isTerminal id = true) {xs : List NodeId} :
    a.kind? id ≠ some (.choice xs) ∧ a.kind? id ≠ some (.sequence xs) := by
  obtain ⟨n, hn, hterminal⟩ := isTerminal_iff.1 hid
  rw [kind?, hn, Option.map_some]
  constructor <;> intro h <;> rw [Node.isTerminal, Option.some.inj h] at hterminal <;>
    cases hterminal

mutual

/-- The recursion lists one thing only. -/
theorem Opens.unique {id : NodeId} {ts us : List NodeId} (h : a.Opens id ts) (h' : a.Opens id us) :
    ts = us := by
  -- the kind of the node decides which rule applies, and the recursion goes below it
  match h, h' with
  | .terminal _, .terminal _ => rfl
  | .terminal hid, .choice hid' _ => exact absurd hid' (kind?_of_isTerminal hid).1
  | .terminal hid, .sequence hid' _ => exact absurd hid' (kind?_of_isTerminal hid).2
  | .choice hid _, .terminal hid' => exact absurd hid (kind?_of_isTerminal hid').1
  | .sequence hid _, .terminal hid' => exact absurd hid (kind?_of_isTerminal hid').2
  | .choice hid hts, .choice hid' hus =>
    obtain rfl := NodeKind.choice.inj (Option.some.inj (hid.symm.trans hid'))
    exact hts.unique hus
  | .sequence hid hts, .sequence hid' hus =>
    obtain rfl := NodeKind.sequence.inj (Option.some.inj (hid.symm.trans hid'))
    exact hts.unique hus
  | .choice hid _, .sequence hid' _ => exact nomatch hid.symm.trans hid'
  | .sequence hid _, .choice hid' _ => exact nomatch hid.symm.trans hid'

theorem OpensEach.unique {xs ts us : List NodeId} (h : a.OpensEach xs ts)
    (h' : a.OpensEach xs us) : ts = us := by
  match h, h' with
  | .nil, .nil => rfl
  | .cons hx hrest, .cons hx' hrest' => rw [hx.unique hx', hrest.unique hrest']

theorem OpensSequence.unique {xs ts us : List NodeId} (h : a.OpensSequence xs ts)
    (h' : a.OpensSequence xs us) : ts = us := by
  match h, h' with
  | .nil, .nil => rfl
  | .solid _ hx, .solid _ hx' => exact hx.unique hx'
  | .nullable _ hx hrest, .nullable _ hx' hrest' => rw [hx.unique hx', hrest.unique hrest']
  | .solid hsolid _, .nullable hnull _ _ =>
    rw [hsolid] at hnull
    cases hnull
  | .nullable hnull _ _, .solid hsolid _ =>
    rw [hsolid] at hnull
    cases hnull

end

/-! ### The search -/

/-- A plain walk down what comes first passes the terminals that the recursion lists. -/
theorem opensEach_of_preorder (hclosed : a.ClosedInline (· < a.nodes.size)) {vs walk : List NodeId}
    (h : (a.graph a.leading).Preorder vs walk) (hvs : ∀ v ∈ vs, v < a.nodes.size) :
    a.OpensEach vs (walk.filter a.isTerminal) := by
  induction h with
  | nil => exact .nil
  | @cons v rest below after hbelow hafter ihbelow ihafter =>
    obtain ⟨hv, hrest⟩ := List.forall_mem_cons.1 hvs
    obtain ⟨n, hn⟩ := exists_node?_of_lt hv
    rw [successors_graph hn] at hbelow ihbelow
    -- the terminals below the node come before those of the nodes after it
    have hopens := ihbelow fun x hx => hclosed v n hv hn x (mem_inlineChildren_of_leading hx)
    have hkind : a.kind? v = some n.kind := kind?_eq_some.2 ⟨n, hn, rfl⟩
    have hterminal : a.isTerminal v = n.isTerminal := by rw [isTerminal, hn, Option.any_some]
    rw [List.filter_append, List.filter_cons, hterminal]
    refine .cons ?_ (ihafter hrest)
    unfold leading at hbelow hopens
    cases hk : n.kind with
    | choice alternatives =>
      rw [hk] at hkind hopens
      rw [Node.isTerminal, hk]
      exact .choice hkind hopens
    | sequence elements =>
      rw [hk] at hkind hopens
      rw [Node.isTerminal, hk]
      exact .sequence hkind (opensSequence_of_untilSolid hopens)
    | literal | generation | lexeme | nested =>
      rw [hk] at hbelow
      cases hbelow
      have hyes : n.isTerminal = true := by rw [Node.isTerminal, hk]
      rw [hyes]
      exact .terminal (hterminal.trans hyes)

/-- The first frontier lists first occurrences in what the recursion lists. -/
theorem Ordered.exists_opensSequence (ha : a.Ordered) {xs : List NodeId}
    (hxs : ∀ x ∈ xs, x < a.nodes.size) :
    ∃ ts, a.OpensSequence xs ts ∧ a.firstFrontier xs = ts.eraseDups := by
  have hroots : ∀ x ∈ a.untilSolid xs, x < a.nodes.size :=
    fun x hx => hxs x (mem_of_mem_untilSolid hx)
  have hdown : ∀ u v, (a.graph a.leading).Edge u v → v < u := by
    intro u v huv
    obtain ⟨n, hn, hv⟩ := edge_graph_iff.1 huv
    exact ha u n hn v (mem_inlineChildren_of_leading hv)
  obtain ⟨walk, hwalk⟩ := Digraph.exists_preorder hdown hroots
  have hopens := opensEach_of_preorder ha.closedInline hwalk hroots
  refine ⟨walk.filter a.isTerminal, opensSequence_of_untilSolid hopens, ?_⟩
  rw [firstFrontier, Digraph.depthFirst_of_preorder hwalk, filter_eraseDups]

theorem Ordered.mirror (ha : a.Ordered) : a.mirror.Ordered := by
  intro id n hn x hx
  rw [node?_mirror] at hn
  obtain ⟨m, hm, rfl⟩ := Option.map_eq_some_iff.1 hn
  exact ha id m hm x (Node.mem_inlineChildren_mirror.1 hx)

theorem size_mirror (a : Arena) : a.mirror.nodes.size = a.nodes.size :=
  Array.size_map

/-- A frontier of known nodes is found. -/
theorem knowsLeading_of_lt {xs : List NodeId} (hxs : ∀ x ∈ xs, x < a.nodes.size) :
    a.knowsLeading xs = true := by
  refine List.all_eq_true.2 fun x hx => ?_
  obtain ⟨n, hn⟩ := exists_node?_of_lt (hxs x (mem_of_mem_untilSolid hx))
  rw [hn, Option.isSome_some]

/-- **Frontiers are found, and follow the recursion.** For the nodes of a sequence that are in the
arena, the plain recursion comes to an end with one list of terminals; the first frontier is what is
left of it when only first occurrences are kept, in the same order. The last frontier is the first
frontier of the nodes backwards in the mirror image of the arena, where the recursion takes the
elements of sequences from their ends and alternatives as they are. -/
theorem frontiers_follow_recursion (calls : List Call) (xs : List NodeId)
    (hxs : ∀ x ∈ xs, x < (ofCalls calls).nodes.size) :
    (∃ ts, (ofCalls calls).OpensSequence xs ts ∧
        (∀ us, (ofCalls calls).OpensSequence xs us → us = ts) ∧
        (ofCalls calls).firstFrontier? xs = some ts.eraseDups) ∧
      (ofCalls calls).lastFrontier? xs = (ofCalls calls).mirror.firstFrontier? xs.reverse ∧
      ∃ ts, (ofCalls calls).mirror.OpensSequence xs.reverse ts ∧
        (∀ us, (ofCalls calls).mirror.OpensSequence xs.reverse us → us = ts) ∧
        (ofCalls calls).lastFrontier? xs = some ts.eraseDups := by
  have ha : (ofCalls calls).Ordered := (consistent_ofCalls calls).ordered
  have hback : ∀ x ∈ xs.reverse, x < (ofCalls calls).nodes.size :=
    fun x hx => hxs x (List.mem_reverse.1 hx)
  have hmirror : ∀ x ∈ xs.reverse, x < (ofCalls calls).mirror.nodes.size := by
    rwa [size_mirror]
  -- the last frontier is a first frontier of the mirrored arena
  have hlast : (ofCalls calls).lastFrontier? xs =
      (ofCalls calls).mirror.firstFrontier? xs.reverse := by
    rw [lastFrontier?, firstFrontier?, knowsLeading_of_lt hback, knowsLeading_of_lt hmirror,
      lastFrontier_eq_mirror]
  refine ⟨?_, hlast, ?_⟩
  · obtain ⟨ts, hts, hfrontier⟩ := ha.exists_opensSequence hxs
    refine ⟨ts, hts, fun us hus => hus.unique hts, ?_⟩
    rw [firstFrontier?, knowsLeading_of_lt hxs, if_pos rfl, hfrontier]
  · obtain ⟨ts, hts, hfrontier⟩ := ha.mirror.exists_opensSequence hmirror
    refine ⟨ts, hts, fun us hus => hus.unique hts, ?_⟩
    rw [hlast, firstFrontier?, knowsLeading_of_lt hmirror, if_pos rfl, hfrontier]

/-- A choice between nothing and a letter, twice, and the letter once more: the recursion lists the
letter each time, and the frontier once. -/
theorem frontiers_follow_recursion_shared :
    (ofCalls [.literal "", .literal "a", .choice [.node 0, .node 1],
        .sequence [.node 2, .node 2, .node 1]]).OpensSequence [3] [0, 1, 0, 1, 1] ∧
      (ofCalls [.literal "", .literal "a", .choice [.node 0, .node 1],
        .sequence [.node 2, .node 2, .node 1]]).firstFrontier? [3] = some [0, 1] ∧
      (ofCalls [.literal "", .literal "a", .choice [.node 0, .node 1],
        .sequence [.node 2, .node 2, .node 1]]).lastFrontier? [3] =
        (ofCalls [.literal "", .literal "a", .choice [.node 0, .node 1],
          .sequence [.node 2, .node 2, .node 1]]).mirror.firstFrontier? [3] := by
  have hnothing : (ofCalls [.literal "", .literal "a", .choice [.node 0, .node 1],
      .sequence [.node 2, .node 2, .node 1]]).Opens 0 [0] := .terminal (by cbv)
  have hletter : (ofCalls [.literal "", .literal "a", .choice [.node 0, .node 1],
      .sequence [.node 2, .node 2, .node 1]]).Opens 1 [1] := .terminal (by cbv)
  have hchoice : (ofCalls [.literal "", .literal "a", .choice [.node 0, .node 1],
      .sequence [.node 2, .node 2, .node 1]]).Opens 2 [0, 1] :=
    .choice (by cbv) (.cons hnothing (.cons hletter .nil))
  have hsequence : (ofCalls [.literal "", .literal "a", .choice [.node 0, .node 1],
      .sequence [.node 2, .node 2, .node 1]]).Opens 3 [0, 1, 0, 1, 1] :=
    .sequence (by cbv)
      (.nullable (by cbv) hchoice (.nullable (by cbv) hchoice (.solid (by cbv) hletter)))
  have hopens : (ofCalls [.literal "", .literal "a", .choice [.node 0, .node 1],
      .sequence [.node 2, .node 2, .node 1]]).OpensSequence [3] [0, 1, 0, 1, 1] :=
    .solid (by cbv) hsequence
  have hnode : (ofCalls [.literal "", .literal "a", .choice [.node 0, .node 1],
      .sequence [.node 2, .node 2, .node 1]]).node? 3 =
      some ⟨.sequence [2, 2, 1], {}, false⟩ := by cbv
  obtain ⟨⟨ts, -, hunique, hfirst⟩, hlast, -⟩ := frontiers_follow_recursion
    [.literal "", .literal "a", .choice [.node 0, .node 1], .sequence [.node 2, .node 2, .node 1]]
    [3] (List.forall_mem_singleton.2 (node?_eq_some_lt hnode))
  obtain rfl := hunique _ hopens
  exact ⟨hopens, hfirst, hlast⟩

end Arena

end GuidedGrammar
