import GuidedGrammar.Proofs.Grammar.Boundaries
import GuidedGrammar.Proofs.Grammar.Frontier
import GuidedGrammar.Proofs.Grammar.FrontierOrder

/-!
# Empty elements of a sequence

A node vanishes when it can match the empty text and nothing but empty literals can come first or
last in it (`Arena.Vanishes`): an empty literal, a sequence of vanishing nodes, a choice between
some. Inference does not see such elements. They have no pending generations, so nothing happens at
the boundaries after them; and in what comes after other elements they are passed, and leave nothing
but empty literals behind, which are no followers. So a sequence has the same stops with them and
without them, or the same error (`Arena.inferStops_of_inserted`).

The boundaries after elements that were there come in the same order, so the walk over one list of
elements follows the walk over the other, with the same choices at each step.
-/

namespace GuidedGrammar.Arena

variable {a : Arena} {e x : NodeId} {xs ys : List NodeId}

/-- **A node that inference does not see**: it can match the empty text, and nothing but empty
literals can come first or last in it. -/
structure Vanishes (a : Arena) (e : NodeId) : Prop where
  nullable : a.isNullable e = true
  first : a.AllEmpty (a.firstFrontier [e])
  last : a.AllEmpty (a.lastFrontier [e])

/-- Elements, and the same with vanishing ones among them, anywhere and any number of times. -/
inductive Inserted (a : Arena) : List NodeId → List NodeId → Prop
  | nil : Inserted a [] []
  | keep (x : NodeId) {xs ys : List NodeId} (h : Inserted a xs ys) : Inserted a (x :: xs) (x :: ys)
  | insert {e : NodeId} {xs ys : List NodeId} (he : a.Vanishes e) (h : Inserted a xs ys) :
    Inserted a xs (e :: ys)

/-! ### Nodes that vanish -/

/-- Nothing but empty literals comes first in a node if it is none or an empty one itself, and the
same holds of what it leads to. -/
theorem allEmpty_firstFrontier {n : Node} (hn : a.node? x = some n)
    (hself : n.isTerminal = true → a.literal? x = some "")
    (h : ∀ y ∈ a.leading n, a.AllEmpty (a.firstFrontier [y])) : a.AllEmpty (a.firstFrontier [x]) := by
  intro t ht
  obtain ⟨⟨r, hr, hreaches⟩, hterminal⟩ := mem_firstFrontier_iff.1 ht
  obtain rfl := List.mem_singleton.1 (mem_of_mem_untilSolid hr)
  rcases hreaches.cases_head with rfl | ⟨y, hxy, hyt⟩
  · obtain ⟨n', hn', hterminal⟩ := isTerminal_iff.1 hterminal
    obtain rfl := Option.some.inj (hn.symm.trans hn')
    exact hself hterminal
  · obtain ⟨n', hn', hy⟩ := edge_graph_iff.1 hxy
    obtain rfl := Option.some.inj (hn.symm.trans hn')
    exact h y hy t (mem_firstFrontier_iff.2 ⟨⟨y, mem_untilSolid_head a y [], hyt⟩, hterminal⟩)

theorem allEmpty_lastFrontier_iff :
    a.AllEmpty (a.lastFrontier [x]) ↔ a.mirror.AllEmpty (a.mirror.firstFrontier [x]) := by
  rw [lastFrontier_eq_mirror, List.reverse_singleton, AllEmpty, AllEmpty]
  simp only [literal?_mirror]

/-- What vanishes: a node that can match the empty text, is an empty literal if it is a terminal,
and has nothing below it but what vanishes. -/
theorem vanishes_of_inlineChildren {n : Node} (hn : a.node? x = some n) (hnullable : n.nullable = true)
    (hself : n.isTerminal = true → a.literal? x = some "")
    (h : ∀ y ∈ n.inlineChildren, a.Vanishes y) : a.Vanishes x where
  nullable := by rw [isNullable, hn, Option.any_some, hnullable]
  first := allEmpty_firstFrontier hn hself
    fun y hy => (h y (mem_inlineChildren_of_leading hy)).first
  last := by
    have hmirror : a.mirror.node? x = some n.mirror := by rw [node?_mirror, hn, Option.map_some]
    rw [allEmpty_lastFrontier_iff]
    refine allEmpty_firstFrontier hmirror (fun hterminal => ?_) fun y hy => ?_
    · rw [literal?_mirror]
      exact hself (n.isTerminal_mirror.symm.trans hterminal)
    · have hbelow : y ∈ n.inlineChildren :=
        Node.mem_inlineChildren_mirror.1 (mem_inlineChildren_of_leading hy)
      exact allEmpty_lastFrontier_iff.1 (h y hbelow).last

/-- An empty literal vanishes. -/
theorem WellFormed.vanishes_literal (ha : a.WellFormed) (hx : a.literal? x = some "") :
    a.Vanishes x := by
  obtain ⟨n, hn, hkind⟩ := kind?_eq_some.1 (literal?_eq_some.1 hx)
  have hnullable : n.nullable = true := by
    rw [(ha.node x n hn).nullable_eq, hkind]
    rfl
  refine vanishes_of_inlineChildren hn hnullable (fun _ => hx) fun y hy => ?_
  rw [Node.inlineChildren, hkind] at hy
  exact absurd hy List.not_mem_nil

/-- A sequence of vanishing nodes vanishes, one without elements among them. -/
theorem WellFormed.vanishes_sequence (ha : a.WellFormed) (hx : a.kind? x = some (.sequence xs))
    (h : ∀ y ∈ xs, a.Vanishes y) : a.Vanishes x := by
  obtain ⟨n, hn, hkind⟩ := kind?_eq_some.1 hx
  have hnullable : n.nullable = true := by
    rw [(ha.node x n hn).nullable_eq, hkind]
    exact List.all_eq_true.2 fun y hy => (h y hy).nullable
  refine vanishes_of_inlineChildren hn hnullable (fun hterminal => ?_) fun y hy => ?_
  · rw [Node.isTerminal, hkind] at hterminal
    cases hterminal
  · rw [Node.inlineChildren, hkind] at hy
    exact h y hy

/-- A choice between vanishing nodes vanishes, if there are any. -/
theorem WellFormed.vanishes_choice (ha : a.WellFormed) (hx : a.kind? x = some (.choice xs))
    (hne : xs ≠ []) (h : ∀ y ∈ xs, a.Vanishes y) : a.Vanishes x := by
  obtain ⟨n, hn, hkind⟩ := kind?_eq_some.1 hx
  have hnullable : n.nullable = true := by
    rw [(ha.node x n hn).nullable_eq, hkind]
    obtain ⟨y, hy⟩ := List.exists_mem_of_ne_nil xs hne
    exact List.any_eq_true.2 ⟨y, hy, (h y hy).nullable⟩
  refine vanishes_of_inlineChildren hn hnullable (fun hterminal => ?_) fun y hy => ?_
  · rw [Node.isTerminal, hkind] at hterminal
    cases hterminal
  · rw [Node.inlineChildren, hkind] at hy
    exact h y hy

namespace Vanishes

theorem lt_size (h : a.Vanishes e) : e < a.nodes.size := by
  obtain ⟨n, hn, -⟩ := (Option.any_eq_true _ _).1 h.nullable
  exact node?_eq_some_lt hn

/-- A node that vanishes has no pending generations. -/
theorem pending_eq_nil (h : a.Vanishes e) : a.pending e = [] := by
  refine List.filter_eq_nil_iff.2 fun t ht hopen => ?_
  obtain ⟨g, hg, -⟩ := (Option.any_eq_true _ _).1 hopen
  have hliteral := literal?_eq_some.1 (h.last t ht)
  have hgeneration := generation?_eq_some.1 hg
  exact nomatch hliteral.symm.trans hgeneration

/-- A node that vanishes is opened by empty literals. -/
theorem exists_opens (h : a.Vanishes e) (ha : a.Ordered) : ∃ ts, a.Opens e ts ∧ a.AllEmpty ts := by
  obtain ⟨ts, hts, hfrontier⟩ := ha.exists_opensSequence (List.forall_mem_singleton.2 h.lt_size)
  have hempty : a.AllEmpty ts := by
    intro t ht
    apply h.first t
    rw [hfrontier]
    exact List.mem_eraseDups.2 ht
  cases hts with
  | solid hsolid =>
    rw [h.nullable] at hsolid
    cases hsolid
  | nullable _ hopens =>
    exact ⟨_, hopens, fun t ht => hempty t (List.mem_append_left _ ht)⟩

end Vanishes

/-! ### Sequences with vanishing elements -/

namespace Inserted

theorem lt_size (h : a.Inserted xs ys) (hxs : ∀ x ∈ xs, x < a.nodes.size) :
    ∀ y ∈ ys, y < a.nodes.size := by
  induction h with
  | nil => exact hxs
  | keep x h ih =>
    obtain ⟨hx, hxs⟩ := List.forall_mem_cons.1 hxs
    exact List.forall_mem_cons.2 ⟨hx, ih hxs⟩
  | insert he h ih => exact List.forall_mem_cons.2 ⟨he.lt_size, ih hxs⟩

theorem all_isNullable (h : a.Inserted xs ys) : ys.all a.isNullable = xs.all a.isNullable := by
  induction h with
  | nil => rfl
  | keep x h ih => rw [List.all_cons, List.all_cons, ih]
  | insert he h ih => rw [List.all_cons, he.nullable, Bool.true_and, ih]

/-- What opens a sequence stays, up to empty literals. -/
theorem exists_opensSequence (h : a.Inserted xs ys) (ha : a.Ordered) {ts : List NodeId}
    (hts : a.OpensSequence xs ts) : ∃ us, a.OpensSequence ys us ∧
      us.filter (fun id => a.literal? id != some "") =
        ts.filter fun id => a.literal? id != some "" := by
  induction h generalizing ts with
  | nil => exact ⟨ts, hts, rfl⟩
  | keep x h ih =>
    cases hts with
    -- a solid element ends both lists, whatever was inserted behind it
    | solid hsolid hx => exact ⟨ts, .solid hsolid hx, rfl⟩
    | nullable hnull hx hrest =>
      obtain ⟨us, hus, hsame⟩ := ih hrest
      exact ⟨_, .nullable hnull hx hus, by rw [List.filter_append, List.filter_append, hsame]⟩
  | insert he h ih =>
    obtain ⟨us, hus, hsame⟩ := ih hts
    -- an inserted element is passed, and it opens with empty literals only
    obtain ⟨vs, hvs, hempty⟩ := he.exists_opens ha
    refine ⟨vs ++ us, .nullable he.nullable hvs hus, ?_⟩
    have hnone : vs.filter (fun id => a.literal? id != some "") = [] :=
      List.filter_eq_nil_iff.2 fun v hv => by simp [hempty v hv]
    rw [List.filter_append, hnone, List.nil_append, hsame]

/-- What follows a boundary stays, in the same order. -/
theorem followers_eq (h : a.Inserted xs ys) (ha : a.Ordered) (hxs : ∀ x ∈ xs, x < a.nodes.size) :
    a.followers ys = a.followers xs := by
  obtain ⟨ts, hts, hfrontier⟩ := ha.exists_opensSequence hxs
  obtain ⟨us, hus, hsame⟩ := h.exists_opensSequence ha hts
  obtain ⟨us', hus', hfrontier'⟩ := ha.exists_opensSequence (h.lt_size hxs)
  obtain rfl := hus.unique hus'
  rw [followers, followers, hfrontier, hfrontier', filter_eraseDups, filter_eraseDups, hsame]

end Inserted

/-! ### The walk -/

/-- Inference, element by element: the boundary after the first element comes first. After the
last element there is none, and nothing could be chosen there, as nothing follows. -/
theorem foldlM_boundaries_cons (a : Arena) (x : NodeId) (rest : List NodeId)
    (chosen : StopAssignment) : (boundaries (x :: rest)).foldlM a.chooseAtBoundary chosen =
      (do (boundaries rest).foldlM a.chooseAtBoundary (← a.chooseAtBoundary chosen (x, rest))) := by
  cases rest with
  | nil =>
    have hnothing : a.chooseAtBoundary chosen (x, []) = .ok chosen := by
      unfold chooseAtBoundary
      split
      · rfl
      · exact if_pos rfl
    rw [hnothing]
    rfl
  | cons y rest => exact List.foldlM_cons ..

theorem chooseAtBoundary_of_pending_eq_nil {rest : List NodeId} (h : a.pending x = [])
    (chosen : StopAssignment) : a.chooseAtBoundary chosen (x, rest) = .ok chosen := by
  rw [chooseAtBoundary, h]

theorem Inserted.chooseAtBoundary_eq (h : a.Inserted xs ys) (ha : a.Ordered)
    (hxs : ∀ x ∈ xs, x < a.nodes.size) (x : NodeId) (chosen : StopAssignment) :
    a.chooseAtBoundary chosen (x, ys) = a.chooseAtBoundary chosen (x, xs) := by
  rw [chooseAtBoundary, chooseAtBoundary, h.all_isNullable, h.followers_eq ha hxs]

/-- The walk over a sequence with vanishing elements passes them, and does the same at the other
elements. -/
theorem Inserted.foldlM_boundaries_eq (h : a.Inserted xs ys) (ha : a.Ordered)
    (hxs : ∀ x ∈ xs, x < a.nodes.size) (chosen : StopAssignment) :
    (boundaries ys).foldlM a.chooseAtBoundary chosen =
      (boundaries xs).foldlM a.chooseAtBoundary chosen := by
  induction h generalizing chosen with
  | nil => rfl
  | keep x h ih =>
    obtain ⟨-, hxs⟩ := List.forall_mem_cons.1 hxs
    rw [foldlM_boundaries_cons, foldlM_boundaries_cons, h.chooseAtBoundary_eq ha hxs]
    exact bind_congr fun chosen => ih hxs chosen
  | insert he h ih =>
    rw [foldlM_boundaries_cons, chooseAtBoundary_of_pending_eq_nil he.pending_eq_nil]
    exact ih hxs chosen

/-- **Empty elements make no difference.** Nodes of a sequence that can match the empty text, with
nothing but empty literals that can come first or last in them, may be put in anywhere and any
number of times: the same stops are inferred, in the same order and from the same literals, or there
is the same error. -/
theorem inferStops_of_inserted (calls : List Call) (xs ys : List NodeId)
    (hxs : ∀ x ∈ xs, x < (ofCalls calls).nodes.size) (h : (ofCalls calls).Inserted xs ys) :
    (ofCalls calls).inferStops ys = (ofCalls calls).inferStops xs :=
  h.foldlM_boundaries_eq (consistent_ofCalls calls).ordered hxs []

/-- Between a generation and a full stop, and around them, there are an empty literal, two of them
in a sequence, and a choice between both. -/
theorem inferStops_of_inserted_choice :
    (ofCalls [.generation {}, .literal "", .sequence [.node 1, .node 1],
        .choice [.node 1, .node 2], .literal "."]).inferStops [3, 0, 2, 3, 4, 1] =
      .ok [(0, ⟨'.', 4⟩)] := by
  have hinserted : ∀ a : Arena, a.WellFormed → a.literal? 1 = some "" →
      a.kind? 2 = some (.sequence [1, 1]) → a.kind? 3 = some (.choice [1, 2]) →
      a.Inserted [0, 4] [3, 0, 2, 3, 4, 1] := by
    intro a ha h1 h2 h3
    have hliteral : a.Vanishes 1 := ha.vanishes_literal h1
    have hsequence : a.Vanishes 2 := ha.vanishes_sequence h2 (by simp [hliteral])
    have hchoice : a.Vanishes 3 := ha.vanishes_choice h3 (by decide) (by simp [hliteral, hsequence])
    exact .insert hchoice (.keep 0 (.insert hsequence (.insert hchoice
      (.keep 4 (.insert hliteral .nil)))))
  have hsize : (ofCalls [.generation {}, .literal "", .sequence [.node 1, .node 1],
      .choice [.node 1, .node 2], .literal "."]).nodes.size = 5 := by cbv
  have hplain : (ofCalls [.generation {}, .literal "", .sequence [.node 1, .node 1],
      .choice [.node 1, .node 2], .literal "."]).inferStops [0, 4] = .ok [(0, ⟨'.', 4⟩)] := by cbv
  rw [← hplain]
  exact inferStops_of_inserted _ [0, 4] [3, 0, 2, 3, 4, 1] (by rw [hsize]; decide)
    (hinserted _ (consistent_ofCalls _).toWellFormed (by cbv) (by cbv) (by cbv))

end GuidedGrammar.Arena
