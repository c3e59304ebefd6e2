import GuidedGrammar.Proofs.Graph.Renaming
import GuidedGrammar.Proofs.Grammar.Growth
import GuidedGrammar.Proofs.Grammar.Mirror

/-!
# Outlines

The outline of a node leaves out what may be given to it later: the start of a nested grammar and
the stop of a generation (`Node.outline`). Frontiers depend on nothing but the outlines of the
nodes that are met on the way (`firstFrontier_congr`, `lastFrontier_congr`). So they are the same
after an arena has grown, and whatever the stops of its generations are.
-/

namespace GuidedGrammar

/-- **A node without what may be given to it later.** -/
def Node.outline (n : Node) : Node :=
  match n.kind with
  | .generation g => { n with kind := .generation { g with stop := .unset } }
  | .nested _ skip => { n with kind := .nested none skip }
  | .literal _ | .lexeme _ | .choice _ | .sequence _ => n

namespace Node

theorem nullable_outline (n : Node) : n.outline.nullable = n.nullable := by
  unfold outline
  split <;> rfl

theorem isTerminal_outline (n : Node) : n.outline.isTerminal = n.isTerminal := by
  obtain ⟨kind, props, nullable⟩ := n
  cases kind <;> rfl

theorem literal?_outline (n : Node) : n.outline.literal? = n.literal? := by
  obtain ⟨kind, props, nullable⟩ := n
  cases kind <;> rfl

theorem leading_outline (a : Arena) (n : Node) : a.leading n.outline = a.leading n := by
  obtain ⟨kind, props, nullable⟩ := n
  cases kind <;> rfl

/-- The outlines of mirrored nodes are mirrored. -/
theorem outline_mirror (n : Node) : n.mirror.outline = n.outline.mirror := by
  obtain ⟨kind, props, nullable⟩ := n
  cases kind <;> rfl

/-- What may become of a node does not change its outline. -/
theorem Becomes.outline_eq {n n' : Node} (h : n.Becomes n') : n'.outline = n.outline := by
  cases h <;> rfl

end Node

namespace Arena

variable {a b : Arena} {P : NodeId → Prop}

/-- Arenas with the same outlines at the ids that `P` holds of. -/
def SameOutline (a b : Arena) (P : NodeId → Prop) : Prop :=
  ∀ id, P id → (b.node? id).map Node.outline = (a.node? id).map Node.outline

/-- Whether `P` holds of all that a node leads to in its grammar if it holds of the node. -/
def ClosedInline (a : Arena) (P : NodeId → Prop) : Prop :=
  ∀ x n, P x → a.node? x = some n → ∀ y ∈ n.inlineChildren, P y

namespace SameOutline

theorem isNullable_eq (h : a.SameOutline b P) {id : NodeId} (hid : P id) :
    b.isNullable id = a.isNullable id := by
  have hany : ∀ o : Option Node, o.any (·.nullable) = (o.map Node.outline).any (·.nullable) :=
    fun o => by cases o <;> simp [Node.nullable_outline]
  rw [isNullable, isNullable, hany, h id hid, ← hany]

theorem isTerminal_eq (h : a.SameOutline b P) {id : NodeId} (hid : P id) :
    b.isTerminal id = a.isTerminal id := by
  have hany : ∀ o : Option Node, o.any (·.isTerminal) = (o.map Node.outline).any (·.isTerminal) :=
    fun o => by cases o <;> simp [Node.isTerminal_outline]
  rw [isTerminal, isTerminal, hany, h id hid, ← hany]

theorem literal?_eq (h : a.SameOutline b P) {id : NodeId} (hid : P id) :
    b.literal? id = a.literal? id := by
  have hbind : ∀ o : Option Node, o.bind Node.literal? = (o.map Node.outline).bind Node.literal? :=
    fun o => by cases o <;> simp [Node.literal?_outline]
  rw [literal?, literal?, hbind, h id hid, ← hbind]

theorem mirror (h : a.SameOutline b P) : a.mirror.SameOutline b.mirror P := by
  have hmap : ∀ o : Option Node,
      (o.map Node.mirror).map Node.outline = (o.map Node.outline).map Node.mirror :=
    fun o => by cases o <;> simp [Node.outline_mirror]
  intro id hid
  rw [node?_mirror, node?_mirror, hmap, hmap, h id hid]

end SameOutline

theorem ClosedInline.mirror (h : a.ClosedInline P) : a.mirror.ClosedInline P := by
  intro x n hx hn y hy
  rw [node?_mirror] at hn
  obtain ⟨m, hm, rfl⟩ := Option.map_eq_some_iff.1 hn
  exact h x m hx hm y (Node.mem_inlineChildren_mirror.1 hy)

/-! ### Frontiers -/

theorem untilSolid_congr (h : a.SameOutline b P) {xs : List NodeId} (hxs : ∀ x ∈ xs, P x) :
    b.untilSolid xs = a.untilSolid xs :=
  untilSolid_eq_of_isNullable fun x hx => h.isNullable_eq (hxs x hx)

theorem mem_of_mem_untilSolid {xs : List NodeId} {x : NodeId} (h : x ∈ a.untilSolid xs) :
    x ∈ xs := by
  induction xs with
  | nil => exact absurd h List.not_mem_nil
  | cons y ys ih =>
    rw [untilSolid] at h
    split at h
    · rcases List.mem_cons.1 h with rfl | h
      · exact List.mem_cons_self ..
      · exact List.mem_cons_of_mem _ (ih h)
    · rw [List.mem_singleton.1 h]
      exact List.mem_cons_self ..

theorem mem_inlineChildren_of_leading {n : Node} {x : NodeId} (h : x ∈ a.leading n) :
    x ∈ n.inlineChildren := by
  obtain ⟨kind, props, nullable⟩ := n
  cases kind with
  | choice alternatives => exact h
  | sequence elements => exact mem_of_mem_untilSolid h
  | literal | generation | lexeme | nested => exact absurd h List.not_mem_nil

theorem leading_congr (h : a.SameOutline b P) {n : Node} (hn : ∀ x ∈ n.inlineChildren, P x) :
    b.leading n = a.leading n := by
  unfold Node.inlineChildren at hn
  unfold leading
  split <;> rename_i hkind <;> try rfl
  rw [hkind] at hn
  exact untilSolid_congr h hn

/-- What a node leads to first depends on outlines. -/
theorem successors_leading_congr (h : a.SameOutline b P) (hclosed : a.ClosedInline P) {x : NodeId}
    (hx : P x) : (b.graph b.leading).successors x = (a.graph a.leading).successors x := by
  have hsame := h x hx
  show (if x < b.nodes.size then (b.node? x).elim [] b.leading else []) =
    if x < a.nodes.size then (a.node? x).elim [] a.leading else []
  cases hn : a.node? x with
  | none =>
    rw [hn, Option.map_none, Option.map_eq_none_iff] at hsame
    rw [hsame, Option.elim_none, Option.elim_none, ite_self, ite_self]
  | some n =>
    rw [hn, Option.map_some] at hsame
    obtain ⟨n', hn', houtline⟩ := Option.map_eq_some_iff.1 hsame
    rw [hn', if_pos (node?_eq_some_lt hn), if_pos (node?_eq_some_lt hn'), Option.elim_some,
      Option.elim_some, ← Node.leading_outline b n', houtline, Node.leading_outline]
    exact leading_congr h (hclosed x n hx hn)

/-- **First frontiers depend on outlines.** -/
theorem firstFrontier_congr (h : a.SameOutline b P) (hclosed : a.ClosedInline P)
    {xs : List NodeId} (hxs : ∀ x ∈ xs, P x) : b.firstFrontier xs = a.firstFrontier xs := by
  have hroots : ∀ x ∈ a.untilSolid xs, P x := fun x hx => hxs x (mem_of_mem_untilSolid hx)
  have hedge : ∀ u v, P u → (a.graph a.leading).Edge u v → P v := by
    intro u v hu huv
    obtain ⟨n, hn, hv⟩ := edge_graph_iff.1 huv
    exact hclosed u n hu hn v (mem_inlineChildren_of_leading hv)
  have hsearch : (b.graph b.leading).depthFirst (a.untilSolid xs) =
      (a.graph a.leading).depthFirst (a.untilSolid xs) :=
    Digraph.depthFirst_congr hedge (fun u hu => successors_leading_congr h hclosed hu) hroots
  rw [firstFrontier, firstFrontier, untilSolid_congr h hxs, hsearch]
  -- all that is found on the way is among the ids that `P` holds of
  refine List.filter_congr fun x hx => h.isTerminal_eq ?_
  obtain ⟨r, hr, hreaches⟩ := Digraph.mem_depthFirst.1 hx
  induction hreaches with
  | refl => exact hroots r hr
  | tail _ huv ih => exact hedge _ _ (ih (Digraph.mem_depthFirst.2 ⟨r, hr, ‹_›⟩)) huv

/-- **Last frontiers depend on outlines.** -/
theorem lastFrontier_congr (h : a.SameOutline b P) (hclosed : a.ClosedInline P)
    {xs : List NodeId} (hxs : ∀ x ∈ xs, P x) : b.lastFrontier xs = a.lastFrontier xs := by
  rw [lastFrontier_eq_mirror, lastFrontier_eq_mirror]
  exact firstFrontier_congr h.mirror hclosed.mirror fun x hx => hxs x (List.mem_reverse.1 hx)

/-! ### Growing arenas -/

/-- Nodes keep their outlines when the arena grows. -/
theorem Grows.sameOutline (h : a.Grows b) : a.SameOutline b (· < a.nodes.size) := by
  intro id hid
  obtain ⟨n, hn⟩ := exists_node?_of_lt hid
  obtain ⟨n', hn', hbecomes⟩ := h.nodes id n hn
  rw [hn, hn', Option.map_some, Option.map_some, hbecomes.outline_eq]

theorem Ordered.closedInline (ha : a.Ordered) : a.ClosedInline (· < a.nodes.size) :=
  fun _ _ _ hn _ hy => ha.lt_size hn hy

/-- What comes first stays when the arena grows. -/
theorem Grows.firstFrontier_eq (h : a.Grows b) (ha : a.Ordered) {xs : List NodeId}
    (hxs : ∀ x ∈ xs, x < a.nodes.size) : b.firstFrontier xs = a.firstFrontier xs :=
  firstFrontier_congr h.sameOutline ha.closedInline hxs

/-- What comes last stays when the arena grows. -/
theorem Grows.lastFrontier_eq (h : a.Grows b) (ha : a.Ordered) {xs : List NodeId}
    (hxs : ∀ x ∈ xs, x < a.nodes.size) : b.lastFrontier xs = a.lastFrontier xs :=
  lastFrontier_congr h.sameOutline ha.closedInline hxs

end Arena

end GuidedGrammar
