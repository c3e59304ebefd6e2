import GuidedGrammar.Proofs.Grammar.Mirror
import GuidedGrammar.Proofs.Grammar.WellFormed

/-!
# Frontiers cover derivations

Whatever a derivation of a sequence can start with, up to empty literals, is in the first frontier
of the sequence (`mem_firstFrontier_of_canStart`), and whatever a derivation of a node can end
with is in its last frontier (`mem_lastFrontier_of_canEnd`).

All that is needed of the arena is that the nullable flag is set where empty literals alone can be
derived (`MarksNullable`); this holds of the mirror image as well, so the second fact is the first
one read backwards.
-/

namespace GuidedGrammar.Arena

variable {a : Arena}

/-- Whether all nodes that derive nothing but empty literals are marked as nullable. -/
def MarksNullable (a : Arena) : Prop :=
  ∀ (id : NodeId) (ts : List NodeId), a.Derives id ts → a.AllEmpty ts → a.isNullable id = true

theorem WellFormed.marksNullable (ha : a.WellFormed) : a.MarksNullable :=
  fun _ _ hd hts => ha.isNullable_of_derives hd hts

theorem MarksNullable.mirror (ha : a.MarksNullable) : a.mirror.MarksNullable := by
  intro id ts hd hts
  rw [isNullable_mirror]
  have hd' := hd.mirror
  have hts' := hts.mirror
  rw [mirror_mirror] at hd' hts'
  exact ha id ts.reverse hd' hts'

/-! ### What comes first -/

theorem edge_leading_choice {x y : NodeId} {alternatives : List NodeId}
    (hx : a.kind? x = some (.choice alternatives)) (hy : y ∈ alternatives) :
    (a.graph a.leading).Edge x y := by
  obtain ⟨n, hn, hkind⟩ := kind?_eq_some.1 hx
  refine edge_graph_iff.2 ⟨n, hn, ?_⟩
  rw [leading, hkind]
  exact hy

theorem edge_leading_sequence {x y : NodeId} {elements : List NodeId}
    (hx : a.kind? x = some (.sequence elements)) (hy : y ∈ a.untilSolid elements) :
    (a.graph a.leading).Edge x y := by
  obtain ⟨n, hn, hkind⟩ := kind?_eq_some.1 hx
  refine edge_graph_iff.2 ⟨n, hn, ?_⟩
  rw [leading, hkind]
  exact hy

theorem mem_untilSolid_head (a : Arena) (x : NodeId) (rest : List NodeId) :
    x ∈ a.untilSolid (x :: rest) := by
  rw [untilSolid]
  split
  · exact List.mem_cons_self ..
  · exact List.mem_singleton_self x

theorem mem_untilSolid_tail {x y : NodeId} {rest : List NodeId} (hx : a.isNullable x = true)
    (hy : y ∈ a.untilSolid rest) : y ∈ a.untilSolid (x :: rest) := by
  rw [untilSolid, if_pos hx]
  exact List.mem_cons_of_mem _ hy

mutual

/-- The walk towards what can come first in a node arrives at what a derivation starts with. -/
theorem Derives.reaches_leading (ha : a.MarksNullable) {x t : NodeId} {ts es us : List NodeId}
    (h : a.Derives x ts) (hts : ts = es ++ t :: us) (hes : a.AllEmpty es) :
    (a.graph a.leading).Reaches x t := by
  match h with
  | .terminal _ =>
    have ht : t ∈ [x] := hts ▸ List.mem_append_right _ (List.mem_cons_self ..)
    rw [List.mem_singleton.1 ht]
    exact .refl x
  | .choice hx hy hd => exact (hd.reaches_leading ha hts hes).head (edge_leading_choice hx hy)
  | .sequence hx hd =>
    obtain ⟨y, hy, hreach⟩ := hd.reachesFrom_leading ha hts hes
    exact hreach.head (edge_leading_sequence hx hy)

theorem DerivesAll.reachesFrom_leading (ha : a.MarksNullable) {t : NodeId}
    {xs ts es us : List NodeId} (h : a.DerivesAll xs ts) (hts : ts = es ++ t :: us)
    (hes : a.AllEmpty es) : (a.graph a.leading).ReachesFrom (a.untilSolid xs) t := by
  match h with
  | .nil => exact absurd hts (by simp)
  | .cons hx hrest =>
    rcases append_eq_append_cons hts with ⟨fs, rfl, hfs⟩ | ⟨vs, hvs, -⟩
    · -- `t` is derived from a later node, and the first one derives empty literals only
      obtain ⟨y, hy, hreach⟩ := hrest.reachesFrom_leading ha hfs
        fun e he => hes e (List.mem_append_right _ he)
      have hnull := ha _ _ hx fun e he => hes e (List.mem_append_left _ he)
      exact ⟨y, mem_untilSolid_tail hnull hy, hreach⟩
    · -- `t` is derived from the first node
      exact ⟨_, mem_untilSolid_head a _ _, hx.reaches_leading ha hvs hes⟩

end

theorem mem_firstFrontier_iff {xs : List NodeId} {t : NodeId} :
    t ∈ a.firstFrontier xs ↔
      (a.graph a.leading).ReachesFrom (a.untilSolid xs) t ∧ a.isTerminal t = true := by
  rw [firstFrontier, List.mem_filter, Digraph.mem_depthFirst]

theorem MarksNullable.mem_firstFrontier (ha : a.MarksNullable) {xs es ts : List NodeId} {t : NodeId}
    (h : a.DerivesAll xs (es ++ t :: ts)) (hes : a.AllEmpty es) : t ∈ a.firstFrontier xs :=
  mem_firstFrontier_iff.2 ⟨h.reachesFrom_leading ha rfl hes,
    h.isTerminal (List.mem_append_right _ (List.mem_cons_self ..))⟩

/-- **The first frontier covers the starts of all derivations.** -/
theorem mem_firstFrontier_of_canStart (ha : a.WellFormed) {xs : List NodeId} {t : NodeId}
    (h : a.CanStart xs t) : t ∈ a.firstFrontier xs := by
  obtain ⟨es, ts, hd, hes, -⟩ := h
  exact ha.marksNullable.mem_firstFrontier hd hes

/-- **The last frontier covers the ends of all derivations.** -/
theorem mem_lastFrontier_of_canEnd (ha : a.WellFormed) {x t : NodeId} (h : a.CanEnd x t) :
    t ∈ a.lastFrontier [x] := by
  obtain ⟨ts, es, hd, hes⟩ := h
  have hmirror := hd.mirror
  rw [List.reverse_append, List.reverse_cons, List.append_assoc] at hmirror
  rw [lastFrontier_eq_mirror]
  exact ha.marksNullable.mirror.mem_firstFrontier (DerivesAll.singleton.2 hmirror) hes.mirror

end GuidedGrammar.Arena
