import GuidedGrammar.Grammar.Frontier
import GuidedGrammar.Proofs.Grammar.Derivation

/-!
# Arenas read backwards

The mirror image of an arena has all sequences reversed, and is the same otherwise. Derivations in
it are those of the arena backwards, and what comes last in the arena comes first in it
(`lastFrontier_eq_mirror`); so facts about first frontiers carry over to last ones.
-/

namespace GuidedGrammar

/-- A node with its elements, if it is a sequence, reversed. -/
def Node.mirror (n : Node) : Node :=
  match n.kind with
  | .sequence elements => { n with kind := .sequence elements.reverse }
  | _ => n

namespace Node

theorem mirror_mirror (n : Node) : n.mirror.mirror = n := by
  obtain ⟨kind, props, nullable⟩ := n
  cases kind <;> simp [mirror]

theorem nullable_mirror (n : Node) : n.mirror.nullable = n.nullable := by
  unfold mirror
  split <;> rfl

theorem isTerminal_mirror (n : Node) : n.mirror.isTerminal = n.isTerminal := by
  obtain ⟨kind, props, nullable⟩ := n
  cases kind <;> rfl

theorem literal?_mirror (n : Node) : n.mirror.literal? = n.literal? := by
  obtain ⟨kind, props, nullable⟩ := n
  cases kind <;> rfl

theorem mem_inlineChildren_mirror {n : Node} {x : NodeId} :
    x ∈ n.mirror.inlineChildren ↔ x ∈ n.inlineChildren := by
  obtain ⟨kind, props, nullable⟩ := n
  cases kind with
  | sequence elements => exact List.mem_reverse
  | literal | generation | lexeme | nested | choice => exact Iff.rfl

end Node

namespace Arena

/-- The mirror image of an arena. -/
def mirror (a : Arena) : Arena :=
  { a with nodes := a.nodes.map Node.mirror }

variable {a : Arena}

theorem mirror_mirror (a : Arena) : a.mirror.mirror = a := by
  have hnode : Node.mirror ∘ Node.mirror = id := funext Node.mirror_mirror
  rw [mirror, mirror, Array.map_map, hnode, Array.map_id]

theorem node?_mirror (a : Arena) (id : NodeId) : a.mirror.node? id = (a.node? id).map Node.mirror :=
  Array.getElem?_map

theorem isNullable_mirror (a : Arena) : a.mirror.isNullable = a.isNullable := by
  funext id
  rw [isNullable, node?_mirror, Option.any_map, isNullable]
  exact congrArg (Option.any · (a.node? id)) (funext Node.nullable_mirror)

theorem isTerminal_mirror (a : Arena) : a.mirror.isTerminal = a.isTerminal := by
  funext id
  rw [isTerminal, node?_mirror, Option.any_map, isTerminal]
  exact congrArg (Option.any · (a.node? id)) (funext Node.isTerminal_mirror)

theorem literal?_mirror (a : Arena) (id : NodeId) : a.mirror.literal? id = a.literal? id := by
  rw [literal?, node?_mirror, Option.bind_map, literal?]
  exact congrArg (Option.bind (a.node? id)) (funext Node.literal?_mirror)

theorem kind?_mirror_choice {id : NodeId} {alternatives : List NodeId}
    (h : a.kind? id = some (.choice alternatives)) :
    a.mirror.kind? id = some (.choice alternatives) := by
  obtain ⟨n, hn, hkind⟩ := kind?_eq_some.1 h
  rw [kind?, node?_mirror, hn, Option.map_some, Option.map_some, Node.mirror, hkind]
  exact congrArg some hkind

theorem kind?_mirror_sequence {id : NodeId} {elements : List NodeId}
    (h : a.kind? id = some (.sequence elements)) :
    a.mirror.kind? id = some (.sequence elements.reverse) := by
  obtain ⟨n, hn, hkind⟩ := kind?_eq_some.1 h
  rw [kind?, node?_mirror, hn, Option.map_some, Option.map_some, Node.mirror, hkind]

theorem AllEmpty.mirror {es : List NodeId} (h : a.AllEmpty es) : a.mirror.AllEmpty es.reverse := by
  intro e he
  rw [literal?_mirror]
  exact h e (List.mem_reverse.1 he)

/-! ### Derivations -/

mutual

/-- The mirror image derives the reverse. -/
theorem Derives.mirror {id : NodeId} {ts : List NodeId} (h : a.Derives id ts) :
    a.mirror.Derives id ts.reverse := by
  match h with
  | .terminal hid =>
    rw [List.reverse_singleton]
    exact .terminal (by rwa [isTerminal_mirror])
  | .choice hid hx hts => exact .choice (kind?_mirror_choice hid) hx hts.mirror
  | .sequence hid hts => exact .sequence (kind?_mirror_sequence hid) hts.mirror

theorem DerivesAll.mirror {xs ts : List NodeId} (h : a.DerivesAll xs ts) :
    a.mirror.DerivesAll xs.reverse ts.reverse := by
  match h with
  | .nil => exact .nil
  | .cons hx hrest =>
    rw [List.reverse_cons, List.reverse_append]
    exact hrest.mirror.append (DerivesAll.singleton.2 hx.mirror)

end

/-! ### Frontiers -/

/-- How far the leading nodes go depends on their nullable flags. -/
theorem untilSolid_eq_of_isNullable {b : Arena} {xs : List NodeId}
    (h : ∀ x ∈ xs, b.isNullable x = a.isNullable x) : b.untilSolid xs = a.untilSolid xs := by
  induction xs with
  | nil => rfl
  | cons x xs ih =>
    obtain ⟨hx, hxs⟩ := List.forall_mem_cons.1 h
    rw [untilSolid, untilSolid, hx, ih hxs]

theorem untilSolid_mirror (a : Arena) (xs : List NodeId) :
    a.mirror.untilSolid xs = a.untilSolid xs :=
  untilSolid_eq_of_isNullable fun x _ => congrFun (isNullable_mirror a) x

theorem graph_trailing_eq_mirror (a : Arena) :
    a.graph a.trailing = a.mirror.graph a.mirror.leading := by
  have hnext : (a.graph a.trailing).next = (a.mirror.graph a.mirror.leading).next := by
    funext id
    show (a.node? id).elim [] a.trailing = (a.mirror.node? id).elim [] a.mirror.leading
    rw [node?_mirror]
    cases a.node? id with
    | none => rfl
    | some n =>
      obtain ⟨kind, props, nullable⟩ := n
      cases kind with
      | sequence elements => exact (untilSolid_mirror a elements.reverse).symm
      | literal | generation | lexeme | nested | choice => rfl
  have hsize : (a.graph a.trailing).size = (a.mirror.graph a.mirror.leading).size :=
    (Array.size_map).symm
  exact congrArg₂ Digraph.mk hsize hnext

/-- **What comes last is what comes first in the mirror image.** -/
theorem lastFrontier_eq_mirror (a : Arena) (xs : List NodeId) :
    a.lastFrontier xs = a.mirror.firstFrontier xs.reverse := by
  rw [lastFrontier, firstFrontier, graph_trailing_eq_mirror, untilSolid_mirror, isTerminal_mirror]

end Arena

end GuidedGrammar
