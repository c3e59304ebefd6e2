import Mathlib.Logic.Relation
import GuidedGrammar.Graph.Traversal

/-!
# What a walk finds

A walk over a graph finds exactly what can be reached from the vertices it starts with, each
vertex once (`mem_depthFirst`, `nodup_depthFirst`, and the same for `breadthFirst`). From a single
root it finds the root first (`head?_depthFirst`, `head?_breadthFirst`).

All of this holds for any schedule that keeps the members of both of its lists. The proofs follow
the recursion of the walk; the invariant is that the vertices found so far are closed under edges
up to the pending ones.
-/

namespace GuidedGrammar.Digraph

variable {g : Digraph}

/-! ### Reachability -/

/-- An edge of the graph. -/
def Edge (g : Digraph) (u v : Nat) : Prop :=
  v ∈ g.successors u

/-- Reachability along edges, in any number of steps. -/
def Reaches (g : Digraph) : Nat → Nat → Prop :=
  Relation.ReflTransGen g.Edge

/-- Reachability from one of several roots. -/
def ReachesFrom (g : Digraph) (roots : List Nat) (v : Nat) : Prop :=
  ∃ r ∈ roots, g.Reaches r v

theorem Reaches.refl (v : Nat) : g.Reaches v v :=
  Relation.ReflTransGen.refl

theorem Reaches.head {u v w : Nat} (huv : g.Edge u v) (hvw : g.Reaches v w) : g.Reaches u w :=
  Relation.ReflTransGen.head huv hvw

theorem Reaches.tail {u v w : Nat} (huv : g.Reaches u v) (hvw : g.Edge v w) : g.Reaches u w :=
  Relation.ReflTransGen.tail huv hvw

theorem Reaches.trans {u v w : Nat} (huv : g.Reaches u v) (hvw : g.Reaches v w) :
    g.Reaches u w :=
  Relation.ReflTransGen.trans huv hvw

theorem Reaches.cases_head {u w : Nat} (h : g.Reaches u w) :
    u = w ∨ ∃ v, g.Edge u v ∧ g.Reaches v w :=
  Relation.ReflTransGen.cases_head h

@[simp] theorem reachesFrom_nil (v : Nat) : ¬ g.ReachesFrom [] v := by
  rintro ⟨r, hr, _⟩
  cases hr

theorem reachesFrom_cons {r v : Nat} {rest : List Nat} :
    g.ReachesFrom (r :: rest) v ↔ g.Reaches r v ∨ g.ReachesFrom rest v := by
  simp only [ReachesFrom, List.mem_cons, exists_eq_or_imp]

@[simp] theorem reachesFrom_singleton {r v : Nat} : g.ReachesFrom [r] v ↔ g.Reaches r v := by
  rw [reachesFrom_cons]
  exact or_iff_left (reachesFrom_nil v)

/-- A vertex outside the graph reaches only itself. -/
theorem Reaches.eq_of_le {u v : Nat} (hu : g.size ≤ u) (h : g.Reaches u v) : u = v := by
  rcases h.cases_head with rfl | ⟨w, hw, _⟩
  · rfl
  · rw [Edge, successors, if_neg (Nat.not_lt.2 hu)] at hw
    cases hw

/-- What leaves a set that is closed up to a border passes through the border. -/
theorem Reaches.mem_or_reachesFrom {found : Array Nat} {border : List Nat}
    (hclosed : ∀ u ∈ found, ∀ v, g.Edge u v → v ∈ found ∨ v ∈ border) {u v : Nat}
    (hu : u ∈ found) (h : g.Reaches u v) : v ∈ found ∨ g.ReachesFrom border v := by
  induction h with
  | refl => exact Or.inl hu
  | tail _ hedge ih =>
    rcases ih with hmem | ⟨r, hr, hreach⟩
    · rcases hclosed _ hmem _ hedge with hv | hv
      · exact Or.inl hv
      · exact Or.inr ⟨_, hv, Reaches.refl _⟩
    · exact Or.inr ⟨r, hr, hreach.tail hedge⟩

/-! ### The walk -/

section Walk

variable {schedule : List Nat → List Nat → List Nat}

/-- At the start of a walk, nothing is marked and nothing is listed. -/
theorem mem_empty_iff (v : Nat) : v ∈ (∅ : Std.TreeSet Nat) ↔ v ∈ (#[] : Array Nat) :=
  iff_of_false Std.TreeSet.not_mem_emptyc (Array.not_mem_empty v)

/-- Marking a vertex and listing it keeps the marked vertices the listed ones. -/
theorem mem_insert_iff_mem_push {seen : Std.TreeSet Nat} {found : Array Nat}
    (hseen : ∀ v, v ∈ seen ↔ v ∈ found) (u v : Nat) : v ∈ seen.insert u ↔ v ∈ found.push u := by
  rw [Std.TreeSet.mem_insert, Std.LawfulEqCmp.compare_eq_iff_eq, Array.mem_push, hseen, eq_comm,
    or_comm]

/-- Listing the first pending vertex keeps the listed vertices closed up to a border that has its
successors and the other pending vertices. -/
theorem closed_push {found : Array Nat} {u : Nat} {rest border : List Nat}
    (hclosed : ∀ x ∈ found, ∀ y, g.Edge x y → y ∈ found ∨ y ∈ u :: rest)
    (hnew : ∀ y, g.Edge u y → y = u ∨ y ∈ border) (hrest : ∀ y ∈ rest, y ∈ border) :
    ∀ x ∈ found.push u, ∀ y, g.Edge x y → y ∈ found.push u ∨ y ∈ border := by
  intro x hx y hxy
  rw [Array.mem_push]
  rcases Array.mem_push.1 hx with hx | rfl
  · rcases hclosed x hx y hxy with hy | hy
    · exact Or.inl (Or.inl hy)
    · rcases List.mem_cons.1 hy with rfl | hy
      · exact Or.inl (Or.inr rfl)
      · exact Or.inr (hrest y hy)
  · exact (hnew y hxy).imp_left Or.inr

/-- What a walk finds: what it has found already, and what the pending vertices reach. The
vertices found already have to be closed under edges, up to the pending ones. -/
theorem mem_walk (hschedule : ∀ new rest x, x ∈ schedule new rest ↔ x ∈ new ∨ x ∈ rest)
    (pending : List Nat) (seen : Std.TreeSet Nat) (found : Array Nat)
    (hseen : ∀ v, v ∈ seen ↔ v ∈ found)
    (hclosed : ∀ u ∈ found, ∀ v, g.Edge u v → v ∈ found ∨ v ∈ pending) (v : Nat) :
    v ∈ g.walk schedule pending seen found ↔ v ∈ found ∨ g.ReachesFrom pending v := by
  induction pending, seen, found using walk.induct g schedule with
  | case1 seen found =>
    rw [walk]
    exact (or_iff_left (reachesFrom_nil v)).symm
  | case2 seen found u rest hu ih =>
    -- `u` was found before, so what it reaches is found, or reached from the other pending ones
    have hborder : ∀ x ∈ found, ∀ y, g.Edge x y → y ∈ found ∨ y ∈ rest := by
      intro x hx y hxy
      rcases hclosed x hx y hxy with hy | hy
      · exact Or.inl hy
      · rcases List.mem_cons.1 hy with rfl | hy
        · exact Or.inl ((hseen _).1 hu)
        · exact Or.inr hy
    rw [walk, if_pos hu, ih hseen hborder, reachesFrom_cons]
    constructor
    · rintro (hv | hv)
      · exact Or.inl hv
      · exact Or.inr (Or.inr hv)
    · rintro (hv | hv | hv)
      · exact Or.inl hv
      · exact Reaches.mem_or_reachesFrom hborder ((hseen u).1 hu) hv
      · exact Or.inr hv
  | case3 seen found u rest hu hlt ih =>
    -- `u` is new, and its successors become pending
    have hsucc : ∀ y, g.Edge u y ↔ y ∈ g.next u := by
      intro y
      rw [Edge, successors, if_pos hlt]
    have hborder : ∀ x ∈ found.push u, ∀ y, g.Edge x y →
        y ∈ found.push u ∨ y ∈ schedule (g.next u) rest :=
      closed_push hclosed
        (fun y huy => Or.inr ((hschedule _ _ y).2 (Or.inl ((hsucc y).1 huy))))
        (fun y hy => (hschedule _ _ y).2 (Or.inr hy))
    rw [walk, if_neg hu, if_pos hlt, ih (mem_insert_iff_mem_push hseen u) hborder,
      Array.mem_push, reachesFrom_cons]
    constructor
    · rintro ((hv | rfl) | ⟨r, hr, hv⟩)
      · exact Or.inl hv
      · exact Or.inr (Or.inl (Reaches.refl _))
      · rcases (hschedule _ _ _).1 hr with hr | hr
        · exact Or.inr (Or.inl (hv.head ((hsucc r).2 hr)))
        · exact Or.inr (Or.inr ⟨r, hr, hv⟩)
    · rintro (hv | hv | ⟨r, hr, hv⟩)
      · exact Or.inl (Or.inl hv)
      · rcases hv.cases_head with rfl | ⟨w, hw, hv⟩
        · exact Or.inl (Or.inr rfl)
        · exact Or.inr ⟨w, (hschedule _ _ _).2 (Or.inl ((hsucc w).1 hw)), hv⟩
      · exact Or.inr ⟨r, (hschedule _ _ _).2 (Or.inr hr), hv⟩
  | case4 seen found u rest hu hlt ih =>
    -- `u` is outside the graph, and reaches only itself
    have hout : g.size ≤ u := Nat.not_lt.1 hlt
    have hloop : ∀ y, g.Edge u y → y = u := fun y huy =>
      (Reaches.eq_of_le hout (Relation.ReflTransGen.single huy)).symm
    have hborder : ∀ x ∈ found.push u, ∀ y, g.Edge x y → y ∈ found.push u ∨ y ∈ rest :=
      closed_push hclosed (fun y huy => Or.inl (hloop y huy)) fun y hy => hy
    rw [walk, if_neg hu, if_neg hlt, ih (mem_insert_iff_mem_push hseen u) hborder,
      Array.mem_push, reachesFrom_cons, or_assoc]
    refine or_congr_right (or_congr_left ?_)
    constructor
    · rintro rfl
      exact Reaches.refl _
    · intro hv
      exact (Reaches.eq_of_le hout hv).symm

/-- The walk lists no vertex twice. -/
theorem nodup_walk (pending : List Nat) (seen : Std.TreeSet Nat) (found : Array Nat)
    (hseen : ∀ v, v ∈ seen ↔ v ∈ found) (hnodup : found.toList.Nodup) :
    (g.walk schedule pending seen found).toList.Nodup := by
  -- a node is put behind the found ones only when it is not among them
  have hpush : ∀ {seen : Std.TreeSet Nat} {found : Array Nat} {u : Nat},
      (∀ v, v ∈ seen ↔ v ∈ found) → u ∉ seen → found.toList.Nodup →
        (found.push u).toList.Nodup := by
    intro seen found u hseen hu hnodup
    rw [Array.toList_push, List.nodup_append]
    refine ⟨hnodup, List.pairwise_singleton _ u, ?_⟩
    intro x hx y hy hxy
    rw [List.mem_singleton.1 hy] at hxy
    exact hu ((hseen u).2 (hxy ▸ Array.mem_toList_iff.1 hx))
  induction pending, seen, found using walk.induct g schedule with
  | case1 seen found =>
    rw [walk]
    exact hnodup
  | case2 seen found u rest hu ih =>
    rw [walk, if_pos hu]
    exact ih hseen hnodup
  | case3 seen found u rest hu hlt ih =>
    rw [walk, if_neg hu, if_pos hlt]
    exact ih (mem_insert_iff_mem_push hseen u) (hpush hseen hu hnodup)
  | case4 seen found u rest hu hlt ih =>
    rw [walk, if_neg hu, if_neg hlt]
    exact ih (mem_insert_iff_mem_push hseen u) (hpush hseen hu hnodup)

/-- The walk lists first what it has found already. -/
theorem prefix_walk (pending : List Nat) (seen : Std.TreeSet Nat) (found : Array Nat) :
    found.toList <+: (g.walk schedule pending seen found).toList := by
  induction pending, seen, found using walk.induct g schedule with
  | case1 seen found =>
    unfold walk
    exact List.prefix_rfl
  | case2 seen found u rest hu ih =>
    rw [walk, if_pos hu]
    exact ih
  | case3 seen found u rest hu hlt ih =>
    rw [walk, if_neg hu, if_pos hlt]
    exact (Array.toList_push ▸ List.prefix_append _ _).trans ih
  | case4 seen found u rest hu hlt ih =>
    rw [walk, if_neg hu, if_neg hlt]
    exact (Array.toList_push ▸ List.prefix_append _ _).trans ih

/-- The walk from one root starts with it. -/
theorem head?_walk (root : Nat) :
    (g.walk schedule [root] ∅ #[]).toList.head? = some root := by
  -- after the first step the root is the first vertex found, and it stays that
  have hfirst : [root] <+: (g.walk schedule [root] ∅ #[]).toList := by
    rw [walk, if_neg Std.TreeSet.not_mem_emptyc]
    split
    · exact prefix_walk _ _ #[root]
    · exact prefix_walk _ _ #[root]
  obtain ⟨rest, hrest⟩ := hfirst
  rw [← hrest]
  rfl

end Walk

/-! ### The two orders -/

/-- **Depth-first search finds what the roots reach.** -/
theorem mem_depthFirst {roots : List Nat} {v : Nat} :
    v ∈ g.depthFirst roots ↔ g.ReachesFrom roots v := by
  rw [depthFirst, Array.mem_toList_iff, mem_walk]
  · exact or_iff_right (Array.not_mem_empty v)
  · exact fun new rest x => List.mem_append
  · exact mem_empty_iff
  · exact fun u hu => absurd hu (Array.not_mem_empty u)

theorem nodup_depthFirst (roots : List Nat) : (g.depthFirst roots).Nodup :=
  nodup_walk roots ∅ #[] mem_empty_iff List.nodup_nil

theorem head?_depthFirst (root : Nat) : (g.depthFirst [root]).head? = some root :=
  head?_walk root

/-- Breadth-first search finds what the roots reach. -/
theorem mem_breadthFirst {roots : List Nat} {v : Nat} :
    v ∈ g.breadthFirst roots ↔ g.ReachesFrom roots v := by
  rw [breadthFirst, Array.mem_toList_iff, mem_walk]
  · exact or_iff_right (Array.not_mem_empty v)
  · exact fun new rest x => List.mem_append.trans or_comm
  · exact mem_empty_iff
  · exact fun u hu => absurd hu (Array.not_mem_empty u)

theorem nodup_breadthFirst (roots : List Nat) : (g.breadthFirst roots).Nodup :=
  nodup_walk roots ∅ #[] mem_empty_iff List.nodup_nil

theorem head?_breadthFirst (root : Nat) : (g.breadthFirst [root]).head? = some root :=
  head?_walk root

end GuidedGrammar.Digraph
