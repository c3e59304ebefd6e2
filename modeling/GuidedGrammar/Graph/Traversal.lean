import GuidedGrammar.Graph.Unseen

/-!
# Walks over a finite directed graph

A graph here is a number of vertices and an ordered list of successors for each. A walk keeps a
list of vertices to visit; it visits the first of them unless it has been visited before, and
puts that vertex's successors into the list. Where they are put makes the walk depth first or
breadth first. A vertex outside the graph may be named by an edge: it is visited, and has no
successors.

The walk keeps its own list of pending vertices, so the depth of the graph is not limited by the
call stack, and each vertex is expanded at most once, so shared parts cost nothing extra. A
depth-first walk can also count how often it arrives at each vertex.
-/

namespace GuidedGrammar

/-- **A finite directed graph** with ordered successor lists. The vertices are `0, …, size - 1`. -/
structure Digraph where
  /-- The number of vertices. -/
  size : Nat
  /-- The successors of a vertex, in order, possibly with repetitions. -/
  next : Nat → List Nat

namespace Digraph

open GuidedGrammar.Graph (unseen unseen_insert_le unseen_insert_lt unvalued unvalued_insert_le
  unvalued_insert_lt)

/-- **Successors** of `v`. A vertex outside the graph has none. -/
def successors (g : Digraph) (v : Nat) : List Nat :=
  if v < g.size then g.next v else []

/-- **The walk.** `schedule new rest` says where the successors `new` of the vertex just visited
go among the vertices `rest` that were already pending. The visited vertices are appended to
`found` in the order of their first visit. -/
def walk (g : Digraph) (schedule : List Nat → List Nat → List Nat)
    (pending : List Nat) (seen : Std.TreeSet Nat) (found : Array Nat) : Array Nat :=
  match pending with
  | [] => found
  | v :: rest =>
    if v ∈ seen then
      g.walk schedule rest seen found
    else if v < g.size then
      g.walk schedule (schedule (g.next v) rest) (seen.insert v) (found.push v)
    else
      g.walk schedule rest (seen.insert v) (found.push v)
termination_by (unseen g.size seen, pending.length)
decreasing_by
  · exact Prod.Lex.right _ (Nat.lt_succ_self _)
  · exact Prod.Lex.left _ _ (unseen_insert_lt ‹_› ‹_›)
  · rcases Nat.lt_or_eq_of_le (unseen_insert_le g.size seen v) with h | h
    · exact Prod.Lex.left _ _ h
    · rw [h]
      exact Prod.Lex.right _ (Nat.lt_succ_self _)

/-- **Depth-first preorder** of what is reachable from `roots`: a vertex comes before what it
leads to, and what its first successor leads to before its second successor. -/
def depthFirst (g : Digraph) (roots : List Nat) : List Nat :=
  (g.walk (fun new rest => new ++ rest) roots ∅ #[]).toList

/-- **Breadth-first order** of what is reachable from `roots`: the order of first encounter when
the vertices are expanded in the order in which they were encountered. -/
def breadthFirst (g : Digraph) (roots : List Nat) : List Nat :=
  (g.walk (fun new rest => rest ++ new) roots ∅ #[]).toList

/-- **Counts arrivals** along a depth-first walk. The vertices with a count have been visited
before; arriving at one of them again only raises its count. -/
def countArrivals (g : Digraph) (pending : List Nat) (counts : Std.TreeMap Nat Nat) :
    Std.TreeMap Nat Nat :=
  match pending with
  | [] => counts
  | v :: rest =>
    match _hcount : counts[v]? with
    | some n => g.countArrivals rest (counts.insert v (n + 1))
    | none =>
      if v < g.size then g.countArrivals (g.next v ++ rest) (counts.insert v 1)
      else g.countArrivals rest (counts.insert v 1)
termination_by (unvalued g.size counts, pending.length)
decreasing_by
  · rcases Nat.lt_or_eq_of_le (unvalued_insert_le g.size counts v (n + 1)) with h | h
    · exact Prod.Lex.left _ _ h
    · rw [h]
      exact Prod.Lex.right _ (Nat.lt_succ_self _)
  · exact Prod.Lex.left _ _ (unvalued_insert_lt 1 ‹_› _hcount)
  · rcases Nat.lt_or_eq_of_le (unvalued_insert_le g.size counts v 1) with h | h
    · exact Prod.Lex.left _ _ h
    · rw [h]
      exact Prod.Lex.right _ (Nat.lt_succ_self _)

/-- **How often one arrives at each vertex** when everything reachable from `roots` is expanded
once. -/
def arrivals (g : Digraph) (roots : List Nat) : Std.TreeMap Nat Nat :=
  g.countArrivals roots ∅

end Digraph

end GuidedGrammar
