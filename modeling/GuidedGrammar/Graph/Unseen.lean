import Std.Data.TreeMap
import Std.Data.TreeSet

/-!
# Vertices still unseen

Every walk of this library keeps the set of vertices it has already met, or a map from them to what
it knows of them, and expands each vertex below a bound at most once. This module counts the
vertices below the bound that are still unseen; the walks take that count as the leading part of
their termination measure.

Main statements: meeting a vertex never raises the count (`unseen_insert_le`), and meeting a
vertex below the bound for the first time lowers it (`unseen_insert_lt`); the same for maps
(`unvalued_insert_le`, `unvalued_insert_lt`).
-/

namespace GuidedGrammar.Graph

/-! ### Counting with a shrinking predicate -/

/-- A predicate that holds less often, and strictly less often at one member, is counted strictly
less often. -/
theorem countP_lt_of_imp {α : Type} {p q : α → Bool} {xs : List α}
    (hpq : ∀ x ∈ xs, p x = true → q x = true) {a : α} (ha : a ∈ xs) (hq : q a = true)
    (hp : p a = false) : xs.countP p < xs.countP q := by
  induction xs with
  | nil => simp at ha
  | cons x xs ih =>
    have hle : xs.countP p ≤ xs.countP q :=
      List.countP_mono_left fun y hy => hpq y (List.mem_cons_of_mem _ hy)
    rcases List.mem_cons.1 ha with rfl | ha
    · simp only [List.countP_cons, hp, hq]
      simpa using Nat.lt_succ_of_le hle
    · have hlt := ih (fun y hy => hpq y (List.mem_cons_of_mem _ hy)) ha
      have hx := hpq x (List.mem_cons_self ..)
      simp only [List.countP_cons]
      cases hpx : p x
      · simp only [Bool.false_eq_true, if_false]
        omega
      · simp only [hx hpx, if_true]
        omega

/-! ### The count -/

/-- How many of the vertices `0, …, bound - 1` are not in `seen`. -/
def unseen (bound : Nat) (seen : Std.TreeSet Nat) : Nat :=
  (List.range bound).countP fun v => !seen.contains v

theorem unseen_insert_le (bound : Nat) (seen : Std.TreeSet Nat) (v : Nat) :
    unseen bound (seen.insert v) ≤ unseen bound seen := by
  apply List.countP_mono_left
  intro x _ hx
  simp only [Std.TreeSet.contains_insert, Bool.not_or, Bool.and_eq_true] at hx
  exact hx.2

theorem unseen_insert_lt {bound : Nat} {seen : Std.TreeSet Nat} {v : Nat} (hv : v < bound)
    (hs : v ∉ seen) : unseen bound (seen.insert v) < unseen bound seen := by
  refine countP_lt_of_imp ?_ (List.mem_range.2 hv) ?_ ?_
  · intro x _ hx
    simp only [Std.TreeSet.contains_insert, Bool.not_or, Bool.and_eq_true] at hx
    exact hx.2
  · simpa only [Bool.not_eq_true', ← Bool.not_eq_true] using
      fun h => hs (Std.TreeSet.contains_iff_mem.1 h)
  · simp

/-- How many of the vertices `0, …, bound - 1` have no value in `values`. -/
def unvalued {α : Type} (bound : Nat) (values : Std.TreeMap Nat α) : Nat :=
  (List.range bound).countP fun v => !values.contains v

theorem unvalued_insert_le {α : Type} (bound : Nat) (values : Std.TreeMap Nat α) (v : Nat) (a : α) :
    unvalued bound (values.insert v a) ≤ unvalued bound values := by
  apply List.countP_mono_left
  intro x _ hx
  simp only [Std.TreeMap.contains_insert, Bool.not_or, Bool.and_eq_true] at hx
  exact hx.2

theorem unvalued_insert_lt {α : Type} {bound : Nat} {values : Std.TreeMap Nat α} {v : Nat} (a : α)
    (hv : v < bound) (hnone : values[v]? = none) :
    unvalued bound (values.insert v a) < unvalued bound values := by
  refine countP_lt_of_imp ?_ (List.mem_range.2 hv) ?_ ?_
  · intro x _ hx
    simp only [Std.TreeMap.contains_insert, Bool.not_or, Bool.and_eq_true] at hx
    exact hx.2
  · rw [Std.TreeMap.contains_eq_isSome_getElem?, hnone]
    rfl
  · simp only [Std.TreeMap.contains_insert_self, Bool.not_true]

end GuidedGrammar.Graph
