import GuidedGrammar.Proofs.Data.List
import GuidedGrammar.Proofs.Graph.Renaming

/-!
# The orders in which vertices are found

A walk keeps its own list of pending vertices. What it finds has a description without one.

Depth-first search lists the first visits of the plain recursive walk (`depthFirst_of_preorder`).
That walk goes down again each time it meets a vertex (`Preorder`), so it comes to an end only where
nothing reaches itself.

Breadth-first search lists vertices as they are encountered: the vertices that have been listed are
processed one after the other, and the successors of each that are not listed yet go to the end of
the list (`encounters_breadthFirst`). The same holds of any beginning of the search
(`exists_encounters_breadthFirst`).

What the walk does, without the marks that it keeps to be fast, is a relation with one constructor
for each of its steps (`Walks`).
-/

namespace GuidedGrammar

namespace Digraph

variable {g : Digraph} {vs walk : List Nat} {v : Nat}

/-! ### Step by step -/

section Walks

variable {schedule : List Nat → List Nat → List Nat} {pending rest found all : List Nat}

/-- **A walk, step by step**: from the pending vertices, and those found so far, to all that the
walk finds. -/
inductive Walks (g : Digraph) (schedule : List Nat → List Nat → List Nat) :
    List Nat → List Nat → List Nat → Prop
  | nil (found : List Nat) : Walks g schedule [] found found
  | old {v : Nat} {rest found all : List Nat} (hv : v ∈ found)
    (hrest : Walks g schedule rest found all) : Walks g schedule (v :: rest) found all
  | new {v : Nat} {rest found all : List Nat} (hv : v ∉ found)
    (hrest : Walks g schedule (schedule (g.successors v) rest) (found ++ [v]) all) :
    Walks g schedule (v :: rest) found all

/-- The marks tell which vertices have been found. -/
theorem walks_walk (hschedule : IsSchedule schedule) (pending : List Nat) (seen : Std.TreeSet Nat)
    (found : Array Nat) (hseen : ∀ v, v ∈ seen ↔ v ∈ found) :
    g.Walks schedule pending found.toList (g.walk schedule pending seen found).toList := by
  induction pending, seen, found using walk_induction hschedule g with
  | nil seen found =>
    rw [Digraph.walk]
    exact .nil _
  | old v rest seen found hv ih =>
    rw [walk_of_mem hv]
    exact .old (Array.mem_toList_iff.2 ((hseen v).1 hv)) (ih hseen)
  | new v rest seen found hv ih =>
    have hrest := ih (mem_insert_iff_mem_push hseen v)
    rw [Array.toList_push] at hrest
    rw [walk_of_not_mem hschedule hv]
    exact .new (fun hmem => hv ((hseen v).2 (Array.mem_toList_iff.1 hmem))) hrest

theorem walks_depthFirst : g.Walks (fun new rest => new ++ rest) vs [] (g.depthFirst vs) :=
  walks_walk isSchedule_depthFirst vs ∅ #[] mem_empty_iff

theorem walks_breadthFirst : g.Walks (fun new rest => rest ++ new) vs [] (g.breadthFirst vs) :=
  walks_walk isSchedule_breadthFirst vs ∅ #[] mem_empty_iff

namespace Walks

theorem of_mem (h : g.Walks schedule (v :: rest) found all) (hv : v ∈ found) :
    g.Walks schedule rest found all := by
  cases h with
  | old _ hrest => exact hrest
  | new hv' => exact absurd hv hv'

theorem of_not_mem (h : g.Walks schedule (v :: rest) found all) (hv : v ∉ found) :
    g.Walks schedule (schedule (g.successors v) rest) (found ++ [v]) all := by
  cases h with
  | old hv' => exact absurd hv' hv
  | new _ hrest => exact hrest

theorem prefix_all (h : g.Walks schedule pending found all) : found <+: all := by
  induction h with
  | nil found => exact List.prefix_rfl
  | old _ _ ih => exact ih
  | new _ _ ih => exact (List.prefix_append _ _).trans ih

/-- In a breadth-first walk, what is pending is found next, in its order. -/
theorem prefix_eraseDups (h : g.Walks (fun new rest => rest ++ new) pending found all)
    (hnodup : found.Nodup) : (found ++ pending).eraseDups <+: all := by
  induction h with
  | nil found =>
    have hfound : (found ++ []).eraseDups = found := by
      rw [List.append_nil, eraseDups_of_nodup hnodup]
    exact ⟨[], (List.append_nil _).trans hfound⟩
  | old hv _ ih =>
    rw [eraseDups_append_cons_of_mem hv]
    exact ih hnodup
  | @new v rest found all hv _ ih =>
    have hnext := ih (nodup_concat hnodup hv)
    rw [List.append_assoc, List.singleton_append, ← List.cons_append, ← List.append_assoc] at hnext
    exact (prefix_eraseDups_append _ _).trans hnext

end Walks

end Walks

/-! ### Depth first -/

/-- **The plain walk** down from vertices: each of them in turn, followed by the walk down from its
successors. Whatever is met again is walked again. -/
inductive Preorder (g : Digraph) : List Nat → List Nat → Prop
  | nil : Preorder g [] []
  | cons {v : Nat} {rest below after : List Nat} (hbelow : Preorder g (g.successors v) below)
    (hafter : Preorder g rest after) : Preorder g (v :: rest) (v :: below ++ after)

/-- There is at most one plain walk. -/
theorem Preorder.unique {walk' : List Nat} (h : g.Preorder vs walk) (h' : g.Preorder vs walk') :
    walk = walk' := by
  induction h generalizing walk' with
  | nil =>
    cases h'
    rfl
  | cons _ _ ihbelow ihafter =>
    cases h' with
    | cons hbelow' hafter' => rw [ihbelow hbelow', ihafter hafter']

/-- Where all edges lead down, there is a plain walk. -/
theorem exists_preorder (hdown : ∀ u v, g.Edge u v → v < u) {n : Nat} (hvs : ∀ v ∈ vs, v < n) :
    ∃ walk, g.Preorder vs walk := by
  induction n generalizing vs with
  | zero =>
    obtain rfl : vs = [] :=
      List.eq_nil_iff_forall_not_mem.2 fun v hv => Nat.not_lt_zero v (hvs v hv)
    exact ⟨[], .nil⟩
  | succ n ih =>
    induction vs with
    | nil => exact ⟨[], .nil⟩
    | cons v rest ihrest =>
      obtain ⟨hv, hrest⟩ := List.forall_mem_cons.1 hvs
      obtain ⟨below, hbelow⟩ := @ih (g.successors v) fun w hw =>
        Nat.lt_of_lt_of_le (hdown v w hw) (Nat.le_of_lt_succ hv)
      obtain ⟨after, hafter⟩ := ihrest hrest
      exact ⟨_, .cons hbelow hafter⟩

theorem reaches_iff_successors {w : Nat} :
    g.Reaches v w ↔ w = v ∨ g.ReachesFrom (g.successors v) w := by
  constructor
  · intro h
    rcases h.cases_head with rfl | ⟨u, hu, hw⟩
    · exact Or.inl rfl
    · exact Or.inr ⟨u, hu, hw⟩
  · rintro (rfl | ⟨u, hu, hw⟩)
    · exact .refl w
    · exact hw.head hu

/-- The plain walk visits what is reached. -/
theorem Preorder.mem_iff (h : g.Preorder vs walk) {w : Nat} : w ∈ walk ↔ g.ReachesFrom vs w := by
  induction h with
  | nil => exact iff_of_false List.not_mem_nil (reachesFrom_nil w)
  | cons _ _ ihbelow ihafter =>
    rw [List.mem_append, List.mem_cons, ihbelow, ihafter, reachesFrom_cons, reaches_iff_successors]

/-- Below each vertex that it visits, the plain walk is shorter. -/
theorem Preorder.exists_below (h : g.Preorder vs walk) (hv : v ∈ walk) :
    ∃ below, g.Preorder (g.successors v) below ∧ below.length < walk.length := by
  induction h with
  | nil => exact absurd hv List.not_mem_nil
  | @cons u rest below after hbelow _ ihbelow ihafter =>
    rw [List.length_append, List.length_cons]
    rcases List.mem_append.1 hv with hv | hv
    · rcases List.mem_cons.1 hv with rfl | hv
      · exact ⟨below, hbelow, by omega⟩
      · obtain ⟨below', hbelow', hlt⟩ := ihbelow hv
        exact ⟨below', hbelow', by omega⟩
    · obtain ⟨below', hbelow', hlt⟩ := ihafter hv
      exact ⟨below', hbelow', by omega⟩

/-- Where there is a plain walk, nothing reaches itself. -/
theorem Preorder.not_reachesFrom_successors (h : g.Preorder (g.successors v) walk) :
    ¬ g.ReachesFrom (g.successors v) v := by
  intro hv
  obtain ⟨below, hbelow, hlt⟩ := h.exists_below (h.mem_iff.2 hv)
  rw [hbelow.unique h] at hlt
  exact Nat.lt_irrefl _ hlt

/-- Depth-first search visits the vertices of a plain walk for the first time, and goes on with
what was pending after them. What has been visited by the plain walk before is `done`; whatever the
vertices reach of it has been visited with all that is below it. -/
theorem walk_of_preorder (h : g.Preorder vs walk) (rest : List Nat) {seen : Std.TreeSet Nat}
    {found : Array Nat} {done : List Nat} (hseen : ∀ v, v ∈ seen ↔ v ∈ found)
    (hfound : found.toList = done.eraseDups)
    (hclosed : ∀ u ∈ done, g.ReachesFrom vs u → ∀ w, g.Reaches u w → w ∈ done) :
    ∃ seen' found', g.walk (fun new rest => new ++ rest) (vs ++ rest) seen found =
        g.walk (fun new rest => new ++ rest) rest seen' found' ∧
      (∀ v, v ∈ seen' ↔ v ∈ found') ∧ found'.toList = (done ++ walk).eraseDups := by
  induction h generalizing rest seen found done with
  | nil => exact ⟨seen, found, rfl, hseen, by rw [List.append_nil, hfound]⟩
  | @cons v after below walk hbelow hafter ihbelow ihafter =>
    have hmem : v ∈ seen ↔ v ∈ done := by
      rw [hseen, ← Array.mem_toList_iff, hfound, List.mem_eraseDups]
    -- what is below `v` is visited next, or has been visited; either way it is done then
    have hnext : ∃ seen' found',
        g.walk (fun new rest => new ++ rest) (v :: (after ++ rest)) seen found =
          g.walk (fun new rest => new ++ rest) (after ++ rest) seen' found' ∧
        (∀ v, v ∈ seen' ↔ v ∈ found') ∧ found'.toList = (done ++ (v :: below)).eraseDups := by
      by_cases hv : v ∈ seen
      · have hdone : ∀ w ∈ v :: below, w ∈ done := by
          intro w hw
          refine hclosed v (hmem.1 hv) ⟨v, List.mem_cons_self .., .refl v⟩ w ?_
          rw [reaches_iff_successors, ← hbelow.mem_iff]
          exact List.mem_cons.1 hw
        exact ⟨seen, found, walk_of_mem hv, hseen, by rw [eraseDups_append_of_subset hdone, hfound]⟩
      · have hpush : (found.push v).toList = (done ++ [v]).eraseDups := by
          rw [Array.toList_push, hfound, eraseDups_concat_of_not_mem fun h => hv (hmem.2 h)]
        have hclosed' : ∀ u ∈ done ++ [v], g.ReachesFrom (g.successors v) u →
            ∀ w, g.Reaches u w → w ∈ done ++ [v] := by
          intro u hu hreach w hw
          rcases List.mem_append.1 hu with hu | hu
          · have hvu : g.Reaches v u := reaches_iff_successors.2 (Or.inr hreach)
            exact List.mem_append_left _ (hclosed u hu ⟨v, List.mem_cons_self .., hvu⟩ w hw)
          · rw [List.mem_singleton.1 hu] at hreach
            exact absurd hreach hbelow.not_reachesFrom_successors
        obtain ⟨seen', found', hwalk, hseen', hfound'⟩ :=
          ihbelow (after ++ rest) (mem_insert_iff_mem_push hseen v) hpush hclosed'
        rw [List.append_assoc, List.singleton_append] at hfound'
        exact ⟨seen', found', (walk_of_not_mem isSchedule_depthFirst hv).trans hwalk, hseen',
          hfound'⟩
    obtain ⟨seen', found', hwalk, hseen', hfound'⟩ := hnext
    have hclosed' : ∀ u ∈ done ++ (v :: below), g.ReachesFrom after u →
        ∀ w, g.Reaches u w → w ∈ done ++ (v :: below) := by
      intro u hu hreach w hw
      rcases List.mem_append.1 hu with hu | hu
      · obtain ⟨r, hr, hru⟩ := hreach
        exact List.mem_append_left _ (hclosed u hu ⟨r, List.mem_cons_of_mem _ hr, hru⟩ w hw)
      · have hvu : g.Reaches v u := by
          rw [reaches_iff_successors, ← hbelow.mem_iff]
          exact List.mem_cons.1 hu
        refine List.mem_append_right _ (List.mem_cons.2 ?_)
        rw [hbelow.mem_iff, ← reaches_iff_successors]
        exact hvu.trans hw
    obtain ⟨seen'', found'', hwalk', hseen'', hfound''⟩ := ihafter rest hseen' hfound' hclosed'
    rw [List.append_assoc] at hfound''
    exact ⟨seen'', found'', hwalk.trans hwalk', hseen'', hfound''⟩

/-- **Depth-first search lists the first visits of the plain walk.** -/
theorem depthFirst_of_preorder (h : g.Preorder vs walk) : g.depthFirst vs = walk.eraseDups := by
  have hclosed : ∀ u ∈ ([] : List Nat), g.ReachesFrom vs u → ∀ w, g.Reaches u w → w ∈ [] :=
    fun u hu => absurd hu List.not_mem_nil
  obtain ⟨seen, found, hwalk, -, hfound⟩ :=
    walk_of_preorder h [] mem_empty_iff List.eraseDups_nil.symm hclosed
  rw [List.append_nil, Digraph.walk] at hwalk
  rw [depthFirst, hwalk, hfound, List.nil_append]

end Digraph

/-! ### Breadth first -/

/-- What has been encountered from a root when `i` things have been processed. They are processed
in the order in which they were encountered, and what a thing refers to is encountered when it is
processed, unless it has been encountered before. -/
inductive Encounters (refers : Nat → List Nat → Prop) (root : Nat) : Nat → List Nat → Prop
  | root : Encounters refers root 0 [root]
  | process {i x : Nat} {found ys : List Nat} (h : Encounters refers root i found)
    (hx : found[i]? = some x) (hys : refers x ys) :
    Encounters refers root (i + 1) (found ++ ys).eraseDups

namespace Encounters

variable {refers : Nat → List Nat → Prop} {root i j : Nat} {found found' : List Nat}

theorem nodup (h : Encounters refers root i found) : found.Nodup := by
  cases h with
  | root => exact List.pairwise_singleton _ root
  | process => exact nodup_eraseDups _

/-- What has been encountered at some time is determined by what each thing refers to. -/
theorem unique (hrefers : ∀ x ys ys', refers x ys → refers x ys' → ys = ys')
    (h : Encounters refers root i found) (h' : Encounters refers root i found') :
    found = found' := by
  induction h generalizing found' with
  | root =>
    cases h'
    rfl
  | process _ hx hys ih =>
    cases h' with
    | process h' hx' hys' =>
      obtain rfl := ih h'
      obtain rfl := Option.some.inj (hx.symm.trans hx')
      rw [hrefers _ _ _ hys hys']

/-- At every earlier time something was processed. -/
theorem exists_processed (h : Encounters refers root j found) (hij : i < j) :
    ∃ found' x ys, Encounters refers root i found' ∧ found'[i]? = some x ∧ refers x ys := by
  induction h with
  | root => exact absurd hij (Nat.not_lt_zero i)
  | @process j x found ys h hx hys ih =>
    rcases Nat.lt_succ_iff_lt_or_eq.1 hij with hlt | rfl
    · exact ih hlt
    · exact ⟨found, x, ys, h, hx, hys⟩

/-- What has been encountered when everything has been processed is determined by what each
thing refers to. -/
theorem unique_of_length (hrefers : ∀ x ys ys', refers x ys → refers x ys' → ys = ys')
    (h : Encounters refers root found.length found)
    (h' : Encounters refers root found'.length found') : found = found' := by
  have hle : ∀ {found found' : List Nat}, Encounters refers root found.length found →
      Encounters refers root found'.length found' → found'.length ≤ found.length := by
    intro found found' h h'
    refine Nat.le_of_not_lt fun hlt => ?_
    obtain ⟨found'', x, -, h'', hx, -⟩ := h'.exists_processed hlt
    rw [h''.unique hrefers h] at hx
    exact Nat.lt_irrefl _ (List.getElem?_eq_some_iff.1 hx).1
  rw [Nat.le_antisymm (hle h' h) (hle h h')] at h
  exact h.unique hrefers h'

end Encounters

namespace Digraph

variable {g : Digraph}

/-! ### Encounters along a walk -/

/-- Every beginning of a breadth-first walk has been encountered when it has been processed, and
what the walk finds next is encountered next. -/
theorem Walks.encounters {refers : Nat → List Nat → Prop} {root : Nat}
    {pending found all before after : List Nat}
    (h : g.Walks (fun new rest => rest ++ new) pending found all) (hnodup : found.Nodup)
    (hencounters : Encounters refers root found.length (found ++ pending).eraseDups)
    (hall : all = before ++ after) (hbefore : found <+: before)
    (hrefers : ∀ v ∈ before, refers v (g.successors v)) :
    ∃ more, Encounters refers root before.length (before ++ more) ∧ more.head? = after.head? := by
  induction h with
  | nil found =>
    obtain rfl : before = found :=
      ((hall ▸ List.prefix_append before after : before <+: found).eq_of_length
        (Nat.le_antisymm (by rw [hall, List.length_append]; omega) hbefore.length_le))
    obtain rfl : after = [] := List.self_eq_append_right.1 hall
    rw [List.append_nil, eraseDups_of_nodup hnodup] at hencounters
    exact ⟨[], by rwa [List.append_nil], rfl⟩
  | old hv _ ih =>
    rw [eraseDups_append_cons_of_mem hv] at hencounters
    exact ih hnodup hencounters hall hbefore
  | @new v rest found all hv hwalk ih =>
    obtain ⟨more, hmore⟩ := exists_eraseDups_append_cons rest hnodup hv
    have hbegins : found ++ [v] <+: before ++ after := hall ▸ hwalk.prefix_all
    rcases Nat.lt_or_eq_of_le hbefore.length_le with hlt | heq
    · -- `v` is the next one to process
      have hbefore' : found ++ [v] <+: before := by
        refine List.prefix_of_prefix_length_le hbegins (List.prefix_append before after) ?_
        rw [List.length_append, List.length_singleton]
        exact hlt
      have hv' : v ∈ before :=
        hbefore'.subset (List.mem_append_right _ (List.mem_singleton_self v))
      have hnext : (found ++ v :: rest).eraseDups[found.length]? = some v := by
        rw [hmore, List.getElem?_append_right (Nat.le_refl _), Nat.sub_self]
        rfl
      have hprocess := hencounters.process hnext (hrefers v hv')
      rw [eraseDups_eraseDups_append] at hprocess
      refine ih (nodup_concat hnodup hv) ?_ hall hbefore'
      rw [List.length_append, List.length_singleton]
      simpa only [List.append_assoc, List.cons_append, List.nil_append] using hprocess
    · obtain rfl := hbefore.eq_of_length heq
      -- all of `before` is found, so `v` is the first node after it
      obtain ⟨after', rfl⟩ : ∃ after', after = v :: after' := by
        obtain ⟨after', hafter⟩ := hbegins
        rw [List.append_assoc, List.append_cancel_left_eq] at hafter
        exact ⟨after', hafter.symm⟩
      exact ⟨v :: more, hmore ▸ hencounters, rfl⟩

/-- **The beginnings of a breadth-first search have been encountered** when they have been
processed, and what the search finds next is encountered next. -/
theorem exists_encounters_breadthFirst {refers : Nat → List Nat → Prop} {root : Nat}
    {before after : List Nat} (hall : g.breadthFirst [root] = before ++ after)
    (hrefers : ∀ v ∈ before, refers v (g.successors v)) :
    ∃ more, Encounters refers root before.length (before ++ more) ∧ more.head? = after.head? := by
  have hroot : [root].eraseDups = [root] := eraseDups_of_nodup (List.pairwise_singleton _ root)
  have hstart : Encounters refers root ([] : List Nat).length ([] ++ [root]).eraseDups := by
    rw [List.nil_append, hroot]
    exact .root
  exact walks_breadthFirst.encounters List.nodup_nil hstart hall (List.nil_prefix) hrefers

/-- **Breadth-first search lists what is encountered** until everything has been processed. -/
theorem encounters_breadthFirst {refers : Nat → List Nat → Prop} {root : Nat}
    (hrefers : ∀ v ∈ g.breadthFirst [root], refers v (g.successors v)) :
    Encounters refers root (g.breadthFirst [root]).length (g.breadthFirst [root]) := by
  obtain ⟨more, hmore, hnext⟩ :=
    exists_encounters_breadthFirst (List.append_nil (g.breadthFirst [root])).symm hrefers
  obtain rfl : more = [] := List.head?_eq_none_iff.1 hnext
  rwa [List.append_nil] at hmore

end Digraph

end GuidedGrammar
