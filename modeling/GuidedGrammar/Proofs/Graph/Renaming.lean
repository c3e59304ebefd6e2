import GuidedGrammar.Proofs.Graph.Reachability

/-!
# Walks and names

A walk asks of vertices only which successors they have and whether they have been visited. So if
the vertices of a graph are given other names, without two of them getting the same one, a walk
finds them in the same order under their new names (`depthFirst_rename`, `breadthFirst_rename`).

Only the vertices that the walk meets count. In particular, two graphs that agree where a walk goes
are walked alike (`depthFirst_congr`).
-/

namespace GuidedGrammar.Digraph

variable {g h : Digraph} {f : Nat → Nat} {P : Nat → Prop}
  {schedule : List Nat → List Nat → List Nat}

/-- What a walk may do with its lists: keep all members of both, whatever their names are. -/
structure IsSchedule (schedule : List Nat → List Nat → List Nat) : Prop where
  nil : ∀ rest, schedule [] rest = rest
  mem : ∀ new rest x, x ∈ schedule new rest ↔ x ∈ new ∨ x ∈ rest
  map : ∀ (f : Nat → Nat) new rest,
    (schedule new rest).map f = schedule (new.map f) (rest.map f)

theorem isSchedule_depthFirst : IsSchedule fun new rest => new ++ rest where
  nil _ := rfl
  mem _ _ _ := List.mem_append
  map _ _ _ := List.map_append

theorem isSchedule_breadthFirst : IsSchedule fun new rest => rest ++ new where
  nil _ := List.append_nil _
  mem _ _ _ := List.mem_append.trans or_comm
  map _ _ _ := List.map_append

/-- New names for vertices. Among the vertices that `P` holds of, `f` gives no name twice, and
the successors of a vertex under its new name are its successors under theirs. -/
structure Renames (g h : Digraph) (P : Nat → Prop) (f : Nat → Nat) : Prop where
  injective : ∀ u v, P u → P v → f u = f v → u = v
  closed : ∀ u v, P u → g.Edge u v → P v
  successors : ∀ u, P u → h.successors (f u) = (g.successors u).map f

/-! ### The walk -/

theorem walk_of_mem {v : Nat} {rest : List Nat} {seen : Std.TreeSet Nat} {found : Array Nat}
    (hv : v ∈ seen) :
    g.walk schedule (v :: rest) seen found = g.walk schedule rest seen found := by
  rw [walk, if_pos hv]

/-- A vertex that is met for the first time is listed, and its successors become pending. -/
theorem walk_of_not_mem (hschedule : IsSchedule schedule) {v : Nat} {rest : List Nat}
    {seen : Std.TreeSet Nat} {found : Array Nat} (hv : v ∉ seen) :
    g.walk schedule (v :: rest) seen found =
      g.walk schedule (schedule (g.successors v) rest) (seen.insert v) (found.push v) := by
  rw [walk, if_neg hv, successors]
  by_cases hlt : v < g.size
  · rw [if_pos hlt, if_pos hlt]
  · rw [if_neg hlt, if_neg hlt, hschedule.nil]

/-- Induction along a walk: a pending vertex has been met before, or is met for the first
time. -/
theorem walk_induction (hschedule : IsSchedule schedule) (g : Digraph)
    {motive : List Nat → Std.TreeSet Nat → Array Nat → Prop}
    (nil : ∀ seen found, motive [] seen found)
    (old : ∀ v rest seen found, v ∈ seen → motive rest seen found →
      motive (v :: rest) seen found)
    (new : ∀ v rest seen found, v ∉ seen →
      motive (schedule (g.successors v) rest) (seen.insert v) (found.push v) →
      motive (v :: rest) seen found)
    (pending : List Nat) (seen : Std.TreeSet Nat) (found : Array Nat) :
    motive pending seen found := by
  induction pending, seen, found using walk.induct g schedule with
  | case1 seen found => exact nil seen found
  | case2 seen found v rest hv ih => exact old v rest seen found hv ih
  | case3 seen found v rest hv hlt ih =>
    have hsucc : g.successors v = g.next v := by rw [successors, if_pos hlt]
    exact new v rest seen found hv (by rw [hsucc]; exact ih)
  | case4 seen found v rest hv hlt ih =>
    have hsucc : g.successors v = [] := by rw [successors, if_neg hlt]
    exact new v rest seen found hv (by rw [hsucc, hschedule.nil]; exact ih)

/-- Marking a vertex under both names keeps the marked vertices the same. -/
theorem Renames.mem_insert_iff (hf : g.Renames h P f) {seen seen' : Std.TreeSet Nat} {u : Nat}
    (hu : P u) (hseen : ∀ v, P v → (f v ∈ seen' ↔ v ∈ seen)) (v : Nat) (hv : P v) :
    f v ∈ seen'.insert (f u) ↔ v ∈ seen.insert u := by
  have hname : f u = f v ↔ u = v := ⟨hf.injective u v hu hv, congrArg f⟩
  rw [Std.TreeSet.mem_insert, Std.TreeSet.mem_insert, Std.LawfulEqCmp.compare_eq_iff_eq,
    Std.LawfulEqCmp.compare_eq_iff_eq, hname, hseen v hv]

/-- A walk under new names. -/
theorem walk_rename (hschedule : IsSchedule schedule) (hf : g.Renames h P f)
    (pending : List Nat) (seen : Std.TreeSet Nat) (found : Array Nat) (seen' : Std.TreeSet Nat)
    (hpending : ∀ v ∈ pending, P v) (hseen : ∀ v, P v → (f v ∈ seen' ↔ v ∈ seen)) :
    h.walk schedule (pending.map f) seen' (found.map f) =
      (g.walk schedule pending seen found).map f := by
  induction pending, seen, found using walk_induction hschedule g generalizing seen' with
  | nil seen found => rw [List.map_nil, walk, walk]
  | old u rest seen found hu ih =>
    have hfu : f u ∈ seen' := (hseen u (hpending u (List.mem_cons_self ..))).2 hu
    rw [List.map_cons, walk_of_mem hfu, walk_of_mem hu]
    exact ih seen' (fun v hv => hpending v (List.mem_cons_of_mem _ hv)) hseen
  | new u rest seen found hu ih =>
    have hPu : P u := hpending u (List.mem_cons_self ..)
    have hfu : f u ∉ seen' := fun hmem => hu ((hseen u hPu).1 hmem)
    -- successors stay among the nodes on which the renaming is known
    have hnext : ∀ v ∈ schedule (g.successors u) rest, P v := by
      intro v hv
      rcases (hschedule.mem _ _ v).1 hv with hv | hv
      · exact hf.closed u v hPu hv
      · exact hpending v (List.mem_cons_of_mem _ hv)
    have hrun := ih (seen'.insert (f u)) hnext (hf.mem_insert_iff hPu hseen)
    rw [hschedule.map, ← hf.successors u hPu, Array.map_push] at hrun
    rw [List.map_cons, walk_of_not_mem hschedule hfu, walk_of_not_mem hschedule hu, hrun]

/-- A walk that starts with nothing visited, under new names. -/
theorem walk_rename_empty (hschedule : IsSchedule schedule) (hf : g.Renames h P f)
    {roots : List Nat} (hroots : ∀ v ∈ roots, P v) :
    (h.walk schedule (roots.map f) ∅ #[]).toList =
      (g.walk schedule roots ∅ #[]).toList.map f := by
  have hseen : ∀ v, P v → (f v ∈ (∅ : Std.TreeSet Nat) ↔ v ∈ (∅ : Std.TreeSet Nat)) :=
    fun v _ => iff_of_false Std.TreeSet.not_mem_emptyc Std.TreeSet.not_mem_emptyc
  have hwalk := walk_rename hschedule hf roots ∅ #[] ∅ hroots hseen
  rw [Array.map_empty] at hwalk
  rw [hwalk, Array.toList_map]

/-! ### The two orders -/

/-- **Depth-first search under new names.** -/
theorem depthFirst_rename (hf : g.Renames h P f) {roots : List Nat} (hroots : ∀ v ∈ roots, P v) :
    h.depthFirst (roots.map f) = (g.depthFirst roots).map f :=
  walk_rename_empty isSchedule_depthFirst hf hroots

/-- **Breadth-first search under new names.** -/
theorem breadthFirst_rename (hf : g.Renames h P f) {roots : List Nat}
    (hroots : ∀ v ∈ roots, P v) :
    h.breadthFirst (roots.map f) = (g.breadthFirst roots).map f :=
  walk_rename_empty isSchedule_breadthFirst hf hroots

/-- **Depth-first search where two graphs agree.** -/
theorem depthFirst_congr (hclosed : ∀ u v, P u → g.Edge u v → P v)
    (hsuccessors : ∀ u, P u → h.successors u = g.successors u) {roots : List Nat}
    (hroots : ∀ v ∈ roots, P v) : h.depthFirst roots = g.depthFirst roots := by
  have hf : g.Renames h P id :=
    ⟨fun _ _ _ _ heq => heq, hclosed, fun u hu => by rw [List.map_id, ← hsuccessors u hu, id]⟩
  have hsearch := depthFirst_rename hf hroots
  rwa [List.map_id, List.map_id] at hsearch

end GuidedGrammar.Digraph
