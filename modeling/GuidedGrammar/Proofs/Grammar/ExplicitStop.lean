import GuidedGrammar.Proofs.Grammar.Construction
import GuidedGrammar.Proofs.Grammar.Outline
import GuidedGrammar.Proofs.Grammar.Sequence

/-!
# Explicit stops in place of inferred ones

A generation without a stop may be given one by hand before a sequence is built
(`Arena.withExplicitStop`). Then the sequence infers the same stops for all other generations
(`Arena.inferStops_without`), and so the same nodes are built, up to the regexes of inferred stops.

Inference looks at nothing but outlines and at the stops of the generations that it deals with, one
at a time. So what is chosen when one of them is left out is what is chosen for the others anyway.
-/

namespace GuidedGrammar

/-! ### Choices without one generation -/

namespace StopAssignment

/-- The choices for all generations but one. -/
def without (chosen : StopAssignment) (id : NodeId) : StopAssignment :=
  chosen.filter fun choice => choice.1 != id

variable {chosen : StopAssignment} {id x : NodeId}

theorem stop?_without (hne : x ≠ id) : (chosen.without id).stop? x = chosen.stop? x := by
  induction chosen with
  | nil => rfl
  | cons choice chosen ih =>
    obtain ⟨y, s⟩ := choice
    unfold without stop? at ih ⊢
    rw [List.filter_cons]
    by_cases hy : y = id
    · subst hy
      have hother : (x == y) = false := by simpa using hne
      rw [if_neg (by simp), ih, List.lookup_cons, hother]
    · rw [if_pos (by simpa using hy), List.lookup_cons, List.lookup_cons, ih]

theorem without_choose_self (s : InferredStop) :
    (chosen.choose id s).without id = chosen.without id := by
  unfold choose without
  split
  · rfl
  · rw [List.filter_append, List.filter_singleton]
    simp

theorem without_choose_of_ne (hne : x ≠ id) (s : InferredStop) :
    (chosen.choose x s).without id = (chosen.without id).choose x s := by
  unfold choose
  rw [stop?_without hne]
  split
  · rfl
  · have hkept : (x != id) = true := by simpa using hne
    rw [without, without, List.filter_append, List.filter_singleton, hkept]
    rfl

end StopAssignment

namespace Arena

variable {a a' : Arena} {id : NodeId}

/-- Arenas that differ in the stop of one generation, which is open in the first of them and not
in the second. -/
structure ClosesStop (a a' : Arena) (id : NodeId) : Prop where
  outline : a.SameOutline a' fun _ => True
  others : ∀ x, x ≠ id → a'.generation? x = a.generation? x
  closed : a'.hasOpenStop id = false

namespace ClosesStop

theorem literal?_eq (h : a.ClosesStop a' id) : a'.literal? = a.literal? :=
  funext fun _ => h.outline.literal?_eq trivial

theorem isNullable_eq (h : a.ClosesStop a' id) : a'.isNullable = a.isNullable :=
  funext fun _ => h.outline.isNullable_eq trivial

/-- The same is pending, but for the generation whose stop is closed. -/
theorem pending_eq (h : a.ClosesStop a' id) (x : NodeId) :
    a'.pending x = (a.pending x).filter (· != id) := by
  have hlast : a'.lastFrontier [x] = a.lastFrontier [x] :=
    lastFrontier_congr h.outline (fun _ _ _ _ _ _ => trivial) fun _ _ => trivial
  rw [pending, pending, hlast, List.filter_filter]
  refine List.filter_congr fun y _ => ?_
  by_cases hy : y = id
  · subst hy
    rw [h.closed]
    simp
  · rw [hasOpenStop, h.others y hy, ← hasOpenStop]
    simp [hy]

/-- The same can follow. -/
theorem followers_eq (h : a.ClosesStop a' id) (rest : List NodeId) :
    a'.followers rest = a.followers rest := by
  have hfirst : a'.firstFrontier rest = a.firstFrontier rest :=
    firstFrontier_congr h.outline (fun _ _ _ _ _ _ => trivial) fun _ _ => trivial
  rw [followers, followers, hfirst, h.literal?_eq]

/-- The same is agreed on, whichever generation an error would show. -/
theorem agreedStop_eq (h : a.ClosesStop a' id) {generation : NodeId} {fs : List NodeId}
    {result : Option InferredStop} (hagreed : a.agreedStop generation fs = .ok result)
    (generation' : NodeId) : a'.agreedStop generation' fs = .ok result := by
  have hleading : a'.leadingChar? = a.leadingChar? := by
    funext x
    rw [leadingChar?, leadingChar?, h.literal?_eq]
  unfold agreedStop at hagreed ⊢
  rw [h.literal?_eq, hleading]
  split at hagreed
  · cases hagreed
  · split at hagreed
    · exact hagreed
    · split at hagreed
      · cases hagreed
      · exact hagreed

/-- A choice for another generation is made as well without the one whose stop is closed. -/
theorem chooseStop_of_ne (h : a.ClosesStop a' id) {stop : InferredStop}
    {chosen chosen' : StopAssignment} {x : NodeId} (hne : x ≠ id)
    (hchoose : a.chooseStop stop chosen x = .ok chosen') :
    a'.chooseStop stop (chosen.without id) x = .ok (chosen'.without id) := by
  have hprevious : a'.previousStop? (chosen.without id) x = a.previousStop? chosen x := by
    rw [previousStop?, previousStop?, StopAssignment.stop?_without hne, h.others x hne]
  unfold chooseStop at hchoose ⊢
  rw [hprevious]
  split at hchoose
  · cases hchoose
  · obtain rfl := Except.ok.inj hchoose
    rw [StopAssignment.without_choose_of_ne hne]

theorem without_of_chooseStop_self {stop : InferredStop} {chosen chosen' : StopAssignment}
    (hchoose : a.chooseStop stop chosen id = .ok chosen') :
    chosen'.without id = chosen.without id := by
  unfold chooseStop at hchoose
  split at hchoose
  · cases hchoose
  · obtain rfl := Except.ok.inj hchoose
    exact StopAssignment.without_choose_self stop

/-- The choices for pending generations, without the one whose stop is closed. -/
theorem foldlM_chooseStop (h : a.ClosesStop a' id) {stop : InferredStop} {xs : List NodeId}
    {chosen chosen' : StopAssignment}
    (hchoose : xs.foldlM (a.chooseStop stop) chosen = .ok chosen') :
    (xs.filter (· != id)).foldlM (a'.chooseStop stop) (chosen.without id) =
      .ok (chosen'.without id) := by
  induction xs generalizing chosen with
  | nil =>
    obtain rfl := Except.ok.inj hchoose
    rfl
  | cons x xs ih =>
    rw [List.foldlM_cons] at hchoose
    cases hx : a.chooseStop stop chosen x with
    | error e =>
      rw [hx] at hchoose
      cases hchoose
    | ok next =>
      rw [hx] at hchoose
      have hrest := ih hchoose
      -- the choice for `id` is the only one that falls away
      by_cases hne : x = id
      · subst hne
        rw [List.filter_cons, if_neg (by simp), ← without_of_chooseStop_self hx]
        exact hrest
      · rw [List.filter_cons, if_pos (by simpa using hne), List.foldlM_cons,
          h.chooseStop_of_ne hne hx]
        exact hrest

/-- The choices at a boundary, without the generation whose stop is closed. -/
theorem chooseAtBoundary (h : a.ClosesStop a' id) {boundary : NodeId × List NodeId}
    {chosen chosen' : StopAssignment} (hchoose : a.chooseAtBoundary chosen boundary = .ok chosen') :
    a'.chooseAtBoundary (chosen.without id) boundary = .ok (chosen'.without id) := by
  unfold Arena.chooseAtBoundary at hchoose ⊢
  rw [h.pending_eq, h.isNullable_eq, h.followers_eq]
  split at hchoose
  · rename_i hpending
    obtain rfl := Except.ok.inj hchoose
    rw [hpending]
    rfl
  · rename_i first others hpending
    rw [hpending]
    split at hchoose
    · -- the boundary is left alone, whatever is pending
      rename_i hnullable
      obtain rfl := Except.ok.inj hchoose
      split
      · rfl
      · rw [if_pos hnullable]
    · rename_i hsolid
      split at hchoose
      · cases hchoose
      · rename_i hagreed
        obtain rfl := Except.ok.inj hchoose
        split
        · rfl
        · rw [if_neg hsolid, h.agreedStop_eq hagreed]
      · rename_i stop hagreed
        have hrest := h.foldlM_chooseStop hchoose
        split
        · -- the only pending generation is the one whose stop is closed
          rename_i hnone
          rw [hnone] at hrest
          exact hrest
        · rename_i x xs hsome
          rw [if_neg hsolid, h.agreedStop_eq hagreed]
          dsimp only
          rw [← hsome]
          exact hrest

/-- **Inference without one generation**: whose stop is closed, the choices for the others are the
same. -/
theorem inferStops_without (h : a.ClosesStop a' id) {elements : List NodeId}
    {chosen : StopAssignment} (hinfer : a.inferStops elements = .ok chosen) :
    a'.inferStops elements = .ok (chosen.without id) := by
  -- by induction on the boundaries, for any choices made before them
  have hfold : ∀ (boundaries : List (NodeId × List NodeId)) (found : StopAssignment),
      boundaries.foldlM a.chooseAtBoundary found = .ok chosen →
        boundaries.foldlM a'.chooseAtBoundary (found.without id) = .ok (chosen.without id) := by
    intro boundaries
    induction boundaries with
    | nil =>
      intro found hfound
      obtain rfl := Except.ok.inj hfound
      rfl
    | cons boundary boundaries ih =>
      intro found hfound
      rw [List.foldlM_cons] at hfound ⊢
      cases hboundary : a.chooseAtBoundary found boundary with
      | error e =>
        rw [hboundary] at hfound
        cases hfound
      | ok next =>
        rw [hboundary] at hfound
        rw [h.chooseAtBoundary hboundary]
        exact ih next hfound
  exact hfold (boundaries elements) [] hinfer

end ClosesStop

/-! ### Giving one stop by hand -/

/-- **The arena in which a generation has an explicit stop at a character.** The regex of the
character is added for it. -/
def withExplicitStop (a : Arena) (id : NodeId) (c : Char) : Arena :=
  (a.withRegex (.literal (String.singleton c))).change id
    (Builder.withStop (.explicit a.regexes.size))

theorem node?_withExplicitStop (a : Arena) (id : NodeId) (c : Char) (x : NodeId) :
    (a.withExplicitStop id c).node? x =
      if id = x then (a.node? x).map (Builder.withStop (.explicit a.regexes.size))
      else a.node? x :=
  node?_change _ id _ x

theorem size_withExplicitStop (a : Arena) (id : NodeId) (c : Char) :
    (a.withExplicitStop id c).nodes.size = a.nodes.size :=
  Array.size_modify

/-- Nodes may be added before or after. -/
theorem withExplicitStop_withNode {id : NodeId} (hid : id < a.nodes.size) (c : Char) (n : Node) :
    (a.withNode n).withExplicitStop id c = (a.withExplicitStop id c).withNode n := by
  have hnodes : (a.nodes.push n).modify id (Builder.withStop (.explicit a.regexes.size)) =
      (a.nodes.modify id (Builder.withStop (.explicit a.regexes.size))).push n := by
    refine Array.ext_getElem? fun i => ?_
    rw [Array.getElem?_modify, Array.getElem?_push, Array.getElem?_push, Array.getElem?_modify,
      Array.size_modify]
    by_cases hi : i = a.nodes.size
    · subst hi
      rw [if_neg (Nat.ne_of_lt hid), if_pos rfl, if_pos rfl]
    · rw [if_neg hi, if_neg hi]
  exact congrArg (Arena.mk · (a.regexes.push (.literal (String.singleton c)))) hnodes

theorem outline_withStop (stop : Stop) (n : Node) :
    (Builder.withStop stop n).outline = n.outline := by
  obtain ⟨kind, props, nullable⟩ := n
  cases kind <;> rfl

theorem closesStop_withExplicitStop (a : Arena) (id : NodeId) (c : Char) :
    a.ClosesStop (a.withExplicitStop id c) id where
  outline x _ := by
    rw [node?_withExplicitStop]
    split
    · rw [Option.map_map]
      exact congrArg (Option.map · (a.node? x)) (funext (outline_withStop _))
    · rfl
  others x hne := by
    rw [generation?, node?_withExplicitStop, if_neg (Ne.symm hne)]
    rfl
  closed := by
    rw [hasOpenStop, generation?, node?_withExplicitStop, if_pos rfl]
    cases a.node? id with
    | none => rfl
    | some n =>
      obtain ⟨kind, props, nullable⟩ := n
      cases kind <;> rfl

end Arena

namespace Builder

open Arena

variable {a b : Arena} {id : NodeId}

/-- An item is added in the same way beside an explicit stop. -/
theorem item_withExplicitStop (hid : id < a.nodes.size) (c : Char) {x : Item} {y : NodeId}
    (h : item x a = .ok y b) :
    item x (a.withExplicitStop id c) = .ok y (b.withExplicitStop id c) ∧ id < b.nodes.size := by
  rcases item_run x a with ⟨e, herror⟩ | ⟨z, hz, rfl, hrun⟩ | ⟨s, rfl, hrun⟩
  · rw [herror] at h
    cases h
  · rw [hrun] at h
    obtain ⟨rfl, rfl⟩ := EStateM.Result.ok.inj h
    obtain ⟨n, hn⟩ := exists_node?_of_lt (a := a.withExplicitStop id c)
      (by rwa [size_withExplicitStop] : z < (a.withExplicitStop id c).nodes.size)
    exact ⟨run_bind_of_ok (needNode_of_some hn), hid⟩
  · rw [hrun] at h
    obtain ⟨rfl, rfl⟩ := EStateM.Result.ok.inj h
    -- the new literal comes behind `id`, so setting the stop before or after is the same
    refine ⟨?_, (grows_withNode a _).lt_size hid⟩
    rw [withExplicitStop_withNode hid, ← size_withExplicitStop a id c]
    rfl

/-- Items are added in the same way beside an explicit stop. -/
theorem items_withExplicitStop (hid : id < a.nodes.size) (c : Char) {xs : List Item}
    {ys : List NodeId} (h : items xs a = .ok ys b) :
    items xs (a.withExplicitStop id c) = .ok ys (b.withExplicitStop id c) := by
  induction xs generalizing a ys with
  | nil =>
    obtain ⟨rfl, rfl⟩ := EStateM.Result.ok.inj h
    rfl
  | cons x xs ih =>
    rw [items_cons] at h ⊢
    cases hx : item x a with
    | error e d =>
      rw [run_bind_of_error hx] at h
      cases h
    | ok y d =>
      -- each item keeps `id` among the nodes, which the next one needs
      obtain ⟨hx', hd⟩ := item_withExplicitStop hid c hx
      rw [run_bind_of_ok hx] at h
      rw [run_bind_of_ok hx']
      cases hxs : items xs d with
      | error e d' =>
        rw [run_bind_of_error hxs] at h
        cases h
      | ok zs d' =>
        rw [run_bind_of_ok hxs] at h
        obtain ⟨rfl, rfl⟩ := EStateM.Result.ok.inj h
        rw [run_bind_of_ok (ih hd hxs)]
        rfl

/-- A sequence beside an explicit stop: the stops that it gives are the others. -/
theorem sequence_withExplicitStop (hid : id < a.nodes.size) (c : Char) {elements : List Item}
    {ids : List NodeId} {stops : StopAssignment} (hitems : items elements a = .ok ids b)
    (hinfer : b.inferStops ids = .ok stops) :
    sequence elements (a.withExplicitStop id c) =
      .ok b.nodes.size ((b.withExplicitStop id c).withSequence ids (stops.without id)) := by
  rw [← size_withExplicitStop b id c]
  exact sequence_run (items_withExplicitStop hid c hitems)
    ((closesStop_withExplicitStop b id c).inferStops_without hinfer)

end Builder

/-! ### What becomes of the nodes -/

/-- Nodes that are the same up to the regex of an inferred stop. All other regexes that they
refer to are below `limit`. -/
inductive Node.Alike (limit : Nat) (store store' : RegexStore) : Node → Node → Prop
  | kept (n : Node) (hregexes : ∀ r ∈ n.kind.regexes, r < limit) : Alike limit store store' n n
  | stop {g : Generation} {regex regex' : RegexId} {c : Char} (props : Props) (nullable : Bool)
    (source : NodeId) (hbody : g.body < limit)
    (hregex : store[regex]? = some (.literal (String.singleton c)))
    (hregex' : store'[regex']? = some (.literal (String.singleton c))) :
    Alike limit store store'
      ⟨.generation { g with stop := .inferred c regex source }, props, nullable⟩
      ⟨.generation { g with stop := .inferred c regex' source }, props, nullable⟩

namespace Arena

variable {b : Arena} {id : NodeId} {ids : List NodeId} {stops : StopAssignment}

/-- A node with a stop that has been set, written out. -/
theorem exists_withStop {x : NodeId} {g : Generation} (hg : b.generation? x = some g) :
    ∃ (props : Props) (nullable : Bool),
      b.node? x = some ⟨.generation g, props, nullable⟩ ∧ ∀ stop,
        (b.node? x).map (Builder.withStop stop) =
          some ⟨.generation { g with stop }, props, nullable⟩ := by
  obtain ⟨⟨kind, props, nullable⟩, hn, hkind⟩ := kind?_eq_some.1 (generation?_eq_some.1 hg)
  obtain rfl : kind = .generation g := hkind
  exact ⟨props, nullable, hn, fun stop => by rw [hn]; rfl⟩

/-- The nodes of the sequence itself are equal. -/
theorem node?_withSequence_last (hids : ∀ x ∈ ids, x < b.nodes.size) (c : Char) :
    ((b.withExplicitStop id c).withSequence ids (stops.without id)).node? b.nodes.size =
      (b.withSequence ids stops).node? b.nodes.size := by
  have hids' : ∀ x ∈ ids, x < (b.withExplicitStop id c).nodes.size := by
    rwa [size_withExplicitStop]
  rw [node?_withSequence, node?_withSequence, size_withExplicitStop, if_pos rfl, if_pos rfl,
    (grows_giveStops _ stops).all_isNullable_eq hids,
    (grows_giveStops _ (stops.without id)).all_isNullable_eq hids',
    (closesStop_withExplicitStop b id c).isNullable_eq]

/-- Beside an explicit stop, other nodes become alike: either they are kept, or both are given a
stop at the same character. -/
theorem alike_giveStops (hb : b.WellFormed) (hnodup : (stops.map Prod.fst).Nodup) (c : Char)
    {x : NodeId} (hne : x ≠ id) :
    Option.Rel (Node.Alike b.regexes.size (b.giveStops stops).regexes
        ((b.withExplicitStop id c).giveStops (stops.without id)).regexes)
      ((b.giveStops stops).node? x)
      (((b.withExplicitStop id c).giveStops (stops.without id)).node? x) := by
  -- away from `id` the nodes are the same before any stop is given
  have hsame : (b.withExplicitStop id c).node? x = b.node? x := by
    rw [node?_withExplicitStop, if_neg (Ne.symm hne)]
  have hgeneration : (b.withExplicitStop id c).generation? x = b.generation? x := by
    rw [generation?, hsame]
    rfl
  have hstop : (stops.without id).stop? x = stops.stop? x := StopAssignment.stop?_without hne
  have hkept : Option.Rel (Node.Alike b.regexes.size (b.giveStops stops).regexes
      ((b.withExplicitStop id c).giveStops (stops.without id)).regexes)
      (b.node? x) (b.node? x) := by
    cases hn : b.node? x with
    | none => exact .none
    | some n => exact .some (.kept n (hb.node x n hn).regexes_lt)
  by_cases hunset : (b.generation? x).map Generation.stop = some .unset
  · cases hs : stops.stop? x with
    | none =>
      rwa [node?_giveStops_of_not_mem (not_mem_keys_of_stop? hs),
        node?_giveStops_of_not_mem (not_mem_keys_of_stop? (hstop.trans hs)), hsame]
    | some s =>
      obtain ⟨g, hg, hgstop⟩ := Option.map_eq_some_iff.1 hunset
      obtain ⟨props, nullable, hnode, hset⟩ := exists_withStop hg
      have hnodup' : ((stops.without id).map Prod.fst).Nodup :=
        hnodup.sublist (List.filter_sublist.map _)
      obtain ⟨regex, hregex, hgive⟩ := exists_node?_giveStops hnodup hs hg hgstop
      obtain ⟨regex', hregex', hgive'⟩ := exists_node?_giveStops (a := b.withExplicitStop id c)
        hnodup' (hstop.trans hs) (hgeneration.trans hg) hgstop
      have hbody : g.body < b.regexes.size :=
        (hb.node x _ hnode).regexes_lt _ (List.mem_cons_self ..)
      rw [hgive, hgive', hsame, hset, hset]
      exact .some (.stop props nullable s.source hbody hregex hregex')
  · rwa [node?_giveStops_of_set hunset, node?_giveStops_of_set (by rwa [hgeneration]), hsame]

/-- The same with the sequence added. -/
theorem alike_withSequence (hb : b.WellFormed) (hids : ∀ x ∈ ids, x < b.nodes.size)
    (hnodup : (stops.map Prod.fst).Nodup) (c : Char) {x : NodeId} (hne : x ≠ id) :
    Option.Rel (Node.Alike b.regexes.size (b.withSequence ids stops).regexes
        ((b.withExplicitStop id c).withSequence ids (stops.without id)).regexes)
      ((b.withSequence ids stops).node? x)
      (((b.withExplicitStop id c).withSequence ids (stops.without id)).node? x) := by
  by_cases hx : x = b.nodes.size
  · rw [hx, node?_withSequence_last hids, node?_withSequence, if_pos rfl]
    exact .some (.kept _ fun _ hr => absurd hr List.not_mem_nil)
  · rw [node?_withSequence, node?_withSequence, size_withExplicitStop, if_neg hx, if_neg hx]
    exact alike_giveStops hb hnodup c hne

/-- The generation whose stop is given by hand keeps it; otherwise it would be given the stop
that is inferred for it. -/
theorem node?_withSequence_self (hnodup : (stops.map Prod.fst).Nodup) (c : Char)
    (ids : List NodeId) {g : Generation} (hg : b.generation? id = some g) (hunset : g.stop = .unset)
    {s : InferredStop} (hs : stops.stop? id = some s) :
    ∃ (props : Props) (nullable : Bool) (regex : RegexId),
      b.node? id = some ⟨.generation g, props, nullable⟩ ∧
        (b.withSequence ids stops).node? id = some
          ⟨.generation { g with stop := .inferred s.char regex s.source }, props, nullable⟩ ∧
        ((b.withExplicitStop id c).withSequence ids (stops.without id)).node? id = some
          ⟨.generation { g with stop := .explicit b.regexes.size }, props, nullable⟩ ∧
        (b.withSequence ids stops).regexes[regex]? =
          some (.literal (String.singleton s.char)) ∧
        ((b.withExplicitStop id c).withSequence ids (stops.without id)).regexes[b.regexes.size]? =
          some (.literal (String.singleton c)) := by
  obtain ⟨props, nullable, hnode, hset⟩ := exists_withStop hg
  obtain ⟨regex, hregex, hgive⟩ := exists_node?_giveStops hnodup hs hg hunset
  have hlast : id ≠ b.nodes.size := Nat.ne_of_lt (node?_eq_some_lt hnode)
  have hleft : id ∉ (stops.without id).map Prod.fst := by
    intro hmem
    obtain ⟨choice, hchoice, rfl⟩ := List.mem_map.1 hmem
    simpa using (List.mem_filter.1 hchoice).2
  have hliteral : (b.withExplicitStop id c).regexes[b.regexes.size]? =
      some (.literal (String.singleton c)) := Array.getElem?_push_size
  refine ⟨props, nullable, regex, hnode, ?_, ?_, hregex, ?_⟩
  · rw [node?_withSequence, if_neg hlast, hgive, hset]
  · rw [node?_withSequence, size_withExplicitStop, if_neg hlast,
      node?_giveStops_of_not_mem hleft, node?_withExplicitStop, if_pos rfl, hset]
  · exact (grows_withSequence _ ids (stops.without id)).regexes _ _ hliteral

end Arena

end GuidedGrammar
