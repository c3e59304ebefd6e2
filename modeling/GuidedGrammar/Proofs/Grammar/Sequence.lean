import GuidedGrammar.Proofs.Grammar.Builds
import GuidedGrammar.Proofs.Grammar.StopInference

/-!
# How a sequence is built

Building a sequence either fails and leaves the arena as it was, or it adds the items, gives
generations the stops that were inferred, and adds the node (`Builder.sequence_cases`). Giving stops
is a function on arenas here (`Arena.giveStops`); it cannot fail, because stops are inferred for
generations that accept them only.
-/

namespace GuidedGrammar

namespace Item

/-- The text of an item that is to become a literal. -/
def text? : Item → Option String
  | .node _ => none
  | .text s => some s

/-- The ids that items resolve to when the next node that is added gets the id `next`. -/
def resolve (next : NodeId) : List Item → List NodeId
  | [] => []
  | .node id :: xs => id :: resolve next xs
  | .text _ :: xs => next :: resolve (next + 1) xs

end Item

namespace Arena

variable {a : Arena}

/-- Gives a generation an inferred stop, unless it has one. -/
def giveStop (a : Arena) (id : NodeId) (stop : InferredStop) : Arena :=
  match (a.generation? id).map Generation.stop with
  | some .unset => (a.withRegex (.literal (String.singleton stop.char))).change id
      (Builder.withStop (.inferred stop.char a.regexes.size stop.source))
  | _ => a

/-- **Gives generations their inferred stops**, one after the other. -/
def giveStops (a : Arena) (chosen : StopAssignment) : Arena :=
  chosen.foldl (fun a choice => a.giveStop choice.1 choice.2) a

/-- The arena with a sequence of nodes, and the stops that it gives. -/
def withSequence (a : Arena) (ids : List NodeId) (chosen : StopAssignment) : Arena :=
  (a.giveStops chosen).withNode ⟨.sequence ids, {}, ids.all (a.giveStops chosen).isNullable⟩

theorem giveStop_of_unset {id : NodeId} {g : Generation} (hg : a.generation? id = some g)
    (hstop : g.stop = .unset) (stop : InferredStop) :
    a.giveStop id stop = (a.withRegex (.literal (String.singleton stop.char))).change id
      (Builder.withStop (.inferred stop.char a.regexes.size stop.source)) := by
  rw [giveStop, hg, Option.map_some, hstop]

theorem giveStop_of_ne {id : NodeId} (h : (a.generation? id).map Generation.stop ≠ some .unset)
    (stop : InferredStop) : a.giveStop id stop = a := by
  unfold giveStop
  split
  · rename_i hunset
    exact absurd hunset h
  · rfl

/-- Other nodes stay as they are. -/
theorem node?_giveStop_of_ne {id id' : NodeId} (hne : id ≠ id') (stop : InferredStop) :
    (a.giveStop id stop).node? id' = a.node? id' := by
  unfold giveStop
  split
  · rw [node?_change, if_neg hne]
    rfl
  · rfl

theorem node?_giveStops_of_not_mem {chosen : StopAssignment} {id : NodeId}
    (h : id ∉ chosen.map Prod.fst) : (a.giveStops chosen).node? id = a.node? id := by
  induction chosen generalizing a with
  | nil => rfl
  | cons choice chosen ih =>
    rw [List.map_cons, List.mem_cons, not_or] at h
    rw [giveStops, List.foldl_cons]
    exact (ih h.2).trans (node?_giveStop_of_ne (Ne.symm h.1) choice.2)

theorem size_giveStop (id : NodeId) (stop : InferredStop) :
    (a.giveStop id stop).nodes.size = a.nodes.size := by
  unfold giveStop
  split
  · exact Array.size_modify
  · rfl

theorem size_giveStops (chosen : StopAssignment) :
    (a.giveStops chosen).nodes.size = a.nodes.size := by
  induction chosen generalizing a with
  | nil => rfl
  | cons choice chosen ih =>
    rw [giveStops, List.foldl_cons]
    exact ih.trans (size_giveStop choice.1 choice.2)

/-- Nodes other than generations without a stop stay as they are. -/
theorem node?_giveStop_of_set {x : NodeId}
    (hx : (a.generation? x).map Generation.stop ≠ some .unset) (id : NodeId)
    (stop : InferredStop) : (a.giveStop id stop).node? x = a.node? x := by
  by_cases hid : id = x
  · subst hid
    rw [giveStop_of_ne hx]
  · exact node?_giveStop_of_ne hid stop

theorem node?_giveStops_of_set {x : NodeId}
    (hx : (a.generation? x).map Generation.stop ≠ some .unset) (chosen : StopAssignment) :
    (a.giveStops chosen).node? x = a.node? x := by
  induction chosen generalizing a with
  | nil => rfl
  | cons choice chosen ih =>
    have hnode := node?_giveStop_of_set hx choice.1 choice.2
    rw [giveStops, List.foldl_cons]
    refine (ih ?_).trans hnode
    rwa [generation?, hnode]

/-! ### Literals -/

/-- The arena with literals for texts. -/
def withLiterals (a : Arena) (texts : List String) : Arena :=
  { a with nodes := a.nodes ++ (texts.map fun s => (⟨.literal s, {}, s.isEmpty⟩ : Node)).toArray }

theorem withLiterals_nil (a : Arena) : a.withLiterals [] = a := by
  rw [withLiterals, List.map_nil]
  exact congrArg (Arena.mk · a.regexes) Array.append_empty

theorem withLiterals_cons (a : Arena) (s : String) (texts : List String) :
    a.withLiterals (s :: texts) = (a.withNode ⟨.literal s, {}, s.isEmpty⟩).withLiterals texts := by
  refine congrArg (Arena.mk · a.regexes) (Array.ext' ?_)
  simp [withNode]

theorem size_withNode (a : Arena) (n : Node) : (a.withNode n).nodes.size = a.nodes.size + 1 :=
  Array.size_push n

theorem size_withLiterals (a : Arena) (texts : List String) :
    (a.withLiterals texts).nodes.size = a.nodes.size + texts.length := by
  simp [withLiterals]

/-- Dropping the literals gives the arena back. -/
theorem take_withLiterals (a : Arena) (texts : List String) :
    { a.withLiterals texts with nodes := (a.withLiterals texts).nodes.take a.nodes.size } = a := by
  refine congrArg (Arena.mk · a.regexes) (Array.ext' ?_)
  simp [withLiterals]

/-! ### Growing -/

theorem grows_giveStop (a : Arena) (id : NodeId) (stop : InferredStop) :
    a.Grows (a.giveStop id stop) := by
  unfold giveStop
  split
  · rename_i hstop
    obtain ⟨g, hg, hunset⟩ := Option.map_eq_some_iff.1 hstop
    refine (grows_withRegex a _).trans (grows_change fun n hn => ?_)
    exact becomes_withStop (kind_of_kind? hn (generation?_eq_some.1 hg)) hunset _ _ _
  · exact Grows.refl a

theorem grows_giveStops (a : Arena) (chosen : StopAssignment) : a.Grows (a.giveStops chosen) := by
  induction chosen generalizing a with
  | nil => exact Grows.refl a
  | cons choice chosen ih =>
    rw [giveStops, List.foldl_cons]
    exact (grows_giveStop a choice.1 choice.2).trans (ih _)

theorem grows_withSequence (a : Arena) (ids : List NodeId) (chosen : StopAssignment) :
    a.Grows (a.withSequence ids chosen) :=
  (grows_giveStops a chosen).trans (grows_withNode _ _)

/-- The node of the sequence comes last. -/
theorem node?_withSequence (a : Arena) (ids : List NodeId) (chosen : StopAssignment)
    (x : NodeId) : (a.withSequence ids chosen).node? x =
      if x = a.nodes.size then some ⟨.sequence ids, {}, ids.all (a.giveStops chosen).isNullable⟩
      else (a.giveStops chosen).node? x := by
  rw [withSequence, node?_withNode, size_giveStops]

theorem kind?_withSequence (a : Arena) (ids : List NodeId) (chosen : StopAssignment) :
    (a.withSequence ids chosen).kind? a.nodes.size = some (.sequence ids) := by
  rw [kind?, node?_withSequence, if_pos rfl, Option.map_some]

/-- Nodes that are given no stop are kept. -/
theorem node?_withSequence_of_not_mem {ids : List NodeId} {chosen : StopAssignment} {x : NodeId}
    {n : Node} (hn : a.node? x = some n) (hx : x ∉ chosen.map Prod.fst) :
    (a.withSequence ids chosen).node? x = some n := by
  rw [node?_withSequence, if_neg (Nat.ne_of_lt (node?_eq_some_lt hn)),
    node?_giveStops_of_not_mem hx, hn]

/-! ### Generations without a stop -/

/-- Whether an id is that of a generation without a stop. -/
def LacksStop (a : Arena) (g : NodeId) : Prop :=
  ∃ gen, a.generation? g = some gen ∧ gen.stop = .unset

theorem lacksStop_iff {g : NodeId} :
    a.LacksStop g ↔ (a.generation? g).map Generation.stop = some .unset := by
  rw [LacksStop, Option.map_eq_some_iff]

/-- The chosen stops for generations that have none. -/
def choicesLacking (a : Arena) (chosen : StopAssignment) : StopAssignment :=
  chosen.filter fun choice => (a.generation? choice.1).map Generation.stop == some .unset

theorem mem_choicesLacking {chosen : StopAssignment} {choice : NodeId × InferredStop} :
    choice ∈ a.choicesLacking chosen ↔ choice ∈ chosen ∧ a.LacksStop choice.1 := by
  rw [choicesLacking, List.mem_filter, beq_iff_eq, lacksStop_iff]

/-- What is given to one generation makes no difference to the others. -/
theorem choicesLacking_giveStop {chosen : StopAssignment} {id : NodeId}
    (hid : id ∉ chosen.map Prod.fst) (stop : InferredStop) :
    (a.giveStop id stop).choicesLacking chosen = a.choicesLacking chosen := by
  refine List.filter_congr fun choice hchoice => ?_
  have hne : id ≠ choice.1 := by
    rintro rfl
    exact hid (List.mem_map.2 ⟨choice, hchoice, rfl⟩)
  rw [generation?, node?_giveStop_of_ne hne, ← generation?]

/-- Giving stops adds one regex for each generation without a stop, in their order, and the stop
of the generation refers to it. -/
theorem giveStops_exact {chosen : StopAssignment} (hnodup : (chosen.map Prod.fst).Nodup) :
    (a.giveStops chosen).regexes = a.regexes ++ ((a.choicesLacking chosen).map fun choice =>
        Regex.literal (String.singleton choice.2.char)).toArray ∧
      ∀ k g s, (a.choicesLacking chosen)[k]? = some (g, s) → (a.giveStops chosen).node? g =
        (a.node? g).map (Builder.withStop (.inferred s.char (a.regexes.size + k) s.source)) := by
  induction chosen generalizing a with
  | nil => exact ⟨Array.append_empty.symm, fun k g s h => nomatch h⟩
  | cons choice chosen ih =>
    obtain ⟨y, t⟩ := choice
    obtain ⟨hnotMem, hnodup⟩ := List.nodup_cons.1 hnodup
    obtain ⟨hregexes, hstops⟩ := ih hnodup (a := a.giveStop y t)
    rw [choicesLacking_giveStop hnotMem] at hregexes hstops
    rw [giveStops, List.foldl_cons, ← giveStops]
    by_cases hlacks : (a.generation? y).map Generation.stop = some .unset
    · obtain ⟨gen, hgen, hunset⟩ := Option.map_eq_some_iff.1 hlacks
      have hgive := giveStop_of_unset hgen hunset t
      -- the stop is given, its regex is the next one, and the other places move up by one
      have hcons : a.choicesLacking ((y, t) :: chosen) = (y, t) :: a.choicesLacking chosen :=
        List.filter_cons_of_pos (beq_iff_eq.2 hlacks)
      have hadded : (a.giveStop y t).regexes =
          a.regexes.push (.literal (String.singleton t.char)) := by
        rw [hgive]
        rfl
      rw [hcons]
      refine ⟨?_, fun k g s hk => ?_⟩
      · rw [hregexes, hadded]
        refine Array.ext' ?_
        simp
      · cases k with
        | zero =>
          obtain ⟨rfl, rfl⟩ := Prod.mk.inj (Option.some.inj hk)
          rw [node?_giveStops_of_not_mem hnotMem, hgive, node?_change, if_pos rfl]
          rfl
        | succ k =>
          rw [List.getElem?_cons_succ] at hk
          have hmem := (mem_choicesLacking.1 (List.mem_of_getElem? hk)).1
          have hne : y ≠ g := by
            rintro rfl
            exact hnotMem (List.mem_map.2 ⟨_, hmem, rfl⟩)
          have hplace : (a.giveStop y t).regexes.size + k = a.regexes.size + (k + 1) := by
            rw [hadded, Array.size_push]
            omega
          rw [hstops k g s hk, node?_giveStop_of_ne hne, hplace]
    · -- there is a stop already, so nothing is added
      have hcons : a.choicesLacking ((y, t) :: chosen) = a.choicesLacking chosen :=
        List.filter_cons_of_neg (by simpa using hlacks)
      rw [hcons]
      rw [giveStop_of_ne hlacks] at hregexes hstops ⊢
      exact ⟨hregexes, hstops⟩

/-- The stop that was chosen is given, with the regex of its character. -/
theorem exists_node?_giveStops {chosen : StopAssignment} (hnodup : (chosen.map Prod.fst).Nodup)
    {x : NodeId} {s : InferredStop} (hs : chosen.stop? x = some s) {g : Generation}
    (hg : a.generation? x = some g) (hunset : g.stop = .unset) :
    ∃ regex, (a.giveStops chosen).regexes[regex]? = some (.literal (String.singleton s.char)) ∧
      (a.giveStops chosen).node? x =
        (a.node? x).map (Builder.withStop (.inferred s.char regex s.source)) := by
  obtain ⟨hregexes, hstops⟩ := giveStops_exact (a := a) hnodup
  have hmem : (x, s) ∈ a.choicesLacking chosen :=
    mem_choicesLacking.2 ⟨mem_of_stop? hs, g, hg, hunset⟩
  obtain ⟨k, hk⟩ := List.mem_iff_getElem?.1 hmem
  refine ⟨a.regexes.size + k, ?_, hstops k x s hk⟩
  rw [hregexes, Array.getElem?_append_right (Nat.le_add_right ..), Nat.add_sub_cancel_left]
  simp [hk]

end Arena

namespace Builder

open Arena

variable {a : Arena}

/-! ### Setting stops -/

/-- Setting a stop that is accepted succeeds. -/
theorem setStop_run {id : NodeId} {stop : InferredStop} (h : a.AcceptsStop id stop.char) :
    setStop id stop a = .ok () (a.giveStop id stop) := by
  obtain ⟨g, hg, hstop⟩ := h
  unfold setStop
  rw [run_get_bind]
  simp only [hg]
  rcases hstop with hunset | ⟨regex, source, hinferred⟩
  · rw [hunset, giveStop_of_unset hg hunset]
    rfl
  · -- the stop is there already
    have hne : (a.generation? id).map Generation.stop ≠ some .unset := by
      rw [hg, Option.map_some, hinferred]
      exact fun h => nomatch h
    rw [hinferred, giveStop_of_ne hne]
    dsimp only
    rw [if_pos rfl]
    rfl

theorem acceptsStop_giveStop {id id' : NodeId} {c : Char} (hne : id ≠ id')
    (h : a.AcceptsStop id' c) (stop : InferredStop) : (a.giveStop id stop).AcceptsStop id' c := by
  obtain ⟨g, hg, hstop⟩ := h
  exact ⟨g, by rw [generation?, node?_giveStop_of_ne hne]; exact hg, hstop⟩

/-- Setting all chosen stops succeeds if all are accepted. -/
theorem setStops_run {chosen : StopAssignment} (hnodup : (chosen.map Prod.fst).Nodup)
    (haccepts : ∀ (id : NodeId) (s : InferredStop), (id, s) ∈ chosen → a.AcceptsStop id s.char) :
    (chosen.forM fun choice => setStop choice.1 choice.2) a = .ok () (a.giveStops chosen) := by
  induction chosen generalizing a with
  | nil => rfl
  | cons choice chosen ih =>
    obtain ⟨hnotMem, hnodup⟩ := List.nodup_cons.1 hnodup
    have hhead := haccepts choice.1 choice.2 (List.mem_cons_self ..)
    refine (run_bind_of_ok (setStop_run hhead)).trans (ih hnodup fun id s hs => ?_)
    have hne : choice.1 ≠ id := by
      rintro rfl
      exact hnotMem (List.mem_map.2 ⟨_, hs, rfl⟩)
    exact acceptsStop_giveStop hne (haccepts id s (List.mem_cons_of_mem _ hs)) choice.2

/-! ### Items -/

theorem needNode_of_some {operation : Operation} {id : NodeId} {n : Node}
    (h : a.node? id = some n) : needNode operation id a = .ok n a := by
  refine (run_get_bind _ a).trans ?_
  rw [h]
  rfl

theorem needNode_of_none {operation : Operation} {id : NodeId} (h : a.node? id = none) :
    needNode operation id a = .error (.malformed operation (.unknownNode id)) a := by
  refine (run_get_bind _ a).trans ?_
  rw [h]
  rfl

/-- An item adds at most a literal. -/
theorem item_run (x : Item) (a : Arena) : (∃ e, item x a = .error e a) ∨
    (∃ id, id < a.nodes.size ∧ x = .node id ∧ item x a = .ok id a) ∨
      ∃ s, x = .text s ∧
        item x a = .ok a.nodes.size (a.withNode ⟨.literal s, {}, s.isEmpty⟩) := by
  cases x with
  | text s => exact Or.inr (Or.inr ⟨s, rfl, rfl⟩)
  | node id =>
    cases hid : a.node? id with
    | none => exact Or.inl ⟨_, run_bind_of_error (needNode_of_none hid)⟩
    | some n =>
      exact Or.inr (Or.inl ⟨id, node?_eq_some_lt hid, rfl, run_bind_of_ok (needNode_of_some hid)⟩)

theorem items_cons (x : Item) (xs : List Item) :
    items (x :: xs) = item x >>= fun id => items xs >>= fun ids => pure (id :: ids) :=
  List.mapM_cons

/-- What items add: literals for texts. When an item is unknown, those before it have been
added. -/
theorem items_cases (xs : List Item) (a : Arena) :
    (∃ e texts, items xs a = .error e (a.withLiterals texts)) ∨
      items xs a = .ok (Item.resolve a.nodes.size xs) (a.withLiterals (xs.filterMap Item.text?)) := by
  induction xs generalizing a with
  | nil => exact Or.inr (by rw [List.filterMap_nil, withLiterals_nil]; rfl)
  | cons x xs ih =>
    rw [items_cons]
    rcases item_run x a with ⟨e, herror⟩ | ⟨id, -, rfl, hrun⟩ | ⟨s, rfl, hrun⟩
    · exact Or.inl ⟨e, [], by rw [run_bind_of_error herror, withLiterals_nil]⟩
    · rw [run_bind_of_ok hrun]
      rcases ih a with ⟨e, texts, herror⟩ | hok
      · exact Or.inl ⟨e, texts, run_bind_of_error herror⟩
      · exact Or.inr (run_bind_of_ok hok)
    · rw [run_bind_of_ok hrun]
      rcases ih (a.withNode ⟨.literal s, {}, s.isEmpty⟩) with ⟨e, texts, herror⟩ | hok
      · exact Or.inl ⟨e, s :: texts, by rw [run_bind_of_error herror, withLiterals_cons]⟩
      · refine Or.inr ((run_bind_of_ok hok).trans ?_)
        rw [← withLiterals_cons, size_withNode]
        rfl

/-- Items that are nodes add nothing. -/
theorem items_of_nodes {xs ids : List NodeId} {b : Arena}
    (h : items (xs.map .node) a = .ok ids b) : ids = xs ∧ b = a := by
  induction xs generalizing ids b with
  | nil =>
    obtain ⟨rfl, rfl⟩ := EStateM.Result.ok.inj h
    exact ⟨rfl, rfl⟩
  | cons x xs ih =>
    rw [List.map_cons, items_cons] at h
    rcases item_run (.node x) a with ⟨e, herror⟩ | ⟨id, -, heq, hrun⟩ | ⟨s, heq, -⟩
    · rw [run_bind_of_error herror] at h
      cases h
    · obtain rfl := Item.node.inj heq
      rw [run_bind_of_ok hrun] at h
      -- a node stands for itself and is not added again
      cases htail : items (xs.map .node) a with
      | error e c =>
        rw [run_bind_of_error htail] at h
        cases h
      | ok ys c =>
        rw [run_bind_of_ok htail] at h
        obtain ⟨rfl, rfl⟩ := ih htail
        obtain ⟨rfl, rfl⟩ := EStateM.Result.ok.inj h
        exact ⟨rfl, rfl⟩
    · cases heq

/-- Known nodes can be items. -/
theorem items_run_of_lt {xs : List NodeId} (hxs : ∀ x ∈ xs, x < a.nodes.size) :
    items (xs.map .node) a = .ok xs a := by
  induction xs with
  | nil => rfl
  | cons x xs ih =>
    obtain ⟨hx, hxs⟩ := List.forall_mem_cons.1 hxs
    obtain ⟨n, hn⟩ := exists_node?_of_lt hx
    have hitem : item (.node x) a = .ok x a := run_bind_of_ok (needNode_of_some hn)
    rw [List.map_cons, items_cons, run_bind_of_ok hitem, run_bind_of_ok (ih hxs)]
    rfl

/-! ### The sequence -/

theorem inferredItems_run {elements : List Item} {ids : List NodeId} {stops : StopAssignment}
    {b : Arena} (hitems : items elements a = .ok ids b) (hinfer : b.inferStops ids = .ok stops) :
    inferredItems elements a = .ok (ids, stops) b := by
  refine (run_bind_of_ok hitems).trans ?_
  refine (run_get_bind _ b).trans ?_
  rw [hinfer]
  rfl

theorem inferredItems_run_of_error {elements : List Item} {ids : List NodeId} {e : Error}
    {b : Arena} (hitems : items elements a = .ok ids b) (hinfer : b.inferStops ids = .error e) :
    inferredItems elements a = .error e b := by
  refine (run_bind_of_ok hitems).trans ?_
  refine (run_get_bind _ b).trans ?_
  rw [hinfer]
  rfl

/-- A failure before stops are set has added literals only. -/
theorem take_inferredItems {elements : List Item} {e : Error} {b : Arena}
    (h : inferredItems elements a = .error e b) :
    { b with nodes := b.nodes.take a.nodes.size } = a := by
  rcases items_cases elements a with ⟨e', texts, herror⟩ | hitems
  · obtain ⟨rfl, rfl⟩ := EStateM.Result.error.inj ((run_bind_of_error herror).symm.trans h)
    exact take_withLiterals a texts
  · cases hinfer : (a.withLiterals (elements.filterMap Item.text?)).inferStops
        (Item.resolve a.nodes.size elements) with
    | ok stops => cases (inferredItems_run hitems hinfer).symm.trans h
    | error e' =>
      obtain ⟨rfl, rfl⟩ :=
        EStateM.Result.error.inj ((inferredItems_run_of_error hitems hinfer).symm.trans h)
      exact take_withLiterals a _

/-- The sequence that is built when its stops can be inferred. -/
theorem sequence_run {elements : List Item} {ids : List NodeId} {stops : StopAssignment} {b : Arena}
    (hitems : items elements a = .ok ids b) (hinfer : b.inferStops ids = .ok stops) :
    sequence elements a = .ok b.nodes.size (b.withSequence ids stops) := by
  have hstops := justified_of_inferStops hinfer
  refine (run_bind_of_ok (undoingNodes_of_ok (inferredItems_run hitems hinfer))).trans ?_
  refine (run_bind_of_ok (setStops_run hstops.nodup hstops.accepts)).trans ?_
  rw [← size_giveStops stops]
  rfl

/-- A sequence that fails leaves the arena as it was. -/
theorem sequence_run_of_error {elements : List Item} {e : Error} {b : Arena}
    (h : inferredItems elements a = .error e b) : sequence elements a = .error e a := by
  have hrun := undoingNodes_of_error h
  rw [take_inferredItems h] at hrun
  exact run_bind_of_error hrun

/-- **What building a sequence does.** -/
theorem sequence_cases (a : Arena) (elements : List Item) :
    (∃ e, sequence elements a = .error e a) ∨
      ∃ ids stops b, items elements a = .ok ids b ∧ b.inferStops ids = .ok stops ∧
        sequence elements a = .ok b.nodes.size (b.withSequence ids stops) := by
  cases hitems : items elements a with
  | error e b => exact Or.inl ⟨e, sequence_run_of_error (run_bind_of_error hitems)⟩
  | ok ids b =>
    cases hinfer : b.inferStops ids with
    | error e => exact Or.inl ⟨e, sequence_run_of_error (inferredItems_run_of_error hitems hinfer)⟩
    | ok stops => exact Or.inr ⟨ids, stops, b, rfl, hinfer, sequence_run hitems hinfer⟩

end Builder

end GuidedGrammar
