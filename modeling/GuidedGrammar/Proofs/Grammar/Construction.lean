import GuidedGrammar.Grammar.Call
import GuidedGrammar.Proofs.Grammar.Sequence

/-!
# Arenas built by calls

Sequences set the stops of generations before they add a node, and nested grammars may be given
their start later; both take steps like everything else. So every arena that is built by calls,
failing ones included, is reached by steps from the empty one (`Arena.steps_ofCalls`), and is
consistent (`Arena.consistent_ofCalls`).
-/

namespace GuidedGrammar

namespace Builder

open Arena

variable {a : Arena}

/-! ### Sequences -/

/-- Whether a generation has an inferred stop at a character. -/
def StopsAt (a : Arena) (id : NodeId) (c : Char) : Prop :=
  ∃ g regex source, a.generation? id = some g ∧ g.stop = .inferred c regex source

theorem StopsAt.grow {b : Arena} (h : a.Grows b) {id : NodeId} {c : Char}
    (hid : StopsAt a id c) : StopsAt b id c := by
  obtain ⟨g, regex, source, hg, hstop⟩ := hid
  refine ⟨g, regex, source, h.generation?_of_stop_ne hg fun hunset => ?_, hstop⟩
  rw [hunset] at hstop
  cases hstop

theorem generation?_change_self {id : NodeId} {g : Generation} (hg : a.generation? id = some g)
    (stop : Stop) :
    (a.change id (withStop stop)).generation? id = some { g with stop } := by
  obtain ⟨n, hn, hkind⟩ := kind?_eq_some.1 (generation?_eq_some.1 hg)
  rw [generation?, node?_change, if_pos rfl, hn, Option.map_some, Option.bind_some, withStop, hkind]
  rfl

theorem generation?_change_of_ne {id id' : NodeId} (hne : id ≠ id') (f : Node → Node) :
    (a.change id f).generation? id' = a.generation? id' := by
  rw [generation?, node?_change, if_neg hne]
  rfl

/-- Setting a stop that the arena justifies. -/
theorem builds_setStop {id : NodeId} {stop : InferredStop}
    (haccepts : a.AcceptsStop id stop.char) (hsource : a.StartsWith stop.source stop.char) :
    Builds a (setStop id stop) fun _ b =>
      StopsAt b id stop.char ∧ ∀ id' ≠ id, b.generation? id' = a.generation? id' := by
  obtain ⟨g, hg, hstop⟩ := haccepts
  unfold setStop
  refine builds_bind builds_get ?_
  rintro _ a - ⟨rfl, rfl⟩
  split
  · rename_i hnone
    rw [hg] at hnone
    cases hnone
  · rename_i g' hg'
    obtain rfl := Option.some.inj (hg.symm.trans hg')
    dsimp only
    rcases hstop with hunset | ⟨regex, source, hinferred⟩
    · -- the regex of the character is added, and the stop is set
      rw [hunset]
      refine builds_bind (builds_regexLiteral _) ?_
      rintro regex b - ⟨rfl, rfl⟩
      have hgrows := grows_withRegex a (.literal (String.singleton stop.char))
      refine ⟨Relation.ReflTransGen.single (.stop (g := g) hg hunset Array.getElem?_push_size
        (hgrows.startsWith hsource)), ?_, fun id' hne => ?_⟩
      · exact ⟨_, _, stop.source, generation?_change_self (a := withRegex _ _) hg _, rfl⟩
      · exact generation?_change_of_ne (a := withRegex _ _) hne.symm _
    · -- the stop is there already
      rw [hinferred]
      dsimp only
      rw [if_pos rfl]
      exact builds_pure ⟨⟨g, regex, source, hg, hinferred⟩, fun _ _ => rfl⟩

/-- What has not been chosen yet is still justified when the first stop has been set. -/
theorem justified_tail {b : Arena} {id : NodeId} {stop : InferredStop} {chosen : StopAssignment}
    (hgrows : a.Grows b) (h : Justified a ((id, stop) :: chosen))
    (hothers : ∀ id' ≠ id, b.generation? id' = a.generation? id') : Justified b chosen := by
  obtain ⟨hnotMem, hnodup⟩ := List.nodup_cons.1 h.nodup
  refine ⟨hnodup, fun id' s hs => ?_, fun id' s hs => ?_⟩
  · have hne : id' ≠ id := by
      rintro rfl
      exact hnotMem (List.mem_map.2 ⟨_, hs, rfl⟩)
    obtain ⟨g, hg, hstop⟩ := h.accepts id' s (List.mem_cons_of_mem _ hs)
    exact ⟨g, (hothers id' hne).trans hg, hstop⟩
  · exact hgrows.startsWith (h.startsWith id' s (List.mem_cons_of_mem _ hs))

/-- Setting all chosen stops. -/
theorem builds_setStops {chosen : StopAssignment} (hchosen : Justified a chosen) :
    Builds a (chosen.forM fun (generation, stop) => setStop generation stop) fun _ b =>
      ∀ (id : NodeId) (s : InferredStop), (id, s) ∈ chosen → StopsAt b id s.char := by
  induction chosen generalizing a with
  | nil => exact builds_pure fun _ _ h => absurd h List.not_mem_nil
  | cons head chosen ih =>
    obtain ⟨id, stop⟩ := head
    have hmem : (id, stop) ∈ (id, stop) :: chosen := List.mem_cons_self ..
    refine builds_bind
      (builds_setStop (hchosen.accepts id stop hmem) (hchosen.startsWith id stop hmem)) ?_
    rintro _ b hab ⟨hset, hothers⟩
    -- the other generations are not touched, and the stop that was set stays
    refine (ih (justified_tail hab.grows hchosen hothers)).with_steps.mono ?_
    rintro _ c ⟨hbc, hrest⟩ id' s hs
    rcases List.mem_cons.1 hs with heq | hs
    · obtain ⟨rfl, rfl⟩ := Prod.mk.inj heq
      exact hset.grow hbc.grows
    · exact hrest id' s hs

/-- A sequence is settled once the stops are set that were inferred for it. -/
theorem settled_of_inferStops {b : Arena} (ha : a.WellFormed) (hab : a.Grows b)
    {elements : List NodeId} {chosen : StopAssignment} (h : a.inferStops elements = .ok chosen)
    (helements : ∀ x ∈ elements, x < a.nodes.size)
    (hset : ∀ (id : NodeId) (s : InferredStop), (id, s) ∈ chosen → StopsAt b id s.char)
    {n : Node} (hn : n.kind = .sequence elements) : n.Settled b := by
  -- only the boundaries of the new sequence have to be looked at
  have hchildren : ∀ x ∈ n.inlineChildren, x < a.nodes.size := by
    intro x hx
    apply helements
    rwa [Node.inlineChildren, hn] at hx
  refine .of_earlier ha.ordered hab hchildren
    fun before rest x hkind hsolid id u g hg hend hstart => ?_
  obtain rfl : elements = before ++ x :: rest := NodeKind.sequence.inj (hn.symm.trans hkind)
  obtain ⟨g₀, hg₀, hsame⟩ := hab.generation? hend.lt_size hg
  rcases follower_of_inferStops ha h hsolid hg₀ hend hstart with
    ⟨regex, hexplicit⟩ | ⟨s, hs, hstarts⟩
  · -- an explicit stop is still there
    rcases hsame with rfl | hunset
    · rw [hexplicit]
      trivial
    · rw [hexplicit] at hunset
      cases hunset
  · -- the stop that was chosen has been set
    obtain ⟨g', regex, source, hg', hstop⟩ := hset id s hs
    obtain rfl := Option.some.inj (hg.symm.trans hg')
    rw [hstop]
    exact hab.startsWith hstarts

/-- The elements of a sequence, or the arena as it was. -/
theorem builds_inferredItems (elements : List Item) :
    Builds a (inferredItems elements) fun found b =>
      (∀ id ∈ found.1, id < b.nodes.size) ∧ b.inferStops found.1 = .ok found.2 := by
  refine builds_bind (builds_items elements) fun ids b _ hids => ?_
  refine builds_bind builds_get ?_
  rintro _ _ - ⟨rfl, rfl⟩
  split
  · rename_i hinfer
    exact builds_pure ⟨hids, hinfer⟩
  · exact builds_throw

theorem builds_sequence (ha : a.Consistent) (elements : List Item) :
    Builds a (sequence elements) fun id b => id < b.nodes.size := by
  refine builds_bind (builds_undoingNodes (builds_inferredItems elements)
    fun _ _ => take_inferredItems) ?_
  rintro ⟨ids, stops⟩ b hab ⟨hids, hinfer⟩
  -- what is inferred is inferred in `b`, and the node is added to `c`, where the stops are set
  have hb : b.Consistent := hab.consistent ha
  refine builds_bind (builds_setStops (justified_of_inferStops hinfer)) fun _ c hbc hset => ?_
  exact builds_addNode
    { inlineChildren_lt := fun x hx => hbc.grows.lt_size (hids x hx)
      start_lt := fun _ _ h => nomatch h
      regexes_lt := fun _ h => absurd h List.not_mem_nil
      inferred := fun _ _ _ _ h => nomatch h
      nullable_eq := rfl }
    (settled_of_inferStops hb.toWellFormed hbc.grows hinfer hids hset rfl)

theorem builds_pair (ha : a.Consistent) (first second : Item) :
    Builds a (pair first second) fun id b => id < b.nodes.size := by
  refine builds_bind (builds_item first) fun x b hab _ => ?_
  refine builds_bind (builds_item second) fun y c hbc _ => ?_
  exact builds_sequence (hbc.consistent (hab.consistent ha)) _

/-! ### Nested grammars -/

theorem builds_nested (start : Item) (skip : Option RegexId) :
    Builds a (nested start skip) fun id b => id < b.nodes.size := by
  refine builds_bind (builds_item start) fun id b _ hid => ?_
  refine builds_checkRegex? fun hskip => ?_
  refine builds_addNode ⟨fun _ h => absurd h List.not_mem_nil, fun start skip h => ?_, hskip,
    fun _ _ _ _ h => (nomatch h), rfl⟩ (.of_ne_sequence fun _ h => nomatch h)
  obtain ⟨hstart, -⟩ := NodeKind.nested.inj h
  exact Option.some.inj hstart ▸ hid

theorem builds_placeholder : Builds a placeholder fun id b => id < b.nodes.size :=
  builds_addNode
    { inlineChildren_lt := fun _ h => absurd h List.not_mem_nil
      start_lt := fun _ _ h => nomatch h
      regexes_lt := fun _ h => absurd h List.not_mem_nil
      inferred := fun _ _ _ _ h => nomatch h
      nullable_eq := rfl }
    (.of_ne_sequence fun _ h => nomatch h)

theorem builds_define (id : NodeId) (start : Item) :
    Builds a (define id start) fun _ _ => True := by
  refine builds_bind (builds_item start) fun start b _ hstart => ?_
  refine builds_bind (builds_needNode .definition id) ?_
  rintro n _ - ⟨rfl, hn⟩
  split
  · rename_i skip hkind
    exact ⟨Relation.ReflTransGen.single (.start (kind?_eq_some.2 ⟨n, hn, hkind⟩) hstart), trivial⟩
  · exact builds_throw
  · exact builds_bind builds_get fun _ _ _ _ => builds_throw

/-- A loop that is closed through a placeholder: how both repetitions are built. -/
theorem builds_loop (ha : a.Consistent) (once : NodeId) (first : Item) :
    Builds a (do
      let repeated ← placeholder
      let more ← sequence [.node repeated, .node once]
      let body ← choice [first, .node more]
      define repeated (.node body)
      return repeated) fun _ _ => True := by
  refine builds_bind builds_placeholder fun repeated b hab _ => ?_
  refine builds_bind (builds_sequence (hab.consistent ha) _) fun more c _ _ => ?_
  refine builds_bind (builds_choice _) fun body d _ _ => ?_
  exact builds_bind (builds_define _ _) fun _ _ _ _ => builds_pure trivial

theorem builds_oneOrMore (ha : a.Consistent) (x : Item) :
    Builds a (oneOrMore x) fun _ _ => True :=
  builds_bind (builds_item x) fun once _ hab _ => builds_loop (hab.consistent ha) once _

theorem builds_zeroOrMore (ha : a.Consistent) (x : Item) :
    Builds a (zeroOrMore x) fun _ _ => True := by
  refine builds_bind (builds_item x) fun once b hab _ => ?_
  refine builds_bind (builds_literal "") fun empty c hbc _ => ?_
  exact builds_loop (hbc.consistent (hab.consistent ha)) once _

/-! ### Properties -/

theorem builds_copyWith (ha : a.Consistent) (id : NodeId) (change : Props → Props) :
    Builds a (copyWith id change) fun id b => id < b.nodes.size := by
  refine builds_bind (builds_needNode .properties id) ?_
  rintro n _ - ⟨rfl, hn⟩
  have hwell := ha.node id n hn
  refine builds_addNode ⟨fun x hx => ?_, hwell.start_lt, hwell.regexes_lt, hwell.inferred,
    hwell.nullable_eq⟩ (ha.settled id n hn)
  exact Nat.lt_trans (hwell.inlineChildren_lt x hx) (node?_eq_some_lt hn)

theorem builds_capture (ha : a.Consistent) (id : NodeId) (name : String) :
    Builds a (capture id name) fun id b => id < b.nodes.size :=
  builds_copyWith ha id _

/-! ### Calls -/

/-- Every call takes steps. -/
theorem builds_run (ha : a.Consistent) (call : Call) : Builds a call.run fun _ _ => True := by
  cases call with
  | regexLiteral text => exact builds_map (builds_regexLiteral text) _
  | pattern source => exact builds_map (builds_pattern source) _
  | regexItem x => exact builds_map (builds_regexItem x) _
  | nothing =>
    exact builds_map (builds_addRegex_of_leaf (r := .nothing) rfl fun _ h => nomatch h) _
  | emptyText =>
    exact builds_map (builds_addRegex_of_leaf (r := .emptyText) rfl fun _ h => nomatch h) _
  | byte b => exact builds_map (builds_addRegex_of_leaf (r := .byte b) rfl fun _ h => nomatch h) _
  | byteLiteral bytes =>
    exact builds_map (builds_addRegex_of_leaf (r := .byteLiteral bytes) rfl fun _ h => nomatch h) _
  | byteSet bytes => exact builds_map (builds_byteSet bytes) _
  | union parts =>
    exact builds_map (builds_combination .union (r := .union parts) rfl (fun _ h => nomatch h)
      fun _ _ _ h => nomatch h) _
  | intersection parts =>
    exact builds_map (builds_combination .intersection (r := .intersection parts) rfl
      (fun _ h => nomatch h) fun _ _ _ h => nomatch h) _
  | concatenation parts =>
    exact builds_map (builds_combination .concatenation (r := .concatenation parts) rfl
      (fun _ h => nomatch h) fun _ _ _ h => nomatch h) _
  | complement part =>
    exact builds_map (builds_modification .complement (r := .complement part) rfl
      (fun _ h => nomatch h) fun _ _ _ h => nomatch h) _
  | lookahead part =>
    exact builds_map (builds_modification .lookahead (r := .lookahead part) rfl
      (fun _ h => nomatch h) fun _ _ _ h => nomatch h) _
  | repetition part min max => exact builds_map (builds_repetition part min max) _
  | literal text => exact builds_map (builds_literal text) _
  | item x => exact builds_map (builds_item x) _
  | generation options => exact builds_map (builds_generation options) _
  | lexeme regex contextual temperature =>
    exact builds_map (builds_lexeme regex contextual temperature) _
  | keyword text => exact builds_map (builds_keyword text) _
  | choice alternatives => exact builds_map (builds_choice alternatives) _
  | sequence elements => exact builds_map (builds_sequence ha elements) _
  | pair first second => exact builds_map (builds_pair ha first second) _
  | nested start skip => exact builds_map (builds_nested start skip) _
  | placeholder => exact builds_map builds_placeholder _
  | define id start => exact builds_map (builds_define id start) _
  | oneOrMore x => exact builds_map (builds_oneOrMore ha x) _
  | zeroOrMore x => exact builds_map (builds_zeroOrMore ha x) _
  | capture id name => exact builds_map (builds_capture ha id name) _
  | listCapture id name => exact builds_map (builds_capture ha id _) _
  | limitTokens id maxTokens => exact builds_map (builds_copyWith ha id _) _

end Builder

namespace Arena

variable {a : Arena}

/-- A call takes steps, whether or not it succeeds. -/
theorem steps_after (ha : a.Consistent) (call : Call) : Steps a (call.after a) := by
  have h := Builder.builds_run ha call
  unfold Builder.Builds at h
  unfold Call.after
  split at h <;> rename_i heq <;> rw [heq]
  · exact h.1
  · exact h

theorem steps_foldl_after (ha : a.Consistent) (calls : List Call) :
    Steps a (calls.foldl Call.after a) := by
  induction calls generalizing a with
  | nil => exact Relation.ReflTransGen.refl
  | cons call calls ih =>
    have hstep := steps_after ha call
    exact hstep.trans (ih (hstep.consistent ha))

/-- **Arenas that are built by calls are reached by steps.** -/
theorem steps_ofCalls (calls : List Call) : Steps ∅ (ofCalls calls) :=
  steps_foldl_after consistent_empty calls

/-- **Arenas that are built by calls are consistent.** -/
theorem consistent_ofCalls (calls : List Call) : (ofCalls calls).Consistent :=
  (steps_ofCalls calls).consistent consistent_empty

/-- **Everything fits together in an arena that is built by calls**, and every cycle passes through
a nested grammar. -/
theorem wellFormed_ofCalls (calls : List Call) :
    (ofCalls calls).WellFormed ∧ ∀ (x : NodeId) (walk : List NodeId),
      List.IsChain (ofCalls calls).Leads (x :: walk) → walk.getLast? = some x →
        ∃ y ∈ walk, (ofCalls calls).isNested y = true := by
  have hwell : (ofCalls calls).WellFormed := (consistent_ofCalls calls).toWellFormed
  exact ⟨hwell, fun x walk hwalk hlast => hwell.exists_isNested_of_cycle hwalk hlast⟩

/-- The loop of a repetition. -/
theorem isNested_of_oneOrMore :
    ∃ y ∈ [3, 2, 1], (ofCalls [.oneOrMore (.text "a")]).isNested y = true := by
  have hrepeated : (ofCalls [.oneOrMore (.text "a")]).node? 1 =
      some ⟨.nested (some 3) none, {}, false⟩ := by cbv
  have hmore : (ofCalls [.oneOrMore (.text "a")]).node? 2 =
      some ⟨.sequence [1, 0], {}, false⟩ := by cbv
  have hbody : (ofCalls [.oneOrMore (.text "a")]).node? 3 =
      some ⟨.choice [0, 2], {}, false⟩ := by cbv
  have hloop : List.IsChain (ofCalls [.oneOrMore (.text "a")]).Leads [1, 3, 2, 1] :=
    .cons_cons ⟨_, hrepeated, by decide⟩ (.cons_cons ⟨_, hbody, by decide⟩
      (.cons_cons ⟨_, hmore, by decide⟩ (.singleton 1)))
  exact (wellFormed_ofCalls [.oneOrMore (.text "a")]).2 1 [3, 2, 1] hloop rfl

end Arena

end GuidedGrammar
