import GuidedGrammar.Proofs.Grammar.Bracketing

/-!
# Building a sequence again

Inferred stops stay open to confirmation, so a sequence whose stops have been inferred goes through
inference once more when it is built again. The boundaries are the same then, as nothing but stops
has changed; and what they offer is there already, whether this sequence has given it or an earlier
one (`Arena.exists_hasInferred_of_offers`). So nothing is wrong, there is nothing to give, and all
that is added is one more node (`Builder.sequence_again`).
-/

namespace GuidedGrammar

namespace Arena

variable {a b : Arena} {elements : List NodeId} {chosen : StopAssignment} {i : Nat} {g : NodeId}
  {s : InferredStop}

/-! ### Boundaries of growing arenas -/

section Grows

variable (h : a.Grows b) (ha : a.Ordered) (helements : ∀ x ∈ elements, x < a.nodes.size)

include h ha helements

theorem Grows.pendingAt_eq (i : Nat) : b.pendingAt elements i = a.pendingAt elements i := by
  rw [pendingAt, pendingAt]
  cases hx : elements[i]? with
  | none => rfl
  | some x =>
    exact h.pendingAfter_eq ha (List.forall_mem_singleton.2 (helements x (List.mem_of_getElem? hx)))

theorem Grows.followersAt_eq (i : Nat) : b.followersAt elements i = a.followersAt elements i :=
  h.followers_eq ha fun x hx => helements x (List.mem_of_mem_drop hx)

/-- Stops are inferred at the same boundaries. -/
theorem Grows.infersAt_iff : b.InfersAt elements i ↔ a.InfersAt elements i := by
  have hsolid : (∃ y ∈ elements.drop (i + 1), b.isNullable y = false) ↔
      ∃ y ∈ elements.drop (i + 1), a.isNullable y = false :=
    exists_congr fun y => and_congr_right fun hy => by
      rw [h.isNullable_eq (helements y (List.mem_of_mem_drop hy))]
  constructor
  · intro hi
    exact ⟨h.pendingAt_eq ha helements i ▸ hi.pending, hsolid.1 hi.solid⟩
  · intro hi
    exact ⟨(h.pendingAt_eq ha helements i).symm ▸ hi.pending, hsolid.2 hi.solid⟩

/-- Boundaries offer the same stops when the arena has grown. -/
theorem Grows.offers_iff : b.Offers elements i g s ↔ a.Offers elements i g s := by
  -- the followers are nodes of the smaller arena, and literals do not change
  have hstarts : (∀ u ∈ a.followersAt elements i, b.StartsWith u s.char) ↔
      ∀ u ∈ a.followersAt elements i, a.StartsWith u s.char :=
    forall₂_congr fun u hu => h.startsWith_iff
      (lt_size_of_mem_firstFrontier (List.mem_filter.1 hu).1)
  have hpending := h.pendingAt_eq ha helements i
  have hfollowers := h.followersAt_eq ha helements i
  constructor
  · rintro ⟨hinfers, hg, hsource, hs⟩
    rw [hpending] at hg
    rw [hfollowers] at hsource hs
    exact ⟨(h.infersAt_iff ha helements).1 hinfers, hg, hsource, hstarts.1 hs⟩
  · rintro ⟨hinfers, hg, hsource, hs⟩
    refine ⟨(h.infersAt_iff ha helements).2 hinfers, ?_, ?_, ?_⟩
    · rwa [hpending]
    · rwa [hfollowers]
    · rw [hfollowers]
      exact hstarts.2 hs

end Grows

/-! ### What a sequence leaves behind -/

/-- **What a boundary offers is there** when the sequence has been built: the sequence has given it,
or the generation had it before. -/
theorem exists_hasInferred_of_offers (hinfer : a.inferStops elements = .ok chosen)
    (hs : a.Offers elements i g s) :
    ∃ t, (a.withSequence elements chosen).HasInferred g t ∧ t.char = s.char := by
  obtain ⟨hfaultless, hnodup, hchosen⟩ := firstOffers_of_inferStops hinfer
  obtain ⟨x, -, hg⟩ := mem_pendingAt.1 hs.pending
  rcases lacksStop_or_stopsAt (List.mem_filter.1 hg).2 with hlacks | ⟨d, hd⟩
  · -- the generation is given what is offered first, which has the same character
    obtain ⟨j, -, t, hfirst⟩ := hs.exists_firstOffer
    have hchoice : (g, t) ∈ a.choicesLacking chosen :=
      mem_choicesLacking.2 ⟨(hchosen g t).2 ⟨j, hfirst⟩, hlacks⟩
    exact ⟨t, hasInferred_withSequence elements hnodup hchoice,
      (forall_not_faulty_iff.1 hfaultless).2.1 j i g t s hfirst.1 hs⟩
  · obtain ⟨t, ht, rfl⟩ := stopsAt_iff_hasInferred.1 hd
    obtain ⟨t', ht', hchar⟩ :=
      stopsAt_iff_hasInferred.1 (hd.grow (grows_withSequence a elements chosen))
    exact ⟨t', ht', hchar.trans (hs.char_eq_of_hasInferred (hfaultless i) ht)⟩

/-- Inference succeeds again, and has nothing to give. -/
theorem inferStops_again (ha : a.Ordered) (helements : ∀ x ∈ elements, x < a.nodes.size)
    (hinfer : a.inferStops elements = .ok chosen) :
    ∃ chosen', (a.withSequence elements chosen).inferStops elements = .ok chosen' ∧
      ∀ choice ∈ chosen', ¬ (a.withSequence elements chosen).LacksStop choice.1 := by
  have hgrows := grows_withSequence a elements chosen
  have hoffers : ∀ {i g s}, (a.withSequence elements chosen).Offers elements i g s ↔
      a.Offers elements i g s := hgrows.offers_iff ha helements
  obtain ⟨hagree, hunique, -⟩ := forall_not_faulty_iff.1 (firstOffers_of_inferStops hinfer).1
  -- the second run offers what the first one did, and by now it is set
  have hfaultless : ∀ i e, ¬ (a.withSequence elements chosen).Faulty elements i e := by
    refine forall_not_faulty_iff.2
      ⟨fun i hi => ?_, fun i j g s t hs ht => ?_, fun i g s t hs ht => ?_⟩
    · obtain ⟨c, hc⟩ := hagree i ((hgrows.infersAt_iff ha helements).1 hi)
      rw [hgrows.followersAt_eq ha helements]
      exact ⟨c, fun u hu => hgrows.startsWith (hc u hu)⟩
    · exact hunique i j g s t (hoffers.1 hs) (hoffers.1 ht)
    · obtain ⟨t', ht', hchar⟩ := exists_hasInferred_of_offers hinfer (hoffers.1 hs)
      rw [← hchar]
      exact stopsAt_unique (stopsAt_iff_hasInferred.2 ⟨t, ht, rfl⟩)
        (stopsAt_iff_hasInferred.2 ⟨t', ht', rfl⟩)
  rcases inferStops_cases (a.withSequence elements chosen) elements with
    ⟨chosen', hok, -, -, hchosen'⟩ | ⟨e, -, i, hi, -⟩
  · refine ⟨chosen', hok, ?_⟩
    rintro ⟨g, s⟩ hchoice
    obtain ⟨i, hfirst, -⟩ := (hchosen' g s).1 hchoice
    obtain ⟨t, ht, -⟩ := exists_hasInferred_of_offers hinfer (hoffers.1 hfirst)
    exact ht.not_lacksStop
  · exact absurd hi (hfaultless i e)

/-- Nothing is given to generations that have stops. -/
theorem giveStops_of_not_lacksStop (h : ∀ choice ∈ chosen, ¬ a.LacksStop choice.1) :
    a.giveStops chosen = a := by
  induction chosen with
  | nil => rfl
  | cons choice chosen ih =>
    obtain ⟨hchoice, hchosen⟩ := List.forall_mem_cons.1 h
    rw [lacksStop_iff] at hchoice
    rw [giveStops, List.foldl_cons, giveStop_of_ne hchoice, ← giveStops, ih hchosen]

theorem withSequence_of_not_lacksStop (h : ∀ choice ∈ chosen, ¬ a.LacksStop choice.1) :
    a.withSequence elements chosen =
      a.withNode ⟨.sequence elements, {}, elements.all a.isNullable⟩ := by
  rw [withSequence, giveStops_of_not_lacksStop h]

end Arena

namespace Builder

open Arena

variable {a b : Arena} {xs : List NodeId} {j : NodeId}

/-- The elements of a sequence that is built are known. -/
theorem lt_size_of_sequence_ok (h : sequence (xs.map .node) a = .ok j b) :
    ∀ x ∈ xs, x < a.nodes.size := by
  rcases sequence_cases a (xs.map .node) with ⟨e, herror⟩ | ⟨ids, stops, c, hitems, -⟩
  · cases herror.symm.trans h
  · have hknown := ((builds_items (xs.map .node)).of_ok hitems).2
    obtain ⟨rfl, rfl⟩ := items_of_nodes hitems
    exact hknown

/-- **A sequence that is built again adds a node, and nothing else.** The node is the one that it
has added the first time; all nodes stay as they are, the generations with their stops and where
these have been read from, and there is no further regex. -/
theorem sequence_again (calls : List Call) (xs : List NodeId) (j : NodeId) (b : Arena)
    (h : sequence (xs.map .node) (ofCalls calls) = .ok j b) :
    ∃ n, b.node? j = some n ∧ n.kind = .sequence xs ∧
      sequence (xs.map .node) b = .ok b.nodes.size { b with nodes := b.nodes.push n } := by
  have hxs := lt_size_of_sequence_ok h
  have ha : (ofCalls calls).Ordered := (consistent_ofCalls calls).ordered
  obtain ⟨chosen, hinfer, rfl, rfl⟩ := (sequence_of_nodes_eq_ok_iff hxs).1 h
  have hgrows := grows_withSequence (ofCalls calls) xs chosen
  have hxs' : ∀ x ∈ xs, x < ((ofCalls calls).withSequence xs chosen).nodes.size :=
    fun x hx => hgrows.lt_size (hxs x hx)
  obtain ⟨chosen', hinfer', hchosen'⟩ := inferStops_again ha hxs hinfer
  -- the nullable flag is read after the stops are given, and the same as in the arena before
  have hnullable : xs.all ((ofCalls calls).withSequence xs chosen).isNullable =
      xs.all ((ofCalls calls).giveStops chosen).isNullable := by
    rw [hgrows.all_isNullable_eq hxs, (grows_giveStops _ chosen).all_isNullable_eq hxs]
  refine ⟨_, by rw [node?_withSequence, if_pos rfl], rfl,
    (sequence_of_nodes_eq_ok_iff hxs').2 ⟨chosen', hinfer', rfl, ?_⟩⟩
  rw [withSequence_of_not_lacksStop hchosen', hnullable]
  rfl

/-- A generation that is followed by a full stop twice keeps the stop that it is given the first
time. -/
theorem sequence_again_full_stops :
    ∃ b, sequence [.node 0, .node 1, .node 0, .node 1] (ofCalls [.generation {}, .literal "."]) =
        .ok 2 b ∧ b.HasInferred 0 ⟨'.', 1⟩ ∧
      sequence [.node 0, .node 1, .node 0, .node 1] b =
        .ok 3 { b with nodes := b.nodes.push ⟨.sequence [0, 1, 0, 1], {}, false⟩ } := by
  obtain ⟨b, hrun, hsize, hgeneration, hnode⟩ : ∃ b, sequence ([0, 1, 0, 1].map .node)
      (ofCalls [.generation {}, .literal "."]) = .ok 2 b ∧ b.nodes.size = 3 ∧
        b.generation? 0 = some ⟨0, .inferred '.' 1 1, none, none, none⟩ ∧
        b.node? 2 = some ⟨.sequence [0, 1, 0, 1], {}, false⟩ := ⟨_, by cbv, by cbv, by cbv, by cbv⟩
  obtain ⟨n, hn, -, hagain⟩ :=
    sequence_again [.generation {}, .literal "."] [0, 1, 0, 1] 2 b hrun
  obtain rfl := Option.some.inj (hnode.symm.trans hn)
  rw [hsize] at hagain
  exact ⟨b, hrun, ⟨_, 1, hgeneration, rfl⟩, hagain⟩

end Builder

end GuidedGrammar
