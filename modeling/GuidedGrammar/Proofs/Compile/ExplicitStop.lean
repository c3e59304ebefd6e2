import GuidedGrammar.Proofs.Compile.Renaming
import GuidedGrammar.Proofs.Grammar.ExplicitStop
import GuidedGrammar.Proofs.Grammar.Frame
import GuidedGrammar.Proofs.Grammar.Rendering

/-!
# Inferred stops compile like explicit ones

Where a sequence infers the stop of a generation, the same stop might have been given by hand. The
sequence is built all the same, other generations are given the same stops, and the sequence
compiles to the same, or fails with the same error.

The two arenas hold the same nodes under the same ids, up to the ids of the regexes of stops. So the
ids are names in the sense of `Arena.Renames`, and errors are equal because the generations that
they show have no stop on either side.
-/

namespace GuidedGrammar

/-- Stops at the same text, by the same means. -/
inductive Stop.SameText (store store' : RegexStore) : Stop → Stop → Prop
  | unset : SameText store store' .unset .unset
  | explicit {r r' : RegexId} (h : store.SameTree r store' r') :
    SameText store store' (.explicit r) (.explicit r')
  | inferred {r r' : RegexId} (c : Char) (source : NodeId) (h : store.SameTree r store' r') :
    SameText store store' (.inferred c r source) (.inferred c r' source)

/-- A stop has the same text where its regex has the same tree. -/
theorem Stop.sameText_self {store store' : RegexStore} {stop : Stop}
    (h : ∀ r ∈ stop.regex?.toList, store.SameTree r store' r) :
    stop.SameText store store' stop := by
  cases stop with
  | unset => exact .unset
  | explicit r => exact .explicit (h r (List.mem_singleton_self r))
  | inferred c r source => exact .inferred c source (h r (List.mem_singleton_self r))

theorem RegexStore.sameTree?_self {store store' : RegexStore} {r : Option RegexId}
    (h : ∀ x ∈ r.toList, store.SameTree x store' x) : store.SameTree? r store' r := by
  cases r with
  | none => exact .none
  | some x => exact .some (h x (List.mem_singleton_self x))

/-- A node is the same under its own name where its regexes have the same trees. -/
theorem Node.renamed_self {store store' : RegexStore} {n : Node}
    (h : ∀ r ∈ n.kind.regexes, store.SameTree r store' r) :
    n.Renamed (fun x => x) store store' n := by
  obtain ⟨kind, props, nullable⟩ := n
  refine ⟨?_, rfl⟩
  cases kind with
  | literal text => exact .literal text
  | generation g =>
    exact .generation (h _ (List.mem_cons_self ..))
      (RegexStore.sameTree?_self fun r hr => h r (List.mem_cons_of_mem _ hr)) rfl rfl rfl
  | lexeme l => exact .lexeme (h _ (List.mem_singleton_self _)) rfl rfl
  | nested start skip =>
    have hnested : NodeKind.Renamed (fun x => x) store store' (.nested start skip)
        (.nested (start.map fun x => x) skip) := .nested (RegexStore.sameTree?_self h)
    rwa [Option.map_id_fun'] at hnested
  | choice xs =>
    have hchoice : NodeKind.Renamed (fun x => x) store store' (.choice xs)
        (.choice (xs.map fun x => x)) := .choice xs
    rwa [List.map_id_fun'] at hchoice
  | sequence xs =>
    have hsequence : NodeKind.Renamed (fun x => x) store store' (.sequence xs)
        (.sequence (xs.map fun x => x)) := .sequence xs
    rwa [List.map_id_fun'] at hsequence

namespace Arena

variable {b : Arena} {id : NodeId} {ids : List NodeId} {stops : StopAssignment} {c : Char}

/-- A regex has the same tree in all stores that extend its own. -/
theorem WellFormed.sameTree_of_extends (hb : b.WellFormed) {store store' : RegexStore}
    (hstore : b.regexes.Extends store) (hstore' : b.regexes.Extends store') {r : RegexId}
    (hr : r < b.regexes.size) : store.SameTree r store' r := by
  obtain ⟨t, ht⟩ :=
    RegexStore.exists_unfolds_of_parts_lt (fun id r h => (hb.regex id r h).parts_lt) hr
  exact ⟨t, ht.mono hstore, ht.mono hstore'⟩

/-- A regex has the same rendering in all stores that extend its own. -/
theorem WellFormed.render_of_extends (hb : b.WellFormed) {store : RegexStore}
    (hstore : b.regexes.Extends store) {r : RegexId} (hr : r < b.regexes.size) :
    Regex.render store r = Regex.render b.regexes r :=
  Regex.render_congr hstore (fun id r h p hp => Nat.lt_trans ((hb.regex id r h).parts_lt p hp)
    (Array.getElem?_eq_some_iff.1 h).1) hr

theorem extends_withExplicitStop (b : Arena) (id : NodeId) (c : Char) (ids : List NodeId)
    (stops : StopAssignment) :
    b.regexes.Extends ((b.withExplicitStop id c).withSequence ids stops).regexes :=
  (RegexStore.Extends.push b.regexes (.literal (String.singleton c))).trans
    (grows_withSequence (b.withExplicitStop id c) ids stops).regexes

end Arena

/-! ### Nodes that are alike -/

namespace Node.Alike

variable {limit : Nat} {store store' : RegexStore} {n n' : Node}

theorem renamed (h : n.Alike limit store store' n')
    (htree : ∀ r, r < limit → store.SameTree r store' r) :
    n.Renamed (fun x => x) store store' n' := by
  cases h with
  | kept _ hregexes => exact renamed_self fun r hr => htree r (hregexes r hr)
  | stop props nullable source hbody hregex hregex' =>
    exact ⟨.generation (htree _ hbody) (.some (.of_leaf rfl hregex hregex')) rfl rfl rfl, rfl⟩

theorem sameText (h : n.Alike limit store store' n')
    (htree : ∀ r, r < limit → store.SameTree r store' r) :
    Option.Rel (fun g g' => g.stop.SameText store store' g'.stop) n.generation? n'.generation? := by
  cases h with
  | kept n hregexes =>
    unfold generation?
    split
    · rename_i g hkind
      rw [hkind] at hregexes
      exact .some (Stop.sameText_self fun r hr =>
        htree r (hregexes r (List.mem_cons_of_mem _ hr)))
    · exact .none
  | stop props nullable source hbody hregex hregex' =>
    exact .some (.inferred _ source (.of_leaf rfl hregex hregex'))

/-- Generations without a stop are equal. -/
theorem eq_of_unset (h : n.Alike limit store store' n') {g : Generation}
    (hg : n.kind = .generation g) (hstop : g.stop.regex? = none) :
    n' = n ∧ g.body < limit := by
  cases h with
  | kept n hregexes =>
    rw [hg] at hregexes
    exact ⟨rfl, hregexes _ (List.mem_cons_self ..)⟩
  | stop =>
    obtain rfl := NodeKind.generation.inj hg
    cases hstop

end Node.Alike

/-! ### The two sequences -/

namespace Arena

variable {b : Arena} {id : NodeId} {ids : List NodeId} {stops : StopAssignment} {c : Char}

/-- A stop that a sequence gives to a generation without one. -/
structure GivesStop (b : Arena) (ids : List NodeId) (stops : StopAssignment) (id : NodeId)
    (c : Char) : Prop where
  wellFormed : b.WellFormed
  elements_lt : ∀ x ∈ ids, x < b.nodes.size
  nodup : (stops.map Prod.fst).Nodup
  given : ∃ g s, b.generation? id = some g ∧ g.stop = .unset ∧ stops.stop? id = some s ∧ s.char = c

namespace GivesStop

variable (h : b.GivesStop ids stops id c)

include h

theorem sameTree {r : RegexId} (hr : r < b.regexes.size) :
    (b.withSequence ids stops).regexes.SameTree r
      ((b.withExplicitStop id c).withSequence ids (stops.without id)).regexes r :=
  h.wellFormed.sameTree_of_extends (grows_withSequence b ids stops).regexes
    (extends_withExplicitStop b id c ids _) hr

theorem exists_alike {x : NodeId} (hne : x ≠ id) {n : Node}
    (hn : (b.withSequence ids stops).node? x = some n) :
    ∃ n', ((b.withExplicitStop id c).withSequence ids (stops.without id)).node? x = some n' ∧
      n.Alike b.regexes.size (b.withSequence ids stops).regexes
        ((b.withExplicitStop id c).withSequence ids (stops.without id)).regexes n' := by
  have halike := alike_withSequence h.wellFormed h.elements_lt h.nodup c hne
  rw [hn] at halike
  generalize Arena.node? _ x = o at halike
  cases halike with
  | some halike => exact ⟨_, rfl, halike⟩

/-- The nodes of the one arena are those of the other, with regexes of the same trees. -/
theorem exists_renamed {x : NodeId} {n : Node} (hn : (b.withSequence ids stops).node? x = some n) :
    ∃ n', ((b.withExplicitStop id c).withSequence ids (stops.without id)).node? x = some n' ∧
      n.Renamed (fun x => x) (b.withSequence ids stops).regexes
        ((b.withExplicitStop id c).withSequence ids (stops.without id)).regexes n' := by
  by_cases hne : x = id
  · subst hne
    -- the stop of the node itself is inferred on one side and explicit on the other
    obtain ⟨g, s, hg, hunset, hs, rfl⟩ := h.given
    obtain ⟨props, nullable, regex, hnode, hinferred, hexplicit, hregex, hregex'⟩ :=
      node?_withSequence_self h.nodup s.char ids hg hunset hs
    have hbody : g.body < b.regexes.size :=
      (h.wellFormed.node x _ hnode).regexes_lt _ (List.mem_cons_self ..)
    obtain rfl := Option.some.inj (hinferred.symm.trans hn)
    exact ⟨_, hexplicit,
      .generation (h.sameTree hbody) (.some (.of_leaf rfl hregex hregex')) rfl rfl rfl, rfl⟩
  · obtain ⟨n', hn', halike⟩ := h.exists_alike hne hn
    exact ⟨n', hn', halike.renamed fun r hr => h.sameTree hr⟩

/-- Other generations have their stops at the same text. -/
theorem sameText {x : NodeId} (hne : x ≠ id) :
    Option.Rel (fun g g' => g.stop.SameText (b.withSequence ids stops).regexes
        ((b.withExplicitStop id c).withSequence ids (stops.without id)).regexes g'.stop)
      ((b.withSequence ids stops).generation? x)
      (((b.withExplicitStop id c).withSequence ids (stops.without id)).generation? x) := by
  have halike := alike_withSequence h.wellFormed h.elements_lt h.nodup c hne
  unfold generation?
  generalize Arena.node? _ x = o at halike
  generalize Arena.node? _ x = o' at halike
  cases halike with
  | none => exact .none
  | some halike => exact halike.sameText fun r hr => h.sameTree hr

theorem renames (hb : (b.withSequence ids stops).WellFormed) :
    (b.withSequence ids stops).Renames
      ((b.withExplicitStop id c).withSequence ids (stops.without id)) b.nodes.size fun x => x where
  injective _ _ _ _ heq := heq
  node x hx := by
    obtain ⟨last, hlast, -⟩ := kind?_eq_some.1 (kind?_withSequence b ids stops)
    obtain ⟨n, hn⟩ := hb.linked.exists_node? ⟨last, hlast⟩ hx
    obtain ⟨n', hn', hrenamed⟩ := h.exists_renamed hn
    exact ⟨n, n', hn, hn', hrenamed⟩

/-- Errors are equal. A generation without a stop is in both arenas, with the same regex. -/
theorem errorsAgree : Compile.ErrorsAgree (b.withSequence ids stops)
    ((b.withExplicitStop id c).withSequence ids (stops.without id)) b.nodes.size (fun x => x)
    fun e e' => e' = e where
  refl _ := rfl
  undefined _ _ := rfl
  unresolved x g _ hg hnone := by
    obtain ⟨n, hn, hkind⟩ := kind?_eq_some.1 (generation?_eq_some.1 hg)
    -- the stop of `id` is set on both sides, so `id` is not the node reported
    have hne : x ≠ id := by
      rintro rfl
      obtain ⟨g₀, s, hg₀, hunset, hs, -⟩ := h.given
      obtain ⟨_, _, _, _, hinferred, -⟩ := node?_withSequence_self h.nodup c ids hg₀ hunset hs
      obtain rfl := Option.some.inj (hinferred.symm.trans hn)
      obtain rfl := NodeKind.generation.inj hkind
      cases hnone
    obtain ⟨n', hn', halike⟩ := h.exists_alike hne hn
    obtain ⟨rfl, hbody⟩ := halike.eq_of_unset hkind hnone
    have hrender :=
      h.wellFormed.render_of_extends (grows_withSequence b ids stops).regexes hbody
    have hrender' := h.wellFormed.render_of_extends
      (extends_withExplicitStop b id c ids (stops.without id)) hbody
    rw [cite_congr hn hn' hkind hnone (hrender'.trans hrender.symm)]

/-- The two sequences compile to the same. -/
theorem compile_eq (hb : (b.withSequence ids stops).WellFormed) (options : CompileOptions) :
    ((b.withExplicitStop id c).withSequence ids (stops.without id)).compile options b.nodes.size =
      (b.withSequence ids stops).compile options b.nodes.size :=
  ((h.renames hb).agrees_compile h.errorsAgree options).eq

end GivesStop

/-- What a sequence gives a stop to was chosen for it. -/
theorem exists_stop?_of_inferred {g g' : Generation} {regex : RegexId} {source : NodeId}
    (hnodup : (stops.map Prod.fst).Nodup) (hg : b.generation? id = some g)
    (hunset : g.stop = .unset) (hg' : (b.withSequence ids stops).generation? id = some g')
    (hstop : g'.stop = .inferred c regex source) : ∃ s, stops.stop? id = some s ∧ s.char = c := by
  obtain ⟨n, hn, hkind⟩ := kind?_eq_some.1 (generation?_eq_some.1 hg)
  obtain ⟨n', hn', hkind'⟩ := kind?_eq_some.1 (generation?_eq_some.1 hg')
  cases hs : stops.stop? id with
  | none =>
    -- the generation would have no stop
    rw [node?_withSequence_of_not_mem hn (not_mem_keys_of_stop? hs)] at hn'
    obtain rfl := Option.some.inj hn'
    obtain rfl := NodeKind.generation.inj (hkind.symm.trans hkind')
    rw [hunset] at hstop
    cases hstop
  | some s =>
    obtain ⟨_, _, _, _, hinferred, -⟩ := node?_withSequence_self hnodup c ids hg hunset hs
    obtain rfl := Option.some.inj (hinferred.symm.trans hn')
    obtain rfl := NodeKind.generation.inj hkind'
    obtain ⟨rfl, -, -⟩ := Stop.inferred.inj hstop
    exact ⟨s, rfl, rfl⟩

/-- **An inferred stop is like the same stop given by hand.** If a sequence gives a stop to a
generation, then it can be built as well where the generation has that stop already. It has the same
id, gives other generations the same stops, and compiles to the same. -/
theorem compile_withExplicitStop (calls : List Call) (elements : List Item) (id : NodeId)
    (g : Generation) (hg : (ofCalls calls).generation? id = some g) (hunset : g.stop = .unset)
    (j : NodeId) (b : Arena) (hrun : Builder.sequence elements (ofCalls calls) = .ok j b)
    (g' : Generation) (hg' : b.generation? id = some g') (c : Char) (regex : RegexId)
    (source : NodeId) (hstop : g'.stop = .inferred c regex source) :
    ∃ b', Builder.sequence elements ((ofCalls calls).withExplicitStop id c) = .ok j b' ∧
      (∀ x, x ≠ id → Option.Rel (fun g g' => g.stop.SameText b.regexes b'.regexes g'.stop)
        (b.generation? x) (b'.generation? x)) ∧
      ∀ options, b'.compile options j = b.compile options j := by
  have hconsistent := consistent_ofCalls calls
  have hid : id < (ofCalls calls).nodes.size := by
    obtain ⟨n, hn, -⟩ := kind?_eq_some.1 (generation?_eq_some.1 hg)
    exact node?_eq_some_lt hn
  obtain ⟨hsteps, -⟩ := (Builder.builds_sequence hconsistent elements).of_ok hrun
  have hb := (hsteps.consistent hconsistent).toWellFormed
  rcases Builder.sequence_cases (ofCalls calls) elements with
    ⟨e, herror⟩ | ⟨ids, stops, d, hitems, hinfer, hok⟩
  · rw [herror] at hrun
    cases hrun
  · rw [hok] at hrun
    obtain ⟨rfl, rfl⟩ := EStateM.Result.ok.inj hrun
    obtain ⟨hsteps', hids⟩ := (Builder.builds_items elements).of_ok hitems
    have hnodup := (justified_of_inferStops hinfer).nodup
    -- the items leave the generation as it is
    have hgeneration : d.generation? id = some g := by
      obtain ⟨n, hn, hkind⟩ := kind?_eq_some.1 (generation?_eq_some.1 hg)
      exact generation?_eq_some.2 (kind?_eq_some.2
        ⟨n, (Builder.extends_items hitems).nodes id n hn, hkind⟩)
    obtain ⟨s, hs, hc⟩ := exists_stop?_of_inferred hnodup hgeneration hunset hg' hstop
    have hgives : d.GivesStop ids stops id c :=
      ⟨(hsteps'.consistent hconsistent).toWellFormed, hids, hnodup,
        ⟨g, s, hgeneration, hunset, hs, hc⟩⟩
    exact ⟨_, Builder.sequence_withExplicitStop hid c hitems hinfer,
      fun x hne => hgives.sameText hne, fun options => hgives.compile_eq hb options⟩

/-- One of two generations before a full stop is given its stop by hand. The other one is given the
same stop as without, and the sequence compiles to the same. -/
theorem compile_withExplicitStop_period :
    ∃ b', Builder.sequence [.node 2, .text "."] ((ofCalls [.generation {}, .generation {},
        .choice [.node 0, .node 1]]).withExplicitStop 0 '.') = .ok 4 b' ∧
      (∃ g regex, b'.generation? 1 = some g ∧ g.stop = .inferred '.' regex 3) ∧
      b'.compile {} 4 = (ofCalls [.generation {}, .generation {}, .choice [.node 0, .node 1],
        .sequence [.node 2, .text "."]]).compile {} 4 := by
  have hg : (ofCalls [.generation {}, .generation {}, .choice [.node 0, .node 1]]).generation? 0 =
      some ⟨0, .unset, none, none, none⟩ := by cbv
  have hrun : Builder.sequence [.node 2, .text "."]
      (ofCalls [.generation {}, .generation {}, .choice [.node 0, .node 1]]) =
        .ok 4 (ofCalls [.generation {}, .generation {}, .choice [.node 0, .node 1],
          .sequence [.node 2, .text "."]]) := by cbv
  have hg' : (ofCalls [.generation {}, .generation {}, .choice [.node 0, .node 1],
      .sequence [.node 2, .text "."]]).generation? 0 =
        some ⟨0, .inferred '.' 2 3, none, none, none⟩ := by cbv
  -- the other generation before the period gets its stop from the join
  have hother : (ofCalls [.generation {}, .generation {}, .choice [.node 0, .node 1],
      .sequence [.node 2, .text "."]]).generation? 1 =
        some ⟨1, .inferred '.' 3 3, none, none, none⟩ := by cbv
  obtain ⟨b', hrun', hsame, hcompile⟩ := compile_withExplicitStop
    [.generation {}, .generation {}, .choice [.node 0, .node 1]] [.node 2, .text "."] 0 _ hg rfl 4 _
    hrun _ hg' '.' 2 3 rfl
  refine ⟨b', hrun', ?_, hcompile {}⟩
  have hstop := hsame 1 (by decide)
  rw [hother] at hstop
  generalize b'.generation? 1 = o at hstop
  cases hstop with
  | @some _ g htext =>
    obtain ⟨body, stop, lazy, temperature, name⟩ := g
    cases htext with
    | inferred => exact ⟨_, _, rfl, rfl⟩

end Arena

end GuidedGrammar
