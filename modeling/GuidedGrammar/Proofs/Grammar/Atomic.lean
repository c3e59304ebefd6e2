import GuidedGrammar.Proofs.Grammar.Boundaries
import GuidedGrammar.Proofs.Grammar.Sequence

/-!
# Sequences are built as a whole or not at all

Items become nodes before anything about a sequence is known, and stops are set before the node of
the sequence is there. Still, a sequence that fails leaves nothing behind: what it has added by then
are literals, and these are dropped. A sequence that is built adds the literals, its node, and one
regex for each generation that is given a stop; everything else stays (`Arena.AddsSequence`,
`Builder.sequence_all_or_nothing`). After the stops have been inferred nothing can fail any more
(`Builder.setStops_run`).
-/

namespace GuidedGrammar

namespace Arena

/-- **What a sequence adds to an arena.** `given` lists the generations that are given stops. -/
structure AddsSequence (a : Arena) (elements : List Item) (id : NodeId) (b : Arena)
    (given : StopAssignment) : Prop where
  id_eq : id = a.nodes.size + (elements.filterMap Item.text?).length
  /-- The sequence is the only node besides the literals. -/
  size_eq : b.nodes.size = id + 1
  literals : ∀ k text, (elements.filterMap Item.text?)[k]? = some text →
    b.node? (a.nodes.size + k) = some ⟨.literal text, {}, text.isEmpty⟩
  /-- Its elements are the items in their order. -/
  node : b.node? id = some ⟨.sequence (Item.resolve a.nodes.size elements), {},
    (Item.resolve a.nodes.size elements).all b.isNullable⟩
  elements_lt : ∀ x ∈ Item.resolve a.nodes.size elements, x < id
  /-- No generation is listed twice. -/
  nodup : (given.map Prod.fst).Nodup
  mem_given_iff : ∀ g, g ∈ given.map Prod.fst ↔ a.LacksStop g ∧ ∃ s, b.HasInferred g s
  /-- For each listed generation there is one more regex, and there are no others. -/
  regexes_eq : b.regexes =
    a.regexes ++ (given.map fun choice => Regex.literal (String.singleton choice.2.char)).toArray
  stops : ∀ k g s, given[k]? = some (g, s) → b.node? g =
    (a.node? g).map (Builder.withStop (.inferred s.char (a.regexes.size + k) s.source))
  /-- All other nodes are as they were. -/
  kept : ∀ x n, a.node? x = some n → x ∉ given.map Prod.fst → b.node? x = some n

variable {a : Arena}

theorem HasInferred.not_lacksStop {g : NodeId} {s : InferredStop} (h : a.HasInferred g s) :
    ¬ a.LacksStop g := by
  rintro ⟨gen, hgen, hunset⟩
  obtain ⟨gen', regex, hgen', hstop⟩ := h
  obtain rfl := Option.some.inj (hgen.symm.trans hgen')
  rw [hunset] at hstop
  cases hstop

/-! ### Given stops -/

theorem generation?_withStop {n : Node} {gen : Generation} (h : n.generation? = some gen)
    (stop : Stop) : (Builder.withStop stop n).generation? = some { gen with stop } := by
  obtain ⟨kind, props, nullable⟩ := n
  cases kind with
  | generation gen' =>
    obtain rfl := Option.some.inj h
    rfl
  | literal | lexeme | nested | choice | sequence => cases h

/-- Nodes that are given no stop stay, also those for which a stop was chosen that they have. -/
theorem node?_withSequence_of_not_lacking {ids : List NodeId} {chosen : StopAssignment} {x : NodeId}
    (hx : x < a.nodes.size) (hnotMem : x ∉ (a.choicesLacking chosen).map Prod.fst) :
    (a.withSequence ids chosen).node? x = a.node? x := by
  rw [node?_withSequence, if_neg (Nat.ne_of_lt hx)]
  by_cases hunset : (a.generation? x).map Generation.stop = some .unset
  · refine node?_giveStops_of_not_mem fun hmem => hnotMem ?_
    obtain ⟨choice, hchoice, rfl⟩ := List.mem_map.1 hmem
    exact List.mem_map.2 ⟨choice, mem_choicesLacking.2 ⟨hchoice, lacksStop_iff.2 hunset⟩, rfl⟩
  · exact node?_giveStops_of_set hunset chosen

/-- The node of a generation that is given a stop. -/
theorem node?_withSequence_of_lacking {ids : List NodeId} {chosen : StopAssignment}
    (hnodup : (chosen.map Prod.fst).Nodup) {k : Nat} {g : NodeId} {s : InferredStop}
    (hk : (a.choicesLacking chosen)[k]? = some (g, s)) : (a.withSequence ids chosen).node? g =
      (a.node? g).map (Builder.withStop (.inferred s.char (a.regexes.size + k) s.source)) := by
  obtain ⟨-, gen, hgen, -⟩ := mem_choicesLacking.1 (List.mem_of_getElem? hk)
  obtain ⟨n, hn, -⟩ := Option.bind_eq_some_iff.1 hgen
  rw [node?_withSequence, if_neg (Nat.ne_of_lt (node?_eq_some_lt hn)),
    (giveStops_exact hnodup).2 k g s hk]

/-- What was chosen for a generation without a stop is its stop then. -/
theorem hasInferred_withSequence (ids : List NodeId) {chosen : StopAssignment}
    (hnodup : (chosen.map Prod.fst).Nodup) {g : NodeId} {s : InferredStop}
    (h : (g, s) ∈ a.choicesLacking chosen) : (a.withSequence ids chosen).HasInferred g s := by
  obtain ⟨-, gen, hgen, -⟩ := mem_choicesLacking.1 h
  obtain ⟨k, hk⟩ := List.mem_iff_getElem?.1 h
  obtain ⟨n, hn, hkind⟩ := Option.bind_eq_some_iff.1 hgen
  refine ⟨{ gen with stop := .inferred s.char (a.regexes.size + k) s.source },
    a.regexes.size + k, ?_, rfl⟩
  rw [generation?, node?_withSequence_of_lacking hnodup hk, hn, Option.map_some, Option.bind_some]
  exact generation?_withStop hkind _

/-- The generations that are given stops are those that go from no stop to an inferred one. -/
theorem mem_keys_choicesLacking (ids : List NodeId) {chosen : StopAssignment}
    (hnodup : (chosen.map Prod.fst).Nodup) {g : NodeId} :
    g ∈ (a.choicesLacking chosen).map Prod.fst ↔
      a.LacksStop g ∧ ∃ s, (a.withSequence ids chosen).HasInferred g s := by
  constructor
  · intro hg
    obtain ⟨⟨g, s⟩, hchoice, rfl⟩ := List.mem_map.1 hg
    exact ⟨(mem_choicesLacking.1 hchoice).2, s, hasInferred_withSequence ids hnodup hchoice⟩
  · rintro ⟨hlacks, s, hinferred⟩
    by_contra hnotMem
    obtain ⟨gen, hgen, hunset⟩ := hlacks
    obtain ⟨n, hn, -⟩ := Option.bind_eq_some_iff.1 hgen
    refine hinferred.not_lacksStop ⟨gen, ?_, hunset⟩
    rw [generation?, node?_withSequence_of_not_lacking (node?_eq_some_lt hn) hnotMem, ← generation?,
      hgen]

/-! ### Literals -/

theorem node?_withLiterals (a : Arena) (texts : List String) (x : NodeId) :
    (a.withLiterals texts).node? x = if x < a.nodes.size then a.node? x else
      (texts[x - a.nodes.size]?).map fun s => ⟨.literal s, {}, s.isEmpty⟩ := by
  show (a.nodes ++ (texts.map fun s => (⟨.literal s, {}, s.isEmpty⟩ : Node)).toArray)[x]? = _
  rw [Array.getElem?_append]
  simp only [List.getElem?_toArray, List.getElem?_map]
  rfl

theorem node?_withLiterals_of_some {x : NodeId} {n : Node} (hn : a.node? x = some n)
    (texts : List String) : (a.withLiterals texts).node? x = some n := by
  rw [node?_withLiterals, if_pos (node?_eq_some_lt hn), hn]

theorem node?_withLiterals_text {texts : List String} {k : Nat} {text : String}
    (hk : texts[k]? = some text) : (a.withLiterals texts).node? (a.nodes.size + k) =
      some ⟨.literal text, {}, text.isEmpty⟩ := by
  have hnew : ¬ a.nodes.size + k < a.nodes.size := by omega
  rw [node?_withLiterals, if_neg hnew, Nat.add_sub_cancel_left, hk, Option.map_some]

/-- Literals are no generations. -/
theorem generation?_withLiterals (a : Arena) (texts : List String) (x : NodeId) :
    (a.withLiterals texts).generation? x = a.generation? x := by
  rw [generation?, node?_withLiterals]
  split
  · rfl
  · rename_i hx
    rw [generation?, node?, Array.getElem?_eq_none (Nat.le_of_not_lt hx)]
    cases texts[x - a.nodes.size]? <;> rfl

theorem lacksStop_withLiterals {texts : List String} {x : NodeId} :
    (a.withLiterals texts).LacksStop x ↔ a.LacksStop x := by
  rw [lacksStop_iff, lacksStop_iff, generation?_withLiterals]

/-! ### The sequence -/

/-- What is added when the stops of items are inferred: what `c`, the arena with their literals,
has more, and what the sequence adds to `c`. -/
theorem addsSequence_withSequence {elements : List Item} {chosen : StopAssignment} {c : Arena}
    (hc : c = a.withLiterals (elements.filterMap Item.text?))
    (hresolved : ∀ x ∈ Item.resolve a.nodes.size elements, x < c.nodes.size)
    (hnodup : (chosen.map Prod.fst).Nodup) :
    a.AddsSequence elements c.nodes.size
      (c.withSequence (Item.resolve a.nodes.size elements) chosen) (c.choicesLacking chosen) := by
  -- adding the literals touches neither the regexes nor the nodes that exist
  have hregex : c.regexes = a.regexes := by
    rw [hc]
    rfl
  have hlacks : ∀ x, c.LacksStop x ↔ a.LacksStop x := fun x => by
    rw [hc]
    exact lacksStop_withLiterals
  have hold : ∀ x n, a.node? x = some n → c.node? x = some n := by
    intro x n hn
    rw [hc]
    exact node?_withLiterals_of_some hn _
  refine { id_eq := ?id, size_eq := ?size, literals := ?literals, node := ?node,
           elements_lt := hresolved, nodup := ?nodup, mem_given_iff := ?given,
           regexes_eq := ?regexes, stops := ?stops, kept := ?kept }
  case id => rw [hc, size_withLiterals]
  case size => rw [withSequence, size_withNode, size_giveStops]
  case literals =>
    intro k text hk
    have hliteral : c.node? (a.nodes.size + k) = some ⟨.literal text, {}, text.isEmpty⟩ := by
      rw [hc]
      exact node?_withLiterals_text hk
    rw [node?_withSequence_of_not_lacking (node?_eq_some_lt hliteral), hliteral]
    -- a literal that was just added is no generation, so it is given no stop
    intro hmem
    obtain ⟨⟨gen, hgen, -⟩, -⟩ :=
      (mem_keys_choicesLacking (Item.resolve a.nodes.size elements) hnodup).1 hmem
    rw [generation?, hliteral] at hgen
    cases hgen
  case node =>
    have hlt : ∀ x ∈ Item.resolve a.nodes.size elements, x < (c.giveStops chosen).nodes.size := by
      rwa [size_giveStops]
    rw [node?_withSequence, if_pos rfl]
    congr 2
    exact ((grows_withNode _ _).all_isNullable_eq hlt).symm
  case nodup => exact hnodup.sublist (List.filter_sublist.map Prod.fst)
  case given =>
    exact fun g => (mem_keys_choicesLacking _ hnodup).trans (and_congr_left' (hlacks g))
  case regexes =>
    rw [← hregex]
    exact (giveStops_exact hnodup).1
  case stops =>
    intro k g s hk
    obtain ⟨-, hg⟩ := mem_choicesLacking.1 (List.mem_of_getElem? hk)
    obtain ⟨gen, hgen, -⟩ := (hlacks g).1 hg
    obtain ⟨n, hn, -⟩ := Option.bind_eq_some_iff.1 hgen
    rw [node?_withSequence_of_lacking hnodup hk, hold g n hn, hn, hregex]
  case kept =>
    intro x n hn hnotMem
    rw [node?_withSequence_of_not_lacking (node?_eq_some_lt (hold x n hn)) hnotMem, hold x n hn]

end Arena

namespace Builder

open Arena

/-- **A sequence is built as a whole or not at all.** Where it fails, the arena afterwards is the
arena before. Where it succeeds, it has added what `AddsSequence` says: the literals, its own node,
and for each generation that went from no stop to an inferred one a regex. -/
theorem sequence_all_or_nothing (a : Arena) (elements : List Item) :
    (∀ e b, sequence elements a = .error e b → b = a) ∧
      ∀ id b, sequence elements a = .ok id b → ∃ given, a.AddsSequence elements id b given := by
  rcases sequence_cases a elements with ⟨e, herror⟩ | ⟨ids, stops, c, hitems, hinfer, hok⟩
  · refine ⟨fun e' b h => ?_, fun id b h => ?_⟩
    · exact (EStateM.Result.error.inj (herror.symm.trans h)).2.symm
    · cases herror.symm.trans h
  · refine ⟨fun e' b h => ?_, fun id b h => ?_⟩
    · cases hok.symm.trans h
    · obtain ⟨rfl, rfl⟩ := EStateM.Result.ok.inj (hok.symm.trans h)
      have hresolved := ((builds_items elements).of_ok hitems).2
      rcases items_cases elements a with ⟨e', texts, herror⟩ | hitems'
      · cases herror.symm.trans hitems
      · obtain ⟨rfl, hc⟩ := EStateM.Result.ok.inj (hitems.symm.trans hitems')
        exact ⟨_, addsSequence_withSequence hc hresolved (justified_of_inferStops hinfer).nodup⟩

/-- An id that only a literal of the same sequence makes valid can be used after the literal. -/
example : sequence [.text "a", .node 0] ∅ =
    .ok 1 ⟨#[⟨.literal "a", {}, false⟩, ⟨.sequence [0, 0], {}, false⟩], #[]⟩ := by
  cbv

/-- Before the literal it is unknown, and the literal that was added before it goes again. -/
example : sequence [.text "a", .node 1, .text "b"] ∅ =
    .error (.malformed .grammar (.unknownNode 1)) ∅ := by
  cbv

end Builder

end GuidedGrammar
