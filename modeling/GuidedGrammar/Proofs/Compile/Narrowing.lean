import Mathlib.Data.Finset.Card
import GuidedGrammar.Proofs.Compile.Closed
import GuidedGrammar.Proofs.Compile.References

/-!
# Positions in 32-bit words

The written form of compiled grammars holds positions in 32-bit words, and compiling counts without
a bound. Nothing is lost if the arena has no more nodes, and no more regexes, than there are words
(`Arena.emit_map_toNat`), and the same holds of the entries of a table
(`RegexTable.narrowEntries_map_toNat`).

Every position leads to something that was written (`Arena.lt_of_mem_positions`), and what was
written is no more than there is in the arena. A grammar lists different nodes of the arena, and its
entries have the trees of different regexes.
-/

namespace GuidedGrammar

/-! ### Changing positions -/

namespace Artifact

variable {ι κ τ : Type}

/-- The positions in a kind of node. -/
def NodeKind.positions (kind : NodeKind ι) : List ι :=
  kind.nodes ++ kind.grammars ++ kind.entries

/-- The positions in a grammar: those in its nodes, in what it skips, and in its entries. -/
def Grammar.positions (g : Grammar ι) : List ι :=
  g.nodes.flatMap (fun n => n.kind.positions) ++ g.skip.toList.flatMap RegexRef.entries ++
    g.regexes.flatMap Regex.parts

/-- All positions in a compiled set of grammars. -/
def positions (t : Artifact ι) : List ι :=
  t.grammars.flatMap Grammar.positions

section Map

variable {f : ι → κ} {g : κ → τ} {e : ι → ι}

theorem RegexRef.map_map (ref : RegexRef ι) : (ref.map f).map g = ref.map (g ∘ f) := by
  cases ref <;> rfl

theorem NodeKind.map_map (kind : NodeKind ι) : (kind.map f).map g = kind.map (g ∘ f) := by
  cases kind <;> simp only [map, RegexRef.map_map, List.map_map, Function.comp_apply]

theorem Node.map_map (n : Node ι) : (n.map f).map g = n.map (g ∘ f) := by
  simp only [map, NodeKind.map_map]

theorem Grammar.map_map (grammar : Grammar ι) :
    (grammar.map f).map g = grammar.map (g ∘ f) := by
  simp only [map, List.map_map, Option.map_map, Function.comp_def, Node.map_map, RegexRef.map_map,
    Regex.map_map]

theorem map_map (t : Artifact ι) : (t.map f).map g = t.map (g ∘ f) := by
  simp only [map, List.map_map, Function.comp_def, Grammar.map_map]

theorem RegexRef.map_eq_self {ref : RegexRef ι} (h : ∀ i ∈ ref.entries, e i = i) :
    ref.map e = ref := by
  cases ref with
  | entry i => exact congrArg entry (h i (List.mem_singleton_self i))
  | source s => rfl

theorem NodeKind.map_eq_self {kind : NodeKind ι} (h : ∀ i ∈ kind.positions, e i = i) :
    kind.map e = kind := by
  cases kind with
  | literal text => rfl
  | generation body stop name lazy temperature =>
    have hbody : body.map e = body := RegexRef.map_eq_self fun i hi =>
      h i (List.mem_append_right _ (List.mem_append_left _ hi))
    have hstop : stop.map e = stop := RegexRef.map_eq_self fun i hi =>
      h i (List.mem_append_right _ (List.mem_append_right _ hi))
    rw [map, hbody, hstop]
  | lexeme regex contextual temperature =>
    have hregex : regex.map e = regex := RegexRef.map_eq_self h
    rw [map, hregex]
  | grammar position temperature maxTokens =>
    rw [map, h position (List.mem_singleton_self position)]
  | choice xs =>
    have hall : xs.map e = xs := GuidedGrammar.map_eq_self fun x hx =>
      h x (List.mem_append_left _ (List.mem_append_left _ hx))
    rw [map, hall]
  | sequence xs =>
    have hall : xs.map e = xs := GuidedGrammar.map_eq_self fun x hx =>
      h x (List.mem_append_left _ (List.mem_append_left _ hx))
    rw [map, hall]

theorem Grammar.map_eq_self {grammar : Grammar ι} (h : ∀ i ∈ grammar.positions, e i = i) :
    grammar.map e = grammar := by
  obtain ⟨nodes, greedy, skip, contextual, regexes⟩ := grammar
  simp only [positions, List.mem_append, List.mem_flatMap, or_imp, forall_and] at h
  obtain ⟨⟨hnodes, hskip⟩, hregexes⟩ := h
  have hnodes : nodes.map (Node.map e) = nodes :=
    GuidedGrammar.map_eq_self fun n hn =>
      congrArg (Node.mk · n.props) (NodeKind.map_eq_self fun i hi => hnodes i ⟨n, hn, hi⟩)
  have hskip : skip.map (RegexRef.map e) = skip := by
    cases skip with
    | none => rfl
    | some ref =>
      exact congrArg some (RegexRef.map_eq_self fun i hi =>
        hskip i ⟨ref, List.mem_singleton_self ref, hi⟩)
  have hregexes : regexes.map (Regex.map e) = regexes :=
    GuidedGrammar.map_eq_self fun r hr => Regex.map_eq_self fun i hi => hregexes i ⟨r, hr, hi⟩
  rw [map, hnodes, hskip, hregexes]

/-- Positions that do not change. -/
theorem map_eq_self {t : Artifact ι} (h : ∀ i ∈ t.positions, e i = i) : t.map e = t := by
  have hgrammars : t.grammars.map (Grammar.map e) = t.grammars :=
    GuidedGrammar.map_eq_self fun g hg => Grammar.map_eq_self fun i hi =>
      h i (List.mem_flatMap.2 ⟨g, hg, hi⟩)
  rw [map, hgrammars]

end Map

/-- Positions that have a place in 32-bit words are kept there. -/
theorem narrow_map_toNat {t : Artifact Nat} (h : ∀ i ∈ t.positions, i < 2 ^ 32) :
    t.narrow.map UInt32.toNat = t := by
  rw [narrow, map_map]
  exact map_eq_self fun i hi => UInt32.toNat_ofNat_of_lt' (h i hi)

end Artifact

/-! ### How much is written -/

namespace RegexTable

variable {store : RegexStore} {visited : RegexId → Prop} {t : RegexTable}

/-- A table has no more entries than there are regexes: each has the tree of one of its own. -/
theorem Represents.size_entries_le (h : Represents store visited t) :
    t.entries.size ≤ store.size := by
  -- each entry comes from a regex of the store, and no two from the same one
  have horigin : ∀ i, ∃ id, i < t.entries.size → store.SameTree id t.entries i := fun i => by
    by_cases hi : i < t.entries.size
    · obtain ⟨id, -, hsame⟩ := h.origin i hi
      exact ⟨id, fun _ => hsame⟩
    · exact ⟨0, fun hi' => absurd hi' hi⟩
  choose id hid using horigin
  have hinj : Set.InjOn id (Finset.range t.entries.size) := by
    intro i hi j hj heq
    have hi := hid i (Finset.mem_range.1 hi)
    have hj := hid j (Finset.mem_range.1 hj)
    exact hi.place_unique h.position_unique (heq ▸ hj)
  have hmaps : Set.MapsTo id (Finset.range t.entries.size) (Finset.range store.size) := by
    intro i hi
    obtain ⟨tree, htree, -⟩ := hid i (Finset.mem_range.1 hi)
    exact Finset.mem_coe.2 (Finset.mem_range.2 htree.lt_size)
  have hcard := Finset.card_le_card_of_injOn id hmaps hinj
  rwa [Finset.card_range, Finset.card_range] at hcard

/-- A reference in an entry leads to an entry before it. -/
theorem Sorted.lt_of_mem_parts (h : Sorted store visited t) {r : Regex Nat}
    (hr : r ∈ t.entries.toList) {i : Nat} (hi : i ∈ r.parts) : i < store.size := by
  obtain ⟨k, hk⟩ := List.mem_iff_getElem?.1 hr
  rw [Array.getElem?_toList] at hk
  have hlt : k < t.entries.size := (Array.getElem?_eq_some_iff.1 hk).1
  exact Nat.lt_trans (h.parts_lt k r hk i hi) (Nat.lt_of_lt_of_le hlt h.size_entries_le)

/-- The entries of a table lose nothing in 32-bit words, if there are no more than `2 ^ 32`
regexes. -/
theorem narrowEntries_map_toNat (store : RegexStore) (hstore : store.size ≤ 2 ^ 32)
    (roots : List RegexId) :
    ((∅ : RegexTable).addAll store roots).2.narrowEntries.map (Regex.map UInt32.toNat) =
      ((∅ : RegexTable).addAll store roots).2.entries.toList := by
  have hsorted := sorted_addAll_empty store roots
  rw [narrowEntries, List.map_map]
  refine map_eq_self fun r hr => ?_
  rw [Function.comp_apply, Regex.map_map]
  exact Regex.map_eq_self fun i hi => UInt32.toNat_ofNat_of_lt'
    (Nat.lt_of_lt_of_le (hsorted.lt_of_mem_parts hr hi) hstore)

end RegexTable

namespace Arena

variable {a : Arena} {options : CompileOptions} {root key : NodeId} {t : Artifact Nat}
  {keys : List NodeId} {g : Artifact.Grammar Nat} {bound : Nat}

/-- **A position in a compiled node** is that of a grammar, a node or an entry. -/
theorem TranslatesNode.lt_of_mem_positions {entries : RegexStore} {ids : List NodeId} {x : NodeId}
    {compiled : Artifact.Node Nat} (h : a.TranslatesNode entries keys ids x compiled)
    (hkeys : keys.length ≤ bound) (hids : ids.length ≤ bound) (hentries : entries.size ≤ bound) :
    ∀ i ∈ compiled.kind.positions, i < bound := by
  intro i hi
  cases h with
  | intro hid hkind =>
    -- the position is that of a node, of a grammar or of a regex
    rcases List.mem_append.1 hi with hi | hi
    · rcases List.mem_append.1 hi with hi | hi
      · obtain ⟨x, -, hx⟩ := hkind.exists_of_mem_nodes hi
        exact Nat.lt_of_lt_of_le (List.getElem?_eq_some_iff.1 hx).1 hids
      · have hx := hkind.getElem?_of_mem_grammars hi
        exact Nat.lt_of_lt_of_le (List.getElem?_eq_some_iff.1 hx).1 hkeys
    · exact Nat.lt_of_lt_of_le (hkind.entry_lt i hi) hentries

/-- A grammar lists nodes of the arena, each once. -/
theorem WritesGrammar.length_grammarNodes_le (h : a.WritesGrammar keys key g) :
    (a.grammarNodes key).length ≤ a.nodes.size := by
  refine length_le_of_nodup (nodup_grammarNodes key) fun x hx => ?_
  cases h with
  | intro hstart hnodes =>
    obtain ⟨compiled, -, htranslates⟩ := exists_mem_of_forall₂ hnodes hx
    cases htranslates with
    | intro hid => exact node?_eq_some_lt hid

/-- **The positions in a compiled grammar** are below the number of grammars, that of nodes in the
arena, or that of regexes in the arena. -/
theorem WritesGrammar.lt_of_mem_positions (h : a.WritesGrammar keys key g)
    (hkeys : keys.length ≤ bound) (hnodes : a.nodes.size ≤ bound)
    (hregexes : a.regexes.size ≤ bound) : ∀ i ∈ g.positions, i < bound := by
  have hsorted := RegexTable.sorted_addAll_empty a.regexes (a.grammarRegexes key)
  have htable := h.entries_eq
  have hids := h.length_grammarNodes_le.trans hnodes
  have hentry := h.translatesGrammar.entry_lt
  generalize ((∅ : RegexTable).addAll a.regexes (a.grammarRegexes key)).2 = table at *
  have hsize : g.regexes.toArray.size ≤ bound := by
    rw [htable]
    exact hsorted.toRepresents.size_entries_le.trans hregexes
  intro i hi
  rcases List.mem_append.1 hi with hi | hi
  · rcases List.mem_append.1 hi with hi | hi
    · obtain ⟨compiled, hcompiled, hmem⟩ := List.mem_flatMap.1 hi
      cases h with
      | intro _ htranslated =>
        obtain ⟨k, hk⟩ := List.mem_iff_getElem?.1 hcompiled
        obtain ⟨x, -, hnode⟩ := exists_left_of_forall₂ htranslated hk
        exact hnode.lt_of_mem_positions hkeys hids hsize i hmem
    · rw [List.size_toArray] at hsize
      exact Nat.lt_of_lt_of_le (hentry i (List.mem_append_right _ hi)) hsize
  · obtain ⟨r, hr, hi⟩ := List.mem_flatMap.1 hi
    have hr : r ∈ table.entries.toList := by rwa [← htable, List.toList_toArray]
    exact Nat.lt_of_lt_of_le (hsorted.lt_of_mem_parts hr hi) hregexes

/-- **The positions in what is compiled** are below the number of nodes in the arena, or that of
regexes. -/
theorem lt_of_mem_positions (h : a.compile options root = .ok t) (hnodes : a.nodes.size ≤ bound)
    (hregexes : a.regexes.size ≤ bound) : ∀ i ∈ t.positions, i < bound := by
  have hkeys : (a.grammarOrder root).length ≤ bound := by
    refine (length_le_of_nodup (nodup_grammarOrder root) fun key hkey => ?_).trans hnodes
    obtain ⟨n, hn⟩ := exists_node?_of_reaches h (reaches_of_mem_grammarOrder hkey)
    exact node?_eq_some_lt hn
  intro i hi
  obtain ⟨g, hg, hi⟩ := List.mem_flatMap.1 hi
  obtain ⟨k, hk⟩ := List.mem_iff_getElem?.1 hg
  obtain ⟨key, -, hwrites⟩ := exists_left_of_forall₂ (forall₂_of_compile h).1 hk
  exact hwrites.lt_of_mem_positions hkeys hnodes hregexes i hi

/-- **Emitting loses nothing** of what is compiled, if the arena has no more than `2 ^ 32` nodes and
no more than `2 ^ 32` regexes. -/
theorem emit_map_toNat (a : Arena) (options : CompileOptions) (root : NodeId)
    (hnodes : a.nodes.size ≤ 2 ^ 32) (hregexes : a.regexes.size ≤ 2 ^ 32) :
    (a.emit options root).map (Artifact.map UInt32.toNat) = a.compile options root := by
  unfold emit
  cases hcompile : a.compile options root with
  | error e => rfl
  | ok t =>
    exact congrArg Except.ok
      (Artifact.narrow_map_toNat (lt_of_mem_positions hcompile hnodes hregexes))

end Arena

end GuidedGrammar
