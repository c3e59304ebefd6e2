import Mathlib
import GuidedGrammar.Proofs.Grammar.Boundaries
import GuidedGrammar.Proofs.Grammar.Frontier
import GuidedGrammar.Proofs.Grammar.StopInference

/-!
# The order of alternatives

Inference takes the first of the followers as the source of a stop, and compares the others with it.
Which one comes first depends on the order of alternatives, and what is inferred does not. Between
arenas that are the same up to the order of alternatives (`Arena.Reordered`), a sequence has the
same pending generations and the same followers at every boundary, in whatever order. So boundaries
offer the same characters (`Arena.Reordered.exists_offers`), and the same kinds of things are wrong
at them (`Arena.Reordered.exists_faulty`); and by these inference is determined: it gives the same
generations the same characters, or fails with the same kind of error
(`Arena.inferStops_of_reordered`).

All of it is proved in one direction, as the relation between the arenas is symmetric.
-/

namespace GuidedGrammar

/-- **A node with its alternatives in another order**, if it is a choice. -/
inductive Node.Reordered : Node → Node → Prop
  | same (n : Node) : Reordered n n
  | choice {xs ys : List NodeId} (h : xs.Perm ys) (props : Props) (nullable : Bool) :
    Reordered ⟨.choice xs, props, nullable⟩ ⟨.choice ys, props, nullable⟩

/-- **Arenas whose nodes are the same**, up to the order of alternatives. -/
def Arena.Reordered (a b : Arena) : Prop :=
  List.Forall₂ Node.Reordered a.nodes.toList b.nodes.toList

/-- Errors of one kind, among those of inference, whatever they point at. -/
inductive Error.Alike : Error → Error → Prop
  | cannotInferStop (g u g' u' : Cited) : Alike (.cannotInferStop g u) (.cannotInferStop g' u')
  | ambiguousStop (g u v g' u' v' : Cited) : Alike (.ambiguousStop g u v) (.ambiguousStop g' u' v')
  | conflictingStop (g u v g' u' v' : Cited) :
    Alike (.conflictingStop g u v) (.conflictingStop g' u' v')

/-- The characters that are chosen for generations, whatever they are read from. -/
def StopAssignment.characters (chosen : StopAssignment) : List (NodeId × Char) :=
  chosen.map fun entry => (entry.1, entry.2.char)

namespace Node.Reordered

variable {n n' : Node}

theorem symm (h : n.Reordered n') : n'.Reordered n := by
  cases h with
  | same => exact .same _
  | choice h props nullable => exact .choice h.symm props nullable

theorem nullable_eq (h : n.Reordered n') : n'.nullable = n.nullable := by
  cases h <;> rfl

theorem isTerminal_eq (h : n.Reordered n') : n'.isTerminal = n.isTerminal := by
  cases h <;> rfl

theorem literal?_eq (h : n.Reordered n') : n'.literal? = n.literal? := by
  cases h <;> rfl

theorem generation?_eq (h : n.Reordered n') : n'.generation? = n.generation? := by
  cases h <;> rfl

theorem mirror (h : n.Reordered n') : n.mirror.Reordered n'.mirror := by
  cases h with
  | same => exact .same _
  | choice h props nullable => exact .choice h props nullable

end Node.Reordered

theorem Error.Alike.rank_eq {e e' : Error} (h : e.Alike e') : e'.rank = e.rank := by
  cases h <;> rfl

namespace Arena

variable {a b : Arena} {elements : List NodeId} {i : Nat} {g u : NodeId} {e : Error}

namespace Reordered

theorem symm (h : a.Reordered b) : b.Reordered a :=
  (List.Forall₂.flip h).imp fun _ _ hn => hn.symm

theorem mirror (h : a.Reordered b) : a.mirror.Reordered b.mirror := by
  rw [Reordered, Arena.mirror, Arena.mirror, Array.toList_map, Array.toList_map,
    List.forall₂_map_left_iff, List.forall₂_map_right_iff]
  exact h.imp fun _ _ hn => hn.mirror

/-- What an id is the place of. -/
theorem node?_cases (h : a.Reordered b) (id : NodeId) :
    (a.node? id = none ∧ b.node? id = none) ∨
      ∃ n n', a.node? id = some n ∧ b.node? id = some n' ∧ n.Reordered n' := by
  obtain ⟨hlength, hnode⟩ := List.forall₂_iff_get.1 h
  rw [Array.length_toList, Array.length_toList] at hlength
  by_cases hid : id < a.nodes.size
  · have hid' : id < b.nodes.size := hlength ▸ hid
    exact Or.inr ⟨a.nodes[id], b.nodes[id], Array.getElem?_eq_getElem hid,
      Array.getElem?_eq_getElem hid', hnode id hid hid'⟩
  · have hid' : ¬ id < b.nodes.size := hlength ▸ hid
    exact Or.inl ⟨Array.getElem?_eq_none (Nat.not_lt.1 hid),
      Array.getElem?_eq_none (Nat.not_lt.1 hid')⟩

/-- What is asked of the node of an id has the same answer if the order of alternatives makes no
difference to it. -/
theorem lookup_eq {β : Type} (h : a.Reordered b) (f : Option Node → β)
    (hf : ∀ n n', n.Reordered n' → f (some n') = f (some n)) (id : NodeId) :
    f (b.node? id) = f (a.node? id) := by
  rcases h.node?_cases id with ⟨hn, hn'⟩ | ⟨n, n', hn, hn', hreordered⟩
  · rw [hn, hn']
  · rw [hn, hn', hf n n' hreordered]

theorem isNullable_eq (h : a.Reordered b) (id : NodeId) : b.isNullable id = a.isNullable id :=
  h.lookup_eq (Option.any (·.nullable)) (fun _ _ hn => hn.nullable_eq) id

theorem isTerminal_eq (h : a.Reordered b) (id : NodeId) : b.isTerminal id = a.isTerminal id :=
  h.lookup_eq (Option.any (·.isTerminal)) (fun _ _ hn => hn.isTerminal_eq) id

theorem literal?_eq (h : a.Reordered b) (id : NodeId) : b.literal? id = a.literal? id :=
  h.lookup_eq (Option.bind · Node.literal?) (fun _ _ hn => hn.literal?_eq) id

theorem generation?_eq (h : a.Reordered b) (id : NodeId) : b.generation? id = a.generation? id :=
  h.lookup_eq (Option.bind · Node.generation?) (fun _ _ hn => hn.generation?_eq) id

theorem startsWith (h : a.Reordered b) {c : Char} (hu : a.StartsWith u c) : b.StartsWith u c := by
  rwa [StartsWith, h.literal?_eq]

theorem hasInferred (h : a.Reordered b) {s : InferredStop} (hg : a.HasInferred g s) :
    b.HasInferred g s := by
  rwa [HasInferred, h.generation?_eq]

/-! ### Frontiers -/

theorem untilSolid_eq (h : a.Reordered b) (xs : List NodeId) : b.untilSolid xs = a.untilSolid xs :=
  untilSolid_eq_of_isNullable fun x _ => h.isNullable_eq x

/-- A node leads to the same nodes, in whatever order. -/
theorem edge_leading (h : a.Reordered b) {x y : NodeId} (hxy : (a.graph a.leading).Edge x y) :
    (b.graph b.leading).Edge x y := by
  obtain ⟨n, hn, hy⟩ := edge_graph_iff.1 hxy
  rcases h.node?_cases x with ⟨hnone, -⟩ | ⟨m, n', hm, hn', hreordered⟩
  · cases hn.symm.trans hnone
  · obtain rfl := Option.some.inj (hn.symm.trans hm)
    refine edge_graph_iff.2 ⟨n', hn', ?_⟩
    cases hreordered with
    | same =>
      unfold leading at hy ⊢
      split <;> rename_i hkind <;> rw [hkind] at hy <;> try exact hy
      rwa [h.untilSolid_eq]
    | choice hperm => exact hperm.mem_iff.1 hy

/-- The same terminals come first. -/
theorem mem_firstFrontier (h : a.Reordered b) {xs : List NodeId} (hu : u ∈ a.firstFrontier xs) :
    u ∈ b.firstFrontier xs := by
  obtain ⟨⟨r, hr, hreaches⟩, hterminal⟩ := mem_firstFrontier_iff.1 hu
  refine mem_firstFrontier_iff.2 ⟨⟨r, ?_, ?_⟩, ?_⟩
  · rwa [h.untilSolid_eq]
  · exact Relation.ReflTransGen.mono (fun _ _ hxy => h.edge_leading hxy) r u hreaches
  · rwa [h.isTerminal_eq]

/-- The same terminals come last. -/
theorem mem_lastFrontier (h : a.Reordered b) {xs : List NodeId} (hu : u ∈ a.lastFrontier xs) :
    u ∈ b.lastFrontier xs := by
  rw [lastFrontier_eq_mirror] at hu ⊢
  exact h.mirror.mem_firstFrontier hu

/-! ### Boundaries -/

theorem mem_pendingAt (h : a.Reordered b) (hg : g ∈ a.pendingAt elements i) :
    g ∈ b.pendingAt elements i := by
  obtain ⟨x, hx, hg⟩ := Arena.mem_pendingAt.1 hg
  obtain ⟨hlast, hopen⟩ := List.mem_filter.1 hg
  refine Arena.mem_pendingAt.2 ⟨x, hx, List.mem_filter.2 ⟨h.mem_lastFrontier hlast, ?_⟩⟩
  rwa [hasOpenStop, h.generation?_eq]

theorem mem_followersAt (h : a.Reordered b) (hu : u ∈ a.followersAt elements i) :
    u ∈ b.followersAt elements i := by
  obtain ⟨hfirst, hliteral⟩ := List.mem_filter.1 hu
  refine List.mem_filter.2 ⟨h.mem_firstFrontier hfirst, ?_⟩
  rwa [h.literal?_eq]

theorem infersAt (h : a.Reordered b) (hi : a.InfersAt elements i) : b.InfersAt elements i := by
  obtain ⟨g, hg⟩ := List.exists_mem_of_ne_nil _ hi.pending
  obtain ⟨y, hy, hsolid⟩ := hi.solid
  exact ⟨List.ne_nil_of_mem (h.mem_pendingAt hg), y, hy, (h.isNullable_eq y).trans hsolid⟩

/-- **A boundary offers the same character**, whatever literal comes first there. -/
theorem exists_offers (h : a.Reordered b) {s : InferredStop} (hs : a.Offers elements i g s) :
    ∃ t, b.Offers elements i g t ∧ t.char = s.char := by
  have hsource : s.source ∈ b.followersAt elements i := h.mem_followersAt hs.mem_source
  obtain ⟨first, others, hfirst⟩ := List.exists_cons_of_ne_nil (List.ne_nil_of_mem hsource)
  have hhead : (b.followersAt elements i).head? = some first := by rw [hfirst, List.head?_cons]
  refine ⟨⟨s.char, first⟩, ⟨h.infersAt hs.infers, h.mem_pendingAt hs.pending, hhead, ?_⟩, rfl⟩
  exact fun u hu => h.startsWith (hs.startsWith u (h.symm.mem_followersAt hu))

theorem exists_firstOffer (h : a.Reordered b) {s : InferredStop}
    (hs : a.FirstOffer elements i g s) :
    ∃ t, b.FirstOffer elements i g t ∧ t.char = s.char := by
  obtain ⟨t, ht, hchar⟩ := h.exists_offers hs.1
  refine ⟨t, ⟨ht, fun j hj r hr => ?_⟩, hchar⟩
  obtain ⟨r', hr', -⟩ := h.symm.exists_offers hr
  exact hs.2 j hj r' hr'

/-- **The same kinds of things are wrong** at a boundary. -/
theorem exists_faulty (h : a.Reordered b) (he : a.Faulty elements i e) :
    ∃ e', b.Faulty elements i e' ∧ e.Alike e' := by
  cases he with
  | cannotInfer hinfers hg hu hliteral =>
    exact ⟨_, .cannotInfer (h.infersAt hinfers) (h.mem_pendingAt hg) (h.mem_followersAt hu)
      ((h.literal?_eq _).trans hliteral), .cannotInferStop ..⟩
  | ambiguous hinfers hg hu hv hc hd hne =>
    exact ⟨_, .ambiguous (h.infersAt hinfers) (h.mem_pendingAt hg) (h.mem_followersAt hu)
      (h.mem_followersAt hv) (h.startsWith hc) (h.startsWith hd) hne, .ambiguousStop ..⟩
  | @conflicting g u c previous hinfers hg hu hc hprevious hne =>
    -- the generation has been given the same character before
    obtain ⟨p, hp, hchar⟩ : ∃ p : InferredStop, (b.HasInferred g p ∨
        ∃ j < i, b.Offers elements j g p) ∧ p.char = previous.char := by
      rcases hprevious with hinferred | ⟨j, hj, hoffer⟩
      · exact ⟨previous, Or.inl (h.hasInferred hinferred), rfl⟩
      · obtain ⟨p, hp, hchar⟩ := h.exists_offers hoffer
        exact ⟨p, Or.inr ⟨j, hj, hp⟩, hchar⟩
    rw [← hchar] at hne
    exact ⟨_, .conflicting (h.infersAt hinfers) (h.mem_pendingAt hg) (h.mem_followersAt hu)
      (h.startsWith hc) hp hne, .conflictingStop ..⟩

end Reordered

/-! ### Outcomes -/

/-- What is wrong at a boundary is told by an error of a kind of its own rank. -/
theorem Faulty.alike_of_rank_eq {e' : Error} {j : Nat} (he : a.Faulty elements i e)
    (he' : b.Faulty elements j e') (h : e.rank = e'.rank) : e.Alike e' := by
  cases he <;> cases he' <;> first | constructor | simp [Error.rank] at h

/-- The first faults are of one kind. -/
theorem Reordered.alike_of_firstFault (h : a.Reordered b) {e' : Error}
    (he : a.FirstFault elements e) (he' : b.FirstFault elements e') : e.Alike e' := by
  obtain ⟨i, hi, hbefore, hrank⟩ := he
  obtain ⟨j, hj, hbefore', hrank'⟩ := he'
  -- each arena has a fault of the same kind at the boundary of the other
  obtain ⟨f, hf, hef⟩ := h.exists_faulty hi
  obtain ⟨f', hf', hef'⟩ := h.symm.exists_faulty hj
  obtain rfl : i = j := by
    rcases Nat.lt_trichotomy i j with hij | hij | hij
    · exact absurd hf (hbefore' i hij f)
    · exact hij
    · exact absurd hf' (hbefore j hij f')
  have hle : e'.rank ≤ e.rank := hef.rank_eq ▸ hrank' f hf
  have hge : e.rank ≤ e'.rank := hef'.rank_eq ▸ hrank f' hf'
  exact hi.alike_of_rank_eq hj (Nat.le_antisymm hge hle)

theorem mem_characters {chosen : StopAssignment} {c : Char} :
    (g, c) ∈ chosen.characters ↔ ∃ s, (g, s) ∈ chosen ∧ s.char = c := by
  rw [StopAssignment.characters, List.mem_map]
  constructor
  · rintro ⟨⟨id, s⟩, hs, heq⟩
    obtain ⟨rfl, rfl⟩ := Prod.mk.inj heq
    exact ⟨s, hs, rfl⟩
  · rintro ⟨s, hs, rfl⟩
    exact ⟨(g, s), hs, rfl⟩

theorem nodup_characters {chosen : StopAssignment} (h : (chosen.map Prod.fst).Nodup) :
    chosen.characters.Nodup := by
  refine List.Nodup.of_map Prod.fst ?_
  rwa [StopAssignment.characters, List.map_map]

/-- Where the choices are the first offers, the same characters are chosen. -/
theorem Reordered.mem_characters (h : a.Reordered b) {chosen chosen' : StopAssignment}
    (hchosen : ∀ g s, (g, s) ∈ chosen ↔ ∃ i, a.FirstOffer elements i g s)
    (hchosen' : ∀ g s, (g, s) ∈ chosen' ↔ ∃ i, b.FirstOffer elements i g s) {c : Char}
    (hg : (g, c) ∈ chosen.characters) : (g, c) ∈ chosen'.characters := by
  obtain ⟨s, hs, rfl⟩ := Arena.mem_characters.1 hg
  obtain ⟨i, hfirst⟩ := (hchosen g s).1 hs
  obtain ⟨t, ht, hchar⟩ := h.exists_firstOffer hfirst
  exact Arena.mem_characters.2 ⟨t, (hchosen' g t).2 ⟨i, ht⟩, hchar⟩

/-- **Inference does not depend on the order of alternatives.** In arenas that are the same up to
that order, a sequence gives the same generations the same characters, or there is an error of the
same kind. -/
theorem inferStops_of_reordered {a b : Arena} (h : a.Reordered b) (elements : List NodeId) :
    (∃ chosen chosen', a.inferStops elements = .ok chosen ∧ b.inferStops elements = .ok chosen' ∧
      chosen'.characters.Perm chosen.characters) ∨
      ∃ e e', a.inferStops elements = .error e ∧ b.inferStops elements = .error e' ∧
        e.Alike e' := by
  -- a fault of the one arena is a fault of the other, so they succeed together
  rcases inferStops_cases a elements with
    ⟨chosen, hok, hfaultless, hnodup, hchosen⟩ | ⟨e, herror, he⟩
  · refine Or.inl ⟨chosen, ?_⟩
    rcases inferStops_cases b elements with
      ⟨chosen', hok', -, hnodup', hchosen'⟩ | ⟨e', -, i, he', -⟩
    · refine ⟨chosen', hok, hok', ?_⟩
      -- each generation is chosen for once, so comparing the members is enough
      rw [List.perm_ext_iff_of_nodup (nodup_characters hnodup') (nodup_characters hnodup)]
      rintro ⟨g, c⟩
      exact ⟨h.symm.mem_characters hchosen' hchosen, h.mem_characters hchosen hchosen'⟩
    · obtain ⟨f, hf, -⟩ := h.symm.exists_faulty he'
      exact absurd hf (hfaultless i f)
  · refine Or.inr ⟨e, ?_⟩
    rcases inferStops_cases b elements with ⟨chosen', -, hfaultless', -⟩ | ⟨e', herror', he'⟩
    · obtain ⟨i, hi, -⟩ := he
      obtain ⟨f, hf, -⟩ := h.exists_faulty hi
      exact absurd hf (hfaultless' i f)
    · exact ⟨e', herror, herror', h.alike_of_firstFault he he'⟩

/-- A generation before a full stop or an ellipsis ends at a full stop, whichever alternative comes
first. The source of the stop is the literal of the first one. -/
theorem inferStops_of_reordered_full_stops :
    (ofCalls [.generation {}, .literal ".", .literal "...",
        .choice [.node 1, .node 2]]).inferStops [0, 3] = .ok [(0, ⟨'.', 1⟩)] ∧
      ∃ chosen, (ofCalls [.generation {}, .literal ".", .literal "...",
          .choice [.node 2, .node 1]]).inferStops [0, 3] = .ok chosen ∧
        chosen.characters.Perm [(0, '.')] := by
  have hnodes : (ofCalls [.generation {}, .literal ".", .literal "...",
      .choice [.node 1, .node 2]]).nodes.toList =
        [⟨.generation ⟨0, .unset, none, none, none⟩, {}, false⟩, ⟨.literal ".", {}, false⟩,
          ⟨.literal "...", {}, false⟩, ⟨.choice [1, 2], {}, false⟩] := by cbv
  have hnodes' : (ofCalls [.generation {}, .literal ".", .literal "...",
      .choice [.node 2, .node 1]]).nodes.toList =
        [⟨.generation ⟨0, .unset, none, none, none⟩, {}, false⟩, ⟨.literal ".", {}, false⟩,
          ⟨.literal "...", {}, false⟩, ⟨.choice [2, 1], {}, false⟩] := by cbv
  have hreordered : (ofCalls [.generation {}, .literal ".", .literal "...",
      .choice [.node 1, .node 2]]).Reordered (ofCalls [.generation {}, .literal ".", .literal "...",
        .choice [.node 2, .node 1]]) := by
    rw [Reordered, hnodes, hnodes']
    exact .cons (.same _) (.cons (.same _) (.cons (.same _)
      (.cons (.choice (.swap 2 1 []) {} false) .nil)))
  have hok : (ofCalls [.generation {}, .literal ".", .literal "...",
      .choice [.node 1, .node 2]]).inferStops [0, 3] = .ok [(0, ⟨'.', 1⟩)] := by cbv
  refine ⟨hok, ?_⟩
  rcases inferStops_of_reordered hreordered [0, 3] with ⟨chosen, chosen', h, h', hperm⟩ |
    ⟨e, -, herror, -⟩
  · obtain rfl := Except.ok.inj (hok.symm.trans h)
    exact ⟨chosen', h', hperm⟩
  · cases hok.symm.trans herror

/-- With the ellipsis first, the stop is read from it. -/
example : (ofCalls [.generation {}, .literal ".", .literal "...",
    .choice [.node 2, .node 1]]).inferStops [0, 3] = .ok [(0, ⟨'.', 2⟩)] := by cbv

end Arena

end GuidedGrammar
