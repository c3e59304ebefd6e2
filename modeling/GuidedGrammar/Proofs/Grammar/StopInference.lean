import GuidedGrammar.Proofs.Grammar.Boundaries
import GuidedGrammar.Proofs.Grammar.Frontier

/-!
# What inference chooses

When the stops of a sequence can be inferred, the chosen stops are justified: each is for a
generation whose stop is open and has not been inferred differently before, and is read from a
literal that starts with its character (`Justified`). They also cover every boundary whose right
side cannot match the empty text: all generations that can end the left side are given a stop, and
everything that can start the right side is a literal that starts with it
(`follower_of_inferStops`).

Both follow from what the boundaries of the sequence offer, as nothing is wrong at any of them
(`inferStops_cases`).
-/

namespace GuidedGrammar

namespace Arena

variable {a : Arena}

/-! ### Justified choices -/

/-- Whether a generation can be given an inferred stop at a character: its stop is open, and has
not been inferred to be at another one. -/
def AcceptsStop (a : Arena) (id : NodeId) (c : Char) : Prop :=
  ∃ g, a.generation? id = some g ∧
    (g.stop = .unset ∨ ∃ regex source, g.stop = .inferred c regex source)

/-- **Stops that the arena justifies**, at most one for each generation. -/
structure Justified (a : Arena) (chosen : StopAssignment) : Prop where
  nodup : (chosen.map Prod.fst).Nodup
  accepts : ∀ (id : NodeId) (s : InferredStop), (id, s) ∈ chosen → a.AcceptsStop id s.char
  startsWith : ∀ (id : NodeId) (s : InferredStop), (id, s) ∈ chosen → a.StartsWith s.source s.char

theorem mem_pendingAt {elements : List NodeId} {i : Nat} {g : NodeId} :
    g ∈ a.pendingAt elements i ↔ ∃ x, elements[i]? = some x ∧ g ∈ a.pending x := by
  rw [pendingAt]
  cases elements[i]? with
  | none => simp
  | some x => simp

/-- A generation that is offered a stop where nothing is wrong accepts it. -/
theorem Offers.acceptsStop {elements : List NodeId} {i : Nat} {g : NodeId} {s : InferredStop}
    (hi : ∀ e, ¬ a.Faulty elements i e) (h : a.Offers elements i g s) : a.AcceptsStop g s.char := by
  obtain ⟨x, -, hpending⟩ := mem_pendingAt.1 h.pending
  obtain ⟨gen, hgen, hopen⟩ := (Option.any_eq_true _ _).1 (List.mem_filter.1 hpending).2
  refine ⟨gen, hgen, ?_⟩
  cases hstop : gen.stop with
  | unset => exact Or.inl rfl
  | explicit regex =>
    rw [hstop] at hopen
    cases hopen
  | inferred c regex source =>
    have hchar : c = s.char :=
      h.char_eq_of_hasInferred hi (t := ⟨c, source⟩) ⟨gen, regex, hgen, hstop⟩
    exact Or.inr ⟨regex, source, by rw [hchar]⟩

/-- The choices of a sequence are justified. -/
theorem justified_of_inferStops {elements : List NodeId} {chosen : StopAssignment}
    (h : a.inferStops elements = .ok chosen) : Justified a chosen := by
  obtain ⟨hfaultless, hnodup, hmem⟩ := firstOffers_of_inferStops h
  refine ⟨hnodup, fun id s hs => ?_, fun id s hs => ?_⟩
  · obtain ⟨i, hoffer, -⟩ := (hmem id s).1 hs
    exact hoffer.acceptsStop (hfaultless i)
  · obtain ⟨i, hoffer, -⟩ := (hmem id s).1 hs
    exact hoffer.startsWith _ hoffer.mem_source

/-- Stops are chosen for generations at the end of elements other than the last one. -/
theorem pending_of_mem_inferStops {elements : List NodeId} {chosen : StopAssignment}
    (h : a.inferStops elements = .ok chosen) {id : NodeId} (hid : id ∈ chosen.map Prod.fst) :
    ∃ before x rest, elements = before ++ x :: rest ∧ rest ≠ [] ∧ id ∈ a.pending x := by
  obtain ⟨⟨id, s⟩, hs, rfl⟩ := List.mem_map.1 hid
  obtain ⟨i, hoffer, -⟩ := ((firstOffers_of_inferStops h).2.2 id s).1 hs
  obtain ⟨x, hx, hpending⟩ := mem_pendingAt.1 hoffer.pending
  obtain ⟨y, hy, -⟩ := hoffer.infers.solid
  obtain ⟨hlt, rfl⟩ := List.getElem?_eq_some_iff.1 hx
  refine ⟨elements.take i, elements[i], elements.drop (i + 1), ?_, List.ne_nil_of_mem hy, hpending⟩
  rw [← List.drop_eq_getElem_cons hlt, List.take_append_drop]

/-! ### What follows a generation -/

/-- What is chosen at a boundary whose right side cannot match the empty text: for everything that
is pending a stop with which all that follows starts. -/
theorem exists_chosen_of_pending {before rest : List NodeId} {x id u : NodeId}
    {chosen : StopAssignment} (h : a.inferStops (before ++ x :: rest) = .ok chosen)
    (hsolid : rest.all a.isNullable = false) (hid : id ∈ a.pending x) (hu : u ∈ a.followers rest) :
    ∃ s, (id, s) ∈ chosen ∧ a.StartsWith u s.char := by
  have hpendingAt : a.pendingAt (before ++ x :: rest) before.length = a.pending x := by
    simp [pendingAt]
  have hdrop : (before ++ x :: rest).drop (before.length + 1) = rest := by
    simp
  have hfollowersAt : a.followersAt (before ++ x :: rest) before.length = a.followers rest := by
    rw [followersAt, hdrop]
  have hinfers : a.InfersAt (before ++ x :: rest) before.length := by
    refine ⟨?_, ?_⟩
    · rw [hpendingAt]
      exact List.ne_nil_of_mem hid
    · rw [hdrop]
      simpa using hsolid
  -- nothing is wrong at the boundary, so it offers a stop, and a stop is chosen
  obtain ⟨hfaultless, -, hmem⟩ := firstOffers_of_inferStops h
  obtain ⟨c, hc⟩ := hinfers.exists_startsWith (hfaultless before.length)
  rw [← hpendingAt] at hid
  rw [← hfollowersAt] at hu
  obtain ⟨first, others, hfirst⟩ := List.exists_cons_of_ne_nil (List.ne_nil_of_mem hu)
  have hoffer : a.Offers (before ++ x :: rest) before.length id ⟨c, first⟩ :=
    ⟨hinfers, hid, by rw [hfirst, List.head?_cons], hc⟩
  obtain ⟨j, -, s, hs⟩ := hoffer.exists_firstOffer
  have hchar : s.char = c := (forall_not_faulty_iff.1 hfaultless).2.1 _ _ _ _ _ hs.1 hoffer
  exact ⟨s, (hmem id s).2 ⟨j, hs⟩, hchar ▸ hc u hu⟩

/-- **What follows a generation within a sequence.** At a boundary whose right side cannot match
the empty text, a generation that ends a derivation of the left side has an explicit stop, or a
stop was chosen with which everything starts that can start the right side. -/
theorem follower_of_inferStops (ha : a.WellFormed) {before rest : List NodeId} {x id u : NodeId}
    {chosen : StopAssignment} {g : Generation}
    (h : a.inferStops (before ++ x :: rest) = .ok chosen)
    (hsolid : rest.all a.isNullable = false) (hg : a.generation? id = some g)
    (hend : a.CanEnd x id) (hstart : a.CanStart rest u) :
    (∃ regex, g.stop = .explicit regex) ∨
      ∃ s, (id, s) ∈ chosen ∧ a.StartsWith u s.char := by
  have hfollower : u ∈ a.followers rest := by
    refine List.mem_filter.2 ⟨mem_firstFrontier_of_canStart ha hstart, ?_⟩
    obtain ⟨-, -, -, -, hu⟩ := hstart
    exact bne_iff_ne.2 hu
  cases hstop : g.stop.isOpen with
  | false =>
    -- only explicit stops are not open
    cases hcase : g.stop with
    | explicit regex => exact Or.inl ⟨regex, rfl⟩
    | unset | inferred =>
      rw [hcase] at hstop
      cases hstop
  | true =>
    -- both terminals are in the frontiers at the boundary
    have hpending : id ∈ a.pending x := by
      refine List.mem_filter.2 ⟨mem_lastFrontier_of_canEnd ha hend, ?_⟩
      rw [hasOpenStop, hg, Option.any_some, hstop]
    exact Or.inr (exists_chosen_of_pending h hsolid hpending hfollower)

end Arena

end GuidedGrammar
