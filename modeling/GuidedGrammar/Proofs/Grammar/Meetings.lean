import GuidedGrammar.Proofs.Grammar.Atomic
import GuidedGrammar.Proofs.Grammar.Construction
import GuidedGrammar.Proofs.Grammar.Outline

/-!
# Inference where elements are solid

Elements are solid if they cannot match the empty text. Where all elements of a sequence are solid,
a boundary depends on the two elements next to it, and stops are inferred at every boundary. So what
inference sees of the sequence is a relation between generations and the followers that they meet
somewhere (`Arena.Meets`); in which order they meet makes no difference. The sequence can be built
if and only if its meetings agree (`Arena.exists_inferStops_iff`), and then generations without a
stop are given what their meetings give (`Arena.inferred_withSequence`).
-/

namespace GuidedGrammar.Arena

open Builder (StopsAt)

variable {a b : Arena} {M : NodeId → List NodeId → Prop}

/-! ### Solid nodes -/

/-- Whether nodes are known and solid: none of them can match the empty text. -/
def Solid (a : Arena) (xs : List NodeId) : Prop :=
  ∀ x ∈ xs, ∃ n, a.node? x = some n ∧ n.nullable = false

theorem solid_cons {x : NodeId} {xs : List NodeId} :
    a.Solid (x :: xs) ↔ (∃ n, a.node? x = some n ∧ n.nullable = false) ∧ a.Solid xs :=
  List.forall_mem_cons

theorem solid_append {xs ys : List NodeId} : a.Solid (xs ++ ys) ↔ a.Solid xs ∧ a.Solid ys :=
  List.forall_mem_append

namespace Solid

variable {xs : List NodeId} {x : NodeId}

theorem lt_size (h : a.Solid xs) (hx : x ∈ xs) : x < a.nodes.size := by
  obtain ⟨n, hn, -⟩ := h x hx
  exact node?_eq_some_lt hn

theorem isNullable_eq (h : a.Solid xs) (hx : x ∈ xs) : a.isNullable x = false := by
  obtain ⟨n, hn, hnullable⟩ := h x hx
  rw [isNullable, hn, Option.any_some, hnullable]

theorem exists_isNullable_eq (h : a.Solid xs) (hne : xs ≠ []) : ∃ x ∈ xs, a.isNullable x = false := by
  obtain ⟨x, hx⟩ := List.exists_mem_of_ne_nil xs hne
  exact ⟨x, hx, h.isNullable_eq hx⟩

/-- Solid nodes stay solid. -/
theorem grow (h : a.Solid xs) (hab : a.Grows b) : b.Solid xs := by
  intro x hx
  obtain ⟨n, hn, hnullable⟩ := h x hx
  obtain ⟨n', hn', hbecomes⟩ := hab.nodes x n hn
  exact ⟨n', hn', hbecomes.nullable_eq.trans hnullable⟩

end Solid

/-- Nothing behind a solid node is looked at. -/
theorem untilSolid_append {xs : List NodeId} (hxs : ∃ x ∈ xs, a.isNullable x = false)
    (ys : List NodeId) : a.untilSolid (xs ++ ys) = a.untilSolid xs := by
  induction xs with
  | nil =>
    obtain ⟨x, hx, -⟩ := hxs
    exact absurd hx List.not_mem_nil
  | cons x xs ih =>
    rw [List.cons_append, untilSolid, untilSolid]
    cases hx : a.isNullable x with
    | false => rfl
    | true =>
      -- the head is nullable, so the solid element is in the tail
      obtain ⟨y, hy, hsolid⟩ := hxs
      rcases List.mem_cons.1 hy with rfl | hy
      · rw [hx] at hsolid
        cases hsolid
      · rw [ih ⟨y, hy, hsolid⟩]

theorem firstFrontier_append {xs : List NodeId} (hxs : ∃ x ∈ xs, a.isNullable x = false)
    (ys : List NodeId) : a.firstFrontier (xs ++ ys) = a.firstFrontier xs := by
  rw [firstFrontier, untilSolid_append hxs, ← firstFrontier]

theorem lastFrontier_append {ys : List NodeId} (hys : ∃ y ∈ ys, a.isNullable y = false)
    (xs : List NodeId) : a.lastFrontier (xs ++ ys) = a.lastFrontier ys := by
  obtain ⟨y, hy, hsolid⟩ := hys
  rw [lastFrontier, List.reverse_append, untilSolid_append ⟨y, List.mem_reverse.2 hy, hsolid⟩,
    ← lastFrontier]

/-! ### Members of frontiers -/

theorem lt_size_of_mem_firstFrontier {xs : List NodeId} {t : NodeId} (ht : t ∈ a.firstFrontier xs) :
    t < a.nodes.size :=
  lt_size_of_isTerminal (mem_firstFrontier_iff.1 ht).2

theorem lt_size_of_hasOpenStop {g : NodeId} (h : a.hasOpenStop g = true) : g < a.nodes.size := by
  obtain ⟨gen, hgen, -⟩ := (Option.any_eq_true _ _).1 h
  exact lt_size_of_generation? hgen

/-- What may be inferred stays open. -/
theorem Grows.hasOpenStop_eq (h : a.Grows b) {g : NodeId} (hg : g < a.nodes.size) :
    b.hasOpenStop g = a.hasOpenStop g := by
  obtain ⟨n, hn⟩ := exists_node?_of_lt hg
  obtain ⟨n', hn', hbecomes⟩ := h.nodes g n hn
  rw [hasOpenStop, hasOpenStop, Arena.generation?, Arena.generation?, hn, hn', Option.bind_some,
    Option.bind_some]
  cases hbecomes with
  | same | start => rfl
  | @stop _ _ gen hunset d regex source =>
    show Stop.isOpen (.inferred d regex source) = gen.stop.isOpen
    rw [hunset]
    rfl

/-- The generations at the end of a sequence whose stops may be inferred. -/
def pendingAfter (a : Arena) (xs : List NodeId) : List NodeId :=
  (a.lastFrontier xs).filter a.hasOpenStop

theorem pendingAfter_append {ys : List NodeId} (hys : ∃ y ∈ ys, a.isNullable y = false)
    (xs : List NodeId) : a.pendingAfter (xs ++ ys) = a.pendingAfter ys := by
  rw [pendingAfter, lastFrontier_append hys, ← pendingAfter]

theorem followers_append {xs : List NodeId} (hxs : ∃ x ∈ xs, a.isNullable x = false)
    (ys : List NodeId) : a.followers (xs ++ ys) = a.followers xs := by
  rw [followers, firstFrontier_append hxs, ← followers]

/-- No generation comes last in nothing. -/
theorem not_mem_pendingAfter_nil {g : NodeId} : g ∉ a.pendingAfter [] := by
  intro hg
  have hlast := (List.mem_filter.1 hg).1
  rw [lastFrontier_eq_mirror] at hlast
  exact Digraph.reachesFrom_nil g (mem_firstFrontier_iff.1 hlast).1

theorem Grows.pendingAfter_eq (h : a.Grows b) (ha : a.Ordered) {xs : List NodeId}
    (hxs : ∀ x ∈ xs, x < a.nodes.size) : b.pendingAfter xs = a.pendingAfter xs := by
  rw [pendingAfter, pendingAfter, h.lastFrontier_eq ha hxs]
  refine List.filter_congr fun g hg => h.hasOpenStop_eq ?_
  rw [lastFrontier_eq_mirror] at hg
  have hterminal := (mem_firstFrontier_iff.1 hg).2
  rw [isTerminal_mirror] at hterminal
  exact lt_size_of_isTerminal hterminal

theorem Grows.followers_eq (h : a.Grows b) (ha : a.Ordered) {xs : List NodeId}
    (hxs : ∀ x ∈ xs, x < a.nodes.size) : b.followers xs = a.followers xs := by
  rw [followers, followers, h.firstFrontier_eq ha hxs]
  exact List.filter_congr fun u hu => by rw [h.literal?_eq (lt_size_of_mem_firstFrontier hu)]

/-! ### What inference sees of a sequence -/

/-- **Whether a generation meets followers at some boundary of a sequence.** -/
def Meets (a : Arena) (xs : List NodeId) (g : NodeId) (f : List NodeId) : Prop :=
  ∃ x rest, (x, rest) ∈ boundaries xs ∧ g ∈ a.pending x ∧ f = a.followers rest

section Meets

variable {g : NodeId} {f : List NodeId}

theorem Meets.hasOpenStop {xs : List NodeId} (h : a.Meets xs g f) : a.hasOpenStop g = true := by
  obtain ⟨x, rest, -, hg, -⟩ := h
  exact (List.mem_filter.1 hg).2

theorem Meets.follower_lt_size {xs : List NodeId} (h : a.Meets xs g f) :
    ∀ u ∈ f, u < a.nodes.size := by
  obtain ⟨x, rest, -, -, rfl⟩ := h
  exact fun u hu => lt_size_of_mem_firstFrontier (List.mem_filter.1 hu).1

theorem not_meets_nil : ¬ a.Meets [] g f := by
  rintro ⟨x, rest, h, -⟩
  exact absurd h List.not_mem_nil

theorem not_meets_singleton {x : NodeId} : ¬ a.Meets [x] g f := by
  rintro ⟨x', rest, h, -⟩
  exact absurd h List.not_mem_nil

theorem meets_cons_cons {x y : NodeId} {ys : List NodeId} : a.Meets (x :: y :: ys) g f ↔
    (g ∈ a.pending x ∧ f = a.followers (y :: ys)) ∨ a.Meets (y :: ys) g f := by
  simp only [Meets, boundaries, List.mem_cons, Prod.mk.injEq]
  constructor
  · rintro ⟨x', rest, ⟨rfl, rfl⟩ | hmem, hmeets⟩
    · exact Or.inl hmeets
    · exact Or.inr ⟨x', rest, hmem, hmeets⟩
  · rintro (hmeets | ⟨x', rest, hmem, hmeets⟩)
    · exact ⟨x, y :: ys, Or.inl ⟨rfl, rfl⟩, hmeets⟩
    · exact ⟨x', rest, Or.inr hmem, hmeets⟩

/-- The boundaries of solid elements put together are those of the two parts, and the one
between them. -/
theorem meets_append {xs : List NodeId} (hxs : a.Solid xs) (ys : List NodeId) :
    a.Meets (xs ++ ys) g f ↔ a.Meets xs g f ∨
      (ys ≠ [] ∧ g ∈ a.pendingAfter xs ∧ f = a.followers ys) ∨ a.Meets ys g f := by
  cases ys with
  | nil => simp [not_meets_nil]
  | cons y ys =>
    induction xs with
    | nil => simp [not_meets_nil, not_mem_pendingAfter_nil]
    | cons x xs ih =>
      obtain ⟨-, hxs⟩ := solid_cons.1 hxs
      cases xs with
      | nil =>
        rw [List.singleton_append, meets_cons_cons, or_iff_right not_meets_singleton,
          and_iff_right (List.cons_ne_nil y ys)]
        rfl
      | cons x' xs =>
        -- the boundary after `x` does not see `ys`, as `x'` is solid and stands between
        have hsolid := hxs.exists_isNullable_eq (List.cons_ne_nil x' xs)
        have hpending : a.pendingAfter (x :: x' :: xs) = a.pendingAfter (x' :: xs) :=
          pendingAfter_append hsolid [x]
        rw [List.cons_append, List.cons_append, meets_cons_cons, ← List.cons_append, ih hxs,
          followers_append hsolid, meets_cons_cons, hpending, or_assoc]

/-- Known nodes meet as before when the arena has grown. -/
theorem Grows.meets_iff (h : a.Grows b) (ha : a.Ordered) {xs : List NodeId}
    (hxs : ∀ x ∈ xs, x < a.nodes.size) : b.Meets xs g f ↔ a.Meets xs g f := by
  induction xs with
  | nil => exact iff_of_false not_meets_nil not_meets_nil
  | cons x xs ih =>
    obtain ⟨hx, hxs⟩ := List.forall_mem_cons.1 hxs
    cases xs with
    | nil => exact iff_of_false not_meets_singleton not_meets_singleton
    | cons y ys =>
      have hpending : b.pending x = a.pending x :=
        h.pendingAfter_eq ha (List.forall_mem_singleton.2 hx)
      rw [meets_cons_cons, meets_cons_cons, hpending, h.followers_eq ha hxs, ih hxs]

end Meets

/-! ### Agreement -/

/-- Whether meetings give a generation a character to stop at: all followers that it meets
somewhere start with it. -/
def Gives (a : Arena) (M : NodeId → List NodeId → Prop) (g : NodeId) (d : Char) : Prop :=
  ∃ f, M g f ∧ f ≠ [] ∧ ∀ u ∈ f, a.StartsWith u d

/-- Whether meetings agree: followers start with one character where they are met, and no
generation is given two characters, or another one than it has already. -/
structure Agrees (a : Arena) (M : NodeId → List NodeId → Prop) : Prop where
  startsWith : ∀ g f, M g f → ∃ d, ∀ u ∈ f, a.StartsWith u d
  unique : ∀ g d e, a.Gives M g d → a.Gives M g e → d = e
  stopsAt : ∀ g d e, a.Gives M g d → StopsAt a g e → d = e

/-- What becomes of an arena when stops are inferred from meetings: generations without a stop
are given what their meetings give. -/
structure Inferred (a : Arena) (M : NodeId → List NodeId → Prop) (b : Arena) : Prop where
  grows : a.Grows b
  stopsAt_iff : ∀ g d, StopsAt b g d ↔ StopsAt a g d ∨ a.LacksStop g ∧ a.Gives M g d

theorem stopsAt_iff_hasInferred {g : NodeId} {d : Char} :
    StopsAt a g d ↔ ∃ s : InferredStop, a.HasInferred g s ∧ s.char = d := by
  constructor
  · rintro ⟨gen, regex, source, hgen, hstop⟩
    exact ⟨⟨d, source⟩, ⟨gen, regex, hgen, hstop⟩, rfl⟩
  · rintro ⟨s, ⟨gen, regex, hgen, hstop⟩, rfl⟩
    exact ⟨gen, regex, s.source, hgen, hstop⟩

theorem stopsAt_unique {g : NodeId} {d e : Char} (hd : StopsAt a g d) (he : StopsAt a g e) :
    d = e := by
  obtain ⟨gen, regex, source, hgen, hstop⟩ := hd
  obtain ⟨gen', regex', source', hgen', hstop'⟩ := he
  obtain rfl := Option.some.inj (hgen.symm.trans hgen')
  exact (Stop.inferred.inj (hstop.symm.trans hstop')).1

/-! ### Inference by meetings -/

section Inference

variable {elements : List NodeId} (hsolid : a.Solid elements)

include hsolid

/-- Where elements are solid, every meeting is at a boundary at which stops are inferred. -/
theorem meets_iff_infersAt {g : NodeId} {f : List NodeId} : a.Meets elements g f ↔
    ∃ i, a.InfersAt elements i ∧ g ∈ a.pendingAt elements i ∧ f = a.followersAt elements i := by
  constructor
  · rintro ⟨x, rest, hmem, hg, rfl⟩
    obtain ⟨i, hi⟩ := List.mem_iff_getElem?.1 hmem
    obtain ⟨hx, hrest⟩ := getElem?_boundaries hi
    -- there is an element after the boundary, and it is solid
    have hlt := (List.getElem?_eq_some_iff.1 hi).1
    rw [length_boundaries] at hlt
    have hpending : g ∈ a.pendingAt elements i := mem_pendingAt.2 ⟨x, hx, hg⟩
    have hnext : elements[i + 1] ∈ elements.drop (i + 1) := by
      rw [List.drop_eq_getElem_cons]
      exact List.mem_cons_self ..
    refine ⟨i, ⟨List.ne_nil_of_mem hpending, _, hnext, ?_⟩, hpending, ?_⟩
    · exact hsolid.isNullable_eq (List.mem_of_mem_drop hnext)
    · rw [followersAt, hrest]
  · rintro ⟨i, hinfers, hg, rfl⟩
    have hi := List.getElem?_eq_getElem hinfers.lt_length
    obtain ⟨hx, hrest⟩ := getElem?_boundaries hi
    obtain ⟨x, hx', hg⟩ := mem_pendingAt.1 hg
    obtain rfl := Option.some.inj (hx.symm.trans hx')
    refine ⟨_, _, List.mem_of_getElem? hi, hg, ?_⟩
    rw [followersAt, hrest]

/-- Meetings give what boundaries offer. -/
theorem gives_meets_iff {g : NodeId} {d : Char} : a.Gives (a.Meets elements) g d ↔
    ∃ i s, a.Offers elements i g s ∧ s.char = d := by
  constructor
  · rintro ⟨f, hmeets, hne, hstarts⟩
    obtain ⟨i, hinfers, hg, rfl⟩ := (meets_iff_infersAt hsolid).1 hmeets
    obtain ⟨u, us, hu⟩ := List.exists_cons_of_ne_nil hne
    exact ⟨i, ⟨d, u⟩, ⟨hinfers, hg, by rw [hu, List.head?_cons], hstarts⟩, rfl⟩
  · rintro ⟨i, s, hoffer, rfl⟩
    exact ⟨_, (meets_iff_infersAt hsolid).2 ⟨i, hoffer.infers, hoffer.pending, rfl⟩,
      List.ne_nil_of_mem hoffer.mem_source, hoffer.startsWith⟩

/-- **Inference succeeds if and only if meetings agree.** -/
theorem exists_inferStops_iff :
    (∃ chosen, a.inferStops elements = .ok chosen) ↔ a.Agrees (a.Meets elements) := by
  have hfaultless : (∃ chosen, a.inferStops elements = .ok chosen) ↔
      ∀ i e, ¬ a.Faulty elements i e := by
    rcases inferStops_cases a elements with ⟨chosen, hok, h, -⟩ | ⟨e, herror, i, hi, -⟩
    · exact iff_of_true ⟨chosen, hok⟩ h
    · refine iff_of_false ?_ fun h => h i e hi
      rintro ⟨chosen, hok⟩
      cases herror.symm.trans hok
  -- the three conditions on boundaries are the three fields of `Agrees`, one by one
  rw [hfaultless, forall_not_faulty_iff]
  constructor
  · rintro ⟨hagree, hoffers, hinferred⟩
    refine ⟨fun g f hf => ?_, fun g d e hd he => ?_, fun g d e hd he => ?_⟩
    · obtain ⟨i, hinfers, -, rfl⟩ := (meets_iff_infersAt hsolid).1 hf
      exact hagree i hinfers
    · obtain ⟨i, s, hs, rfl⟩ := (gives_meets_iff hsolid).1 hd
      obtain ⟨j, t, ht, rfl⟩ := (gives_meets_iff hsolid).1 he
      exact hoffers i j g s t hs ht
    · obtain ⟨i, s, hs, rfl⟩ := (gives_meets_iff hsolid).1 hd
      obtain ⟨t, ht, rfl⟩ := stopsAt_iff_hasInferred.1 he
      exact (hinferred i g s t hs ht).symm
  · intro h
    refine ⟨fun i hinfers => ?_, fun i j g s t hs ht => ?_, fun i g s t hs ht => ?_⟩
    · obtain ⟨g, hg⟩ := List.exists_mem_of_ne_nil _ hinfers.pending
      exact h.startsWith g _ ((meets_iff_infersAt hsolid).2 ⟨i, hinfers, hg, rfl⟩)
    · exact h.unique g _ _ ((gives_meets_iff hsolid).2 ⟨i, s, hs, rfl⟩)
        ((gives_meets_iff hsolid).2 ⟨j, t, ht, rfl⟩)
    · exact (h.stopsAt g _ _ ((gives_meets_iff hsolid).2 ⟨i, s, hs, rfl⟩)
        (stopsAt_iff_hasInferred.2 ⟨t, ht, rfl⟩)).symm

omit hsolid in
/-- The node of a sequence is no generation. -/
theorem lt_size_of_generation?_withSequence {chosen : StopAssignment} {g : NodeId}
    {gen : Generation} (hgen : (a.withSequence elements chosen).generation? g = some gen) :
    g < a.nodes.size := by
  obtain ⟨n, hn, hkind⟩ := Option.bind_eq_some_iff.1 hgen
  rw [node?_withSequence] at hn
  split at hn
  · obtain rfl := Option.some.inj hn
    cases hkind
  · rw [← size_giveStops chosen]
    exact node?_eq_some_lt hn

/-- **A sequence that is built gives what its meetings give.** -/
theorem inferred_withSequence {chosen : StopAssignment} (h : a.inferStops elements = .ok chosen) :
    a.Inferred (a.Meets elements) (a.withSequence elements chosen) := by
  obtain ⟨hfaultless, hnodup, hchosen⟩ := firstOffers_of_inferStops h
  have hgrows := grows_withSequence a elements chosen
  refine ⟨hgrows, fun g d => ⟨fun hd => ?_, ?_⟩⟩
  · -- the generation has been given the stop, or has had it before
    by_cases hmem : g ∈ (a.choicesLacking chosen).map Prod.fst
    · obtain ⟨⟨g, s⟩, hchoice, rfl⟩ := List.mem_map.1 hmem
      have hgiven := hasInferred_withSequence elements hnodup hchoice
      obtain rfl := stopsAt_unique hd (stopsAt_iff_hasInferred.2 ⟨s, hgiven, rfl⟩)
      obtain ⟨hs, hlacks⟩ := mem_choicesLacking.1 hchoice
      obtain ⟨i, hfirst, -⟩ := (hchosen g s).1 hs
      exact Or.inr ⟨hlacks, (gives_meets_iff hsolid).2 ⟨i, s, hfirst, rfl⟩⟩
    · obtain ⟨gen, regex, source, hgen, hstop⟩ := hd
      have hlt := lt_size_of_generation?_withSequence hgen
      rw [generation?, node?_withSequence_of_not_lacking hlt hmem] at hgen
      exact Or.inl ⟨gen, regex, source, hgen, hstop⟩
  · rintro (hd | ⟨hlacks, hgives⟩)
    · exact hd.grow hgrows
    · -- what is chosen is offered first, and all that is offered agrees
      obtain ⟨i, s, hoffer, rfl⟩ := (gives_meets_iff hsolid).1 hgives
      obtain ⟨j, -, t, hfirst⟩ := hoffer.exists_firstOffer
      have hchoice : (g, t) ∈ a.choicesLacking chosen :=
        mem_choicesLacking.2 ⟨(hchosen g t).2 ⟨j, hfirst⟩, hlacks⟩
      refine stopsAt_iff_hasInferred.2 ⟨t, hasInferred_withSequence elements hnodup hchoice, ?_⟩
      exact (forall_not_faulty_iff.1 hfaultless).2.1 j i g t s hfirst.1 hoffer

end Inference

end GuidedGrammar.Arena
