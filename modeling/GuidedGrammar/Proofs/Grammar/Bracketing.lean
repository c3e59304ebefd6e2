import GuidedGrammar.Proofs.Compile.ExplicitStop
import GuidedGrammar.Proofs.Grammar.FrontierOrder
import GuidedGrammar.Proofs.Grammar.Meetings

/-!
# Bracketing does not matter

Elements of a sequence can be put together first, and the rest of the sequence be built around the
node that this gives. Stops are inferred twice then: the boundaries within the bracket come first,
wherever it stands, and the others see the bracket through its frontiers only. As long as all
elements are solid the result is the same (`Builder.sequence_bracket`).

The meetings of a sequence are those within the bracket together with those of the sequence around
it (`Arena.meets_bracket_iff`). When the second ones are looked at, what the first ones give is in
the arena already, and still open to confirmation. So both agree one after the other if and only if
they agree together (`Arena.Inferred.agrees_iff`), and they give the same
(`Arena.Inferred.stopsAt_iff_of_split`).
-/

namespace GuidedGrammar

namespace Arena

open Builder (StopsAt)

variable {a b c : Arena} {S T M : NodeId → List NodeId → Prop}

/-! ### The frontiers of a bracket -/

/-- A sequence comes first with what its elements come first with. -/
theorem Ordered.firstFrontier_of_sequence (ha : a.Ordered) {k : NodeId} {ys : List NodeId}
    (hk : a.kind? k = some (.sequence ys)) : a.firstFrontier [k] = a.firstFrontier ys := by
  obtain ⟨ts, hts, hfrontier⟩ :=
    ha.exists_opensSequence (List.forall_mem_singleton.2 (lt_size_of_kind? hk))
  obtain ⟨us, hus, hfrontier'⟩ :=
    ha.exists_opensSequence fun y hy => ha.lt_size_of_sequence hk hy
  have hopens : a.Opens k us := .sequence hk hus
  rw [hfrontier, hfrontier']
  cases hts with
  | solid _ hk' => rw [hk'.unique hopens]
  | nullable _ hk' hrest =>
    cases hrest
    rw [List.append_nil, hk'.unique hopens]

theorem Ordered.lastFrontier_of_sequence (ha : a.Ordered) {k : NodeId} {ys : List NodeId}
    (hk : a.kind? k = some (.sequence ys)) : a.lastFrontier [k] = a.lastFrontier ys := by
  rw [lastFrontier_eq_mirror, lastFrontier_eq_mirror]
  exact ha.mirror.firstFrontier_of_sequence (kind?_mirror_sequence hk)

/-- **The meetings of a sequence** are those within the bracket and those around it, where the node
`k` stands for the bracket. -/
theorem meets_bracket_iff (ha : a.Ordered) (hc : c.Ordered) (h : a.Grows c)
    {xs ys zs : List NodeId} {k : NodeId} (hk : c.kind? k = some (.sequence ys))
    (hksolid : c.Solid [k]) (hys : ys ≠ []) (hsolid : a.Solid (xs ++ ys ++ zs)) {g : NodeId}
    {f : List NodeId} :
    a.Meets (xs ++ ys ++ zs) g f ↔ a.Meets ys g f ∨ c.Meets (xs ++ k :: zs) g f := by
  obtain ⟨hxsys, hzs'⟩ := solid_append.1 hsolid
  obtain ⟨hxs', hys'⟩ := solid_append.1 hxsys
  have hxslt : ∀ x ∈ xs, x < a.nodes.size := fun _ => hxs'.lt_size
  have hyslt : ∀ y ∈ ys, y < a.nodes.size := fun _ => hys'.lt_size
  have hzslt : ∀ z ∈ zs, z < a.nodes.size := fun _ => hzs'.lt_size
  -- the bracket has the frontiers of its elements
  have hpending : c.pendingAfter [k] = a.pendingAfter ys := by
    rw [pendingAfter, hc.lastFrontier_of_sequence hk, ← pendingAfter, h.pendingAfter_eq ha hyslt]
  have hfollowers : c.followers (k :: zs) = a.followers ys := by
    rw [← List.singleton_append,
      followers_append (hksolid.exists_isNullable_eq (List.cons_ne_nil k [])), followers,
      hc.firstFrontier_of_sequence hk, ← followers, h.followers_eq ha hyslt]
  have hbracket : c.Meets (k :: zs) g f ↔
      (zs ≠ [] ∧ g ∈ a.pendingAfter ys ∧ f = a.followers zs) ∨ a.Meets zs g f := by
    rw [← List.singleton_append, meets_append hksolid zs, or_iff_right not_meets_singleton,
      hpending, h.followers_eq ha hzslt, h.meets_iff ha hzslt]
  have hne : ys ++ zs ≠ [] := List.append_ne_nil_of_left_ne_nil hys zs
  rw [List.append_assoc, meets_append hxs', meets_append hys', meets_append (hxs'.grow h),
    hbracket, hfollowers, followers_append (hys'.exists_isNullable_eq hys),
    h.pendingAfter_eq ha hxslt, h.meets_iff ha hxslt, and_iff_right hne,
    and_iff_right (List.cons_ne_nil k zs)]
  exact (or_congr_right or_left_comm).trans or_left_comm

/-! ### Growing arenas -/

theorem Grows.startsWith_iff (h : a.Grows b) {id : NodeId} (hid : id < a.nodes.size) {d : Char} :
    b.StartsWith id d ↔ a.StartsWith id d := by
  rw [StartsWith, StartsWith, h.literal?_eq hid]

theorem Grows.gives_iff (h : a.Grows b) (hT : ∀ g f, T g f → ∀ u ∈ f, u < a.nodes.size)
    {g : NodeId} {d : Char} : b.Gives T g d ↔ a.Gives T g d := by
  refine exists_congr fun f => and_congr_right fun hf => and_congr_right fun _ => ?_
  exact forall₂_congr fun u hu => h.startsWith_iff (hT g f hf u hu)

/-- A generation that lacks a stop has lacked it before. -/
theorem Grows.lacksStop (h : a.Grows b) {g : NodeId} (hg : g < a.nodes.size)
    (hlacks : b.LacksStop g) : a.LacksStop g := by
  obtain ⟨gen, hgen, hunset⟩ := hlacks
  obtain ⟨gen', hgen', rfl | hunset'⟩ := h.generation? hg hgen
  · exact ⟨gen, hgen', hunset⟩
  · exact ⟨gen', hgen', hunset'⟩

/-- A generation stays but for its stop, and its stop stays if there is one. -/
theorem Grows.exists_stop (h : a.Grows b) {g : NodeId} {gen : Generation}
    (hg : a.generation? g = some gen) : ∃ stop, b.generation? g = some { gen with stop } ∧
      (stop = gen.stop ∨ ∃ d, StopsAt b g d) := by
  obtain ⟨n, hn, hgen⟩ := Option.bind_eq_some_iff.1 hg
  obtain ⟨n', hn', hbecomes⟩ := h.nodes g n hn
  have hgen' : b.generation? g = n'.generation? := by rw [Arena.generation?, hn', Option.bind_some]
  rw [hgen']
  cases hbecomes with
  | same => exact ⟨gen.stop, hgen, Or.inl rfl⟩
  | start => cases hgen
  | stop hunset d regex source =>
    obtain rfl := Option.some.inj hgen
    exact ⟨_, rfl, Or.inr ⟨d, _, regex, source, hgen', rfl⟩⟩

theorem LacksStop.hasOpenStop {g : NodeId} (h : a.LacksStop g) : a.hasOpenStop g = true := by
  obtain ⟨gen, hgen, hunset⟩ := h
  rw [Arena.hasOpenStop, hgen, Option.any_some, hunset]
  rfl

/-- A stop that may be inferred is missing, or has been inferred before. -/
theorem lacksStop_or_stopsAt {g : NodeId} (h : a.hasOpenStop g = true) :
    a.LacksStop g ∨ ∃ d, StopsAt a g d := by
  obtain ⟨gen, hgen, hopen⟩ := (Option.any_eq_true _ _).1 h
  cases hstop : gen.stop with
  | unset => exact Or.inl ⟨gen, hgen, hstop⟩
  | inferred d regex source => exact Or.inr ⟨d, gen, regex, source, hgen, hstop⟩
  | explicit regex =>
    rw [hstop] at hopen
    cases hopen

/-! ### One after the other -/

theorem gives_or_iff (hM : ∀ g f, M g f ↔ S g f ∨ T g f) {g : NodeId} {d : Char} :
    a.Gives M g d ↔ a.Gives S g d ∨ a.Gives T g d := by
  simp only [Gives, hM, or_and_right, exists_or]

/-- Some of the meetings that agree agree. -/
theorem Agrees.mono (h : a.Agrees M) (hS : ∀ g f, S g f → M g f) : a.Agrees S := by
  have hgives : ∀ g d, a.Gives S g d → a.Gives M g d :=
    fun g d ⟨f, hf, hd⟩ => ⟨f, hS g f hf, hd⟩
  exact ⟨fun g f hf => h.startsWith g f (hS g f hf),
    fun g d e hd he => h.unique g d e (hgives g d hd) (hgives g e he),
    fun g d e hd he => h.stopsAt g d e (hgives g d hd) he⟩

section Split

variable (hM : ∀ g f, M g f ↔ S g f ∨ T g f) (hopen : ∀ g f, M g f → a.hasOpenStop g = true)
  (hknown : ∀ g f, M g f → ∀ u ∈ f, u < a.nodes.size)

include hM hknown

/-- Meetings that agree agree with what some of them have given. -/
theorem Inferred.agrees_of_agrees (hS : a.Inferred S c) (h : a.Agrees M) : c.Agrees T := by
  have hgives : ∀ {g d}, c.Gives T g d → a.Gives M g d := fun hd =>
    (gives_or_iff hM).2 <| Or.inr <|
      (hS.grows.gives_iff fun g f hf => hknown g f ((hM g f).2 (Or.inr hf))).1 hd
  refine ⟨fun g f hf => ?_, fun g d e hd he => h.unique g d e (hgives hd) (hgives he),
    fun g d e hd he => ?_⟩
  · obtain ⟨d, hd⟩ := h.startsWith g f ((hM g f).2 (Or.inr hf))
    exact ⟨d, fun u hu => hS.grows.startsWith (hd u hu)⟩
  · -- a stop that is there now was there before, or is given by the first ones
    rcases (hS.stopsAt_iff g e).1 he with he | ⟨-, he⟩
    · exact h.stopsAt g d e (hgives hd) he
    · exact h.unique g d e (hgives hd) ((gives_or_iff hM).2 (Or.inl he))

include hopen

/-- **Meetings agree together if and only if some agree, and the others agree with what these have
given.** -/
theorem Inferred.agrees_iff (hS : a.Inferred S c) : a.Agrees M ↔ a.Agrees S ∧ c.Agrees T := by
  refine ⟨fun h => ⟨h.mono fun g f hf => (hM g f).2 (Or.inl hf),
    hS.agrees_of_agrees hM hknown h⟩, ?_⟩
  rintro ⟨hagreeS, hagreeT⟩
  have hgives : ∀ {g d}, c.Gives T g d ↔ a.Gives T g d :=
    hS.grows.gives_iff fun g f hf => hknown g f ((hM g f).2 (Or.inr hf))
  -- what the first ones give is there when the others are looked at
  have hmixed : ∀ g d e, a.Gives S g d → a.Gives T g e → d = e := by
    intro g d e hd he
    obtain ⟨f, hf, -⟩ := id hd
    have hstop : StopsAt c g d := by
      rcases lacksStop_or_stopsAt (hopen g f ((hM g f).2 (Or.inl hf))) with hlacks | ⟨d', hd'⟩
      · exact (hS.stopsAt_iff g d).2 (Or.inr ⟨hlacks, hd⟩)
      · rw [hagreeS.stopsAt g d d' hd hd']
        exact hd'.grow hS.grows
    exact (hagreeT.stopsAt g e d (hgives.2 he) hstop).symm
  refine ⟨fun g f hf => ?_, fun g d e hd he => ?_, fun g d e hd he => ?_⟩
  · rcases (hM g f).1 hf with hf' | hf'
    · exact hagreeS.startsWith g f hf'
    · obtain ⟨d, hd⟩ := hagreeT.startsWith g f hf'
      exact ⟨d, fun u hu => (hS.grows.startsWith_iff (hknown g f hf u hu)).1 (hd u hu)⟩
  · rcases (gives_or_iff hM).1 hd with hd | hd <;> rcases (gives_or_iff hM).1 he with he | he
    · exact hagreeS.unique g d e hd he
    · exact hmixed g d e hd he
    · exact (hmixed g e d he hd).symm
    · exact hagreeT.unique g d e (hgives.2 hd) (hgives.2 he)
  · rcases (gives_or_iff hM).1 hd with hd | hd
    · exact hagreeS.stopsAt g d e hd he
    · exact hagreeT.stopsAt g d e (hgives.2 hd) (he.grow hS.grows)

/-- **Generations stop where they would stop** if all meetings were gone over at once. -/
theorem Inferred.stopsAt_iff_of_split {b' : Arena} (hS : a.Inferred S c) (hT : c.Inferred T b')
    (hall : a.Inferred M b) (hagree : c.Agrees T) (g : NodeId) (d : Char) :
    StopsAt b g d ↔ StopsAt b' g d := by
  have hgives : ∀ {g d}, c.Gives T g d ↔ a.Gives T g d :=
    hS.grows.gives_iff fun g f hf => hknown g f ((hM g f).2 (Or.inr hf))
  rw [hall.stopsAt_iff, hT.stopsAt_iff, hS.stopsAt_iff, gives_or_iff hM, ← hgives]
  -- a stop is there already, or the meetings of either part give it
  constructor
  · rintro (hd | ⟨hlacks, hd | hd⟩)
    · exact Or.inl (Or.inl hd)
    · exact Or.inl (Or.inr ⟨hlacks, hd⟩)
    · have hopen' := hlacks.hasOpenStop
      rw [← hS.grows.hasOpenStop_eq (lt_size_of_hasOpenStop hopen')] at hopen'
      rcases lacksStop_or_stopsAt hopen' with hlacks' | ⟨e, he⟩
      · exact Or.inr ⟨hlacks', hd⟩
      · -- the first meetings have given a stop, and the others have confirmed it
        obtain rfl := hagree.stopsAt g d e hd he
        exact Or.inl ((hS.stopsAt_iff g d).1 he)
  · rintro ((hd | ⟨hlacks, hd⟩) | ⟨hlacks, hd⟩)
    · exact Or.inl hd
    · exact Or.inr ⟨hlacks, Or.inl hd⟩
    · obtain ⟨f, hf, -⟩ := id hd
      have hlt := lt_size_of_hasOpenStop (hopen g f ((hM g f).2 (Or.inr hf)))
      exact Or.inr ⟨hS.grows.lacksStop hlt hlacks, Or.inr hd⟩

end Split

end Arena

namespace Builder

open Arena

variable {a b c : Arena} {xs ys zs : List NodeId} {j k : NodeId}

/-! ### Sequences of solid nodes -/

/-- A sequence of known nodes is built if its stops can be inferred. -/
theorem sequence_of_nodes_eq_ok_iff (hxs : ∀ x ∈ xs, x < a.nodes.size) :
    sequence (xs.map .node) a = .ok j b ↔ ∃ chosen, a.inferStops xs = .ok chosen ∧
      j = a.nodes.size ∧ b = a.withSequence xs chosen := by
  cases hinfer : a.inferStops xs with
  | error e =>
    rw [sequence_run_of_error (inferredItems_run_of_error (items_run_of_lt hxs) hinfer)]
    simp
  | ok chosen =>
    rw [sequence_run (items_run_of_lt hxs) hinfer]
    simp [eq_comm]

/-- A sequence of solid nodes is built if and only if its meetings agree. -/
theorem exists_sequence_iff (hxs : a.Solid xs) :
    (∃ j b, sequence (xs.map .node) a = .ok j b) ↔ a.Agrees (a.Meets xs) := by
  have hrun : ∀ {j b}, sequence (xs.map .node) a = .ok j b ↔ _ :=
    sequence_of_nodes_eq_ok_iff fun _ => hxs.lt_size
  rw [← exists_inferStops_iff hxs]
  constructor
  · rintro ⟨j, b, hok⟩
    obtain ⟨chosen, hchosen, -⟩ := hrun.1 hok
    exact ⟨chosen, hchosen⟩
  · rintro ⟨chosen, hchosen⟩
    exact ⟨_, _, hrun.2 ⟨chosen, hchosen, rfl, rfl⟩⟩

theorem inferred_of_sequence (hxs : a.Solid xs) (hrun : sequence (xs.map .node) a = .ok j b) :
    a.Inferred (a.Meets xs) b := by
  obtain ⟨chosen, hok, -, rfl⟩ := (sequence_of_nodes_eq_ok_iff fun _ => hxs.lt_size).1 hrun
  exact inferred_withSequence hxs hok

/-! ### Brackets -/

/-- A sequence with a bracket: the elements `ys` are put together first. -/
def bracketed (xs ys zs : List NodeId) : Builder NodeId := do
  let k ← sequence (ys.map .node)
  sequence ((xs ++ k :: zs).map .node)

/-- Both sequences have to be built. -/
theorem bracketed_eq_ok_iff : bracketed xs ys zs a = .ok j b ↔
    ∃ k c, sequence (ys.map .node) a = .ok k c ∧
      sequence ((xs ++ k :: zs).map .node) c = .ok j b := by
  unfold bracketed
  cases hrun : sequence (ys.map .node) a with
  | error e c =>
    rw [run_bind_of_error hrun]
    simp
  | ok k c =>
    rw [run_bind_of_ok hrun]
    simp

section Bracket

variable (ha : a.Consistent) (hys : ys ≠ []) (hsolid : a.Solid (xs ++ ys ++ zs))

include ha hys hsolid

/-- What a bracket leaves to the sequence around it: solid elements, and the meetings that are
not within the bracket. -/
theorem meets_around_bracket (hrun : sequence (ys.map .node) a = .ok k c) :
    c.Solid (xs ++ k :: zs) ∧
      ∀ g f, a.Meets (xs ++ ys ++ zs) g f ↔ a.Meets ys g f ∨ c.Meets (xs ++ k :: zs) g f := by
  obtain ⟨hxsys, hzs'⟩ := solid_append.1 hsolid
  obtain ⟨hxs', hys'⟩ := solid_append.1 hxsys
  have hc : c.Consistent := ((builds_sequence ha _).of_ok hrun).1.consistent ha
  obtain ⟨chosen, -, rfl, rfl⟩ := (sequence_of_nodes_eq_ok_iff fun _ => hys'.lt_size).1 hrun
  have hgrows := grows_withSequence a ys chosen
  have hk := kind?_withSequence a ys chosen
  -- a sequence with a solid element is solid
  have hksolid : (a.withSequence ys chosen).Solid [a.nodes.size] := by
    obtain ⟨n, hn, hkind⟩ := kind?_eq_some.1 hk
    obtain ⟨y, hy, hnullable⟩ := (hys'.grow hgrows).exists_isNullable_eq hys
    refine List.forall_mem_singleton.2 ⟨n, hn, ?_⟩
    rw [(hc.node _ n hn).nullable_eq, hkind]
    exact List.all_eq_false.2 ⟨y, hy, by rw [hnullable]; exact Bool.false_ne_true⟩
  refine ⟨?_, fun g f => meets_bracket_iff ha.ordered hc.ordered hgrows hk hksolid hys hsolid⟩
  rw [← List.singleton_append]
  exact solid_append.2 ⟨hxs'.grow hgrows, solid_append.2 ⟨hksolid, hzs'.grow hgrows⟩⟩

/-- A sequence with a bracket is built if and only if the meetings without it agree. -/
theorem exists_bracketed_iff :
    (∃ j b, bracketed xs ys zs a = .ok j b) ↔ a.Agrees (a.Meets (xs ++ ys ++ zs)) := by
  have hys' : a.Solid ys := (solid_append.1 (solid_append.1 hsolid).1).2
  constructor
  · rintro ⟨j, b, hrun⟩
    obtain ⟨k, c, hinner, houter⟩ := bracketed_eq_ok_iff.1 hrun
    obtain ⟨hsolid', hsplit⟩ := meets_around_bracket ha hys hsolid hinner
    exact ((inferred_of_sequence hys' hinner).agrees_iff hsplit (fun _ _ hf => hf.hasOpenStop)
      fun _ _ hf => hf.follower_lt_size).2
        ⟨(exists_sequence_iff hys').1 ⟨k, c, hinner⟩, (exists_sequence_iff hsolid').1 ⟨j, b, houter⟩⟩
  · intro hagree
    -- the meetings within the bracket are among those without it
    have hwithin : a.Agrees (a.Meets ys) := hagree.mono fun g f hf =>
      (meets_append (solid_append.1 hsolid).1 zs).2 <| Or.inl <|
        (meets_append (solid_append.1 (solid_append.1 hsolid).1).1 ys).2 <| Or.inr <| Or.inr hf
    obtain ⟨k, c, hinner⟩ := (exists_sequence_iff hys').2 hwithin
    obtain ⟨hsolid', hsplit⟩ := meets_around_bracket ha hys hsolid hinner
    obtain ⟨j, b, houter⟩ := (exists_sequence_iff hsolid').2
      ((inferred_of_sequence hys' hinner).agrees_of_agrees hsplit
        (fun _ _ hf => hf.follower_lt_size) hagree)
    exact ⟨j, b, bracketed_eq_ok_iff.2 ⟨k, c, hinner, houter⟩⟩

/-- Generations stop at the same characters with and without the bracket. -/
theorem stopsAt_bracketed_iff {j' : NodeId} {b' : Arena}
    (hflat : sequence ((xs ++ ys ++ zs).map .node) a = .ok j b)
    (hbracket : bracketed xs ys zs a = .ok j' b') (g : NodeId) (d : Char) :
    StopsAt b g d ↔ StopsAt b' g d := by
  have hys' : a.Solid ys := (solid_append.1 (solid_append.1 hsolid).1).2
  obtain ⟨k, c, hinner, houter⟩ := bracketed_eq_ok_iff.1 hbracket
  obtain ⟨hsolid', hsplit⟩ := meets_around_bracket ha hys hsolid hinner
  exact (inferred_of_sequence hys' hinner).stopsAt_iff_of_split hsplit
    (fun _ _ hf => hf.hasOpenStop) (fun _ _ hf => hf.follower_lt_size)
    (inferred_of_sequence hsolid' houter) (inferred_of_sequence hsolid hflat)
    ((exists_sequence_iff hsolid').1 ⟨j', b', houter⟩) g d

end Bracket

/-! ### The text of stops -/

/-- The regex of an inferred stop is that of its character. -/
theorem regex_of_stopsAt (hb : b.WellFormed) {g : NodeId} {gen : Generation} {d : Char}
    (hgen : b.generation? g = some gen) (hstop : StopsAt b g d) :
    ∃ r, gen.stop.regex? = some r ∧ b.regexes[r]? = some (.literal (String.singleton d)) := by
  obtain ⟨gen', regex, source, hgen', hinferred⟩ := hstop
  obtain rfl := Option.some.inj (hgen.symm.trans hgen')
  obtain ⟨n, hn, hkind⟩ := kind?_eq_some.1 (generation?_eq_some.1 hgen)
  refine ⟨regex, by rw [hinferred]; rfl, ?_⟩
  exact ((hb.node g n hn).inferred gen d regex source hkind hinferred).1

/-- Generations that stop at the same characters stop at the same text. -/
theorem sameTree?_of_stopsAt_iff (ha : a.WellFormed) (hb : b.WellFormed) (hc : c.WellFormed)
    (hab : a.Grows b) (hac : a.Grows c) {g : NodeId} (hsame : ∀ d, StopsAt b g d ↔ StopsAt c g d)
    {gen : Generation} (hgen : a.generation? g = some gen) :
    ∃ stop stop', b.generation? g = some { gen with stop } ∧
      c.generation? g = some { gen with stop := stop' } ∧
      b.regexes.SameTree? stop.regex? c.regexes stop'.regex? := by
  obtain ⟨stop, hstop, hcase⟩ := hab.exists_stop hgen
  obtain ⟨stop', hstop', hcase'⟩ := hac.exists_stop hgen
  refine ⟨stop, stop', hstop, hstop', ?_⟩
  by_cases hinferred : ∃ d, StopsAt b g d
  · obtain ⟨d, hd⟩ := hinferred
    obtain ⟨r, hr, hregex⟩ := regex_of_stopsAt hb hstop hd
    obtain ⟨r', hr', hregex'⟩ := regex_of_stopsAt hc hstop' ((hsame d).1 hd)
    dsimp only at hr hr'
    rw [hr, hr']
    exact .some (.of_leaf rfl hregex hregex')
  · -- the stop is what it was
    have hinferred' : ¬ ∃ d, StopsAt c g d := by simpa only [hsame] using hinferred
    rw [hcase.resolve_right hinferred, hcase'.resolve_right hinferred']
    obtain ⟨n, hn, hkind⟩ := kind?_eq_some.1 (generation?_eq_some.1 hgen)
    refine RegexStore.sameTree?_self fun r hr => ?_
    refine ha.sameTree_of_extends hab.regexes hac.regexes ((ha.node g n hn).regexes_lt r ?_)
    rw [hkind]
    exact List.mem_cons_of_mem _ hr

/-- **Bracketing does not matter for solid elements.** A sequence of known nodes, none of which can
match the empty text, is built if and only if some of its elements, next to each other, can be put
together first, and the rest be built around the node that this gives. Every generation that was
there is the same after either, but for its stop; and it has a stop after both or after neither,
with regexes that have the same tree. -/
theorem sequence_bracket (calls : List Call) (xs ys zs : List NodeId) (hys : ys ≠ [])
    (hsolid : (ofCalls calls).Solid (xs ++ ys ++ zs)) :
    ((∃ j b, sequence ((xs ++ ys ++ zs).map .node) (ofCalls calls) = .ok j b) ↔
      ∃ j b, bracketed xs ys zs (ofCalls calls) = .ok j b) ∧
    ∀ j b j' b', sequence ((xs ++ ys ++ zs).map .node) (ofCalls calls) = .ok j b →
      bracketed xs ys zs (ofCalls calls) = .ok j' b' →
      ∀ g gen, (ofCalls calls).generation? g = some gen →
        ∃ stop stop', b.generation? g = some { gen with stop } ∧
          b'.generation? g = some { gen with stop := stop' } ∧
          b.regexes.SameTree? stop.regex? b'.regexes stop'.regex? := by
  have ha := consistent_ofCalls calls
  refine ⟨(exists_sequence_iff hsolid).trans (exists_bracketed_iff ha hys hsolid).symm,
    fun j b j' b' hflat hbracket g gen hgen => ?_⟩
  obtain ⟨k, c, hinner, houter⟩ := bracketed_eq_ok_iff.1 hbracket
  have hb : Steps (ofCalls calls) b := ((builds_sequence ha _).of_ok hflat).1
  have hc : Steps (ofCalls calls) c := ((builds_sequence ha _).of_ok hinner).1
  have hb' : Steps (ofCalls calls) b' :=
    hc.trans ((builds_sequence (hc.consistent ha) _).of_ok houter).1
  -- equal stop characters make equal stop texts, since both arenas only grow the first
  exact sameTree?_of_stopsAt_iff ha.toWellFormed (hb.consistent ha).toWellFormed
    (hb'.consistent ha).toWellFormed hb.grows hb'.grows
    (stopsAt_bracketed_iff ha hys hsolid hflat hbracket g) hgen

/-- A generation before and after a full stop, and one more full stop: when the first full stop and
the generation after it are put together first, the generation is given a stop all the same. -/
theorem sequence_bracket_full_stops :
    ∃ j b gen, bracketed [0] [1, 0] [1] (ofCalls [.generation {}, .literal "."]) = .ok j b ∧
      b.generation? 0 = some gen ∧ gen.stop ≠ .unset := by
  have hgeneration : (ofCalls [.generation {}, .literal "."]).node? 0 =
      some ⟨.generation ⟨0, .unset, none, none, none⟩, {}, false⟩ := by cbv
  have hliteral : (ofCalls [.generation {}, .literal "."]).node? 1 =
      some ⟨.literal ".", {}, false⟩ := by cbv
  have hsolid : (ofCalls [.generation {}, .literal "."]).Solid ([0] ++ [1, 0] ++ [1]) := by
    simp [Solid, hgeneration, hliteral]
  obtain ⟨b, gen, hflat, hgen, hset⟩ : ∃ b gen, sequence (([0] ++ [1, 0] ++ [1]).map .node)
      (ofCalls [.generation {}, .literal "."]) = .ok 2 b ∧ b.generation? 0 = some gen ∧
        gen.stop = .inferred '.' 1 1 := ⟨_, _, by cbv, by cbv, by cbv⟩
  obtain ⟨hiff, hsame⟩ := sequence_bracket [.generation {}, .literal "."] [0] [1, 0] [1]
    (List.cons_ne_nil 1 [0]) hsolid
  obtain ⟨j, b', hbracket⟩ := hiff.1 ⟨2, b, hflat⟩
  obtain ⟨stop, stop', hstop, hstop', htree⟩ := hsame 2 b j b' hflat hbracket 0
    ⟨0, .unset, none, none, none⟩ (by rw [generation?, hgeneration]; rfl)
  obtain rfl := Option.some.inj (hgen.symm.trans hstop)
  refine ⟨j, b', _, hbracket, hstop', fun hunset => ?_⟩
  -- the regex of the stop without the bracket has a counterpart
  dsimp only at hset hunset
  rw [hset, hunset] at htree
  cases htree

end Builder

end GuidedGrammar
