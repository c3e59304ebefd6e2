import GuidedGrammar.Grammar.Call
import GuidedGrammar.Proofs.Grammar.WellFormed

/-!
# Inference boundary by boundary

Inference walks over the boundaries of a sequence, lets its choices grow, and gives up at the first
thing that is wrong. What comes out does not depend on that walk. A boundary offers a generation a
stop where the generation is pending, something follows, and all that follows are literals with one
first character (`Arena.Offers`). Inference succeeds when followers agree at every boundary and each
generation is offered one character only, the one it has already if it has one. Then it chooses for
each generation what the first boundary offers that offers it anything. Otherwise the error tells
what is wrong at the first boundary where something is wrong (`Arena.Faulty`), and of what is wrong
there, what comes first by `Error.rank` (`Arena.inferStops_boundary_by_boundary`).

The walk is followed with an invariant, `Arena.Walked`: nothing was wrong at the boundaries so far,
and the choices are their first offers.
-/

namespace GuidedGrammar

/-- **Which error comes first** of those that inference can report at a boundary. -/
def Error.rank : Error → Nat
  | .cannotInferStop .. => 0
  | .ambiguousStop .. => 1
  | _ => 2

namespace StopAssignment

/-- Chooses a stop for generations, but for those for which there is one. -/
def chooseAll (chosen : StopAssignment) (generations : List NodeId) (stop : InferredStop) :
    StopAssignment :=
  generations.foldl (fun chosen generation => chosen.choose generation stop) chosen

end StopAssignment

namespace Arena

variable {a : Arena} {elements : List NodeId} {i n : Nat} {g : NodeId} {s : InferredStop} {e : Error}

/-! ### Chosen stops -/

/-- A chosen stop is listed. -/
theorem mem_of_stop? {chosen : StopAssignment} {id : NodeId} {s : InferredStop}
    (h : chosen.stop? id = some s) : (id, s) ∈ chosen := by
  obtain ⟨before, after, rfl, -⟩ := List.lookup_eq_some_iff.1 h
  exact List.mem_append_right _ (List.mem_cons_self ..)

theorem not_mem_keys_of_stop? {chosen : StopAssignment} {id : NodeId}
    (h : chosen.stop? id = none) : id ∉ chosen.map Prod.fst := by
  intro hmem
  obtain ⟨⟨id', s⟩, hs, rfl⟩ := List.mem_map.1 hmem
  have hne := List.lookup_eq_none_iff.1 h _ hs
  exact absurd hne (by simp)

theorem choose_of_none {chosen : StopAssignment} {id : NodeId} (s : InferredStop)
    (h : chosen.stop? id = none) : chosen.choose id s = chosen ++ [(id, s)] := by
  rw [StopAssignment.choose, h, Option.isSome_none, if_neg Bool.false_ne_true]

theorem choose_of_some {chosen : StopAssignment} {id : NodeId} {s : InferredStop}
    (s' : InferredStop) (h : chosen.stop? id = some s) : chosen.choose id s' = chosen := by
  rw [StopAssignment.choose, h, Option.isSome_some, if_pos rfl]

theorem stop?_choose (chosen : StopAssignment) (g : NodeId) (s : InferredStop) (id : NodeId) :
    (chosen.choose g s).stop? id = (chosen.stop? id).or (if id = g then some s else none) := by
  cases hg : chosen.stop? g with
  | some t =>
    rw [choose_of_some s hg]
    split
    · rename_i hid
      rw [hid, hg, Option.some_or]
    · rw [Option.or_none]
  | none =>
    rw [choose_of_none s hg, StopAssignment.stop?, List.lookup_append, StopAssignment.stop?]
    split
    · rename_i hid
      rw [hid, List.lookup_cons_self]
    · rename_i hid
      rw [List.lookup_cons, beq_eq_false_iff_ne.2 hid, List.lookup_nil]

theorem stop?_of_mem {chosen : StopAssignment} (hnodup : (chosen.map Prod.fst).Nodup)
    (h : (g, s) ∈ chosen) : chosen.stop? g = some s := by
  induction chosen with
  | nil => exact absurd h List.not_mem_nil
  | cons entry chosen ih =>
    obtain ⟨id, t⟩ := entry
    rw [List.map_cons, List.nodup_cons] at hnodup
    rw [StopAssignment.stop?, List.lookup_cons]
    rcases List.mem_cons.1 h with heq | hmem
    · obtain ⟨rfl, rfl⟩ := Prod.mk.inj heq
      rw [beq_self_eq_true]
    · have hne : g ≠ id := by
        rintro rfl
        exact hnodup.1 (List.mem_map.2 ⟨_, hmem, rfl⟩)
      rw [beq_eq_false_iff_ne.2 hne]
      exact ih hnodup.2 hmem

theorem nodup_choose {chosen : StopAssignment} (h : (chosen.map Prod.fst).Nodup) (g : NodeId)
    (s : InferredStop) : ((chosen.choose g s).map Prod.fst).Nodup := by
  cases hg : chosen.stop? g with
  | some t => rwa [choose_of_some s hg]
  | none =>
    rw [choose_of_none s hg, List.map_append, List.map_singleton, List.nodup_append]
    refine ⟨h, List.pairwise_singleton _ _, fun x hx y hy hxy => ?_⟩
    have hid : x = g := hxy.trans (List.mem_singleton.1 hy)
    exact not_mem_keys_of_stop? hg (hid ▸ hx)

theorem nodup_chooseAll {chosen : StopAssignment} (h : (chosen.map Prod.fst).Nodup)
    (generations : List NodeId) (s : InferredStop) :
    ((chosen.chooseAll generations s).map Prod.fst).Nodup := by
  induction generations generalizing chosen with
  | nil => exact h
  | cons g others ih => exact ih (nodup_choose h g s)

/-- A stop is chosen for the generations that had none. -/
theorem stop?_chooseAll (chosen : StopAssignment) (generations : List NodeId) (s : InferredStop)
    (g : NodeId) : (chosen.chooseAll generations s).stop? g =
      (chosen.stop? g).or (if g ∈ generations then some s else none) := by
  induction generations generalizing chosen with
  | nil => simp [StopAssignment.chooseAll]
  | cons g' others ih =>
    refine (ih (chosen.choose g' s)).trans ?_
    rw [stop?_choose, Option.or_assoc]
    congr 1
    by_cases hg : g = g'
    · simp [hg]
    · simp [hg]

/-! ### Agreement -/

theorem leadingChar?_eq_some {id : NodeId} {s : InferredStop} :
    a.leadingChar? id = some s ↔ s.source = id ∧ a.StartsWith id s.char := by
  rw [leadingChar?, Option.bind_eq_some_iff]
  constructor
  · rintro ⟨text, htext, h⟩
    obtain ⟨c, hc, rfl⟩ := Option.map_eq_some_iff.1 h
    exact ⟨rfl, text, htext, hc⟩
  · rintro ⟨rfl, text, htext, hc⟩
    exact ⟨text, htext, by rw [hc, Option.map_some]⟩

/-- A literal that is not empty has a first character. -/
theorem exists_leadingChar? {id : NodeId} (hliteral : (a.literal? id).isNone = false)
    (hne : a.literal? id ≠ some "") : ∃ s, a.leadingChar? id = some s := by
  cases htext : a.literal? id with
  | none =>
    rw [htext] at hliteral
    cases hliteral
  | some text =>
    cases hlist : text.toList with
    | nil =>
      rw [htext, String.toList_eq_nil_iff.1 hlist] at hne
      exact absurd rfl hne
    | cons c cs => exact ⟨⟨c, id⟩, leadingChar?_eq_some.2 ⟨rfl, text, htext, by rw [hlist]; rfl⟩⟩

/-- What agreement means: all followers are literals that start with the character of the stop,
and without a stop there are no followers. -/
theorem agreedStop_ok {generation : NodeId} {followers : List NodeId}
    {result : Option InferredStop} (hne : ∀ u ∈ followers, a.literal? u ≠ some "")
    (h : a.agreedStop generation followers = .ok result) :
    (result = none → followers = []) ∧ ∀ stop, result = some stop →
      a.StartsWith stop.source stop.char ∧ ∀ u ∈ followers, a.StartsWith u stop.char := by
  unfold agreedStop at h
  split at h
  · cases h
  · rename_i hliteral
    -- every follower is a literal, and none is empty
    have hleading : ∀ u ∈ followers, ∃ s, a.leadingChar? u = some s := fun u hu =>
      exists_leadingChar? (Bool.eq_false_iff.2 (List.find?_eq_none.1 hliteral u hu)) (hne u hu)
    split at h
    · rename_i hnil
      obtain rfl := Except.ok.inj h
      refine ⟨fun _ => ?_, fun stop hstop => nomatch hstop⟩
      rw [List.eq_nil_iff_forall_not_mem]
      intro u hu
      obtain ⟨s, hs⟩ := hleading u hu
      have hmem : s ∈ followers.filterMap a.leadingChar? := List.mem_filterMap.2 ⟨u, hu, hs⟩
      rw [hnil] at hmem
      exact absurd hmem List.not_mem_nil
    · rename_i first others hcons
      split at h
      · cases h
      · rename_i hagree
        obtain rfl := Except.ok.inj h
        refine ⟨(fun hnone => nomatch hnone), fun stop hstop => ?_⟩
        obtain rfl := Option.some.inj hstop
        -- the first follower gives the stop, and no other one disagrees
        have hsame : ∀ s ∈ followers.filterMap a.leadingChar?, s.char = first.char := by
          intro s hs
          rw [hcons] at hs
          rcases List.mem_cons.1 hs with rfl | hs
          · rfl
          · simpa only [bne_iff_ne, ne_eq, not_not] using List.find?_eq_none.1 hagree s hs
        constructor
        · have hfirst : first ∈ followers.filterMap a.leadingChar? := by
            rw [hcons]
            exact List.mem_cons_self ..
          obtain ⟨u, -, hu⟩ := List.mem_filterMap.1 hfirst
          obtain ⟨rfl, hstarts⟩ := leadingChar?_eq_some.1 hu
          exact hstarts
        · intro u hu
          obtain ⟨s, hs⟩ := hleading u hu
          rw [← hsame s (List.mem_filterMap.2 ⟨u, hu, hs⟩)]
          exact (leadingChar?_eq_some.1 hs).2

/-- Agreement takes the first follower. -/
theorem head?_of_agreedStop {followers : List NodeId} (hne : ∀ u ∈ followers, a.literal? u ≠ some "")
    (h : a.agreedStop g followers = .ok (some s)) : followers.head? = some s.source := by
  unfold agreedStop at h
  split at h
  · cases h
  · rename_i hliteral
    cases followers with
    | nil => cases h
    | cons u others =>
      have hu : (a.literal? u).isNone = false :=
        Bool.eq_false_iff.2 (List.find?_eq_none.1 hliteral u (List.mem_cons_self ..))
      -- every follower is a literal with a character, so the first one is the source
      obtain ⟨t, ht⟩ := exists_leadingChar? hu (hne u (List.mem_cons_self ..))
      rw [List.filterMap_cons_some ht] at h
      dsimp only at h
      split at h
      · cases h
      · obtain rfl := Option.some.inj (Except.ok.inj h)
        rw [List.head?_cons, (leadingChar?_eq_some.1 ht).1]

/-- Why there is no agreement: some follower is no literal, or all are and two of them start
differently. -/
theorem agreedStop_error {followers : List NodeId} (h : a.agreedStop g followers = .error e) :
    (∃ u ∈ followers, a.literal? u = none ∧ e = .cannotInferStop (a.cite g) (a.cite u)) ∨
      (∀ u ∈ followers, a.literal? u ≠ none) ∧
        ∃ u ∈ followers, ∃ v ∈ followers, ∃ c d, a.StartsWith u c ∧ a.StartsWith v d ∧ c ≠ d ∧
          e = .ambiguousStop (a.cite g) (a.cite u) (a.cite v) := by
  unfold agreedStop at h
  split at h
  · rename_i u hu
    obtain rfl := Except.error.inj h
    have hnone := List.find?_some hu
    exact Or.inl ⟨u, List.mem_of_find?_eq_some hu, Option.isNone_iff_eq_none.1 hnone, rfl⟩
  · rename_i hliteral
    refine Or.inr ⟨fun u hu hnone => ?_, ?_⟩
    · exact List.find?_eq_none.1 hliteral u hu (Option.isNone_iff_eq_none.2 hnone)
    -- past the first check all followers are literals, and two of them must disagree
    have hlisted : ∀ t ∈ followers.filterMap a.leadingChar?,
        t.source ∈ followers ∧ a.StartsWith t.source t.char := by
      intro t ht
      obtain ⟨u, hu, htu⟩ := List.mem_filterMap.1 ht
      obtain ⟨rfl, hstarts⟩ := leadingChar?_eq_some.1 htu
      exact ⟨hu, hstarts⟩
    split at h
    · cases h
    · rename_i first others hcons
      split at h
      · rename_i other hother
        obtain rfl := Except.error.inj h
        rw [hcons] at hlisted
        obtain ⟨hfirst, hfirst'⟩ := hlisted first (List.mem_cons_self ..)
        obtain ⟨hmem, hmem'⟩ :=
          hlisted other (List.mem_cons_of_mem _ (List.mem_of_find?_eq_some hother))
        have hne : first.char ≠ other.char := by
          have hdiffers := List.find?_some hother
          exact (bne_iff_ne.1 hdiffers).symm
        exact ⟨first.source, hfirst, other.source, hmem, first.char, other.char, hfirst', hmem',
          hne, rfl⟩
      · cases h

/-! ### What a boundary offers -/

/-- The generations whose stops may be inferred and that can come last before the boundary after
element `i`. -/
def pendingAt (a : Arena) (elements : List NodeId) (i : Nat) : List NodeId :=
  (elements[i]?).elim [] a.pending

/-- The terminals other than empty literals that can come first after the boundary after
element `i`. -/
def followersAt (a : Arena) (elements : List NodeId) (i : Nat) : List NodeId :=
  a.followers (elements.drop (i + 1))

/-- Whether stops are inferred at a boundary: some generation waits for one, and what follows
cannot match the empty text. -/
structure InfersAt (a : Arena) (elements : List NodeId) (i : Nat) : Prop where
  pending : a.pendingAt elements i ≠ []
  solid : ∃ y ∈ elements.drop (i + 1), a.isNullable y = false

/-- **Whether a boundary offers a generation a stop**: the generation is pending, and everything
that follows starts with the character, the source of the stop first. -/
structure Offers (a : Arena) (elements : List NodeId) (i : Nat) (g : NodeId) (s : InferredStop) :
    Prop where
  infers : a.InfersAt elements i
  pending : g ∈ a.pendingAt elements i
  source : (a.followersAt elements i).head? = some s.source
  startsWith : ∀ u ∈ a.followersAt elements i, a.StartsWith u s.char

/-- The first boundary that offers a generation a stop, with the stop. -/
def FirstOffer (a : Arena) (elements : List NodeId) (i : Nat) (g : NodeId) (s : InferredStop) :
    Prop :=
  a.Offers elements i g s ∧ ∀ j < i, ∀ t, ¬ a.Offers elements j g t

/-- Whether a generation has an inferred stop. -/
def HasInferred (a : Arena) (g : NodeId) (s : InferredStop) : Prop :=
  ∃ gen regex, a.generation? g = some gen ∧ gen.stop = .inferred s.char regex s.source

/-- **What can be wrong at a boundary**, with the errors that tell so. A conflict is with a stop
that the generation has in the arena, or that an earlier boundary offers it. -/
inductive Faulty (a : Arena) (elements : List NodeId) (i : Nat) : Error → Prop
  | cannotInfer {g u : NodeId} (hinfers : a.InfersAt elements i) (hg : g ∈ a.pendingAt elements i)
    (hu : u ∈ a.followersAt elements i) (hliteral : a.literal? u = none) :
    Faulty a elements i (.cannotInferStop (a.cite g) (a.cite u))
  | ambiguous {g u v : NodeId} {c d : Char} (hinfers : a.InfersAt elements i)
    (hg : g ∈ a.pendingAt elements i) (hu : u ∈ a.followersAt elements i)
    (hv : v ∈ a.followersAt elements i) (hc : a.StartsWith u c) (hd : a.StartsWith v d)
    (hne : c ≠ d) : Faulty a elements i (.ambiguousStop (a.cite g) (a.cite u) (a.cite v))
  | conflicting {g u : NodeId} {c : Char} {previous : InferredStop}
    (hinfers : a.InfersAt elements i) (hg : g ∈ a.pendingAt elements i)
    (hu : u ∈ a.followersAt elements i) (hc : a.StartsWith u c)
    (hprevious : a.HasInferred g previous ∨ ∃ j < i, a.Offers elements j g previous)
    (hne : previous.char ≠ c) :
    Faulty a elements i (.conflictingStop (a.cite g) (a.cite previous.source) (a.cite u))

/-- The error that is reported: it tells what is wrong at the first boundary where something is
wrong, and nothing that comes before it by rank is wrong there. -/
def FirstFault (a : Arena) (elements : List NodeId) (e : Error) : Prop :=
  ∃ i, a.Faulty elements i e ∧ (∀ j < i, ∀ e', ¬ a.Faulty elements j e') ∧
    ∀ e', a.Faulty elements i e' → e.rank ≤ e'.rank

theorem literal?_ne_of_mem_followers {rest : List NodeId} {u : NodeId} (hu : u ∈ a.followers rest) :
    a.literal? u ≠ some "" := by
  simpa only [bne_iff_ne] using (List.mem_filter.1 hu).2

theorem StartsWith.unique {u : NodeId} {c d : Char} (h : a.StartsWith u c)
    (h' : a.StartsWith u d) : c = d := by
  obtain ⟨text, htext, hc⟩ := h
  obtain ⟨text', htext', hd⟩ := h'
  obtain rfl := Option.some.inj (htext.symm.trans htext')
  exact Option.some.inj (hc.symm.trans hd)

theorem Faulty.infersAt (h : a.Faulty elements i e) : a.InfersAt elements i := by
  cases h <;> assumption

theorem Faulty.exists_follower (h : a.Faulty elements i e) : ∃ u, u ∈ a.followersAt elements i := by
  cases h <;> exact ⟨_, ‹_ ∈ a.followersAt elements i›⟩

theorem Offers.mem_source (h : a.Offers elements i g s) : s.source ∈ a.followersAt elements i :=
  List.mem_of_mem_head? h.source

/-- A generation that is offered a stop is offered one first. -/
theorem Offers.exists_firstOffer (h : a.Offers elements i g s) :
    ∃ j ≤ i, ∃ t, a.FirstOffer elements j g t := by
  induction i using Nat.strongRecOn generalizing s with
  | ind i ih =>
    by_cases hbefore : ∃ j < i, ∃ t, a.Offers elements j g t
    · obtain ⟨j, hj, t, ht⟩ := hbefore
      obtain ⟨k, hk, first⟩ := ih j hj ht
      exact ⟨k, by omega, first⟩
    · exact ⟨i, Nat.le_refl i, s, h, fun j hj t ht => hbefore ⟨j, hj, t, ht⟩⟩

/-- Where nothing is wrong, what is offered agrees with what has been offered before. -/
theorem Offers.char_eq_of_lt {t : InferredStop} {j : Nat} (hj : ∀ e, ¬ a.Faulty elements j e)
    (hs : a.Offers elements i g s) (ht : a.Offers elements j g t) (hij : i < j) :
    s.char = t.char := by
  by_contra hne
  exact hj _ (.conflicting ht.infers ht.pending ht.mem_source (ht.startsWith _ ht.mem_source)
    (Or.inr ⟨i, hij, hs⟩) hne)

/-- Where nothing is wrong, what is offered agrees with what the arena has. -/
theorem Offers.char_eq_of_hasInferred {t : InferredStop} (hi : ∀ e, ¬ a.Faulty elements i e)
    (hs : a.Offers elements i g s) (ht : a.HasInferred g t) : t.char = s.char := by
  by_contra hne
  exact hi _ (.conflicting hs.infers hs.pending hs.mem_source (hs.startsWith _ hs.mem_source)
    (Or.inl ht) hne)

/-- Where nothing is wrong, all that a generation is offered agrees. -/
theorem Offers.char_eq {t : InferredStop} {j : Nat} (hn : ∀ k < n, ∀ e, ¬ a.Faulty elements k e)
    (hs : a.Offers elements i g s) (ht : a.Offers elements j g t) (hi : i < n) (hj : j < n) :
    s.char = t.char := by
  rcases Nat.lt_trichotomy i j with hij | rfl | hij
  · exact hs.char_eq_of_lt (hn j hj) ht hij
  · exact (hs.startsWith _ ht.mem_source).unique (ht.startsWith _ ht.mem_source)
  · exact (ht.char_eq_of_lt (hn i hi) hs hij).symm

/-- Where nothing is wrong, all that follows starts with one character. -/
theorem InfersAt.exists_startsWith (hinfers : a.InfersAt elements i)
    (hi : ∀ e, ¬ a.Faulty elements i e) : ∃ c, ∀ u ∈ a.followersAt elements i, a.StartsWith u c := by
  obtain ⟨g, hg⟩ := List.exists_mem_of_ne_nil _ hinfers.pending
  -- a follower without a leading character would be a fault of its own
  have hstarts : ∀ u ∈ a.followersAt elements i, ∃ c, a.StartsWith u c := by
    intro u hu
    have hliteral : (a.literal? u).isNone = false := by
      refine Bool.eq_false_iff.2 fun hnone => ?_
      exact hi _ (.cannotInfer hinfers hg hu (Option.isNone_iff_eq_none.1 hnone))
    obtain ⟨s, hs⟩ := exists_leadingChar? hliteral (literal?_ne_of_mem_followers hu)
    exact ⟨s.char, (leadingChar?_eq_some.1 hs).2⟩
  by_cases hsome : ∃ u, u ∈ a.followersAt elements i
  · obtain ⟨u, hu⟩ := hsome
    obtain ⟨c, hc⟩ := hstarts u hu
    refine ⟨c, fun v hv => ?_⟩
    obtain ⟨d, hd⟩ := hstarts v hv
    have heq : c = d := by
      by_contra hne
      exact hi _ (.ambiguous hinfers hg hu hv hc hd hne)
    rwa [heq]
  · exact ⟨default, fun u hu => absurd ⟨u, hu⟩ hsome⟩

/-- When nothing is wrong anywhere: followers agree at every boundary, each generation is offered
one character only, and it is the one that the generation has already. -/
theorem forall_not_faulty_iff :
    (∀ i e, ¬ a.Faulty elements i e) ↔
      (∀ i, a.InfersAt elements i → ∃ c, ∀ u ∈ a.followersAt elements i, a.StartsWith u c) ∧
      (∀ i j g s t, a.Offers elements i g s → a.Offers elements j g t → s.char = t.char) ∧
      ∀ i g s t, a.Offers elements i g s → a.HasInferred g t → t.char = s.char := by
  constructor
  · intro h
    refine ⟨fun i hinfers => hinfers.exists_startsWith (h i), fun i j g s t hs ht => ?_,
      fun i g s t hs ht => hs.char_eq_of_hasInferred (h i) ht⟩
    -- both boundaries come before the one numbered `i + j + 1`
    have hi : i < i + j + 1 := by omega
    have hj : j < i + j + 1 := by omega
    exact hs.char_eq (fun k _ => h k) ht hi hj
  · rintro ⟨hagree, hoffers, hinferred⟩ i e he
    obtain ⟨c, hc⟩ := hagree i he.infersAt
    cases he with
    | cannotInfer _ _ hu hliteral =>
      obtain ⟨text, htext, -⟩ := hc _ hu
      rw [hliteral] at htext
      cases htext
    | ambiguous _ _ hu hv hu' hv' hne =>
      exact hne ((hu'.unique (hc _ hu)).trans ((hc _ hv).unique hv'))
    | @conflicting g u d previous hinfers hg hu hd hprevious hne =>
      obtain ⟨first, others, hfirst⟩ := List.exists_cons_of_ne_nil (List.ne_nil_of_mem hu)
      have hhead : (a.followersAt elements i).head? = some first := by rw [hfirst, List.head?_cons]
      -- the conflicting offer is the boundary's own, taken from its first follower
      have hoffer : a.Offers elements i g ⟨c, first⟩ := ⟨hinfers, hg, hhead, hc⟩
      have hchar : previous.char = c := by
        rcases hprevious with hprevious | ⟨j, -, hj⟩
        · exact hinferred i g _ previous hoffer hprevious
        · exact hoffers j i g previous _ hj hoffer
      exact hne (hchar.trans ((hc u hu).unique hd))

/-! ### One boundary -/

theorem previousStop?_eq_some {chosen : StopAssignment} :
    a.previousStop? chosen g = some s ↔
      chosen.stop? g = some s ∨ chosen.stop? g = none ∧ a.HasInferred g s := by
  unfold previousStop?
  cases chosen.stop? g with
  | some t => simp
  | none =>
    simp only [reduceCtorEq, true_and, false_or]
    constructor
    · intro h
      split at h
      · rename_i c regex source hstop
        obtain ⟨gen, hgen, hstop⟩ := Option.map_eq_some_iff.1 hstop
        obtain rfl := Option.some.inj h
        exact ⟨gen, regex, hgen, hstop⟩
      · cases h
    · rintro ⟨gen, regex, hgen, hstop⟩
      rw [hgen, Option.map_some, hstop]

/-- What happens to one generation: it has been given another character before, or the stop is
chosen for it. -/
theorem chooseStop_cases (a : Arena) (stop : InferredStop) (chosen : StopAssignment) (g : NodeId) :
    (∃ previous, a.previousStop? chosen g = some previous ∧ previous.char ≠ stop.char ∧
      a.chooseStop stop chosen g =
        .error (.conflictingStop (a.cite g) (a.cite previous.source) (a.cite stop.source))) ∨
      (∀ previous, a.previousStop? chosen g = some previous → previous.char = stop.char) ∧
        a.chooseStop stop chosen g = .ok (chosen.choose g stop) := by
  unfold chooseStop
  split
  · rename_i previous hfilter
    obtain ⟨hprevious, hne⟩ := Option.filter_eq_some_iff.1 hfilter
    exact Or.inl ⟨previous, hprevious, bne_iff_ne.1 hne, rfl⟩
  · rename_i hfilter
    refine Or.inr ⟨fun previous hprevious => ?_, rfl⟩
    simpa only [bne_iff_ne, ne_eq, not_not] using Option.filter_eq_none_iff.1 hfilter _ hprevious

/-- Choosing a stop for one generation makes no difference to the others. -/
theorem previousStop?_choose_of_ne {chosen : StopAssignment} {id : NodeId} (hid : id ≠ g)
    (stop : InferredStop) : a.previousStop? (chosen.choose g stop) id = some s ↔
      a.previousStop? chosen id = some s := by
  rw [previousStop?_eq_some, previousStop?_eq_some, stop?_choose, if_neg hid, Option.or_none]

/-- A generation for which a stop is chosen has the character of the stop then. -/
theorem char_of_previousStop?_choose {chosen : StopAssignment} {stop : InferredStop}
    (hsame : ∀ previous, a.previousStop? chosen g = some previous → previous.char = stop.char)
    (h : a.previousStop? (chosen.choose g stop) g = some s) : s.char = stop.char := by
  rw [previousStop?_eq_some, stop?_choose, if_pos rfl] at h
  rcases h with h | ⟨h, -⟩
  · rcases Option.or_eq_some_iff.1 h with h | ⟨-, h⟩
    · exact hsame s (previousStop?_eq_some.2 (Or.inl h))
    · rw [← Option.some.inj h]
  · simp at h

/-- What happens to pending generations: one of them has been given another character before, or
the stop is chosen for all of them. -/
theorem chooseStops_cases (a : Arena) (stop : InferredStop) (pending : List NodeId)
    (chosen : StopAssignment) :
    (∃ g ∈ pending, ∃ previous, a.previousStop? chosen g = some previous ∧
      previous.char ≠ stop.char ∧ pending.foldlM (a.chooseStop stop) chosen =
        .error (.conflictingStop (a.cite g) (a.cite previous.source) (a.cite stop.source))) ∨
      (∀ g ∈ pending, ∀ previous, a.previousStop? chosen g = some previous →
        previous.char = stop.char) ∧
        pending.foldlM (a.chooseStop stop) chosen = .ok (chosen.chooseAll pending stop) := by
  induction pending generalizing chosen with
  | nil => exact Or.inr ⟨fun g hg => absurd hg List.not_mem_nil, rfl⟩
  | cons g others ih =>
    rw [List.foldlM_cons]
    rcases chooseStop_cases a stop chosen g with ⟨previous, hprevious, hne, heq⟩ | ⟨hsame, heq⟩
    · exact Or.inl ⟨g, List.mem_cons_self .., previous, hprevious, hne, by rw [heq]; rfl⟩
    · rw [heq]
      rcases ih (chosen.choose g stop) with
        ⟨id, hid, previous, hprevious, hne, herror⟩ | ⟨hall, hok⟩
      · -- the choice just made agrees with the stop, so the conflict is about another generation
        have hidg : id ≠ g := by
          rintro rfl
          exact hne (char_of_previousStop?_choose hsame hprevious)
        exact Or.inl ⟨id, List.mem_cons_of_mem _ hid, previous,
          (previousStop?_choose_of_ne hidg stop).1 hprevious, hne, herror⟩
      · refine Or.inr ⟨fun id hid previous hprevious => ?_, hok⟩
        by_cases hidg : id = g
        · rw [hidg] at hprevious
          exact hsame previous hprevious
        · have hmem : id ∈ others := List.mem_of_ne_of_mem hidg hid
          exact hall id hmem previous ((previousStop?_choose_of_ne hidg stop).2 hprevious)

/-- The error where followers do not agree tells what is wrong, and nothing before it by rank is
wrong. -/
theorem faulty_of_agreedStop (hinfers : a.InfersAt elements i) (hg : g ∈ a.pendingAt elements i)
    (h : a.agreedStop g (a.followersAt elements i) = .error e) :
    a.Faulty elements i e ∧ ∀ e', a.Faulty elements i e' → e.rank ≤ e'.rank := by
  rcases agreedStop_error h with ⟨u, hu, hliteral, rfl⟩ |
    ⟨hliteral, u, hu, v, hv, c, d, hc, hd, hcd, rfl⟩
  · exact ⟨.cannotInfer hinfers hg hu hliteral, fun e' _ => Nat.zero_le _⟩
  · refine ⟨.ambiguous hinfers hg hu hv hc hd hcd, fun e' he' => ?_⟩
    cases he' with
    | cannotInfer _ _ hw hnone => exact absurd hnone (hliteral _ hw)
    | ambiguous => exact Nat.le_refl 1
    | conflicting => exact Nat.le_succ 1

/-! ### The walk -/

/-- The boundaries are the elements but the last, each with what comes after it. -/
theorem getElem?_boundaries {x : NodeId} {rest : List NodeId}
    (h : (boundaries elements)[i]? = some (x, rest)) :
    elements[i]? = some x ∧ elements.drop (i + 1) = rest := by
  induction elements generalizing i with
  | nil => cases h
  | cons y ys ih =>
    cases ys with
    | nil => cases h
    | cons z zs =>
      cases i with
      | zero =>
        obtain ⟨rfl, rfl⟩ := Prod.mk.inj (Option.some.inj h)
        exact ⟨rfl, rfl⟩
      | succ i => exact ih h

theorem length_boundaries (elements : List NodeId) :
    (boundaries elements).length = elements.length - 1 := by
  induction elements with
  | nil => rfl
  | cons y ys ih =>
    cases ys with
    | nil => rfl
    | cons z zs =>
      rw [boundaries, List.length_cons, ih]
      simp

/-- After the last boundary there is none. -/
theorem InfersAt.lt_length (h : a.InfersAt elements i) : i < (boundaries elements).length := by
  obtain ⟨y, hy, -⟩ := h.solid
  have hpos := List.length_pos_of_mem hy
  rw [List.length_drop] at hpos
  rw [length_boundaries]
  omega

/-- **What the walk knows** when it has passed `n` boundaries: nothing was wrong there, and the
choices are the first offers. -/
structure Walked (a : Arena) (elements : List NodeId) (n : Nat) (chosen : StopAssignment) : Prop where
  faultless : ∀ i < n, ∀ e, ¬ a.Faulty elements i e
  nodup : (chosen.map Prod.fst).Nodup
  stop?_iff : ∀ g s, chosen.stop? g = some s ↔ ∃ i < n, a.FirstOffer elements i g s

theorem walked_zero (a : Arena) (elements : List NodeId) : a.Walked elements 0 [] where
  faultless i hi := absurd hi (Nat.not_lt_zero i)
  nodup := List.nodup_nil
  stop?_iff g s := by
    refine iff_of_false (fun h => absurd (mem_of_stop? h) List.not_mem_nil) ?_
    rintro ⟨i, hi, -⟩
    exact Nat.not_lt_zero i hi

namespace Walked

variable {chosen : StopAssignment}

/-- Nothing is chosen for a generation exactly if it has been offered nothing. -/
theorem stop?_eq_none_iff (h : a.Walked elements n chosen) :
    chosen.stop? g = none ↔ ∀ i < n, ∀ s, ¬ a.Offers elements i g s := by
  rw [Option.eq_none_iff_forall_ne_some]
  constructor
  · intro hnone i hi s hs
    obtain ⟨j, hj, t, ht⟩ := hs.exists_firstOffer
    exact hnone t ((h.stop?_iff g t).2 ⟨j, by omega, ht⟩)
  · intro hnone s hs
    obtain ⟨i, hi, hfirst⟩ := (h.stop?_iff g s).1 hs
    exact hnone i hi s hfirst.1

/-- What a conflict is with: a stop with another character was offered before, or is in the
arena. -/
theorem previousStop?_of_given (h : a.Walked elements n chosen) {previous : InferredStop}
    (hprevious : a.HasInferred g previous ∨ ∃ j < n, a.Offers elements j g previous) :
    ∃ p, a.previousStop? chosen g = some p ∧ p.char = previous.char := by
  cases hchosen : chosen.stop? g with
  | some p =>
    refine ⟨p, previousStop?_eq_some.2 (Or.inl hchosen), ?_⟩
    obtain ⟨i, hi, hfirst, -⟩ := (h.stop?_iff g p).1 hchosen
    rcases hprevious with hprevious | ⟨j, hj, hoffer⟩
    · exact (hfirst.char_eq_of_hasInferred (h.faultless i hi) hprevious).symm
    · exact hfirst.char_eq h.faultless hoffer hi hj
  | none =>
    rcases hprevious with hprevious | ⟨j, hj, hoffer⟩
    · exact ⟨previous, previousStop?_eq_some.2 (Or.inr ⟨hchosen, hprevious⟩), rfl⟩
    · exact absurd hoffer (h.stop?_eq_none_iff.1 hchosen j hj previous)

theorem given_of_previousStop? (h : a.Walked elements n chosen) {previous : InferredStop}
    (hprevious : a.previousStop? chosen g = some previous) :
    a.HasInferred g previous ∨ ∃ j < n, a.Offers elements j g previous := by
  rcases previousStop?_eq_some.1 hprevious with hchosen | ⟨-, hinferred⟩
  · obtain ⟨j, hj, hfirst, -⟩ := (h.stop?_iff g previous).1 hchosen
    exact Or.inr ⟨j, hj, hfirst⟩
  · exact Or.inl hinferred

/-- A boundary that offers nothing and has nothing wrong leaves the choices as they are. -/
theorem skip (h : a.Walked elements n chosen) (hfaultless : ∀ e, ¬ a.Faulty elements n e)
    (hoffers : ∀ g s, ¬ a.Offers elements n g s) : a.Walked elements (n + 1) chosen where
  faultless i hi := by
    rcases Nat.lt_succ_iff_lt_or_eq.1 hi with hi | rfl
    · exact h.faultless i hi
    · exact hfaultless
  nodup := h.nodup
  stop?_iff g s := by
    rw [h.stop?_iff]
    constructor
    · rintro ⟨i, hi, hfirst⟩
      exact ⟨i, by omega, hfirst⟩
    · rintro ⟨i, hi, hfirst⟩
      rcases Nat.lt_succ_iff_lt_or_eq.1 hi with hi | rfl
      · exact ⟨i, hi, hfirst⟩
      · exact absurd hfirst.1 (hoffers g s)

/-- A boundary that offers a stop, and has nothing wrong, adds the stop for the generations that
have none. -/
theorem extend (h : a.Walked elements n chosen) (hfaultless : ∀ e, ¬ a.Faulty elements n e)
    {stop : InferredStop}
    (hoffers : ∀ g s, a.Offers elements n g s ↔ g ∈ a.pendingAt elements n ∧ s = stop) :
    a.Walked elements (n + 1) (chosen.chooseAll (a.pendingAt elements n) stop) where
  faultless i hi := by
    rcases Nat.lt_succ_iff_lt_or_eq.1 hi with hi | rfl
    · exact h.faultless i hi
    · exact hfaultless
  nodup := nodup_chooseAll h.nodup _ stop
  stop?_iff g s := by
    -- a generation chosen for earlier keeps its stop, and the others take the new one
    rw [stop?_chooseAll, Option.or_eq_some_iff]
    constructor
    · rintro (hs | ⟨hnone, hs⟩)
      · obtain ⟨i, hi, hfirst⟩ := (h.stop?_iff g s).1 hs
        exact ⟨i, by omega, hfirst⟩
      · split at hs
        · rename_i hpending
          obtain rfl := Option.some.inj hs
          exact ⟨n, Nat.lt_succ_self n, (hoffers g _).2 ⟨hpending, rfl⟩,
            h.stop?_eq_none_iff.1 hnone⟩
        · cases hs
    · rintro ⟨i, hi, hfirst⟩
      rcases Nat.lt_succ_iff_lt_or_eq.1 hi with hi | rfl
      · exact Or.inl ((h.stop?_iff g s).2 ⟨i, hi, hfirst⟩)
      · obtain ⟨hpending, rfl⟩ := (hoffers g s).1 hfirst.1
        rw [if_pos hpending]
        exact Or.inr ⟨h.stop?_eq_none_iff.2 hfirst.2, rfl⟩

/-- A boundary at which no stops are inferred is passed. -/
theorem skip_of_not_infersAt (h : a.Walked elements n chosen) (hidle : ¬ a.InfersAt elements n) :
    a.Walked elements (n + 1) chosen :=
  h.skip (fun _ he => hidle he.infersAt) fun _ _ hs => hidle hs.infers

/-- The choices where followers agree on a stop. -/
theorem step_of_agreed (h : a.Walked elements n chosen) (hinfers : a.InfersAt elements n)
    {stop : InferredStop} (hsource : (a.followersAt elements n).head? = some stop.source)
    (hstarts : ∀ u ∈ a.followersAt elements n, a.StartsWith u stop.char) :
    (∃ chosen', (a.pendingAt elements n).foldlM (a.chooseStop stop) chosen = .ok chosen' ∧
      a.Walked elements (n + 1) chosen') ∨
      ∃ e, (a.pendingAt elements n).foldlM (a.chooseStop stop) chosen = .error e ∧
        a.Faulty elements n e ∧ ∀ e', a.Faulty elements n e' → e.rank ≤ e'.rank := by
  -- only a conflict can be wrong here
  have hconflict : ∀ e, a.Faulty elements n e → Error.rank e = 2 ∧
      ∃ g ∈ a.pendingAt elements n, ∃ p, a.previousStop? chosen g = some p ∧ p.char ≠ stop.char := by
    intro e he
    cases he with
    | cannotInfer _ _ hu hliteral =>
      obtain ⟨text, htext, -⟩ := hstarts _ hu
      rw [hliteral] at htext
      cases htext
    | ambiguous _ _ hu hv hc hd hne =>
      exact absurd ((hc.unique (hstarts _ hu)).trans ((hstarts _ hv).unique hd)) hne
    | conflicting _ hg hu hc hprevious hne =>
      obtain ⟨p, hp, hchar⟩ := h.previousStop?_of_given hprevious
      rw [hc.unique (hstarts _ hu), ← hchar] at hne
      exact ⟨rfl, _, hg, p, hp, hne⟩
  rcases chooseStops_cases a stop (a.pendingAt elements n) chosen with
    ⟨g, hg, p, hp, hne, herror⟩ | ⟨hsame, hok⟩
  · have hmem : stop.source ∈ a.followersAt elements n := List.mem_of_mem_head? hsource
    refine Or.inr ⟨_, herror, .conflicting hinfers hg hmem (hstarts _ hmem)
      (h.given_of_previousStop? hp) hne, fun e' he' => ?_⟩
    rw [(hconflict e' he').1]
    exact Nat.le_refl 2
  · refine Or.inl ⟨_, hok, h.extend (fun e he => ?_) fun g s => ?_⟩
    · obtain ⟨-, g, hg, p, hp, hne⟩ := hconflict e he
      exact hne (hsame g hg p hp)
    · constructor
      · intro hs
        have hsource' : s.source = stop.source := Option.some.inj (hs.source.symm.trans hsource)
        have hchar : s.char = stop.char :=
          (hs.startsWith _ hs.mem_source).unique (hstarts _ hs.mem_source)
        exact ⟨hs.pending, InferredStop.mk.injEq .. ▸ ⟨hchar, hsource'⟩⟩
      · rintro ⟨hg, rfl⟩
        exact ⟨hinfers, hg, hsource, hstarts⟩

/-- One boundary: it is passed, or the error tells what is wrong there. -/
theorem step (h : a.Walked elements n chosen) {x : NodeId} {rest : List NodeId}
    (hboundary : (boundaries elements)[n]? = some (x, rest)) :
    (∃ chosen', a.chooseAtBoundary chosen (x, rest) = .ok chosen' ∧
      a.Walked elements (n + 1) chosen') ∨
      ∃ e, a.chooseAtBoundary chosen (x, rest) = .error e ∧ a.Faulty elements n e ∧
        ∀ e', a.Faulty elements n e' → e.rank ≤ e'.rank := by
  obtain ⟨hx, hrest⟩ := getElem?_boundaries hboundary
  have hpendingAt : a.pendingAt elements n = a.pending x := by rw [pendingAt, hx, Option.elim_some]
  have hfollowersAt : a.followersAt elements n = a.followers rest := by rw [followersAt, hrest]
  have hne : ∀ u ∈ a.followers rest, a.literal? u ≠ some "" := fun u => literal?_ne_of_mem_followers
  unfold chooseAtBoundary
  split
  · -- nothing is pending
    rename_i hpending
    refine Or.inl ⟨chosen, rfl, h.skip_of_not_infersAt fun hinfers => hinfers.pending ?_⟩
    exact hpendingAt.trans hpending
  · rename_i first others hpending
    rw [← hpendingAt] at hpending
    split
    · -- what follows may be empty, so the boundary infers nothing
      rename_i hnullable
      refine Or.inl ⟨chosen, rfl, h.skip_of_not_infersAt fun hinfers => ?_⟩
      obtain ⟨y, hy, hsolid⟩ := hinfers.solid
      rw [hrest] at hy
      rw [List.all_eq_true.1 hnullable y hy] at hsolid
      cases hsolid
    · rename_i hsolid
      have hinfers : a.InfersAt elements n := by
        refine ⟨by rw [hpending]; exact List.cons_ne_nil _ _, ?_⟩
        rw [hrest]
        simpa using hsolid
      have hfirst : first ∈ a.pendingAt elements n := by
        rw [hpending]
        exact List.mem_cons_self ..
      split
      · -- followers do not agree
        rename_i e hagreed
        rw [← hfollowersAt] at hagreed
        exact Or.inr ⟨e, rfl, faulty_of_agreedStop hinfers hfirst hagreed⟩
      · -- nothing follows
        rename_i hagreed
        have hnil := (agreedStop_ok hne hagreed).1 rfl
        rw [← hfollowersAt] at hnil
        refine Or.inl ⟨chosen, rfl, h.skip (fun e he => ?_) fun g s hs => ?_⟩
        · obtain ⟨u, hu⟩ := he.exists_follower
          rw [hnil] at hu
          exact absurd hu List.not_mem_nil
        · have hmem := hs.mem_source
          rw [hnil] at hmem
          exact absurd hmem List.not_mem_nil
      · -- followers agree on a stop
        rename_i stop hagreed
        have hhead := head?_of_agreedStop hne hagreed
        have hstarts := ((agreedStop_ok hne hagreed).2 stop rfl).2
        rw [← hfollowersAt] at hhead hstarts
        rw [← hpending]
        exact h.step_of_agreed hinfers hhead hstarts

/-- The walk from a boundary on: it passes all that are left, or ends with the first fault. -/
theorem run (h : a.Walked elements n chosen) {left : List (NodeId × List NodeId)}
    (hleft : (boundaries elements).drop n = left) :
    (∃ chosen', left.foldlM a.chooseAtBoundary chosen = .ok chosen' ∧
      a.Walked elements (n + left.length) chosen') ∨
      ∃ e, left.foldlM a.chooseAtBoundary chosen = .error e ∧ a.FirstFault elements e := by
  induction left generalizing n chosen with
  | nil => exact Or.inl ⟨chosen, rfl, h⟩
  | cons boundary left ih =>
    -- the boundary at hand is the next one of all the boundaries
    have hboundary : (boundaries elements)[n]? = some boundary := by
      rw [← Nat.add_zero n, ← List.getElem?_drop, hleft, List.getElem?_cons_zero]
    have hdrop : (boundaries elements).drop (n + 1) = left := by
      rw [← List.tail_drop, hleft, List.tail_cons]
    rw [List.foldlM_cons]
    rcases h.step hboundary with ⟨chosen', hok, h'⟩ | ⟨e, herror, hfault, hrank⟩
    · have hlength : n + (boundary :: left).length = n + 1 + left.length := by
        rw [List.length_cons]
        omega
      rw [hok, hlength]
      exact ih h' hdrop
    · rw [herror]
      exact Or.inr ⟨e, rfl, n, hfault, h.faultless, hrank⟩

end Walked

/-- All boundaries: nothing is wrong anywhere, and the choices of a sequence are the first offers,
one for each generation; or the first fault is reported. -/
theorem inferStops_cases (a : Arena) (elements : List NodeId) :
    (∃ chosen, a.inferStops elements = .ok chosen ∧ (∀ i e, ¬ a.Faulty elements i e) ∧
      (chosen.map Prod.fst).Nodup ∧ ∀ g s, (g, s) ∈ chosen ↔ ∃ i, a.FirstOffer elements i g s) ∨
      ∃ e, a.inferStops elements = .error e ∧ a.FirstFault elements e := by
  rcases (walked_zero a elements).run List.drop_zero with ⟨chosen, hok, h⟩ | herror
  · rw [Nat.zero_add] at h
    refine Or.inl ⟨chosen, hok, fun i e he => ?_, h.nodup, fun g s => ?_⟩
    · exact h.faultless i he.infersAt.lt_length e he
    · constructor
      · intro hmem
        obtain ⟨i, -, hfirst⟩ := (h.stop?_iff g s).1 (stop?_of_mem h.nodup hmem)
        exact ⟨i, hfirst⟩
      · rintro ⟨i, hfirst⟩
        exact mem_of_stop? ((h.stop?_iff g s).2 ⟨i, hfirst.1.infers.lt_length, hfirst⟩)
  · exact Or.inr herror

/-- What is chosen when inference succeeds. -/
theorem firstOffers_of_inferStops {chosen : StopAssignment} (h : a.inferStops elements = .ok chosen) :
    (∀ i e, ¬ a.Faulty elements i e) ∧ (chosen.map Prod.fst).Nodup ∧
      ∀ g s, (g, s) ∈ chosen ↔ ∃ i, a.FirstOffer elements i g s := by
  rcases inferStops_cases a elements with ⟨chosen', hok, hchosen⟩ | ⟨e, herror, -⟩
  · obtain rfl := Except.ok.inj (hok.symm.trans h)
    exact hchosen
  · cases herror.symm.trans h

/-- **Inference does what its boundaries say.** It succeeds exactly if at every boundary all that
follows starts with one character, and the boundaries that offer a generation a stop offer it one
character, which is also the one that the generation has been given before. Its result lists every
generation that is offered something, once, with what is offered first. Where it fails, it fails
with what is wrong at the first boundary where something is wrong; there, a follower that is no
literal comes before followers that start differently, and these before a conflict. -/
theorem inferStops_boundary_by_boundary (a : Arena) (elements : List NodeId) :
    ((∃ chosen, a.inferStops elements = .ok chosen) ↔
      (∀ i, a.InfersAt elements i → ∃ c, ∀ u ∈ a.followersAt elements i, a.StartsWith u c) ∧
      (∀ i j g s t, a.Offers elements i g s → a.Offers elements j g t → s.char = t.char) ∧
      ∀ i g s t, a.Offers elements i g s → a.HasInferred g t → t.char = s.char) ∧
    (∀ chosen, a.inferStops elements = .ok chosen → (chosen.map Prod.fst).Nodup ∧
      ∀ g s, (g, s) ∈ chosen ↔ ∃ i, a.FirstOffer elements i g s) ∧
    ∀ e, a.inferStops elements = .error e → a.FirstFault elements e := by
  rw [← forall_not_faulty_iff]
  refine ⟨⟨?_, fun hfaultless => ?_⟩, fun chosen hok => (firstOffers_of_inferStops hok).2,
    fun e herror => ?_⟩
  · rintro ⟨chosen, hok⟩
    exact (firstOffers_of_inferStops hok).1
  · rcases inferStops_cases a elements with ⟨chosen, hok, -⟩ | ⟨e, -, i, hi, -⟩
    · exact ⟨chosen, hok⟩
    · exact absurd hi (hfaultless i e)
  · rcases inferStops_cases a elements with ⟨chosen, hok, -⟩ | ⟨e', herror', hfault⟩
    · cases hok.symm.trans herror
    · obtain rfl := Except.error.inj (herror'.symm.trans herror)
      exact hfault

/-- A generation at two boundaries is given the full stop with which both literals start, and the
literal at the first of them. -/
example : (ofCalls [.generation {}, .literal ".", .literal "..."]).inferStops [0, 1, 0, 2] =
    .ok [(0, ⟨'.', 1⟩)] := by cbv

end Arena

end GuidedGrammar
