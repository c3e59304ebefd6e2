import GuidedGrammar.Proofs.Regex.Listing

/-!
# What a table accepts

A regex can be added to a table in which nothing is in progress if and only if it is sound
(`RegexTable.Holds.exists_add_iff_sound`). Whatever a table holds, adding never ends in a state that
cannot arise (`RegexTable.add_ne_unreachable`): tasks stay in an order in which the parts of a regex
are finished before the regex is (`RegexTable.run_outcome`).
-/

namespace GuidedGrammar.RegexTable

variable {store : RegexStore} {t t' : RegexTable} {trees : List Regex.Tree}

/-! ### Tasks in order -/

/-- What is finished, or will be by the tasks before. -/
def Awaited (t : RegexTable) (before : List RegexId) (p : RegexId) : Prop :=
  (t.entry? p).isSome = true ∨ p ∈ before

/-- Tasks in an order that can be carried out: when a regex is to be finished, its parts are.
The tasks on `before` come before all others. -/
def Ordered (store : RegexStore) (t : RegexTable) (before : List RegexId) : List Task → Prop
  | [] => True
  | .visit id :: rest => Ordered store t (id :: before) rest
  | .finish id :: rest =>
    (∀ p, store.Leads id p → Awaited t before p) ∧ Ordered store t (id :: before) rest

theorem Awaited.cons {before before' : List RegexId}
    (h : ∀ p, Awaited t before p → Awaited t' before' p) (id p : RegexId)
    (hp : Awaited t (id :: before) p) : Awaited t' (id :: before') p := by
  rcases hp with hdone | hmem
  · exact (h p (Or.inl hdone)).imp_right (List.mem_cons_of_mem _)
  · rcases List.mem_cons.1 hmem with rfl | hmem
    · exact Or.inr (List.mem_cons_self ..)
    · exact (h p (Or.inr hmem)).imp_right (List.mem_cons_of_mem _)

theorem Ordered.mono {before before' : List RegexId} {tasks : List Task}
    (h : ∀ p, Awaited t before p → Awaited t' before' p) (htasks : Ordered store t before tasks) :
    Ordered store t' before' tasks := by
  induction tasks generalizing before before' with
  | nil => trivial
  | cons task rest ih =>
    cases task with
    | visit id => exact ih (Awaited.cons h id) htasks
    | finish id => exact ⟨fun p hp => h p (htasks.1 p hp), ih (Awaited.cons h id) htasks.2⟩

theorem ordered_visits {before ps : List RegexId} {rest : List Task}
    (h : Ordered store t (ps.reverse ++ before) rest) :
    Ordered store t before (ps.map .visit ++ rest) := by
  induction ps generalizing before with
  | nil => exact h
  | cons p ps ih =>
    apply ih
    rwa [List.reverse_cons, List.append_assoc] at h

/-- A regex that has no slot is not finished, so marking it leaves all that is. -/
theorem Awaited.mark {id : RegexId} (hslot : t.slots[id]? = none) {before : List RegexId}
    {p : RegexId} (hp : Awaited t before p) : Awaited (t.setSlot id .inProgress) before p := by
  refine hp.imp_left fun hdone => ?_
  obtain ⟨i, hi⟩ := Option.isSome_iff_exists.1 hdone
  have hne : id ≠ p := by
    rintro rfl
    rw [entry?_eq_some_iff, hslot] at hi
    cases hi
  rw [entry?_setSlot_inProgress, if_neg hne]
  exact hdone

/-- What is finished by the task at hand need not be awaited any more. -/
theorem Awaited.of_done {id : RegexId} {i : Nat} (hslot : t.slots[id]? = some (.done i))
    {before : List RegexId} {p : RegexId} (hp : Awaited t (id :: before) p) :
    Awaited t before p := by
  rcases hp with hdone | hmem
  · exact Or.inl hdone
  · rcases List.mem_cons.1 hmem with rfl | hmem
    · refine Or.inl ?_
      rw [entry?_eq_some_iff.2 hslot]
      rfl
    · exact Or.inr hmem

theorem Awaited.finish (entry : Regex Nat) {id : RegexId} {before : List RegexId} {p : RegexId}
    (hp : Awaited t (id :: before) p) :
    Awaited ((t.intern entry).2.setSlot id (.done (t.intern entry).1)) before p := by
  rw [Awaited, entry?_setSlot_done]
  by_cases hne : id = p
  · rw [if_pos hne]
    exact Or.inl rfl
  · rw [if_neg hne]
    refine hp.imp (fun hdone => ?_) fun hmem => (List.mem_cons.1 hmem).resolve_left (Ne.symm hne)
    simpa only [slots_intern, entry?] using hdone

/-- The parts of a regex none of which is in progress are finished or still to be visited. -/
theorem awaited_of_unvisited {ps : List RegexId}
    (hfree : ps.reverse.find? t.isInProgress = none) {p : RegexId} (hp : p ∈ ps) :
    Awaited t (ps.filter fun p => !t.slots.contains p).reverse p := by
  -- a part has no slot and is pending, or it is done; it is not in progress
  cases hslot : t.slots[p]? with
  | none =>
    refine Or.inr (List.mem_reverse.2 (List.mem_filter.2 ⟨hp, ?_⟩))
    rw [Std.TreeMap.contains_eq_isSome_getElem?, hslot]
    rfl
  | some slot =>
    cases slot with
    | done i =>
      refine Or.inl ?_
      rw [entry?_eq_some_iff.2 hslot]
      rfl
    | inProgress =>
      have hnot := List.find?_eq_none.1 hfree p (List.mem_reverse.2 hp)
      exact absurd (isInProgress_iff.2 hslot) hnot

/-! ### Outcomes -/

/-- **How a run ends**: never in a state that cannot arise, and if it succeeds, with everything
finished that was to be. -/
theorem run_outcome (tasks : List Task) (t : RegexTable) (htasks : Ordered store t [] tasks) :
    (∀ what, (run store tasks t).1 ≠ .error (.unreachable what)) ∧
      ((run store tasks t).1 = .ok () → ∀ p, Awaited t (tasks.map Task.id) p →
        Awaited (run store tasks t).2 [] p) := by
  induction tasks, t using run.induct store with
  | case1 t =>
    rw [run]
    exact ⟨fun _ h => (by cases h), fun _ _ hp => hp⟩
  | case2 t id rest hid =>
    simp only [run, hid]
    exact ⟨fun _ h => (by cases h), fun h => (by cases h)⟩
  | case3 t id rest r hid hentry =>
    -- the parts are finished, so the regex has an entry
    have hparts : ∀ p ∈ r.parts, (t.entry? p).isSome = true := fun p hp =>
      (htasks.1 p ⟨r, hid, hp⟩).resolve_right List.not_mem_nil
    obtain ⟨entry, hsome⟩ := Regex.exists_mapParts? hparts
    rw [hentry] at hsome
    cases hsome
  | case4 t id rest r hid entry hentry added ih =>
    obtain ⟨hne, hok⟩ := ih (htasks.2.mono fun _ hp => hp.finish entry)
    rw [run_finish hid hentry]
    exact ⟨hne, fun h p hp => hok h p (hp.finish entry)⟩
  | case5 t id rest hlt i hslot ih =>
    obtain ⟨hne, hok⟩ := ih (Ordered.mono (fun _ hp => hp.of_done hslot) htasks)
    rw [run_visit_done hlt hslot]
    exact ⟨hne, fun h p hp => hok h p (hp.of_done hslot)⟩
  | case6 t id rest hlt hslot =>
    rw [run_visit_inProgress hlt hslot]
    exact ⟨fun _ h => (by cases h), fun h => (by cases h)⟩
  | case7 t id rest hlt hslot parts marked part hpart =>
    rw [run_visit_circular hlt hslot hpart]
    exact ⟨fun _ h => (by cases h), fun h => (by cases h)⟩
  | case8 t id rest hlt hslot parts marked hpart unvisited ih =>
    -- the parts are visited first, and then the regex is finished
    have hget : store[id]? = some store[id] := Array.getElem?_eq_getElem hlt
    have hfinish : ∀ p, store.Leads id p → Awaited marked (unvisited.reverse ++ []) p := by
      rintro p ⟨r, hr, hp⟩
      obtain rfl := Option.some.inj (hget.symm.trans hr)
      rw [List.append_nil]
      exact awaited_of_unvisited hpart hp
    have hrest : Ordered store marked (id :: (unvisited.reverse ++ [])) rest := by
      refine Ordered.mono (fun p hp => ?_) htasks
      refine (hp.mark hslot).imp_right fun hmem => ?_
      rw [List.mem_singleton.1 hmem]
      exact List.mem_cons_self ..
    obtain ⟨hne, hok⟩ := ih (ordered_visits ⟨hfinish, hrest⟩)
    rw [run_visit_new hlt hslot hpart]
    refine ⟨hne, fun h p hp => hok h p ((hp.mark hslot).imp_right fun hmem => ?_)⟩
    rw [List.map_append]
    exact List.mem_append_right _ hmem
  | case9 t id rest hlt =>
    rw [run_visit_unknown hlt]
    exact ⟨fun _ h => (by cases h), fun h => (by cases h)⟩

/-- **Adding a regex never ends in a state that cannot arise**, whatever the table holds. -/
theorem add_ne_unreachable (t : RegexTable) (store : RegexStore) (root : RegexId) (what : String) :
    (t.add store root).1 ≠ .error (.unreachable what) := by
  have hordered : Ordered store t [] [.visit root] := trivial
  obtain ⟨hne, hok⟩ := run_outcome [.visit root] t hordered
  unfold add
  split
  · rename_i e t' hrun
    rw [hrun] at hne
    exact fun h => hne what (congrArg Except.error (Except.error.inj h))
  · rename_i t' hrun
    rw [hrun] at hok
    have hroot := hok rfl root (Or.inr (List.mem_singleton_self root))
    obtain ⟨i, hi⟩ := Option.isSome_iff_exists.1 (hroot.resolve_right List.not_mem_nil)
    simp only [hi]
    exact fun h => nomatch h

/-- **What can be added** where nothing is in progress: the regexes that are sound. -/
theorem Holds.exists_add_iff_sound {id : RegexId} (h : Holds store t trees) :
    (∃ i, (t.add store id).1 = .ok i) ↔ store.Sound id := by
  rw [RegexStore.sound_iff_exists_unfolds]
  constructor
  · rintro ⟨i, hi⟩
    obtain ⟨tree, htree, -⟩ := sameTree_of_add (fun _ _ _ _ => trivial) trivial h.represents hi
    exact ⟨tree, htree⟩
  · rintro ⟨tree, htree⟩
    obtain ⟨i, t', hadd, -⟩ := h.add htree
    exact ⟨i, by rw [hadd]⟩

end GuidedGrammar.RegexTable
