import Mathlib
import GuidedGrammar.Proofs.Regex.Outcome

/-!
# Reports of circular regexes

Adding a regex fails only for a reason that can be pointed at: below the regex something is missing,
or something reaches itself, or it was marked by an addition that failed before
(`RegexTable.blames_of_add`). From an empty table there are no marks of earlier additions, so a
check reports a cycle only where there is one (`RegexStore.check_reports_cycles`).

A failed addition leaves marks behind. Whatever it has marked leads to the reason for the failure,
so it is not sound, and no regex that is sound meets it: failures do not keep a table from accepting
what a new one accepts (`RegexTable.addAll_keeps_accepting`).

The marks of the addition at hand lie on the path from its root to the regex being visited: those
regexes are the ones that are still to be finished, and each of them leads to all that is to be done
before that (`RegexTable.Trail`).
-/

namespace GuidedGrammar.RegexTable

variable {store : RegexStore} {stale : RegexId → Prop} {root id : RegexId} {t : RegexTable}
  {tasks rest : List Task} {e : Error}

/-! ### The path to the task at hand -/

/-- Whether the task that comes first is about something below what the other one finishes. -/
def Task.Below (store : RegexStore) (first later : Task) : Prop :=
  ∀ id, later = .finish id → Relation.TransGen store.Leads id first.id

/-- **The tasks of an addition at work.** A mark was there before, which `stale` holds of, or its
regex is to be finished. What is to be finished leads to all that is done before. -/
structure Trail (store : RegexStore) (stale : RegexId → Prop) (root : RegexId) (t : RegexTable)
    (tasks : List Task) : Prop where
  marks : ∀ id, t.isInProgress id = true → stale id ∨ .finish id ∈ tasks
  below : tasks.Pairwise (Task.Below store)
  reaches : ∀ task ∈ tasks, store.Reaches root task.id

/-- What an error is about: a regex that is missing, or that reaches itself or was marked
before. -/
inductive Blames (store : RegexStore) (stale : RegexId → Prop) : Error → RegexId → Prop
  | unknown {p : RegexId} (h : store.size ≤ p) : Blames store stale (unknownRegex p) p
  | circular {p : RegexId} (h : stale p ∨ Relation.TransGen store.Leads p p) :
    Blames store stale (circular store p) p

theorem trail_visit (hstale : ∀ id, t.isInProgress id = true → stale id) (root : RegexId) :
    Trail store stale root t [.visit root] where
  marks id hid := Or.inl (hstale id hid)
  below := List.pairwise_singleton _ _
  reaches task htask := by
    rw [List.mem_singleton.1 htask]
    exact .refl

/-- What is to be finished reaches the regex of the task at hand. -/
theorem Trail.reaches_head {task : Task} (h : Trail store stale root t (task :: rest))
    (hid : Task.finish id ∈ task :: rest) : store.Reaches id task.id := by
  rcases List.mem_cons.1 hid with rfl | hid
  · exact .refl
  · exact ((List.pairwise_cons.1 h.below).1 _ hid id rfl).to_reflTransGen

/-- Finishing a regex takes its mark back. -/
theorem Trail.finish (h : Trail store stale root t (.finish id :: rest)) (entry : Regex Nat) :
    Trail store stale root ((t.intern entry).2.setSlot id (.done (t.intern entry).1)) rest where
  marks p hp := by
    rw [isInProgress_setSlot] at hp
    split at hp
    · cases hp
    · rename_i hne
      simp only [isInProgress, slots_intern] at hp
      refine (h.marks p hp).imp_right fun hmem => ?_
      rcases List.mem_cons.1 hmem with heq | hmem
      · exact absurd (Task.finish.inj heq).symm hne
      · exact hmem
  below := (List.pairwise_cons.1 h.below).2
  reaches task htask := h.reaches task (List.mem_cons_of_mem _ htask)

/-- A regex that needs no visit leaves the other tasks. -/
theorem Trail.skip (h : Trail store stale root t (.visit id :: rest)) :
    Trail store stale root t rest where
  marks p hp := by
    refine (h.marks p hp).imp_right fun hmem => ?_
    exact (List.mem_cons.1 hmem).resolve_left fun heq => nomatch heq
  below := (List.pairwise_cons.1 h.below).2
  reaches task htask := h.reaches task (List.mem_cons_of_mem _ htask)

/-- Visiting a regex marks it, and what it leads to comes next. -/
theorem Trail.visit (h : Trail store stale root t (.visit id :: rest)) (ps : List RegexId)
    (hps : ∀ p ∈ ps, store.Leads id p) :
    Trail store stale root (t.setSlot id .inProgress) (ps.map .visit ++ .finish id :: rest) where
  marks p hp := by
    rw [isInProgress_setSlot] at hp
    split at hp
    · rename_i heq
      rw [← heq]
      exact Or.inr (List.mem_append_right _ (List.mem_cons_self ..))
    · refine (h.marks p hp).imp_right fun hmem => ?_
      -- the task that unmarks `p` is not the visit, so it is still to be done
      have hrest := (List.mem_cons.1 hmem).resolve_left fun heq => nomatch heq
      exact List.mem_append_right _ (List.mem_cons_of_mem _ hrest)
  below := by
    obtain ⟨hhead, hrest⟩ := List.pairwise_cons.1 h.below
    rw [List.pairwise_append, List.pairwise_cons]
    refine ⟨?_, ⟨hhead, hrest⟩, ?_⟩
    · rw [List.pairwise_map]
      exact List.pairwise_of_forall fun _ _ _ heq => nomatch heq
    · intro first hfirst later hlater f hf
      obtain ⟨p, hp, rfl⟩ := List.mem_map.1 hfirst
      rcases List.mem_cons.1 hlater with rfl | hlater
      · -- the regex itself
        obtain rfl := Task.finish.inj hf
        exact .single (hps p hp)
      · -- a regex further up on the path, which leads to this one
        exact (hhead later hlater f hf).tail (hps p hp)
  reaches task htask := by
    have hid : store.Reaches root id := h.reaches _ (List.mem_cons_self ..)
    rcases List.mem_append.1 htask with htask | htask
    · obtain ⟨p, hp, rfl⟩ := List.mem_map.1 htask
      exact hid.tail (hps p hp)
    · rcases List.mem_cons.1 htask with rfl | htask
      · exact hid
      · exact h.reaches task (List.mem_cons_of_mem _ htask)

/-! ### How additions fail -/

/-- How an addition at work ends: without marks of its own, or with an error about something
that the root reaches and that all its marks reach. -/
theorem run_trail (tasks : List Task) (t : RegexTable) (h : Trail store stale root t tasks) :
    ((run store tasks t).1 = .ok () →
        ∀ id, (run store tasks t).2.isInProgress id = true → stale id) ∧
      ∀ e, (run store tasks t).1 = .error e → (∀ what, e ≠ .unreachable what) →
        ∃ p, Blames store stale e p ∧ store.Reaches root p ∧
          ∀ id, (run store tasks t).2.isInProgress id = true → stale id ∨ store.Reaches id p := by
  induction tasks, t using run.induct store with
  | case1 t =>
    rw [run]
    refine ⟨fun _ id hid => ?_, fun e he => (by cases he)⟩
    exact (h.marks id hid).resolve_right List.not_mem_nil
  | case2 t id rest hid =>
    simp only [run, hid]
    refine ⟨fun hok => (by cases hok), fun e he _ => ?_⟩
    obtain rfl := Except.error.inj he
    have hroot : store.Reaches root id := h.reaches _ (List.mem_cons_self ..)
    refine ⟨id, .unknown (Array.getElem?_eq_none_iff.1 hid), hroot, ?_⟩
    exact fun q hq => (h.marks q hq).imp_right h.reaches_head
  | case3 t id rest r hid hentry =>
    simp only [run, hid, hentry]
    refine ⟨fun hok => (by cases hok), fun e he hne => ?_⟩
    exact absurd (Except.error.inj he).symm (hne _)
  | case4 t id rest r hid entry hentry added ih =>
    rw [run_finish hid hentry]
    exact ih (h.finish entry)
  | case5 t id rest hlt i hslot ih =>
    rw [run_visit_done hlt hslot]
    exact ih h.skip
  | case6 t id rest hlt hslot =>
    -- the regex is marked, so it is on the path to itself
    rw [run_visit_inProgress hlt hslot]
    refine ⟨fun hok => (by cases hok), fun e he _ => ?_⟩
    obtain rfl := Except.error.inj he
    have hcycle : stale id ∨ Relation.TransGen store.Leads id id := by
      refine (h.skip.marks id (isInProgress_iff.2 hslot)).imp_right fun hmem => ?_
      exact (List.pairwise_cons.1 h.below).1 _ hmem id rfl
    refine ⟨id, .circular hcycle, h.reaches _ (List.mem_cons_self ..), ?_⟩
    exact fun q hq => (h.marks q hq).imp_right h.reaches_head
  | case7 t id rest hlt hslot parts marked part hpart =>
    -- a part is marked: it is the regex itself, or on the path to it
    rw [run_visit_circular hlt hslot hpart]
    refine ⟨fun hok => (by cases hok), fun e he _ => ?_⟩
    obtain rfl := Except.error.inj he
    have hlead : store.Leads id part :=
      ⟨_, Array.getElem?_eq_getElem hlt, List.mem_reverse.1 (List.mem_of_find?_eq_some hpart)⟩
    have hvisit : Trail store stale root (t.setSlot id .inProgress) (.finish id :: rest) :=
      h.visit [] fun p hp => absurd hp List.not_mem_nil
    have hcycle : stale part ∨ Relation.TransGen store.Leads part part := by
      refine (hvisit.marks part (List.find?_some hpart)).imp_right fun hmem => ?_
      exact Relation.TransGen.tail' (hvisit.reaches_head hmem) hlead
    have hroot : store.Reaches root part := (h.reaches _ (List.mem_cons_self ..)).tail hlead
    refine ⟨part, .circular hcycle, hroot, fun q hq => ?_⟩
    exact (hvisit.marks q hq).imp_right fun hmem => (hvisit.reaches_head hmem).tail hlead
  | case8 t id rest hlt hslot parts marked hpart unvisited ih =>
    rw [run_visit_new hlt hslot hpart]
    refine ih (h.visit _ fun p hp => ?_)
    exact ⟨_, Array.getElem?_eq_getElem hlt, (List.mem_filter.1 hp).1⟩
  | case9 t id rest hlt =>
    rw [run_visit_unknown hlt]
    refine ⟨fun hok => (by cases hok), fun e he _ => ?_⟩
    obtain rfl := Except.error.inj he
    refine ⟨id, .unknown (Nat.not_lt.1 hlt), h.reaches _ (List.mem_cons_self ..), ?_⟩
    exact fun q hq => (h.marks q hq).imp_right h.reaches_head

/-- An addition that fails has failed in its run. -/
theorem run_eq_error_of_add (h : (t.add store root).1 = .error e) :
    (run store [.visit root] t).1 = .error e := by
  have hne := add_ne_unreachable t store root
  unfold add at h hne
  split at h
  · rename_i e' t' hrun
    rw [hrun]
    exact congrArg Except.error (Except.error.inj h)
  · rename_i t' hrun
    simp only [hrun] at hne
    split at h
    · cases h
    · rename_i hnone
      simp only [hnone] at hne
      exact absurd rfl (hne _)

/-- An addition that succeeds has succeeded in its run. -/
theorem run_eq_ok_of_add {i : Nat} (h : (t.add store root).1 = .ok i) :
    (run store [.visit root] t).1 = .ok () := by
  unfold add at h
  split at h
  · cases h
  · rename_i t' hrun
    rw [hrun]

/-- **What a failed addition can be blamed on.** -/
theorem blames_of_add (hstale : ∀ id, t.isInProgress id = true → stale id)
    (h : (t.add store root).1 = .error e) :
    ∃ p, Blames store stale e p ∧ store.Reaches root p ∧
      ∀ id, (t.add store root).2.isInProgress id = true → stale id ∨ store.Reaches id p := by
  rw [add_snd]
  refine (run_trail _ t (trail_visit hstale root)).2 e (run_eq_error_of_add h) fun what he => ?_
  exact add_ne_unreachable t store root what (he ▸ h)

/-- An addition that succeeds leaves no marks. -/
theorem stale_of_add (hstale : ∀ id, t.isInProgress id = true → stale id) {i : Nat}
    (h : (t.add store root).1 = .ok i) :
    ∀ id, (t.add store root).2.isInProgress id = true → stale id := by
  rw [add_snd]
  exact (run_trail _ t (trail_visit hstale root)).1 (run_eq_ok_of_add h)

/-! ### Tables after failures -/

/-- A table that failures have not spoiled: what they have marked is not sound. -/
structure Unspoiled (store : RegexStore) (t : RegexTable) : Prop where
  represents : Represents store (fun _ => True) t
  not_sound : ∀ id, t.isInProgress id = true → ¬ store.Sound id

theorem unspoiled_empty (store : RegexStore) : Unspoiled store ∅ where
  represents := represents_empty store _
  not_sound id hid := by
    rw [(holds_empty store).settled id] at hid
    cases hid

/-- What the table represents it lists. -/
theorem Represents.exists_lists (h : Represents store (fun _ => True) t) :
    ∃ trees, RegexStore.Lists t.entries trees := by
  have htree : ∀ i, i < t.entries.size → ∃ s, RegexStore.Unfolds t.entries i s := by
    intro i hi
    obtain ⟨_, -, s, -, hs⟩ := h.origin i hi
    exact ⟨s, hs⟩
  choose! tree htree using htree
  refine ⟨(List.range t.entries.size).map tree, by simp, fun i s hs => ?_⟩
  rw [List.getElem?_map, Option.map_eq_some_iff] at hs
  obtain ⟨j, hj, rfl⟩ := hs
  obtain ⟨hi, rfl⟩ := List.getElem?_eq_some_iff.1 hj
  rw [List.getElem_range]
  exact htree i (by simpa using hi)

/-- What an unspoiled table accepts: the regexes that are sound. -/
theorem Unspoiled.exists_add_iff_sound (h : Unspoiled store t) (id : RegexId) :
    (∃ i, (t.add store id).1 = .ok i) ↔ store.Sound id := by
  constructor
  · rintro ⟨i, hi⟩
    obtain ⟨tree, htree, -⟩ := sameTree_of_add (fun _ _ _ _ => trivial) trivial h.represents hi
    exact htree.sound
  · intro hsound
    obtain ⟨tree, htree⟩ := hsound.exists_unfolds
    obtain ⟨trees, hlists⟩ := h.represents.exists_lists
    -- nothing below a sound regex is marked
    have hfree : ∀ p, store.Reaches id p → t.isInProgress p = false := by
      intro p hp
      rw [Bool.eq_false_iff]
      exact fun hmark => h.not_sound p hmark (hsound.of_reaches hp)
    obtain ⟨i, t', hadd, -⟩ := exists_add_of_unfolds h.represents hlists hfree htree
    exact ⟨i, by rw [hadd]⟩

/-- What reaches the reason for a failure is not sound. -/
theorem Blames.not_sound {p : RegexId} (h : Blames store (fun id => ¬ store.Sound id) e p)
    (hid : store.Reaches id p) : ¬ store.Sound id := by
  intro hsound
  cases h with
  | unknown hmissing => exact absurd (hsound.lt_size p hid) (Nat.not_lt.2 hmissing)
  | circular hcycle =>
    rcases hcycle with hstale | hcycle
    · exact hstale (hsound.of_reaches hid)
    · exact hsound.acyclic p hid hcycle

/-- An addition does not spoil a table, whether or not it succeeds. -/
theorem Unspoiled.add (h : Unspoiled store t) (root : RegexId) :
    Unspoiled store (t.add store root).2 where
  represents := (represents_add (fun _ _ _ _ => trivial) root trivial h.represents).1
  not_sound := by
    cases hadd : (t.add store root).1 with
    | ok i => exact stale_of_add h.not_sound hadd
    | error e =>
      obtain ⟨p, hblames, -, hmarks⟩ := blames_of_add h.not_sound hadd
      exact fun id hid => (hmarks id hid).elim (fun hstale => hstale) hblames.not_sound

theorem Unspoiled.addAll (h : Unspoiled store t) (roots : List RegexId) :
    Unspoiled store (t.addAll store roots).2 := by
  induction roots generalizing t with
  | nil => exact h
  | cons root roots ih => exact ih (h.add root)

/-- A sound regex is accepted wherever it is added. -/
theorem Unspoiled.exists_mem_addAll (h : Unspoiled store t) (hid : store.Sound id)
    {roots : List RegexId} (hmem : id ∈ roots) : ∃ i, (id, .ok i) ∈ (t.addAll store roots).1 := by
  induction roots generalizing t with
  | nil => exact absurd hmem List.not_mem_nil
  | cons root roots ih =>
    rcases List.mem_cons.1 hmem with rfl | hmem
    · obtain ⟨i, hi⟩ := (h.exists_add_iff_sound id).2 hid
      refine ⟨i, ?_⟩
      rw [← hi]
      exact List.mem_cons_self ..
    · obtain ⟨i, hi⟩ := ih (h.add root) hmem
      exact ⟨i, List.mem_cons_of_mem _ hi⟩

/-- **Failures do not keep a table from accepting anything.** Whatever has been added before to an
empty table, and with whatever failures, a regex is accepted if and only if it is sound, and so if
and only if an empty table accepts it. What was accepted before keeps its position, and so do all
entries. -/
theorem addAll_keeps_accepting (store : RegexStore) (roots : List RegexId) (root : RegexId) :
    ((∃ i, (((∅ : RegexTable).addAll store roots).2.add store root).1 = .ok i) ↔
      store.Sound root) ∧
    ((∃ i, (((∅ : RegexTable).addAll store roots).2.add store root).1 = .ok i) ↔
      ∃ i, ((∅ : RegexTable).add store root).1 = .ok i) ∧
    (∀ i, (root, .ok i) ∈ ((∅ : RegexTable).addAll store roots).1 →
      (((∅ : RegexTable).addAll store roots).2.add store root).1 = .ok i) ∧
    RegexStore.Extends ((∅ : RegexTable).addAll store roots).2.entries
      (((∅ : RegexTable).addAll store roots).2.add store root).2.entries := by
  have hempty := unspoiled_empty store
  have hall := hempty.addAll roots
  obtain ⟨hrep, hext⟩ :=
    represents_add (fun _ _ _ _ => trivial) root trivial hall.represents
  have hsound := hall.exists_add_iff_sound root
  refine ⟨hsound, hsound.trans (hempty.exists_add_iff_sound root).symm, fun i hi => ?_, hext⟩
  obtain ⟨-, -, hsame⟩ := represents_addAll roots hempty.represents
  obtain ⟨tree, htree, hentry⟩ := hsame root i hi
  obtain ⟨j, hj⟩ := hsound.2 htree.sound
  -- both positions are that of the tree of the regex
  obtain ⟨tree', htree', hentry'⟩ :=
    sameTree_of_add (fun _ _ _ _ => trivial) trivial hall.represents hj
  rw [← htree.unique htree'] at hentry'
  rw [hj, hentry'.place_unique hrep.position_unique (hentry.mono hext)]

/-- The first regex lacks a part and leaves its mark, on which the third one fails; the others are
accepted and keep their positions. -/
theorem addAll_keeps_accepting_beside_missing_part :
    let store : RegexStore :=
      #[.concatenation [1, 5], .literal "a", .union [1, 0], .union [1, 1]]
    let t := (∅ : RegexTable).addAll store [0, 2, 3, 1]
    t.1 = [(0, .error (unknownRegex 5)), (2, .error (circular store 0)), (3, .ok 1), (1, .ok 0)] ∧
      (t.2.add store 3).1 = .ok 1 ∧ ¬ ∃ i, (t.2.add store 2).1 = .ok i := by
  intro store t
  have ht : t.1 =
      [(0, .error (unknownRegex 5)), (2, .error (circular store 0)), (3, .ok 1), (1, .ok 0)] := by
    cbv
  have hmem : (3, .ok 1) ∈ t.1 := by
    rw [ht]
    simp
  -- the second root refers to the first, whose second part does not exist
  have hmissing : ¬ store.Sound 2 := by
    intro hsound
    have hreaches : store.Reaches 2 5 := by
      have hfirst : store.Leads 2 0 := ⟨.union [1, 0], rfl, by simp [Regex.parts]⟩
      have hlast : store.Leads 0 5 := ⟨.concatenation [1, 5], rfl, by simp [Regex.parts]⟩
      exact (Relation.ReflTransGen.single hfirst).tail hlast
    exact absurd (hsound.lt_size 5 hreaches) (by decide)
  obtain ⟨-, -, hkeeps, -⟩ := addAll_keeps_accepting store [0, 2, 3, 1] 3
  obtain ⟨hsound, -⟩ := addAll_keeps_accepting store [0, 2, 3, 1] 2
  exact ⟨ht, hkeeps 1 hmem, fun h => hmissing (hsound.1 h)⟩

end GuidedGrammar.RegexTable

namespace GuidedGrammar.RegexStore

/-- A check fails as an addition to an empty table does. -/
theorem add_eq_error_of_check {store : RegexStore} {id : RegexId} {e : Error}
    (h : store.check id = .error e) : ((∅ : RegexTable).add store id).1 = .error e := by
  unfold check at h
  cases hadd : (RegexTable.empty.add store id).1 with
  | ok i =>
    rw [hadd] at h
    cases h
  | error e' =>
    rw [hadd] at h
    exact congrArg Except.error (Except.error.inj h)

theorem check_eq_ok_iff {store : RegexStore} {id : RegexId} :
    store.check id = .ok () ↔ store.Sound id := by
  rw [← (RegexTable.holds_empty store).exists_add_iff_sound]
  show (RegexTable.empty.add store id).1.map _ = _ ↔ ∃ i, (RegexTable.empty.add store id).1 = .ok i
  cases (RegexTable.empty.add store id).1 with
  | ok i => exact iff_of_true rfl ⟨i, rfl⟩
  | error e => exact iff_of_false (fun h => nomatch h) fun ⟨_, h⟩ => nomatch h

/-- **Checks are exact.** A check accepts the regexes that are sound. It reports a cycle only for a
regex that is below the one that is checked and reaches itself, whatever is shared or repeated, and
names the regex that is missing only if it is below and missing; it never fails otherwise. -/
theorem check_reports_cycles (store : RegexStore) (id : RegexId) :
    (store.check id = .ok () ↔ store.Sound id) ∧
    (∀ shown, store.check id = .error (.circularRegex shown) →
      store.Reaches id shown.id ∧ Relation.TransGen store.Leads shown.id shown.id ∧
        shown.text = Regex.render store shown.id) ∧
    (∀ operation fault, store.check id = .error (.malformed operation fault) →
      ∃ p, operation = .regex ∧ fault = .unknownRegex p ∧ store.Reaches id p ∧ store.size ≤ p) ∧
    ∀ e, store.check id = .error e →
      (∃ shown, e = .circularRegex shown) ∨ ∃ operation fault, e = .malformed operation fault := by
  have hblames : ∀ e, store.check id = .error e →
      ∃ p, RegexTable.Blames store (fun _ => False) e p ∧ store.Reaches id p := by
    intro e he
    -- the table begins empty, so an entry in progress was met on the way here
    have hfresh : ∀ p, (∅ : RegexTable).isInProgress p = true → False := by
      intro p hp
      rw [(RegexTable.holds_empty store).settled p] at hp
      cases hp
    obtain ⟨p, hp, hreaches, -⟩ := RegexTable.blames_of_add hfresh (add_eq_error_of_check he)
    exact ⟨p, hp, hreaches⟩
  refine ⟨check_eq_ok_iff, fun shown h => ?_, fun operation fault h => ?_, fun e h => ?_⟩
  · obtain ⟨p, hp, hreaches⟩ := hblames _ h
    cases hp with
    | circular hcycle => exact ⟨hreaches, hcycle.resolve_left fun h => h, rfl⟩
  · obtain ⟨p, hp, hreaches⟩ := hblames _ h
    cases hp with
    | unknown hmissing => exact ⟨p, rfl, rfl, hreaches, hmissing⟩
  · obtain ⟨p, hp, -⟩ := hblames e h
    cases hp with
    | unknown => exact Or.inr ⟨_, _, rfl⟩
    | circular => exact Or.inl ⟨_, rfl⟩

end GuidedGrammar.RegexStore
