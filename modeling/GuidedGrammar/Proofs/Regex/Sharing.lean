import Mathlib
import GuidedGrammar.Proofs.Regex.Tree
import GuidedGrammar.Regex.Table

/-!
# Tables share by structure

A table gives equal entries to regexes of equal structure and different entries to all others,
whatever has been added to it before and whether or not that succeeded (`addAll_shares_exactly`).
An entry stands for the tree of the regexes that were given it, and a table to which one regex has
been added lists the subtrees of that regex's tree, each once.

The invariant is `Represents`: positions and entries are inverse to each other, a finished regex
has the tree of its entry, and every entry has the tree of some regex that was visited. One
step of adding keeps it (`represents_finish`, `represents_setSlot_inProgress`), hence so does every
run, up to an error as well (`represents_run`).
-/

namespace GuidedGrammar

/-- A regex leads to its parts. -/
def RegexStore.Leads (store : RegexStore) (id p : RegexId) : Prop :=
  ∃ r, store[id]? = some r ∧ p ∈ r.parts

/-- What a regex leads to unfolds to a subtree of its tree. -/
theorem RegexStore.Unfolds.exists_subtree {store : RegexStore} {root id : RegexId}
    {t : Regex.Tree} (h : store.Unfolds root t)
    (hid : Relation.ReflTransGen store.Leads root id) :
    ∃ s, s.Subtree t ∧ store.Unfolds id s := by
  induction hid with
  | refl => exact ⟨t, .refl t, h⟩
  | tail _ hlead ih =>
    obtain ⟨s, hs, hunfolds⟩ := ih
    obtain ⟨r, hr, hp⟩ := hlead
    obtain ⟨root', s', rfl, hmem, hs'⟩ := hunfolds.exists_part hr hp
    exact ⟨s', hs.step hmem, hs'⟩

namespace RegexTable

variable {store : RegexStore} {visited : RegexId → Prop} {t : RegexTable}

/-- **What a table says about the regexes of a store.** The regexes that `visited` holds of are
those that may have been met. -/
structure Represents (store : RegexStore) (visited : RegexId → Prop) (t : RegexTable) : Prop where
  /-- Every entry has its position, and nothing else has one. -/
  positions_iff : ∀ (entry : Regex Nat) (i : Nat),
    t.positions[entry]? = some i ↔ t.entries[i]? = some entry
  /-- A finished regex has the tree of its entry. -/
  sameTree : ∀ (id : RegexId) (i : Nat), t.entry? id = some i → store.SameTree id t.entries i
  /-- Every entry has the tree of a regex that was met. -/
  origin : ∀ i < t.entries.size, ∃ id, visited id ∧ store.SameTree id t.entries i

/-- No entry is listed twice. -/
theorem Represents.position_unique (h : Represents store visited t) (i j : Nat)
    (entry : Regex Nat) (hi : t.entries[i]? = some entry) (hj : t.entries[j]? = some entry) :
    i = j :=
  Option.some.inj (((h.positions_iff entry i).2 hi).symm.trans ((h.positions_iff entry j).2 hj))

theorem represents_empty (store : RegexStore) (visited : RegexId → Prop) :
    Represents store visited ∅ where
  positions_iff entry i := by
    refine iff_of_false (fun h => ?_) (fun h => ?_)
    · exact Option.some_ne_none _ (h.symm.trans Std.TreeMap.getElem?_emptyc)
    · exact Option.some_ne_none _ (h.symm.trans Array.getElem?_empty)
  sameTree id i h := by
    have hslot : (∅ : RegexTable).slots[id]? = none := Std.TreeMap.getElem?_emptyc
    rw [RegexTable.entry?, hslot] at h
    cases h
  origin i hi := absurd hi (Nat.not_lt_zero i)

/-! ### Single steps -/

theorem entry?_setSlot_done (t : RegexTable) (id : RegexId) (i : Nat) (id' : RegexId) :
    entry? (t.setSlot id (.done i)) id' = if id = id' then some i else t.entry? id' := by
  simp only [setSlot, entry?, Std.TreeMap.getElem?_insert, Std.LawfulEqCmp.compare_eq_iff_eq]
  by_cases h : id = id'
  · simp only [if_pos h]
  · simp only [if_neg h]

theorem entry?_setSlot_inProgress (t : RegexTable) (id id' : RegexId) :
    entry? (t.setSlot id .inProgress) id' = if id = id' then none else t.entry? id' := by
  simp only [setSlot, entry?, Std.TreeMap.getElem?_insert, Std.LawfulEqCmp.compare_eq_iff_eq]
  by_cases h : id = id'
  · simp only [if_pos h]
  · simp only [if_neg h]

/-- Marking a regex leaves all that a table says. -/
theorem represents_setSlot_inProgress (h : Represents store visited t) (id : RegexId) :
    Represents store visited (t.setSlot id .inProgress) where
  positions_iff := h.positions_iff
  sameTree id' i hi := by
    rw [entry?_setSlot_inProgress] at hi
    split at hi
    · cases hi
    · exact h.sameTree id' i hi
  origin := h.origin

/-- Interning adds at most one entry, behind all others. -/
theorem extends_intern (t : RegexTable) (entry : Regex Nat) :
    RegexStore.Extends t.entries (t.intern entry).2.entries := by
  unfold intern
  split
  · exact RegexStore.Extends.refl _
  · exact RegexStore.Extends.push _ _

/-- What interning does: the entry has the position that is returned, and only a new entry is
added. -/
theorem intern_spec (hpos : ∀ (entry : Regex Nat) (i : Nat),
      t.positions[entry]? = some i ↔ t.entries[i]? = some entry) (entry : Regex Nat) :
    (∀ (entry' : Regex Nat) (i : Nat), (t.intern entry).2.positions[entry']? = some i ↔
      (t.intern entry).2.entries[i]? = some entry') ∧
    (t.intern entry).2.entries[(t.intern entry).1]? = some entry ∧
    ∀ i < (t.intern entry).2.entries.size, i < t.entries.size ∨ i = (t.intern entry).1 := by
  unfold intern
  split
  · rename_i i hi
    exact ⟨hpos, (hpos entry i).1 hi, fun j hj => Or.inl hj⟩
  · rename_i hnone
    -- an entry without a position is not listed
    have hnew : ∀ j : Nat, t.entries[j]? ≠ some entry := by
      intro j hj
      exact Option.some_ne_none _ (((hpos entry j).2 hj).symm.trans hnone)
    refine ⟨fun entry' j => ?_, Array.getElem?_push_size, fun j hj => ?_⟩
    · simp only [Std.TreeMap.getElem?_insert, Std.LawfulEqCmp.compare_eq_iff_eq,
        Array.getElem?_push]
      by_cases he : entry = entry'
      · subst he
        rw [if_pos rfl, Option.some.injEq]
        constructor
        · rintro rfl
          rw [if_pos rfl]
        · intro hj
          by_contra hne
          rw [if_neg (Ne.symm hne)] at hj
          exact hnew j hj
      · rw [if_neg he, hpos]
        by_cases hj : j = t.entries.size
        · rw [if_pos hj, hj]
          refine iff_of_false (fun h => ?_) (fun h => he (Option.some.inj h))
          exact Nat.lt_irrefl _ (Array.getElem?_eq_some_iff.1 h).1
        · rw [if_neg hj]
    · rw [Array.size_push] at hj
      exact Nat.lt_or_eq_of_le (Nat.le_of_lt_succ hj)

/-- **Finishing a regex whose parts are finished** keeps what a table says. -/
theorem represents_finish (h : Represents store visited t) {id : RegexId} {r : Regex RegexId}
    {entry : Regex Nat} (hvisited : visited id) (hid : store[id]? = some r)
    (hentry : r.mapParts? t.entry? = some entry) :
    Represents store visited ((t.intern entry).2.setSlot id (.done (t.intern entry).1)) := by
  obtain ⟨hpos, hat, hold⟩ := intern_spec h.positions_iff entry
  have hext := extends_intern t entry
  -- the entry has the tree of the regex, whether it was added now or was there
  have hnew : store.SameTree id (t.intern entry).2.entries (t.intern entry).1 :=
    RegexStore.SameTree.of_parts hid hat hentry fun p q hq => (h.sameTree p q hq).mono hext
  refine ⟨hpos, fun id' i hi => ?_, fun i hi => ?_⟩
  · rw [entry?_setSlot_done] at hi
    split at hi
    · rename_i heq
      rw [← heq, ← Option.some.inj hi]
      exact hnew
    · have hentry? : t.entry? id' = some i := by
        simpa only [setSlot, slots_intern, entry?] using hi
      exact (h.sameTree id' i hentry?).mono hext
  · rcases hold i hi with hlt | rfl
    · obtain ⟨id', hid', hsame⟩ := h.origin i hlt
      exact ⟨id', hid', hsame.mono hext⟩
    · exact ⟨id, hvisited, hnew⟩

/-! ### Runs -/

/-- The regex that a task is about. -/
def Task.id : Task → RegexId
  | visit id => id
  | finish id => id

/-! The equations of a run, one for each way in which a task can go. -/

theorem run_finish {id : RegexId} {rest : List Task} {r : Regex RegexId} {entry : Regex Nat}
    (hid : store[id]? = some r) (hentry : r.mapParts? t.entry? = some entry) :
    run store (.finish id :: rest) t =
      run store rest ((t.intern entry).2.setSlot id (.done (t.intern entry).1)) := by
  simp only [run, hid, hentry]

theorem run_visit_done {id : RegexId} {rest : List Task} {i : Nat} (hid : id < store.size)
    (hslot : t.slots[id]? = some (.done i)) :
    run store (.visit id :: rest) t = run store rest t := by
  rw [run, dif_pos hid]
  split <;> simp_all only [Option.some.injEq, reduceCtorEq]

theorem run_visit_inProgress {id : RegexId} {rest : List Task} (hid : id < store.size)
    (hslot : t.slots[id]? = some .inProgress) :
    run store (.visit id :: rest) t = (.error (circular store id), t) := by
  rw [run, dif_pos hid]
  split <;> simp_all only [Option.some.injEq, reduceCtorEq]

theorem run_visit_circular {id part : RegexId} {rest : List Task} (hid : id < store.size)
    (hslot : t.slots[id]? = none)
    (hpart : store[id].parts.reverse.find? (t.setSlot id .inProgress).isInProgress = some part) :
    run store (.visit id :: rest) t =
      (.error (circular store part), t.setSlot id .inProgress) := by
  rw [run, dif_pos hid]
  split
  · simp_all only [reduceCtorEq]
  · simp_all only [reduceCtorEq]
  · simp only [hpart]

theorem run_visit_new {id : RegexId} {rest : List Task} (hid : id < store.size)
    (hslot : t.slots[id]? = none)
    (hpart : store[id].parts.reverse.find? (t.setSlot id .inProgress).isInProgress = none) :
    run store (.visit id :: rest) t =
      run store ((store[id].parts.filter fun part =>
          !(t.setSlot id .inProgress).slots.contains part).map .visit ++ .finish id :: rest)
        (t.setSlot id .inProgress) := by
  rw [run, dif_pos hid]
  split
  · simp_all only [reduceCtorEq]
  · simp_all only [reduceCtorEq]
  · simp only [hpart]

theorem run_visit_unknown {id : RegexId} {rest : List Task} (hid : ¬ id < store.size) :
    run store (.visit id :: rest) t = (.error (unknownRegex id), t) := by
  rw [run, dif_neg hid]

/-- What each step keeps a run keeps, whether or not it succeeds: what marking a regex keeps,
and finishing one. -/
theorem run_invariant {I : RegexTable → Prop}
    (hclosed : ∀ id p, visited id → store.Leads id p → visited p)
    (hmark : ∀ t id, I t → I (t.setSlot id .inProgress))
    (hfinish : ∀ (t : RegexTable) (id : RegexId) (r : Regex RegexId) (entry : Regex Nat), I t →
      visited id → store[id]? = some r → r.mapParts? t.entry? = some entry →
      I ((t.intern entry).2.setSlot id (.done (t.intern entry).1)))
    (tasks : List Task) (t : RegexTable) (htasks : ∀ task ∈ tasks, visited task.id) (h : I t) :
    I (run store tasks t).2 := by
  induction tasks, t using run.induct store with
  | case1 t =>
    rw [run]
    exact h
  | case2 t id rest hid =>
    simp only [run, hid]
    exact h
  | case3 t id rest r hid hentry =>
    simp only [run, hid, hentry]
    exact h
  | case4 t id rest r hid entry hentry added ih =>
    -- a regex is finished: the table gets its entry
    have hvisited : visited id := htasks _ (List.mem_cons_self ..)
    have hrest : ∀ task ∈ rest, visited task.id :=
      fun task htask => htasks task (List.mem_cons_of_mem _ htask)
    rw [run_finish hid hentry]
    exact ih hrest (hfinish t id r entry h hvisited hid hentry)
  | case5 t id rest hlt entry hslot ih =>
    rw [run_visit_done hlt hslot]
    exact ih (fun task htask => htasks task (List.mem_cons_of_mem _ htask)) h
  | case6 t id rest hlt hslot =>
    rw [run_visit_inProgress hlt hslot]
    exact h
  | case7 t id rest hlt hslot parts marked part hpart =>
    rw [run_visit_circular hlt hslot hpart]
    exact hmark t id h
  | case8 t id rest hlt hslot parts marked hpart unvisited ih =>
    -- a regex is visited: its parts become tasks
    have htasks' : ∀ task ∈ unvisited.map Task.visit ++ Task.finish id :: rest,
        visited task.id := by
      intro task htask
      have hid : visited id := htasks _ (List.mem_cons_self ..)
      rcases List.mem_append.1 htask with hnew | hold
      · obtain ⟨p, hp, rfl⟩ := List.mem_map.1 hnew
        exact hclosed id p hid
          ⟨store[id], Array.getElem?_eq_getElem hlt, (List.mem_filter.1 hp).1⟩
      · rcases List.mem_cons.1 hold with rfl | hold
        · exact hid
        · exact htasks task (List.mem_cons_of_mem _ hold)
    rw [run_visit_new hlt hslot hpart]
    exact ih htasks' (hmark t id h)
  | case9 t id rest hlt =>
    rw [run_visit_unknown hlt]
    exact h

/-- **A run keeps what a table says**, whether or not it succeeds, and keeps all entries. -/
theorem represents_run (hclosed : ∀ id p, visited id → store.Leads id p → visited p)
    (tasks : List Task) (t : RegexTable) (htasks : ∀ task ∈ tasks, visited task.id)
    (h : Represents store visited t) :
    Represents store visited (run store tasks t).2 ∧
      RegexStore.Extends t.entries (run store tasks t).2.entries := by
  refine run_invariant (I := fun t' => Represents store visited t' ∧
    RegexStore.Extends t.entries t'.entries) hclosed ?_ ?_ tasks t htasks
    ⟨h, RegexStore.Extends.refl _⟩
  · rintro t' id ⟨hrep, hext⟩
    exact ⟨represents_setSlot_inProgress hrep id, hext⟩
  · rintro t' id r entry ⟨hrep, hext⟩ hvisited hid hentry
    exact ⟨represents_finish hrep hvisited hid hentry, hext.trans (extends_intern t' entry)⟩

/-! ### Additions -/

/-- Adding a regex runs the task of visiting it. -/
theorem add_snd (t : RegexTable) (store : RegexStore) (root : RegexId) :
    (t.add store root).2 = (run store [.visit root] t).2 := by
  unfold add
  split <;> rename_i heq <;> rw [heq]
  split <;> rfl

/-- The position that is returned is that of the regex that was added. -/
theorem entry?_of_add {root : RegexId} {i : Nat} (h : (t.add store root).1 = .ok i) :
    entry? (t.add store root).2 root = some i := by
  rw [add_snd]
  unfold add at h
  split at h
  · cases h
  · rename_i t' heq
    rw [heq]
    split at h
    · rename_i j hj
      rw [hj]
      exact congrArg some (Except.ok.inj h)
    · cases h

/-- Adding a regex keeps what a table says, whether or not it succeeds. -/
theorem represents_add (hclosed : ∀ id p, visited id → store.Leads id p → visited p)
    (root : RegexId) (hroot : visited root) (h : Represents store visited t) :
    Represents store visited (t.add store root).2 ∧
      RegexStore.Extends t.entries (t.add store root).2.entries := by
  rw [add_snd]
  exact represents_run hclosed [.visit root] t
    (fun task htask => List.mem_singleton.1 htask ▸ hroot) h

/-- A regex that was added has the tree of its entry. -/
theorem sameTree_of_add (hclosed : ∀ id p, visited id → store.Leads id p → visited p)
    {root : RegexId} (hroot : visited root) (h : Represents store visited t) {i : Nat}
    (hadd : (t.add store root).1 = .ok i) :
    store.SameTree root (t.add store root).2.entries i :=
  (represents_add hclosed root hroot h).1.sameTree root i (entry?_of_add hadd)

/-- Adds regexes one after the other, going on after failures, and returns what each addition
returned. -/
def addAll (t : RegexTable) (store : RegexStore) :
    List RegexId → List (RegexId × Except Error Nat) × RegexTable
  | [] => ([], t)
  | root :: rest =>
    let (result, t) := t.add store root
    let (results, t) := t.addAll store rest
    ((root, result) :: results, t)

/-- What a table says, and what it has returned, lasts through all additions. -/
theorem represents_addAll (roots : List RegexId) (h : Represents store (fun _ => True) t) :
    Represents store (fun _ => True) (t.addAll store roots).2 ∧
      RegexStore.Extends t.entries (t.addAll store roots).2.entries ∧
      ∀ id i, (id, .ok i) ∈ (t.addAll store roots).1 →
        store.SameTree id (t.addAll store roots).2.entries i := by
  induction roots generalizing t with
  | nil =>
    exact ⟨h, RegexStore.Extends.refl _, fun id i hmem => absurd hmem List.not_mem_nil⟩
  | cons root rest ih =>
    obtain ⟨hadd, hext⟩ := represents_add (fun _ _ _ _ => trivial) root trivial h
    obtain ⟨hall, hext', hsame⟩ := ih hadd
    refine ⟨hall, hext.trans hext', fun id i hmem => ?_⟩
    -- results of earlier roots hold in every later table
    rcases List.mem_cons.1 hmem with heq | hmem
    · obtain ⟨rfl, hok⟩ := Prod.mk.inj heq
      exact (sameTree_of_add (fun _ _ _ _ => trivial) trivial h hok.symm).mono hext'
    · exact hsame id i hmem

/-- **Tables share exactly what is equal.** Whatever is added to an empty table, in whatever order
and with whatever failures, a position that was returned for a regex unfolds in the table to the
tree of that regex in the store, and two such positions are equal if and only if the trees are.
A table to which one regex has been added has one entry for each subtree of the tree of that
regex, and no other entries. -/
theorem addAll_shares_exactly (store : RegexStore) :
    (∀ (roots : List RegexId) (a b : RegexId) (i j : Nat),
      (a, .ok i) ∈ ((∅ : RegexTable).addAll store roots).1 →
      (b, .ok j) ∈ ((∅ : RegexTable).addAll store roots).1 →
      ∃ s t, store.Unfolds a s ∧ store.Unfolds b t ∧
        RegexStore.Unfolds ((∅ : RegexTable).addAll store roots).2.entries i s ∧
        RegexStore.Unfolds ((∅ : RegexTable).addAll store roots).2.entries j t ∧
        (i = j ↔ s = t)) ∧
    ∀ (root : RegexId) (i : Nat), ((∅ : RegexTable).add store root).1 = .ok i →
      ∃ t, store.Unfolds root t ∧
        (∀ s, s.Subtree t →
          ∃! j, RegexStore.Unfolds ((∅ : RegexTable).add store root).2.entries j s) ∧
        ∀ j < ((∅ : RegexTable).add store root).2.entries.size,
          ∃ s, s.Subtree t ∧
            RegexStore.Unfolds ((∅ : RegexTable).add store root).2.entries j s := by
  constructor
  · intro roots a b i j ha hb
    obtain ⟨hall, -, hsame⟩ := represents_addAll roots (represents_empty store _)
    obtain ⟨s, hs, hs'⟩ := hsame a i ha
    obtain ⟨t, ht, ht'⟩ := hsame b j hb
    refine ⟨s, t, hs, ht, hs', ht', fun hij => ?_, fun hst => ?_⟩
    · subst hij
      exact hs'.unique ht'
    · subst hst
      exact hs'.place_unique hall.position_unique ht'
  · intro root i hadd
    -- only what the root leads to is visited
    have hclosed : ∀ id p, Relation.ReflTransGen store.Leads root id → store.Leads id p →
        Relation.ReflTransGen store.Leads root p :=
      fun id p hid hp => hid.tail hp
    obtain ⟨hall, -⟩ := represents_add hclosed root .refl (represents_empty store _)
    obtain ⟨t, ht, ht'⟩ := sameTree_of_add hclosed .refl (represents_empty store _) hadd
    refine ⟨t, ht, fun s hs => ?_, fun j hj => ?_⟩
    · -- subtrees are unfolded from entries, and equal trees from the same entry
      obtain ⟨j, hj⟩ := ht'.of_subtree hs
      exact ⟨j, hj, fun k hk => hk.place_unique hall.position_unique hj⟩
    · -- an entry is that of a regex below the root, which unfolds to a subtree
      obtain ⟨id, hid, s, hs, hs'⟩ := hall.origin j hj
      obtain ⟨s', hsub, hs''⟩ := ht.exists_subtree hid
      exact ⟨s, hs''.unique hs ▸ hsub, hs'⟩

/-- Two regexes of the same text share an entry, after a failed addition as well. -/
theorem addAll_shares_equal_literals :
    let store : RegexStore := #[.literal "a", .literal "a", .concatenation [0, 1]]
    let t := (∅ : RegexTable).addAll store [2, 3, 1, 0]
    (0, .ok 0) ∈ t.1 ∧ (1, .ok 0) ∈ t.1 ∧
      ∃ a b, store.Unfolds 0 a ∧ store.Unfolds 1 b ∧ RegexStore.Unfolds t.2.entries 0 a ∧
        RegexStore.Unfolds t.2.entries 0 b ∧ (0 = 0 ↔ a = b) := by
  intro store t
  have ht : t.1 = [(2, .ok 1), (3, .error (unknownRegex 3)), (1, .ok 0), (0, .ok 0)] := by cbv
  have ha : (0, .ok 0) ∈ t.1 := by
    rw [ht]
    simp
  have hb : (1, .ok 0) ∈ t.1 := by
    rw [ht]
    simp
  exact ⟨ha, hb, (addAll_shares_exactly store).1 [2, 3, 1, 0] 0 1 0 0 ha hb⟩

end RegexTable

end GuidedGrammar
