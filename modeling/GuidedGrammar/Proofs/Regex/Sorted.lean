import GuidedGrammar.Proofs.Regex.Sound

/-!
# Tables in order

The entries of a table come after their parts, and nothing is listed that is not below a regex that
was added (`RegexTable.Sorted.addAll`). What is below a regex has its counterparts below the entry
of that regex (`RegexStore.SameTree.exists_reaches`), so every entry is found from the entries of
the regexes that were added (`RegexTable.Represents.exists_reaches`).
-/

namespace GuidedGrammar

namespace RegexStore

variable {store entries : RegexStore} {id p i : RegexId}

/-- A part of a regex has the tree of a part of its entry. -/
theorem SameTree.exists_leads (h : store.SameTree id entries i) (hp : store.Leads id p) :
    ∃ q, entries.Leads i q ∧ store.SameTree p entries q := by
  obtain ⟨r, hr, hp⟩ := hp
  obtain ⟨t, ht, ht'⟩ := h
  cases ht with
  | @node _ r' below hid hbelow =>
    obtain rfl := Option.some.inj (hr.symm.trans hid)
    generalize htree : Regex.Tree.node _ = t at ht'
    cases ht' with
    | @node _ e below' he hbelow' =>
      -- the two nodes have one tree, so their parts have the same trees below
      have hroot := Regex.Tree.node.inj htree
      have hmem : below p ∈ (e.map below').parts := by
        rw [← hroot, Regex.parts_map]
        exact List.mem_map_of_mem hp
      rw [Regex.parts_map, List.mem_map] at hmem
      obtain ⟨q, hq, hpq⟩ := hmem
      exact ⟨q, ⟨e, he, hq⟩, below p, hbelow p hp, hpq ▸ hbelow' q hq⟩

/-- **What is below a regex has a counterpart below its entry.** -/
theorem SameTree.exists_reaches (h : store.SameTree id entries i) (hp : store.Reaches id p) :
    ∃ q, entries.Reaches i q ∧ store.SameTree p entries q := by
  induction hp with
  | refl => exact ⟨i, .refl, h⟩
  | tail _ hlead ih =>
    obtain ⟨q, hq, hsame⟩ := ih
    obtain ⟨q', hq', hsame'⟩ := hsame.exists_leads hlead
    exact ⟨q', hq.tail hq', hsame'⟩

/-- Where no regex is listed twice, one tree has one place. -/
theorem SameTree.place_unique {j : RegexId}
    (hdistinct : ∀ (i j : RegexId) (r : Regex RegexId), entries[i]? = some r →
      entries[j]? = some r → i = j)
    (h : store.SameTree id entries i) (h' : store.SameTree id entries j) : i = j := by
  obtain ⟨t, ht, hi⟩ := h
  obtain ⟨t', ht', hj⟩ := h'
  rw [← ht.unique ht'] at hj
  exact hi.place_unique hdistinct hj

end RegexStore

namespace RegexTable

variable {store : RegexStore} {visited : RegexId → Prop} {t : RegexTable} {roots : List RegexId}

/-- A table in which parts come first, and which represents what `visited` holds of. -/
structure Sorted (store : RegexStore) (visited : RegexId → Prop) (t : RegexTable) : Prop
    extends Represents store visited t where
  parts_lt : ∀ (i : Nat) (e : Regex Nat), t.entries[i]? = some e → ∀ p ∈ e.parts, p < i

theorem sorted_empty (store : RegexStore) (visited : RegexId → Prop) : Sorted store visited ∅ where
  toRepresents := represents_empty store visited
  parts_lt i e he := by
    have hnone : (#[] : RegexStore)[i]? = none := Array.getElem?_empty
    exact absurd (hnone.symm.trans he) (Option.some_ne_none e).symm

/-- A new entry comes after its parts if these are listed. -/
theorem parts_lt_intern (h : Sorted store visited t) {entry : Regex Nat}
    (hentry : ∀ p ∈ entry.parts, p < t.entries.size) (i : Nat) (e : Regex Nat)
    (he : (t.intern entry).2.entries[i]? = some e) : ∀ p ∈ e.parts, p < i := by
  unfold intern at he
  split at he
  · exact h.parts_lt i e he
  · rcases Nat.lt_or_ge i t.entries.size with hlt | hge
    · rw [Array.getElem?_push_lt hlt, ← Array.getElem?_eq_getElem hlt] at he
      exact h.parts_lt i e he
    · have hsize := (Array.getElem?_eq_some_iff.1 he).1
      rw [Array.size_push] at hsize
      obtain rfl : i = t.entries.size := by omega
      rw [Array.getElem?_push_size] at he
      rw [← Option.some.inj he]
      exact hentry

/-- Finishing a regex lists it after its parts. -/
theorem Sorted.finish (h : Sorted store visited t) {id : RegexId} {r : Regex RegexId}
    {entry : Regex Nat} (hvisited : visited id) (hid : store[id]? = some r)
    (hentry : r.mapParts? t.entry? = some entry) :
    Sorted store visited ((t.intern entry).2.setSlot id (.done (t.intern entry).1)) where
  toRepresents := represents_finish h.toRepresents hvisited hid hentry
  parts_lt := by
    refine parts_lt_intern h fun q hq => ?_
    obtain ⟨g, hg, rfl⟩ := Regex.mapParts?_eq_some hentry 0
    rw [Regex.parts_map, List.mem_map] at hq
    obtain ⟨p, hp, rfl⟩ := hq
    obtain ⟨tree, -, htree⟩ := h.sameTree p (g p) (hg p hp)
    exact htree.lt_size

/-- Adding a regex keeps a table in order, whether or not it succeeds. -/
theorem Sorted.add (h : Sorted store visited t)
    (hclosed : ∀ id p, visited id → store.Leads id p → visited p) {root : RegexId}
    (hroot : visited root) : Sorted store visited (t.add store root).2 := by
  rw [add_snd]
  refine run_invariant hclosed ?_ ?_ [.visit root] t
    (fun task htask => List.mem_singleton.1 htask ▸ hroot) h
  · exact fun t id h => ⟨represents_setSlot_inProgress h.toRepresents id, h.parts_lt⟩
  · exact fun t id r entry h hvisited hid hentry => h.finish hvisited hid hentry

/-- **Adding regexes one after the other** lists what is below them, parts first. -/
theorem Sorted.addAll (h : Sorted store visited t)
    (hclosed : ∀ id p, visited id → store.Leads id p → visited p)
    (hroots : ∀ root ∈ roots, visited root) : Sorted store visited (t.addAll store roots).2 := by
  induction roots generalizing t with
  | nil => exact h
  | cons root roots ih =>
    obtain ⟨hroot, hrest⟩ := List.forall_mem_cons.1 hroots
    exact ih (h.add hclosed hroot) hrest

/-- An empty table to which regexes were added lists what is below them, parts first. -/
theorem sorted_addAll_empty (store : RegexStore) (roots : List RegexId) :
    Sorted store (fun id => ∃ root ∈ roots, store.Reaches root id)
      ((∅ : RegexTable).addAll store roots).2 := by
  refine (sorted_empty store _).addAll ?_ fun root hroot => ⟨root, hroot, .refl⟩
  rintro id p ⟨root, hroot, hid⟩ hp
  exact ⟨root, hroot, hid.tail hp⟩

/-- **Every entry is below one of the entries of the regexes that were added.** -/
theorem Represents.exists_reaches
    (h : Represents store (fun id => ∃ root ∈ roots, store.Reaches root id) t) {refs : List Nat}
    (hrefs : ∀ root ∈ roots, ∃ ref ∈ refs, store.SameTree root t.entries ref) {i : Nat}
    (hi : i < t.entries.size) : ∃ ref ∈ refs, RegexStore.Reaches t.entries ref i := by
  obtain ⟨id, ⟨root, hroot, hid⟩, hsame⟩ := h.origin i hi
  obtain ⟨ref, href, hroot⟩ := hrefs root hroot
  obtain ⟨j, hj, hsame'⟩ := hroot.exists_reaches hid
  exact ⟨ref, href, hsame'.place_unique h.position_unique hsame ▸ hj⟩

/-! ### Additions in a row -/

theorem addAll_append (t : RegexTable) (store : RegexStore) (roots roots' : List RegexId) :
    (t.addAll store (roots ++ roots')).2 = ((t.addAll store roots).2.addAll store roots').2 := by
  induction roots generalizing t with
  | nil => rfl
  | cons root roots ih => exact ih (t.add store root).2

end RegexTable

end GuidedGrammar
