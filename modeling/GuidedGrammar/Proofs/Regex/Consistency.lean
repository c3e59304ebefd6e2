import GuidedGrammar.Proofs.Regex.Outcome

/-!
# Tables in use

A table serves entries that are interned one by one as well as whole regexes, from any number of
stores. Marks and entries that one use leaves behind are met by the next one, although they say
nothing about its store. What holds the table together does not depend on any store: positions and
entries are inverse to each other, and what is finished has an entry (`RegexTable.Consistent`).

Single steps of an addition keep this (`RegexTable.Consistent.finish`), hence every use does, and
every sequence of uses (`RegexTable.afterAll_consistent`).
-/

namespace GuidedGrammar.RegexTable

variable {t : RegexTable}

/-- **A table whose three parts fit together.** -/
structure Consistent (t : RegexTable) : Prop where
  /-- Every entry has its position, and nothing else has one. -/
  positions_iff : ∀ (entry : Regex Nat) (i : Nat),
    t.positions[entry]? = some i ↔ t.entries[i]? = some entry
  /-- What is finished has an entry. -/
  done_lt : ∀ (id : RegexId) (i : Nat), t.slots[id]? = some (.done i) → i < t.entries.size

theorem consistent_empty : Consistent ∅ where
  positions_iff := (represents_empty #[] fun _ => True).positions_iff
  done_lt id i h := by
    have hslot : (∅ : RegexTable).slots[id]? = none := Std.TreeMap.getElem?_emptyc
    rw [hslot] at h
    cases h

/-- No entry is listed twice. -/
theorem Consistent.nodup (h : Consistent t) : t.entries.toList.Nodup := by
  rw [List.nodup_iff_getElem?_ne_getElem?]
  intro i j hij hj heq
  rw [Array.length_toList] at hj
  rw [Array.getElem?_toList, Array.getElem?_toList, Array.getElem?_eq_getElem hj] at heq
  -- equal entries have one position
  have hi := (h.positions_iff _ i).2 heq
  have hj := (h.positions_iff _ j).2 (Array.getElem?_eq_getElem hj)
  exact Nat.ne_of_lt hij (Option.some.inj (hi.symm.trans hj))

/-! ### Single steps -/

/-- Interning changes no slot, and an entry stays where it is. -/
theorem Consistent.intern (h : Consistent t) (entry : Regex Nat) :
    Consistent (t.intern entry).2 where
  positions_iff := (intern_spec h.positions_iff entry).1
  done_lt id i hid := by
    rw [slots_intern] at hid
    have hlisted := Array.getElem?_eq_getElem (h.done_lt id i hid)
    exact (Array.getElem?_eq_some_iff.1 (extends_intern t entry i _ hlisted)).1

/-- A mark is no entry. -/
theorem Consistent.mark (h : Consistent t) (id : RegexId) :
    Consistent (t.setSlot id .inProgress) where
  positions_iff := h.positions_iff
  done_lt id' i hid := by
    rw [← entry?_eq_some_iff, entry?_setSlot_inProgress] at hid
    split at hid
    · cases hid
    · exact h.done_lt id' i (entry?_eq_some_iff.1 hid)

/-- **Finishing a regex** notes the position that its entry has been given. -/
theorem Consistent.finish (h : Consistent t) (id : RegexId) (entry : Regex Nat) :
    Consistent ((t.intern entry).2.setSlot id (.done (t.intern entry).1)) where
  positions_iff := (h.intern entry).positions_iff
  done_lt id' i hid := by
    rw [← entry?_eq_some_iff, entry?_setSlot_done] at hid
    split at hid
    · obtain rfl := Option.some.inj hid
      exact (Array.getElem?_eq_some_iff.1 (intern_spec h.positions_iff entry).2.1).1
    · exact (h.intern entry).done_lt id' i (entry?_eq_some_iff.1 hid)

/-! ### Uses -/

/-- A use of a table: interning an entry, or adding a regex of some store. -/
inductive Use where
  | intern (entry : Regex Nat)
  | add (store : RegexStore) (root : RegexId)

/-- The table after a use, whether or not it succeeds. -/
def after (t : RegexTable) : Use → RegexTable
  | .intern entry => (t.intern entry).2
  | .add store root => (t.add store root).2

/-- The table after a sequence of uses. -/
def afterAll (t : RegexTable) (uses : List Use) : RegexTable :=
  uses.foldl after t

/-- An addition keeps a table consistent and all its entries, whether or not it succeeds. -/
theorem Consistent.add (h : Consistent t) (store : RegexStore) (root : RegexId) :
    Consistent (t.add store root).2 ∧
      RegexStore.Extends t.entries (t.add store root).2.entries := by
  rw [add_snd]
  refine run_invariant (I := fun t' => Consistent t' ∧ RegexStore.Extends t.entries t'.entries)
    (fun _ _ (_ : True) _ => trivial) ?_ ?_ [.visit root] t (fun _ _ => trivial) ⟨h, .refl _⟩
  · rintro t' id ⟨ht', hext⟩
    exact ⟨ht'.mark id, hext⟩
  · rintro t' id r entry ⟨ht', hext⟩ - - -
    exact ⟨ht'.finish id entry, hext.trans (extends_intern t' entry)⟩

theorem Consistent.after (h : Consistent t) (use : Use) :
    Consistent (t.after use) ∧ RegexStore.Extends t.entries (t.after use).entries := by
  cases use with
  | intern entry => exact ⟨h.intern entry, extends_intern t entry⟩
  | add store root => exact h.add store root

theorem Consistent.afterAll (h : Consistent t) (uses : List Use) :
    Consistent (t.afterAll uses) ∧ RegexStore.Extends t.entries (t.afterAll uses).entries := by
  induction uses generalizing t with
  | nil => exact ⟨h, .refl _⟩
  | cons use uses ih =>
    obtain ⟨hafter, hext⟩ := h.after use
    obtain ⟨hall, hext'⟩ := ih hafter
    exact ⟨hall, hext.trans hext'⟩

/-- What keeps all entries lists new ones behind them. -/
theorem prefix_of_extends {entries entries' : RegexStore}
    (h : RegexStore.Extends entries entries') : entries.toList <+: entries'.toList := by
  rw [List.prefix_iff_getElem?]
  intro i hi
  rw [Array.getElem?_toList]
  exact h i _ (by rw [← Array.getElem?_toList, List.getElem?_eq_getElem hi])

/-- **A table stays consistent whatever it is used for.** After any uses of an empty table, with any
stores and with any failures, no entry is listed twice; an entry has the position at which it is
listed, and nothing else has a position; what is finished has an entry; any further uses list new
entries behind those that there are; and no addition ends in a state that cannot arise. -/
theorem afterAll_consistent (uses : List Use) :
    ((∅ : RegexTable).afterAll uses).entries.toList.Nodup ∧
      Consistent ((∅ : RegexTable).afterAll uses) ∧
      (∀ more : List Use, ((∅ : RegexTable).afterAll uses).entries.toList <+:
        ((∅ : RegexTable).afterAll (uses ++ more)).entries.toList) ∧
      ∀ (store : RegexStore) (root : RegexId) (what : String),
        (((∅ : RegexTable).afterAll uses).add store root).1 ≠ .error (.unreachable what) := by
  obtain ⟨h, -⟩ := consistent_empty.afterAll uses
  refine ⟨h.nodup, h, fun more => ?_, add_ne_unreachable _⟩
  rw [afterAll, afterAll, List.foldl_append]
  exact prefix_of_extends (h.afterAll more).2

end GuidedGrammar.RegexTable
