import Mathlib.Data.Set.Card
import GuidedGrammar.Proofs.Regex.Sharing

/-!
# Sound regexes

A regex is sound if everything below it is there and nothing below it reaches itself. In a store
whose regexes were overwritten at will, those are the ones that can be written down: a regex is
sound if and only if it unfolds to a tree (`RegexStore.sound_iff_exists_unfolds`).
-/

namespace GuidedGrammar.RegexStore

variable {store : RegexStore} {id p : RegexId} {t : Regex.Tree}

/-- What a regex leads to in any number of steps. -/
def Reaches (store : RegexStore) : RegexId → RegexId → Prop :=
  Relation.ReflTransGen store.Leads

/-- A regex below which everything exists and nothing is circular. -/
structure Sound (store : RegexStore) (id : RegexId) : Prop where
  lt_size : ∀ p, store.Reaches id p → p < store.size
  acyclic : ∀ p, store.Reaches id p → ¬ Relation.TransGen store.Leads p p

theorem Sound.of_reaches (h : store.Sound id) (hp : store.Reaches id p) : store.Sound p where
  lt_size q hq := h.lt_size q (hp.trans hq)
  acyclic q hq := h.acyclic q (hp.trans hq)

/-- A part of a sound regex does not reach back. -/
theorem Sound.not_reaches_of_leads (h : store.Sound id) (hp : store.Leads id p) :
    ¬ store.Reaches p id := by
  intro hback
  exact h.acyclic id .refl (Relation.TransGen.head' hp hback)

/-- A regex that has a tree does not reach itself. -/
theorem Unfolds.not_leads_self (h : store.Unfolds id t) :
    ¬ Relation.TransGen store.Leads id id := by
  induction h with
  | @node id r below hid _ ih =>
    intro hcycle
    -- the cycle passes through one of the parts, which reaches itself as well
    obtain ⟨p, ⟨r', hr', hp⟩, hback⟩ := Relation.TransGen.head'_iff.1 hcycle
    obtain rfl := Option.some.inj (hid.symm.trans hr')
    have hlead : store.Leads id p := ⟨r, hid, hp⟩
    exact ih p hp (Relation.TransGen.tail' hback hlead)

theorem Unfolds.sound (h : store.Unfolds id t) : store.Sound id where
  lt_size p hp := by
    obtain ⟨s, -, hs⟩ := h.exists_subtree hp
    exact hs.lt_size
  acyclic p hp := by
    obtain ⟨s, -, hs⟩ := h.exists_subtree hp
    exact hs.not_leads_self

/-- What does not reach itself reaches more than its parts do, of what the store holds. -/
theorem ncard_lt_of_leads (hid : ¬ Relation.TransGen store.Leads id id) (hp : store.Leads id p) :
    {q | q < store.size ∧ store.Reaches p q}.ncard <
      {q | q < store.size ∧ store.Reaches id q}.ncard := by
  have hsubset : {q | q < store.size ∧ store.Reaches p q} ⊆
      {q | q < store.size ∧ store.Reaches id q} :=
    fun q hq => ⟨hq.1, Relation.ReflTransGen.head hp hq.2⟩
  have hself : id ∈ {q | q < store.size ∧ store.Reaches id q} := by
    obtain ⟨r, hr, -⟩ := hp
    exact ⟨(Array.getElem?_eq_some_iff.1 hr).1, .refl⟩
  have hback : id ∉ {q | q < store.size ∧ store.Reaches p q} :=
    fun h => hid (Relation.TransGen.head' hp h.2)
  have hfinite : {q | q < store.size ∧ store.Reaches id q}.Finite :=
    (Set.finite_Iio store.size).subset fun q hq => hq.1
  exact Set.ncard_lt_ncard ⟨hsubset, fun hsup => hback (hsup hself)⟩ hfinite

/-- A sound regex has a tree. The induction is on how many regexes it reaches. -/
theorem Sound.exists_unfolds (h : store.Sound id) : ∃ t, store.Unfolds id t := by
  induction hn : {q | q < store.size ∧ store.Reaches id q}.ncard using Nat.strong_induction_on
    generalizing id with
  | h n ih =>
    have hid : id < store.size := h.lt_size id .refl
    have hget : store[id]? = some store[id] := Array.getElem?_eq_getElem hid
    have hparts : ∀ p ∈ store[id].parts, ∃ t, store.Unfolds p t := by
      intro p hp
      have hlead : store.Leads id p := ⟨_, hget, hp⟩
      have hlt := ncard_lt_of_leads (h.acyclic id .refl) hlead
      exact ih _ (hn ▸ hlt) (h.of_reaches (.single hlead)) rfl
    choose! below hbelow using hparts
    exact ⟨_, .node hget hbelow⟩

/-- **To be sound is to have a tree.** -/
theorem sound_iff_exists_unfolds : store.Sound id ↔ ∃ t, store.Unfolds id t :=
  ⟨Sound.exists_unfolds, fun ⟨_, h⟩ => h.sound⟩

/-- Where parts come before what they are part of, everything is sound. -/
theorem exists_unfolds_of_parts_lt
    (hstore : ∀ (id : RegexId) (r : Regex RegexId), store[id]? = some r → ∀ p ∈ r.parts, p < id)
    (hid : id < store.size) : ∃ t, store.Unfolds id t := by
  induction id using Nat.strong_induction_on with
  | h id ih =>
    have hget : store[id]? = some store[id] := Array.getElem?_eq_getElem hid
    have hparts : ∀ p ∈ store[id].parts, ∃ t, store.Unfolds p t := by
      intro p hp
      have hlt : p < id := hstore id _ hget p hp
      exact ih p hlt (Nat.lt_trans hlt hid)
    choose! below hbelow using hparts
    exact ⟨_, .node hget hbelow⟩

end GuidedGrammar.RegexStore
