import Mathlib.Tactic.Choose
import GuidedGrammar.Proofs.Data.List
import GuidedGrammar.Regex.Basic

/-!
# Regexes as trees

A store holds regexes that refer to each other by their places. Following the references down
from a regex unfolds it to a tree, if nothing is missing and no regex reaches itself
(`RegexStore.Unfolds`). A regex unfolds to at most one tree (`Unfolds.unique`), and in a store
that holds no regex twice, no two places unfold to the same tree (`Unfolds.place_unique`).

The entries of a table form a store as well, so the same relation says what an entry stands for;
two places of two stores have the same tree if they unfold alike (`RegexStore.SameTree`).
-/

namespace GuidedGrammar

namespace Regex

variable {ρ σ τ : Type}

/-! ### Changing references -/

theorem parts_map (f : ρ → σ) (r : Regex ρ) : (r.map f).parts = r.parts.map f := by
  cases r <;> rfl

theorem map_map (f : ρ → σ) (h : σ → τ) (r : Regex ρ) : (r.map f).map h = r.map (h ∘ f) := by
  cases r <;> simp only [map, List.map_map, Function.comp_apply]

/-- Only the values at the parts matter. -/
theorem map_congr {f h : ρ → σ} {r : Regex ρ} (hfh : ∀ p ∈ r.parts, f p = h p) :
    r.map f = r.map h := by
  cases r with
  | union ps => exact congrArg union (List.map_congr_left hfh)
  | intersection ps => exact congrArg intersection (List.map_congr_left hfh)
  | concatenation ps => exact congrArg concatenation (List.map_congr_left hfh)
  | complement p => exact congrArg complement (hfh p (List.mem_singleton_self p))
  | lookahead p => exact congrArg lookahead (hfh p (List.mem_singleton_self p))
  | repetition p min max =>
    exact congrArg (repetition · min max) (hfh p (List.mem_singleton_self p))
  | literal text => rfl
  | byteLiteral bytes => rfl
  | byte b => rfl
  | byteSet words => rfl
  | pattern source => rfl
  | emptyText => rfl
  | nothing => rfl

/-- References that do not change. -/
theorem map_eq_self {f : ρ → ρ} {r : Regex ρ} (hf : ∀ p ∈ r.parts, f p = p) : r.map f = r := by
  rw [map_congr hf]
  cases r <;> simp only [map, List.map_id']

/-- The same for the parts of regexes. -/
theorem eq_of_map_eq {f h : ρ → τ} {r s : Regex ρ}
    (hinj : ∀ p ∈ r.parts, ∀ q ∈ s.parts, f p = h q → p = q) (heq : r.map f = s.map h) :
    r = s := by
  have hparts : r.parts = s.parts := by
    apply eq_of_map_eq_map hinj
    rw [← parts_map, ← parts_map, heq]
  cases r <;> cases s <;> simp_all [map, parts]

/-- What it means that all parts have counterparts. -/
theorem mapParts?_eq_some {f : ρ → Option σ} {r : Regex ρ} {e : Regex σ}
    (h : r.mapParts? f = some e) (fallback : σ) :
    ∃ g : ρ → σ, (∀ p ∈ r.parts, f p = some (g p)) ∧ e = r.map g := by
  refine ⟨fun p => (f p).getD fallback, ?_⟩
  cases r <;> simp only [mapParts?, Option.map_eq_some_iff, Option.some.injEq] at h
  case union ps | intersection ps | concatenation ps =>
    obtain ⟨qs, hqs, rfl⟩ := h
    obtain ⟨hmem, rfl⟩ := mapM_eq_some hqs fallback
    exact ⟨hmem, rfl⟩
  case complement p | lookahead p | repetition p min max =>
    obtain ⟨q, hq, rfl⟩ := h
    refine ⟨?_, by simp only [map, hq, Option.getD_some]⟩
    intro p' hp'
    simp only [List.mem_singleton.1 hp', hq, Option.getD_some]
  all_goals exact ⟨fun p hp => absurd hp List.not_mem_nil, h.symm⟩

/-! ### Trees -/

/-- A regex with all that is below it. -/
inductive Tree where
  | node (root : Regex Tree)

instance : Nonempty Tree := ⟨.node .nothing⟩

/-- The subtrees of a tree, itself included. -/
inductive Tree.Subtree : Tree → Tree → Prop
  | refl (t : Tree) : Subtree t t
  | part {s p : Tree} {root : Regex Tree} (hp : p ∈ root.parts) (hs : Subtree s p) :
    Subtree s (.node root)

/-- What is below a part of a subtree is below the tree. -/
theorem Tree.Subtree.step {p t : Tree} {root : Regex Tree} (h : Subtree (.node root) t)
    (hp : p ∈ root.parts) : Subtree p t := by
  induction h with
  | refl => exact .part hp (.refl p)
  | part hmem _ ih => exact .part hmem ih

end Regex

/-! ### Unfolding -/

/-- **The tree of a regex of a store.** -/
inductive RegexStore.Unfolds (store : RegexStore) : RegexId → Regex.Tree → Prop
  | node {id : RegexId} {r : Regex RegexId} {below : RegexId → Regex.Tree}
    (hid : store[id]? = some r) (hbelow : ∀ p ∈ r.parts, Unfolds store p (below p)) :
    Unfolds store id (.node (r.map below))

/-- **Two places with the same tree**, in the same store or in different ones. -/
def RegexStore.SameTree (store : RegexStore) (id : RegexId) (store' : RegexStore)
    (id' : RegexId) : Prop :=
  ∃ t, store.Unfolds id t ∧ store'.Unfolds id' t

/-- Every place that a store fills is filled alike in another store. -/
def RegexStore.Extends (store store' : RegexStore) : Prop :=
  ∀ (id : RegexId) (r : Regex RegexId), store[id]? = some r → store'[id]? = some r

namespace RegexStore

variable {store store' : RegexStore} {id id' : RegexId} {t t' : Regex.Tree}

theorem Extends.refl (store : RegexStore) : store.Extends store :=
  fun _ _ h => h

theorem Extends.trans {store'' : RegexStore} (h : store.Extends store')
    (h' : store'.Extends store'') : store.Extends store'' :=
  fun id r hr => h' id r (h id r hr)

theorem Extends.push (store : RegexStore) (r : Regex RegexId) : store.Extends (store.push r) := by
  intro id s hs
  have hid : id < store.size := (Array.getElem?_eq_some_iff.1 hs).1
  rw [Array.getElem?_push_lt hid, ← hs, Array.getElem?_eq_getElem hid]

/-- **A regex has at most one tree.** -/
theorem Unfolds.unique (h : store.Unfolds id t) (h' : store.Unfolds id t') : t = t' := by
  induction h generalizing t' with
  | node hid _ ih =>
    cases h' with
    | node hid' hbelow' =>
      obtain rfl := Option.some.inj (hid.symm.trans hid')
      exact congrArg _ (Regex.map_congr fun p hp => ih p hp (hbelow' p hp))

/-- More regexes leave the trees of those there are. -/
theorem Unfolds.mono (hstore : store.Extends store') (h : store.Unfolds id t) :
    store'.Unfolds id t := by
  induction h with
  | node hid _ ih => exact .node (hstore _ _ hid) ih

/-- **Without repetition, no two places have the same tree.** -/
theorem Unfolds.place_unique
    (hstore : ∀ (i j : RegexId) (r : Regex RegexId), store[i]? = some r → store[j]? = some r →
      i = j)
    (h : store.Unfolds id t) (h' : store.Unfolds id' t) : id = id' := by
  induction h generalizing id' with
  | node hid _ ih =>
    -- the trees of the parts are equal, hence by induction the parts, hence the regexes
    generalize ht : Regex.Tree.node _ = t at h'
    cases h' with
    | node hid' hbelow' =>
      have hroot := Regex.Tree.node.inj ht
      have hr := Regex.eq_of_map_eq
        (fun p hp q hq hpq => ih p hp (by rw [hpq]; exact hbelow' q hq)) hroot
      exact hstore _ _ _ hid (hr ▸ hid')

/-- The parts of a regex that has a tree are there and have trees. -/
theorem Unfolds.exists_part {r : Regex RegexId} {p : RegexId} (h : store.Unfolds id t)
    (hid : store[id]? = some r) (hp : p ∈ r.parts) :
    ∃ root s, t = .node root ∧ s ∈ root.parts ∧ store.Unfolds p s := by
  cases h with
  | @node _ r' below hid' hbelow =>
    obtain rfl := Option.some.inj (hid.symm.trans hid')
    refine ⟨_, below p, rfl, ?_, hbelow p hp⟩
    rw [Regex.parts_map]
    exact List.mem_map_of_mem hp

/-- Every subtree of a tree that a store unfolds to is the tree of one of its places. -/
theorem Unfolds.of_subtree {s : Regex.Tree} (h : store.Unfolds id t) (hs : s.Subtree t) :
    ∃ i, store.Unfolds i s := by
  induction hs generalizing id with
  | refl => exact ⟨id, h⟩
  | part hp _ ih =>
    generalize ht : Regex.Tree.node _ = t at h
    cases h with
    | @node _ r below hid hbelow =>
      obtain rfl := Regex.Tree.node.inj ht
      rw [Regex.parts_map, List.mem_map] at hp
      obtain ⟨p, hp, rfl⟩ := hp
      exact ih (hbelow p hp)

/-- A place that has a tree is filled. -/
theorem Unfolds.lt_size (h : store.Unfolds id t) : id < store.size := by
  cases h with
  | node hid _ => exact (Array.getElem?_eq_some_iff.1 hid).1

theorem SameTree.mono {store'' : RegexStore} (hstore : store'.Extends store'')
    (h : store.SameTree id store' id') : store.SameTree id store'' id' := by
  obtain ⟨t, ht, ht'⟩ := h
  exact ⟨t, ht, ht'.mono hstore⟩

/-- Regexes whose parts correspond have the same tree. -/
theorem SameTree.of_parts {r e : Regex RegexId} {f : RegexId → Option RegexId}
    (hid : store[id]? = some r) (hid' : store'[id']? = some e) (he : r.mapParts? f = some e)
    (hparts : ∀ p q, f p = some q → store.SameTree p store' q) : store.SameTree id store' id' := by
  obtain ⟨g, hg, rfl⟩ := Regex.mapParts?_eq_some he 0
  have hbelow : ∀ p ∈ r.parts, ∃ t, store.Unfolds p t ∧ store'.Unfolds (g p) t :=
    fun p hp => hparts p (g p) (hg p hp)
  choose! below hbelow hbelow' using hbelow
  have hparts' : ∀ q ∈ (r.map g).parts, ∃ t, store'.Unfolds q t := by
    intro q hq
    rw [Regex.parts_map, List.mem_map] at hq
    obtain ⟨p, hp, rfl⟩ := hq
    exact ⟨below p, hbelow' p hp⟩
  choose! below' hparts' using hparts'
  refine ⟨.node (r.map below), .node hid hbelow, ?_⟩
  -- corresponding parts have one tree, so the two trees are put together alike
  have hmap : (r.map g).map below' = r.map below := by
    rw [Regex.map_map]
    apply Regex.map_congr
    intro p hp
    have hmem : g p ∈ (r.map g).parts := by
      rw [Regex.parts_map]
      exact List.mem_map_of_mem hp
    exact (hparts' (g p) hmem).unique (hbelow' p hp)
  rw [← hmap]
  exact .node hid' hparts'

/-- Regexes without parts that are equal have the same tree. -/
theorem SameTree.of_leaf {r : Regex RegexId} (hr : r.parts = []) (hid : store[id]? = some r)
    (hid' : store'[id']? = some r) : store.SameTree id store' id' := by
  have hparts : ∀ p ∈ r.parts, False := fun p hp => by rw [hr] at hp; cases hp
  exact ⟨.node (r.map fun _ => .node .nothing), .node hid fun p hp => (hparts p hp).elim,
    .node hid' fun p hp => (hparts p hp).elim⟩

end RegexStore

end GuidedGrammar
