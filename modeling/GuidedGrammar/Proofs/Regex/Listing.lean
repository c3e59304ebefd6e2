import GuidedGrammar.Proofs.Regex.Sound

/-!
# What a table lists

The entries of a table stand for trees. Adding a regex lists the subtrees of its tree that are not
listed yet, each after its parts, in the order in which they are met from left to right
(`RegexTable.Holds.add`). So what is listed depends on trees alone, and not on the ids that
the regexes have in their store or on how they are shared there; and what is listed determines the
entries (`RegexStore.Lists.eq`).

The proof follows the tree: visiting a regex none of whose subregexes is in progress visits its
parts one after the other, which leaves the marks as they were, and then finishes it
(`RegexTable.addsVisit_of_unfolds`).
-/

namespace GuidedGrammar

namespace Regex

variable {ρ σ : Type}

/-- Where all parts have counterparts, the regex has one. -/
theorem exists_mapParts? {f : ρ → Option σ} {r : Regex ρ}
    (h : ∀ p ∈ r.parts, (f p).isSome = true) : ∃ e, r.mapParts? f = some e := by
  cases r with
  | union ps | intersection ps | concatenation ps =>
    have hps : ∀ p ∈ ps, (f p).isSome = true := h
    obtain ⟨qs, hqs⟩ := exists_mapM hps
    exact ⟨_, by rw [mapParts?, hqs, Option.map_some]⟩
  | complement p | lookahead p | repetition p min max =>
    obtain ⟨q, hq⟩ := Option.isSome_iff_exists.1 (h p (List.mem_singleton_self p))
    exact ⟨_, by rw [mapParts?, hq, Option.map_some]⟩
  | literal | byteLiteral | byte | byteSet | pattern | emptyText | nothing => exact ⟨_, rfl⟩

namespace Tree

/-! ### Subtrees in order -/

theorem sizeOf_lt_of_mem_parts {root : Regex Tree} {p : Tree} (hp : p ∈ root.parts) :
    sizeOf p < sizeOf (Tree.node root) := by
  cases root with
  | union ps | intersection ps | concatenation ps =>
    have hlt : sizeOf p < sizeOf ps := List.sizeOf_lt_of_mem hp
    simp only [node.sizeOf_spec, union.sizeOf_spec, intersection.sizeOf_spec,
      concatenation.sizeOf_spec]
    omega
  | complement q | lookahead q | repetition q min max =>
    obtain rfl := List.mem_singleton.1 hp
    simp only [node.sizeOf_spec, complement.sizeOf_spec, lookahead.sizeOf_spec,
      repetition.sizeOf_spec]
    omega
  | literal | byteLiteral | byte | byteSet | pattern | emptyText | nothing => cases hp

/-- The subtrees of a tree, each after its own parts, from left to right and with
repetitions. -/
def postorder : Tree → List Tree
  | .node root => root.parts.attach.flatMap (fun p => postorder p.1) ++ [.node root]
termination_by t => sizeOf t
decreasing_by exact sizeOf_lt_of_mem_parts p.2

theorem postorder_node (root : Regex Tree) :
    postorder (.node root) = root.parts.flatMap postorder ++ [.node root] := by
  rw [postorder, List.flatMap_subtype (g := postorder) fun _ _ => rfl, List.unattach_attach]

theorem mem_postorder {s t : Tree} : s ∈ t.postorder ↔ s.Subtree t := by
  induction t using postorder.induct with
  | case1 root ih =>
    rw [postorder_node, List.mem_append, List.mem_flatMap, List.mem_singleton]
    constructor
    · rintro (⟨p, hp, hs⟩ | rfl)
      · exact .part hp ((ih ⟨p, hp⟩).1 hs)
      · exact .refl _
    · intro hs
      cases hs with
      | refl => exact Or.inr rfl
      | part hp hs => exact Or.inl ⟨_, hp, (ih ⟨_, hp⟩).2 hs⟩

open Classical in
/-- The list with one more tree at its end, unless it has that tree. -/
noncomputable def addNew (trees : List Tree) (s : Tree) : List Tree :=
  if s ∈ trees then trees else trees ++ [s]

/-- The list with the subtrees of a tree that are not in it, each after its parts. -/
noncomputable def addSubtrees (trees : List Tree) (t : Tree) : List Tree :=
  t.postorder.foldl addNew trees

theorem addNew_of_mem {trees : List Tree} {s : Tree} (h : s ∈ trees) : addNew trees s = trees :=
  if_pos h

theorem addNew_of_not_mem {trees : List Tree} {s : Tree} (h : s ∉ trees) :
    addNew trees s = trees ++ [s] :=
  if_neg h

/-- Nothing is added where everything is there. -/
theorem foldl_addNew_of_subset {trees ss : List Tree} (h : ∀ s ∈ ss, s ∈ trees) :
    ss.foldl addNew trees = trees := by
  induction ss with
  | nil => rfl
  | cons s ss ih =>
    rw [List.foldl_cons, addNew_of_mem (h s (List.mem_cons_self ..))]
    exact ih fun s hs => h s (List.mem_cons_of_mem _ hs)

/-- Adding a tree adds its parts, one after the other, and then the tree. -/
theorem addSubtrees_node (trees : List Tree) (root : Regex Tree) :
    addSubtrees trees (.node root) = addNew (root.parts.foldl addSubtrees trees) (.node root) := by
  rw [addSubtrees, postorder_node, List.foldl_append, List.foldl_flatMap]
  rfl

end Tree

end Regex

/-! ### Listed trees -/

/-- The trees that the entries of a table stand for, in order. -/
structure RegexStore.Lists (entries : RegexStore) (trees : List Regex.Tree) : Prop where
  length_eq : trees.length = entries.size
  unfolds : ∀ (i : Nat) (s : Regex.Tree), trees[i]? = some s → entries.Unfolds i s

namespace RegexStore.Lists

open Regex.Tree (addNew addNew_of_mem addNew_of_not_mem addSubtrees foldl_addNew_of_subset)

variable {entries entries' : RegexStore} {trees : List Regex.Tree} {s t : Regex.Tree}

theorem empty : Lists #[] [] where
  length_eq := rfl
  unfolds i s h := by cases h

theorem getElem?_iff (h : entries.Lists trees) {i : Nat} :
    trees[i]? = some s ↔ entries.Unfolds i s := by
  refine ⟨h.unfolds i s, fun hs => ?_⟩
  have hi : i < trees.length := h.length_eq ▸ hs.lt_size
  have hget : trees[i]? = some trees[i] := List.getElem?_eq_getElem hi
  rw [hget, (h.unfolds i _ hget).unique hs]

theorem mem_iff (h : entries.Lists trees) : s ∈ trees ↔ ∃ i, entries.Unfolds i s := by
  rw [List.mem_iff_getElem?]
  exact exists_congr fun _ => h.getElem?_iff

/-- What is listed is listed with its subtrees. -/
theorem addSubtrees_eq (h : entries.Lists trees) (ht : t ∈ trees) :
    addSubtrees trees t = trees := by
  apply foldl_addNew_of_subset
  intro s hs
  obtain ⟨i, hi⟩ := h.mem_iff.1 ht
  exact h.mem_iff.2 (hi.of_subtree (Regex.Tree.mem_postorder.1 hs))

/-- An entry that is added lists its tree last. -/
theorem push (h : entries.Lists trees) {r : Regex RegexId}
    (ht : RegexStore.Unfolds (entries.push r) entries.size t) :
    RegexStore.Lists (entries.push r) (trees ++ [t]) where
  length_eq := by rw [List.length_append, List.length_singleton, h.length_eq, Array.size_push]
  unfolds i s hs := by
    rcases Nat.lt_or_ge i trees.length with hlt | hge
    · rw [List.getElem?_append_left hlt] at hs
      exact (h.unfolds i s hs).mono (RegexStore.Extends.push entries r)
    · rw [List.getElem?_append_right hge, List.getElem?_singleton] at hs
      split at hs
      · rename_i hzero
        have hlast : i = entries.size := by
          have hlength := h.length_eq
          omega
        rw [hlast, ← Option.some.inj hs]
        exact ht
      · cases hs

/-- **What is listed determines the entries**, if none of them is there twice. -/
theorem eq (h : entries.Lists trees) (h' : entries'.Lists trees)
    (hdistinct : ∀ (i j : RegexId) (r : Regex RegexId), entries[i]? = some r →
      entries[j]? = some r → i = j) : entries = entries' := by
  have hsize : entries.size = entries'.size := h.length_eq.symm.trans h'.length_eq
  refine Array.ext hsize fun i hi hi' => ?_
  have htree : i < trees.length := h.length_eq ▸ hi
  have hget : trees[i]? = some trees[i] := List.getElem?_eq_getElem htree
  have hunfolds := h.unfolds i _ hget
  have hunfolds' := h'.unfolds i _ hget
  generalize trees[i] = s at hunfolds hunfolds'
  cases hunfolds with
  | @node _ r below hr hbelow =>
    generalize ht : Regex.Tree.node _ = t at hunfolds'
    cases hunfolds' with
    | @node _ r' below' hr' hbelow' =>
      -- equal parts are listed at one place
      have hparts : ∀ p ∈ r.parts, ∀ q ∈ r'.parts, below p = below' q → p = q := by
        intro p hp q hq hpq
        have hlisted : trees[q]? = some (below p) := hpq ▸ h'.getElem?_iff.2 (hbelow' q hq)
        exact (hbelow p hp).place_unique hdistinct (h.unfolds q _ hlisted)
      have hroot : r = r' := Regex.eq_of_map_eq hparts (Regex.Tree.node.inj ht)
      rw [Array.getElem?_eq_getElem hi] at hr
      rw [Array.getElem?_eq_getElem hi'] at hr'
      rw [Option.some.inj hr, hroot, Option.some.inj hr']

end RegexStore.Lists

namespace RegexTable

open Regex.Tree (addNew addNew_of_mem addNew_of_not_mem addSubtrees addSubtrees_node)

variable {store : RegexStore} {t t' t'' : RegexTable} {trees trees' trees'' : List Regex.Tree}

/-! ### Slots -/

theorem entry?_eq_some_iff {id : RegexId} {i : Nat} :
    t.entry? id = some i ↔ t.slots[id]? = some (.done i) := by
  unfold entry?
  split
  · rename_i j hslot
    rw [hslot, Option.some.injEq, Option.some.injEq, Slot.done.injEq]
  · rename_i hslot
    exact iff_of_false (fun h => nomatch h) (fun h => hslot i h)

theorem isInProgress_iff {id : RegexId} :
    t.isInProgress id = true ↔ t.slots[id]? = some .inProgress := by
  rw [isInProgress, beq_iff_eq]

theorem isInProgress_setSlot (t : RegexTable) (id : RegexId) (slot : Slot) (id' : RegexId) :
    (t.setSlot id slot).isInProgress id' =
      if id = id' then slot == .inProgress else t.isInProgress id' := by
  simp only [setSlot, isInProgress, Std.TreeMap.getElem?_insert, Std.LawfulEqCmp.compare_eq_iff_eq]
  by_cases h : id = id'
  · simp only [if_pos h, Option.some_beq_some]
  · simp only [if_neg h]

/-! ### Visits -/

/-- What becomes of a table to which regexes were added: it lists `trees'`, finished regexes
have kept their entries, and no marks have been left behind. -/
structure Adds (store : RegexStore) (t t' : RegexTable) (trees' : List Regex.Tree) : Prop where
  represents : Represents store (fun _ => True) t'
  lists : RegexStore.Lists t'.entries trees'
  marks : ∀ id, t'.isInProgress id = t.isInProgress id
  keeps : ∀ id i, t.entry? id = some i → t'.entry? id = some i

theorem Adds.refl (h : Represents store (fun _ => True) t)
    (hlists : RegexStore.Lists t.entries trees) : Adds store t t trees :=
  ⟨h, hlists, fun _ => rfl, fun _ _ h => h⟩

theorem Adds.trans (h : Adds store t t' trees') (h' : Adds store t' t'' trees'') :
    Adds store t t'' trees'' where
  represents := h'.represents
  lists := h'.lists
  marks id := (h'.marks id).trans (h.marks id)
  keeps id i hi := h'.keeps id i (h.keeps id i hi)

/-- A visit that goes well: in every table in which nothing below the regex is in progress, it
lists the tree and finishes the regex. -/
def AddsVisit (store : RegexStore) (id : RegexId) (tree : Regex.Tree) : Prop :=
  ∀ (t : RegexTable) (trees : List Regex.Tree) (rest : List Task),
    Represents store (fun _ => True) t → RegexStore.Lists t.entries trees →
    (∀ p, store.Reaches id p → t.isInProgress p = false) →
    ∃ t', run store (.visit id :: rest) t = run store rest t' ∧
      Adds store t t' (addSubtrees trees tree) ∧ (t'.entry? id).isSome = true

/-- A finished regex has its tree listed. -/
theorem mem_of_entry?_eq_some (h : Represents store (fun _ => True) t)
    (hlists : RegexStore.Lists t.entries trees) {id : RegexId} {i : Nat} {tree : Regex.Tree}
    (hid : t.entry? id = some i) (htree : store.Unfolds id tree) : tree ∈ trees := by
  obtain ⟨tree', htree', hentry⟩ := h.sameTree id i hid
  rw [htree.unique htree']
  exact hlists.mem_iff.2 ⟨i, hentry⟩

/-- Visiting a part that was not met when what it is part of was visited. -/
theorem run_visit_unmet {p : RegexId} {tree : Regex.Tree} {t₀ : RegexTable}
    (hvisit : AddsVisit store p tree) (htree : store.Unfolds p tree)
    (hfree : ∀ q, store.Reaches p q → t₀.isInProgress q = false) (rest : List Task)
    (h₀ : Adds store t₀ t trees) :
    ∃ t', run store (([p].filter fun p => !t₀.slots.contains p).map .visit ++ rest) t =
        run store rest t' ∧
      Adds store t t' (addSubtrees trees tree) ∧ (t'.entry? p).isSome = true := by
  cases hslot : t₀.slots[p]? with
  | none =>
    have hmet : (!t₀.slots.contains p) = true := by
      rw [Std.TreeMap.contains_eq_isSome_getElem?, hslot]
      rfl
    rw [List.filter_singleton, hmet]
    refine hvisit t trees rest h₀.represents h₀.lists fun q hq => ?_
    rw [h₀.marks, hfree q hq]
  | some slot =>
    have hmet : (!t₀.slots.contains p) = false := by
      rw [Std.TreeMap.contains_eq_isSome_getElem?, hslot]
      rfl
    rw [List.filter_singleton, hmet]
    cases slot with
    | inProgress =>
      have hprogress := hfree p .refl
      rw [isInProgress_iff.2 hslot] at hprogress
      cases hprogress
    | done i =>
      -- a finished part has its tree listed already
      have hentry : t.entry? p = some i := h₀.keeps p i (entry?_eq_some_iff.2 hslot)
      have hlisted : addSubtrees trees tree = trees :=
        h₀.lists.addSubtrees_eq (mem_of_entry?_eq_some h₀.represents h₀.lists hentry htree)
      rw [hlisted]
      exact ⟨t, rfl, .refl h₀.represents h₀.lists, by rw [hentry]; rfl⟩

/-- Visiting the parts that were not met when the first of them was visited. -/
theorem run_visits {below : RegexId → Regex.Tree} {t₀ : RegexTable} {ps : List RegexId}
    (hvisit : ∀ p ∈ ps, AddsVisit store p (below p)) (hbelow : ∀ p ∈ ps, store.Unfolds p (below p))
    (hfree : ∀ p ∈ ps, ∀ q, store.Reaches p q → t₀.isInProgress q = false)
    (rest : List Task) (h₀ : Adds store t₀ t trees) :
    ∃ t', run store ((ps.filter fun p => !t₀.slots.contains p).map .visit ++ rest) t =
        run store rest t' ∧
      Adds store t t' ((ps.map below).foldl addSubtrees trees) ∧
      ∀ p ∈ ps, (t'.entry? p).isSome = true := by
  induction ps generalizing t trees with
  | nil => exact ⟨t, rfl, .refl h₀.represents h₀.lists, fun _ h => absurd h List.not_mem_nil⟩
  | cons p ps ih =>
    have hmem : p ∈ p :: ps := List.mem_cons_self ..
    have hrest := fun q (hq : q ∈ ps) => List.mem_cons_of_mem p hq
    obtain ⟨t₁, hrun₁, hadds₁, hp⟩ := run_visit_unmet (hvisit p hmem) (hbelow p hmem)
      (hfree p hmem) ((ps.filter fun p => !t₀.slots.contains p).map .visit ++ rest) h₀
    obtain ⟨t₂, hrun₂, hadds₂, hps⟩ := ih (fun q hq => hvisit q (hrest q hq))
      (fun q hq => hbelow q (hrest q hq)) (fun q hq => hfree q (hrest q hq)) (h₀.trans hadds₁)
    -- the first part is added, and then the others are, to the table it leaves
    have hrun : run store (((p :: ps).filter fun p => !t₀.slots.contains p).map .visit ++ rest) t =
        run store rest t₂ := by
      rw [← List.singleton_append, List.filter_append, List.map_append, List.append_assoc]
      exact hrun₁.trans hrun₂
    refine ⟨t₂, hrun, hadds₁.trans hadds₂, fun q hq => ?_⟩
    rcases List.mem_cons.1 hq with rfl | hq
    · obtain ⟨i, hi⟩ := Option.isSome_iff_exists.1 hp
      rw [hadds₂.keeps q i hi]
      rfl
    · exact hps q hq

/-- Interning an entry lists its tree. -/
theorem lists_intern (h : Represents store (fun _ => True) t)
    (hlists : RegexStore.Lists t.entries trees) {entry : Regex Nat} {tree : Regex.Tree}
    (htree : RegexStore.Unfolds (t.intern entry).2.entries (t.intern entry).1 tree) :
    RegexStore.Lists (t.intern entry).2.entries (addNew trees tree) := by
  obtain ⟨hpos, hat, hsize⟩ := intern_spec h.positions_iff entry
  have hdistinct : ∀ (i j : Nat) (e : Regex Nat), (t.intern entry).2.entries[i]? = some e →
      (t.intern entry).2.entries[j]? = some e → i = j := fun i j e hi hj =>
    Option.some.inj (((hpos e i).2 hi).symm.trans ((hpos e j).2 hj))
  unfold intern at hdistinct htree ⊢
  split at htree
  · -- the entry is there, hence also its tree
    rename_i i hi
    have hmem : tree ∈ trees := hlists.mem_iff.2 ⟨i, htree⟩
    rw [addNew_of_mem hmem]
    simpa only [hi] using hlists
  · rename_i hnone
    simp only [hnone] at hdistinct ⊢
    -- a tree that is listed would have its entry at two places
    have hnew : tree ∉ trees := by
      intro hmem
      obtain ⟨i, hi⟩ := hlists.mem_iff.1 hmem
      have hsame : i = t.entries.size :=
        (hi.mono (RegexStore.Extends.push _ _)).place_unique hdistinct htree
      exact Nat.lt_irrefl _ (hsame ▸ hi.lt_size)
    rw [addNew_of_not_mem hnew]
    exact hlists.push htree

/-- Finishing a regex whose parts are finished lists its tree. -/
theorem run_finish_of_parts {id : RegexId} {r : Regex RegexId} {below : RegexId → Regex.Tree}
    (hid : store[id]? = some r) (hbelow : ∀ p ∈ r.parts, store.Unfolds p (below p))
    (rest : List Task) (h : Represents store (fun _ => True) t)
    (hlists : RegexStore.Lists t.entries trees)
    (hparts : ∀ p ∈ r.parts, (t.entry? p).isSome = true) :
    ∃ t' i, run store (.finish id :: rest) t = run store rest t' ∧
      Represents store (fun _ => True) t' ∧
      RegexStore.Lists t'.entries (addNew trees (.node (r.map below))) ∧
      (∀ q, t'.isInProgress q = if id = q then false else t.isInProgress q) ∧
      ∀ q, t'.entry? q = if id = q then some i else t.entry? q := by
  obtain ⟨entry, hentry⟩ := Regex.exists_mapParts? hparts
  have hfinish := represents_finish h trivial hid hentry
  have hdone : entry? ((t.intern entry).2.setSlot id (.done (t.intern entry).1)) id =
      some (t.intern entry).1 := by
    rw [entry?_setSlot_done, if_pos rfl]
  -- the entry has the tree of the regex
  have htree : RegexStore.Unfolds (t.intern entry).2.entries (t.intern entry).1
      (.node (r.map below)) := by
    obtain ⟨tree, htree, hunfolds⟩ := hfinish.sameTree id _ hdone
    rw [(RegexStore.Unfolds.node hid hbelow).unique htree]
    exact hunfolds
  refine ⟨_, (t.intern entry).1, run_finish hid hentry, hfinish, lists_intern h hlists htree,
    fun q => ?_, fun q => ?_⟩
  · rw [isInProgress_setSlot]
    by_cases hq : id = q
    · rw [if_pos hq, if_pos hq]
      rfl
    · rw [if_neg hq, if_neg hq]
      simp only [isInProgress, slots_intern]
  · rw [entry?_setSlot_done]
    simp only [slots_intern, entry?]

/-- The mark of a regex is not met below its parts. -/
theorem isInProgress_mark_of_leads {id p : RegexId} {tree : Regex.Tree}
    (htree : store.Unfolds id tree) (hp : store.Leads id p)
    (hfree : ∀ q, store.Reaches id q → t.isInProgress q = false) {q : RegexId}
    (hq : store.Reaches p q) : (t.setSlot id .inProgress).isInProgress q = false := by
  have hne : id ≠ q := by
    rintro rfl
    exact htree.sound.not_reaches_of_leads hp hq
  rw [isInProgress_setSlot, if_neg hne]
  exact hfree q (Relation.ReflTransGen.head hp hq)

/-- A visit from the mark to the entry: the mark is taken back, and what was finished before is
finished as before. -/
theorem Adds.of_finish {t₁ t₂ : RegexTable} {id : RegexId} {i : Nat} (hslot : t.slots[id]? = none)
    (hfree : t.isInProgress id = false) (h : Adds store (t.setSlot id .inProgress) t₁ trees')
    (hrep : Represents store (fun _ => True) t₂) (hlists : RegexStore.Lists t₂.entries trees'')
    (hmarks : ∀ q, t₂.isInProgress q = if id = q then false else t₁.isInProgress q)
    (hentry : ∀ q, t₂.entry? q = if id = q then some i else t₁.entry? q) :
    Adds store t t₂ trees'' where
  represents := hrep
  lists := hlists
  marks q := by
    rw [hmarks, h.marks, isInProgress_setSlot]
    by_cases hq : id = q
    · rw [if_pos hq, ← hq, hfree]
    · rw [if_neg hq, if_neg hq]
  keeps q j hj := by
    -- the regex itself had no entry, so an entry that was there belongs to another one
    have hne : id ≠ q := by
      rintro rfl
      rw [entry?_eq_some_iff, hslot] at hj
      cases hj
    rw [hentry, if_neg hne]
    apply h.keeps q j
    rw [entry?_setSlot_inProgress, if_neg hne]
    exact hj

/-- **A regex that has a tree can be visited.** -/
theorem addsVisit_of_unfolds {id : RegexId} {tree : Regex.Tree} (htree : store.Unfolds id tree) :
    AddsVisit store id tree := by
  induction htree with
  | @node id r below hid hbelow ih =>
    intro t trees rest h hlists hfree
    have hlt : id < store.size := (Array.getElem?_eq_some_iff.1 hid).1
    have hget : store[id] = r := (Array.getElem?_eq_some_iff.1 hid).2
    have hnode : store.Unfolds id (.node (r.map below)) := .node hid hbelow
    have hleads : ∀ p ∈ r.parts, store.Leads id p := fun p hp => ⟨r, hid, hp⟩
    cases hslot : t.slots[id]? with
    | some slot =>
      cases slot with
      | inProgress =>
        have hprogress := hfree id .refl
        rw [isInProgress_iff.2 hslot] at hprogress
        cases hprogress
      | done i =>
        have hentry : t.entry? id = some i := entry?_eq_some_iff.2 hslot
        refine ⟨t, run_visit_done hlt hslot, ?_, by rw [hentry]; rfl⟩
        rw [hlists.addSubtrees_eq (mem_of_entry?_eq_some h hlists hentry hnode)]
        exact .refl h hlists
    | none =>
      -- no part is in progress, neither before nor by the mark that is set now
      have hmarked : ∀ p ∈ r.parts, ∀ q, store.Reaches p q →
          (t.setSlot id .inProgress).isInProgress q = false :=
        fun p hp q hq => isInProgress_mark_of_leads hnode (hleads p hp) hfree hq
      have hpart :
          store[id].parts.reverse.find? (t.setSlot id .inProgress).isInProgress = none := by
        rw [List.find?_eq_none]
        intro p hp
        rw [hget, List.mem_reverse] at hp
        rw [hmarked p hp p .refl]
        exact Bool.false_ne_true
      obtain ⟨t₁, hrun₁, hadds₁, hparts₁⟩ := run_visits ih hbelow hmarked (.finish id :: rest)
        (.refl (represents_setSlot_inProgress h id) hlists)
      obtain ⟨t₂, i₂, hrun₂, hrep₂, hlists₂, hmarks₂, hentry₂⟩ :=
        run_finish_of_parts hid hbelow rest hadds₁.represents hadds₁.lists hparts₁
      have hdone : t₂.entry? id = some i₂ := by rw [hentry₂, if_pos rfl]
      have hrun : run store (.visit id :: rest) t = run store rest t₂ := by
        rw [run_visit_new hlt hslot hpart, hget, hrun₁, hrun₂]
      rw [addSubtrees_node, Regex.parts_map]
      exact ⟨t₂, hrun, hadds₁.of_finish hslot (hfree id .refl) hrep₂ hlists₂ hmarks₂ hentry₂,
        by rw [hdone]; rfl⟩

/-- A table that holds trees, with nothing in progress. -/
structure Holds (store : RegexStore) (t : RegexTable) (trees : List Regex.Tree) : Prop where
  represents : Represents store (fun _ => True) t
  lists : RegexStore.Lists t.entries trees
  settled : ∀ id, t.isInProgress id = false

theorem holds_empty (store : RegexStore) : Holds store ∅ [] where
  represents := represents_empty store _
  lists := .empty
  settled id := by
    have hslot : (∅ : RegexTable).slots[id]? = none := Std.TreeMap.getElem?_emptyc
    rw [isInProgress, hslot]
    rfl

/-- A regex that has a tree can be added wherever nothing below it is in progress: the subtrees
of its tree are listed, each after its parts, and the position that is returned is that of the
tree. -/
theorem exists_add_of_unfolds {id : RegexId} {tree : Regex.Tree}
    (h : Represents store (fun _ => True) t) (hlists : RegexStore.Lists t.entries trees)
    (hfree : ∀ p, store.Reaches id p → t.isInProgress p = false)
    (htree : store.Unfolds id tree) :
    ∃ i t', t.add store id = (.ok i, t') ∧ Adds store t t' (addSubtrees trees tree) ∧
      RegexStore.Unfolds t'.entries i tree := by
  obtain ⟨t', hrun, hadds, hsome⟩ := addsVisit_of_unfolds htree t trees [] h hlists hfree
  obtain ⟨i, hi⟩ := Option.isSome_iff_exists.1 hsome
  have hadd : t.add store id = (.ok i, t') := by
    rw [run] at hrun
    rw [RegexTable.add, hrun]
    simp only [hi]
  obtain ⟨tree', htree', hentry⟩ := hadds.represents.sameTree id i hi
  exact ⟨i, t', hadd, hadds, htree.unique htree' ▸ hentry⟩

/-- The same where nothing at all is in progress. -/
theorem Holds.add {id : RegexId} {tree : Regex.Tree} (h : Holds store t trees)
    (htree : store.Unfolds id tree) :
    ∃ i t', t.add store id = (.ok i, t') ∧ Holds store t' (addSubtrees trees tree) ∧
      RegexStore.Unfolds t'.entries i tree := by
  obtain ⟨i, t', hadd, hadds, hentry⟩ :=
    exists_add_of_unfolds h.represents h.lists (fun p _ => h.settled p) htree
  refine ⟨i, t', hadd, ⟨hadds.represents, hadds.lists, fun p => ?_⟩, hentry⟩
  rw [hadds.marks, h.settled]

end RegexTable

end GuidedGrammar
