import Mathlib.Logic.Relation
import GuidedGrammar.Proofs.Grammar.WellFormed

/-!
# Steps of building

All that happens to an arena while it is built is that a regex or a node is added, that a nested
grammar is given its start, or that a generation is given an inferred stop (`Arena.Step`). Each
step lets the arena grow (`Step.grows`) and keeps it consistent (`Step.consistent`): it stays well
formed, and at every boundary that inference has dealt with, the stops keep agreeing with what
can follow.

The second half is where the order of building matters. Which stops a boundary needs depends on
what its two sides derive, and that is fixed once they are there; a stop that is set is never
changed. So a boundary that was settled when its sequence was added remains settled
(`Node.Settled.grow`).
-/

namespace GuidedGrammar

/-! ### Settled boundaries -/

/-- Whether a stop agrees with a terminal that can follow. An explicit stop agrees with
everything, an inferred one with the literals that start with its character. -/
def Stop.Fits (a : Arena) (follower : NodeId) : Stop → Prop
  | unset => False
  | explicit _ => True
  | inferred c _ _ => a.StartsWith follower c

/-- A settled boundary of a sequence, between an element and those after it: every generation
that can end the left side has a stop that agrees with everything that can start the right
side. -/
def Arena.Settled (a : Arena) (x : NodeId) (rest : List NodeId) : Prop :=
  ∀ (id u : NodeId) (g : Generation), a.generation? id = some g → a.CanEnd x id →
    a.CanStart rest u → g.stop.Fits a u

/-- Whether the boundaries of a sequence are settled, except where the right side may match the
empty text. -/
def Node.Settled (a : Arena) (n : Node) : Prop :=
  ∀ (before rest : List NodeId) (x : NodeId), n.kind = .sequence (before ++ x :: rest) →
    rest.all a.isNullable = false → a.Settled x rest

/-- A well-formed arena with settled sequences. -/
structure Arena.Consistent (a : Arena) : Prop extends a.WellFormed where
  settled : ∀ (id : NodeId) (n : Node), a.node? id = some n → n.Settled a

theorem Stop.Fits.grow {a b : Arena} (h : a.Grows b) {u : NodeId} {stop : Stop}
    (hstop : stop.Fits a u) : stop.Fits b u := by
  cases stop with
  | unset => exact hstop
  | explicit => exact hstop
  | inferred => exact h.startsWith hstop

/-- Nodes other than sequences have no boundaries. -/
theorem Node.Settled.of_ne_sequence {a : Arena} {n : Node}
    (hn : ∀ elements, n.kind ≠ .sequence elements) : n.Settled a :=
  fun _ _ _ hkind => absurd hkind (hn _)

/-- What the sides of a boundary derive is fixed once they are there, so a sequence is settled in an
arena if the stops agree with what its elements derived in an earlier one. -/
theorem Node.Settled.of_earlier {a b : Arena} {n : Node} (ha : a.Ordered) (h : a.Grows b)
    (hn : ∀ x ∈ n.inlineChildren, x < a.nodes.size)
    (hfits : ∀ (before rest : List NodeId) (x : NodeId), n.kind = .sequence (before ++ x :: rest) →
      rest.all a.isNullable = false → ∀ (id u : NodeId) (g : Generation),
        b.generation? id = some g → a.CanEnd x id → a.CanStart rest u → g.stop.Fits b u) :
    n.Settled b := by
  intro before rest x hkind hsolid id u g hg hend hstart
  -- the elements are nodes of the smaller arena, where starting and ending are the same
  have hmem : ∀ y ∈ before ++ x :: rest, y < a.nodes.size := by
    intro y hy
    apply hn
    rwa [Node.inlineChildren, hkind]
  have hx : x < a.nodes.size := hmem x (List.mem_append_right _ (List.mem_cons_self ..))
  have hrest : ∀ y ∈ rest, y < a.nodes.size :=
    fun y hy => hmem y (List.mem_append_right _ (List.mem_cons_of_mem _ hy))
  rw [h.all_isNullable_eq hrest] at hsolid
  exact hfits before rest x hkind hsolid id u g hg (hend.shrink ha h hx) (hstart.shrink ha h hrest)

/-- **Settled sequences remain settled.** -/
theorem Node.Settled.grow {a b : Arena} {n : Node} (ha : a.Ordered) (h : a.Grows b)
    (hn : ∀ x ∈ n.inlineChildren, x < a.nodes.size) (hsettled : n.Settled a) : n.Settled b := by
  refine .of_earlier ha h hn fun before rest x hkind hsolid id u g hg hend hstart => ?_
  obtain ⟨g', hg', heq⟩ := h.generation? hend.lt_size hg
  have hfits : g'.stop.Fits a u := hsettled before rest x hkind hsolid id u g' hg' hend hstart
  -- a settled stop is set, so the generation has not changed
  rcases heq with rfl | hunset
  · exact hfits.grow h
  · rw [hunset] at hfits
    exact hfits.elim

namespace Arena

variable {a b : Arena}

theorem consistent_empty : (∅ : Arena).Consistent where
  toWellFormed := wellFormed_empty
  settled id n h := absurd h (by rw [node?, show (∅ : Arena).nodes = #[] from rfl]; simp)

/-- **An arena that grows stays consistent** if what is new or has changed is as it should be. -/
theorem Consistent.grow (ha : a.Consistent) (h : a.Grows b)
    (hregex : ∀ (id : RegexId) (r : Regex RegexId), b.regexes[id]? = some r →
      a.regexes[id]? = some r ∨ r.WellFormedAt id)
    (hnode : ∀ (id : NodeId) (n : Node), b.node? id = some n →
      a.node? id = some n ∨ n.WellFormedAt b id ∧ n.Settled b) : b.Consistent where
  regex id r hr := by
    rcases hregex id r hr with hold | hnew
    · exact ha.regex id r hold
    · exact hnew
  node id n hn := by
    -- an old node stays well-formed in the larger arena
    rcases hnode id n hn with hold | ⟨hnew, -⟩
    · exact (ha.node id n hold).grow (Nat.le_of_lt (node?_eq_some_lt hold)) h
    · exact hnew
  settled id n hn := by
    rcases hnode id n hn with hold | ⟨-, hnew⟩
    · exact (ha.settled id n hold).grow ha.ordered h fun x hx => ha.ordered.lt_size hold hx
    · exact hnew

/-! ### Steps -/

/-- The arena with one more regex. -/
def withRegex (a : Arena) (r : Regex RegexId) : Arena :=
  { a with regexes := a.regexes.push r }

/-- The arena with one more node. -/
def withNode (a : Arena) (n : Node) : Arena :=
  { a with nodes := a.nodes.push n }

/-- The arena with one node changed. -/
def change (a : Arena) (id : NodeId) (f : Node → Node) : Arena :=
  { a with nodes := a.nodes.modify id f }

theorem node?_withNode (a : Arena) (n : Node) (id : NodeId) :
    (a.withNode n).node? id = if id = a.nodes.size then some n else a.node? id :=
  Array.getElem?_push

theorem node?_change (a : Arena) (id : NodeId) (f : Node → Node) (id' : NodeId) :
    (a.change id f).node? id' = if id = id' then (a.node? id').map f else a.node? id' :=
  Array.getElem?_modify

/-- **A step of building an arena.** -/
inductive Step (a : Arena) : Arena → Prop
  /-- A regex is added. -/
  | regex {r : Regex RegexId} (hr : r.WellFormedAt a.regexes.size) : Step a (a.withRegex r)
  /-- A node is added. -/
  | node {n : Node} (hn : n.WellFormedAt a a.nodes.size) (hsettled : n.Settled a) :
    Step a (a.withNode n)
  /-- A nested grammar is given its start. -/
  | start {id start : NodeId} {skip : Option RegexId}
    (hid : a.kind? id = some (.nested none skip)) (hstart : start < a.nodes.size) :
    Step a (a.change id (Builder.withStart start))
  /-- A generation is given an inferred stop. -/
  | stop {id source : NodeId} {g : Generation} {c : Char} {regex : RegexId}
    (hid : a.generation? id = some g) (hg : g.stop = .unset)
    (hregex : a.regexes[regex]? = some (.literal (String.singleton c)))
    (hsource : a.StartsWith source c) :
    Step a (a.change id (Builder.withStop (.inferred c regex source)))

/-- Any number of steps. -/
def Steps : Arena → Arena → Prop :=
  Relation.ReflTransGen Step

theorem grows_withRegex (a : Arena) (r : Regex RegexId) : a.Grows (a.withRegex r) :=
  ⟨RegexStore.Extends.push a.regexes r, fun _ n hn => ⟨n, hn, .same n⟩⟩

theorem grows_withNode (a : Arena) (n : Node) : a.Grows (a.withNode n) := by
  refine ⟨RegexStore.Extends.refl _, fun id n' hn' => ⟨n', ?_, .same n'⟩⟩
  rw [node?_withNode, if_neg (Nat.ne_of_lt (node?_eq_some_lt hn'))]
  exact hn'

theorem grows_change {id : NodeId} {f : Node → Node}
    (hf : ∀ n, a.node? id = some n → n.Becomes (f n)) : a.Grows (a.change id f) := by
  refine ⟨RegexStore.Extends.refl _, fun id' n hn => ?_⟩
  rw [node?_change]
  by_cases hid : id = id'
  · rw [if_pos hid, hn]
    exact ⟨f n, rfl, hf n (hid ▸ hn)⟩
  · rw [if_neg hid]
    exact ⟨n, hn, .same n⟩

theorem kind_of_kind? {id : NodeId} {n : Node} {kind : NodeKind} (hn : a.node? id = some n)
    (hkind : a.kind? id = some kind) : n.kind = kind := by
  obtain ⟨n', hn', hkind'⟩ := kind?_eq_some.1 hkind
  rw [Option.some.inj (hn.symm.trans hn'), hkind']

theorem becomes_withStart {n : Node} {skip : Option RegexId} (hn : n.kind = .nested none skip)
    (start : NodeId) : n.Becomes (Builder.withStart start n) := by
  obtain ⟨kind, props, nullable⟩ := n
  obtain rfl : kind = .nested none skip := hn
  exact .start start

theorem becomes_withStop {n : Node} {g : Generation} (hn : n.kind = .generation g)
    (hg : g.stop = .unset) (c : Char) (regex : RegexId) (source : NodeId) :
    n.Becomes (Builder.withStop (.inferred c regex source) n) := by
  obtain ⟨kind, props, nullable⟩ := n
  obtain rfl : kind = .generation g := hn
  exact .stop hg c regex source

/-- **A step lets the arena grow.** -/
theorem Step.grows (h : Step a b) : a.Grows b := by
  cases h with
  | regex => exact grows_withRegex a _
  | node => exact grows_withNode a _
  | start hid => exact grows_change fun n hn => becomes_withStart (kind_of_kind? hn hid) _
  | stop hid hg =>
    exact grows_change fun n hn =>
      becomes_withStop (kind_of_kind? hn (generation?_eq_some.1 hid)) hg _ _ _

/-- The regexes of an arena with one more. -/
theorem regex_withRegex {r r' : Regex RegexId} {id : RegexId}
    (h : (a.withRegex r).regexes[id]? = some r') :
    a.regexes[id]? = some r' ∨ id = a.regexes.size ∧ r' = r := by
  rw [withRegex, Array.getElem?_push] at h
  by_cases hid : id = a.regexes.size
  · rw [if_pos hid] at h
    exact Or.inr ⟨hid, (Option.some.inj h).symm⟩
  · rw [if_neg hid] at h
    exact Or.inl h

/-- A nested grammar may be given a start that is there. -/
theorem wellFormedAt_withStart {n : Node} {id start : NodeId} {skip : Option RegexId}
    (hn : n.WellFormedAt a id) (hkind : n.kind = .nested none skip)
    (hstart : start < a.nodes.size) : (Builder.withStart start n).WellFormedAt a id := by
  obtain ⟨kind, props, nullable⟩ := n
  obtain rfl : kind = .nested none skip := hkind
  refine ⟨hn.inlineChildren_lt, ?_, hn.regexes_lt, fun g c regex source h => ?_, hn.nullable_eq⟩
  · intro start' skip' h
    obtain ⟨hsame, -⟩ := NodeKind.nested.inj h
    exact Option.some.inj hsame ▸ hstart
  · cases h

/-- A generation may be given a stop that is the regex of a character, read from a literal. -/
theorem wellFormedAt_withStop {n : Node} {id source : NodeId} {g : Generation} {c : Char}
    {regex : RegexId} (hn : n.WellFormedAt a id) (hkind : n.kind = .generation g)
    (hregex : a.regexes[regex]? = some (.literal (String.singleton c)))
    (hsource : a.StartsWith source c) :
    (Builder.withStop (.inferred c regex source) n).WellFormedAt a id := by
  obtain ⟨kind, props, nullable⟩ := n
  obtain rfl : kind = .generation g := hkind
  refine ⟨hn.inlineChildren_lt, fun start skip h => ?_, fun r hr => ?_, ?_, hn.nullable_eq⟩
  · cases h
  · -- the regexes are those the node had, and that of the stop
    rcases List.mem_cons.1 hr with rfl | hr
    · exact hn.regexes_lt _ (List.mem_cons_self ..)
    · obtain rfl := List.mem_singleton.1 hr
      exact (Array.getElem?_eq_some_iff.1 hregex).1
  · intro g' c' regex' source' hg' hstop
    obtain rfl := NodeKind.generation.inj hg'
    obtain ⟨rfl, rfl, rfl⟩ := Stop.inferred.inj hstop
    exact ⟨hregex, hsource⟩

/-- Changing a node keeps the arena consistent if the node has no boundaries. -/
theorem Consistent.change (ha : a.Consistent) {id : NodeId} {f : Node → Node}
    (hf : ∀ n, a.node? id = some n → n.Becomes (f n) ∧ (f n).WellFormedAt a id ∧
      ∀ elements, (f n).kind ≠ .sequence elements) : (a.change id f).Consistent := by
  have hgrows : a.Grows (a.change id f) := grows_change fun n hn => (hf n hn).1
  refine ha.grow hgrows (fun _ _ hr => Or.inl hr) fun id' n' hn' => ?_
  rw [node?_change] at hn'
  by_cases hid : id = id'
  · subst hid
    rw [if_pos rfl] at hn'
    obtain ⟨n, hn, rfl⟩ := Option.map_eq_some_iff.1 hn'
    obtain ⟨-, hwell, hplain⟩ := hf n hn
    exact Or.inr ⟨hwell.grow (Nat.le_of_lt (node?_eq_some_lt hn)) hgrows, .of_ne_sequence hplain⟩
  · rw [if_neg hid] at hn'
    exact Or.inl hn'

/-- **A step keeps the arena consistent.** -/
theorem Step.consistent (ha : a.Consistent) (h : Step a b) : b.Consistent := by
  cases h with
  | regex hr =>
    refine ha.grow (grows_withRegex a _) (fun id r' hr' => ?_) fun _ _ hn => Or.inl hn
    rcases regex_withRegex hr' with hold | ⟨rfl, rfl⟩
    · exact Or.inl hold
    · exact Or.inr hr
  | @node n hn hsettled =>
    have hgrows := grows_withNode a n
    refine ha.grow hgrows (fun _ _ hr => Or.inl hr) fun id n' hn' => ?_
    rw [node?_withNode] at hn'
    -- the node is the one just added, or an earlier one
    by_cases hid : id = a.nodes.size
    · rw [if_pos hid] at hn'
      obtain rfl := Option.some.inj hn'
      rw [hid]
      exact Or.inr ⟨hn.grow (Nat.le_refl _) hgrows,
        hsettled.grow ha.ordered hgrows hn.inlineChildren_lt⟩
    · rw [if_neg hid] at hn'
      exact Or.inl hn'
  | start hid hstart =>
    refine ha.change fun n hn => ?_
    have hkind := kind_of_kind? hn hid
    refine ⟨becomes_withStart hkind _, wellFormedAt_withStart (ha.node _ n hn) hkind hstart, ?_⟩
    -- only a sequence has to be settled, and a nested node is none
    intro elements h
    rw [Builder.withStart, hkind] at h
    cases h
  | stop hid hg hregex hsource =>
    refine ha.change fun n hn => ?_
    have hkind := kind_of_kind? hn (generation?_eq_some.1 hid)
    refine ⟨becomes_withStop hkind hg _ _ _,
      wellFormedAt_withStop (ha.node _ n hn) hkind hregex hsource, ?_⟩
    intro elements h
    rw [Builder.withStop, hkind] at h
    cases h

theorem Steps.grows (h : Steps a b) : a.Grows b := by
  induction h with
  | refl => exact Grows.refl a
  | tail _ hstep ih => exact ih.trans hstep.grows

/-- **Steps keep an arena consistent.** -/
theorem Steps.consistent (ha : a.Consistent) (h : Steps a b) : b.Consistent := by
  induction h with
  | refl => exact ha
  | tail _ hstep ih => exact hstep.consistent ih

end Arena

end GuidedGrammar
