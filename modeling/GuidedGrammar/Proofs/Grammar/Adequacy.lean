import GuidedGrammar.Proofs.Grammar.FrontierOrder
import GuidedGrammar.Proofs.Grammar.Frontier

/-!
# Flags and frontiers are exact

The nullable flag of a node is computed once, when the node is added, from the flags of the nodes
below it; frontiers are found by a walk that these flags guide. Neither looks at derivations. Still,
a flag is set exactly if the node derives nothing but empty literals in some way
(`isNullable_iff_exists_derives`), and the frontiers of a sequence cover what its derivations start
and end with, up to empty literals, and hold nothing else as long as no choice below the sequence is
without alternatives (`frontiers_adequate`).

That frontiers cover derivations needs that a set flag is not missed (`MarksNullable`), and that
they hold nothing else needs that no flag is set without reason (`ExplainsNullable`). The second
half is proved along the walk: what is skipped derives empty literals, and what is left over derives
something, as a choice without alternatives is the only node that derives nothing.
-/

namespace GuidedGrammar.Arena

variable {a : Arena}

/-- Nodes that derive something of a kind one by one do so one after the other. -/
theorem exists_derivesAll {P : NodeId → Prop} {xs : List NodeId}
    (h : ∀ x ∈ xs, ∃ ts, a.Derives x ts ∧ ∀ t ∈ ts, P t) :
    ∃ ts, a.DerivesAll xs ts ∧ ∀ t ∈ ts, P t := by
  induction xs with
  | nil => exact ⟨[], .nil, fun t ht => absurd ht List.not_mem_nil⟩
  | cons x xs ih =>
    obtain ⟨hx, hxs⟩ := List.forall_mem_cons.1 h
    obtain ⟨ts, hts, hP⟩ := hx
    obtain ⟨us, hus, hP'⟩ := ih hxs
    exact ⟨ts ++ us, .cons hts hus, List.forall_mem_append.2 ⟨hP, hP'⟩⟩

/-! ### Nullable nodes -/

/-- Whether all nodes that are marked as nullable derive nothing but empty literals in some way. -/
def ExplainsNullable (a : Arena) : Prop :=
  ∀ id, a.isNullable id = true → ∃ ts, a.Derives id ts ∧ a.AllEmpty ts

/-- A flag is not set without reason. Within a grammar references lead backwards, so the reason
is found below the node. -/
theorem WellFormed.explainsNullable (ha : a.WellFormed) : a.ExplainsNullable := by
  intro id h
  -- by strong induction on the id: a choice and a sequence refer to earlier nodes only
  induction id using Nat.strongRecOn with
  | ind id ih =>
    obtain ⟨n, hn, -⟩ := (Option.any_eq_true _ _).1 h
    have hkind : a.kind? id = some n.kind := kind?_eq_some.2 ⟨n, hn, rfl⟩
    have hterminal : a.isTerminal id = n.isTerminal := by rw [isTerminal, hn, Option.any_some]
    have hbelow := ha.ordered id n hn
    rw [ha.isNullable_eq hkind] at h
    unfold Node.isTerminal at hterminal
    unfold Node.inlineChildren at hbelow
    cases hk : n.kind with
    | literal text =>
      rw [hk] at hkind hterminal h
      have hempty : text = "" := String.isEmpty_iff.1 h
      rw [hempty] at hkind
      exact ⟨[id], .terminal hterminal, List.forall_mem_singleton.2 (literal?_eq_some.2 hkind)⟩
    | choice alternatives =>
      rw [hk] at hkind hbelow h
      obtain ⟨x, hx, hnull⟩ := List.any_eq_true.1 h
      obtain ⟨ts, hts, hempty⟩ := ih x (hbelow x hx) hnull
      exact ⟨ts, .choice hkind hx hts, hempty⟩
    | sequence elements =>
      rw [hk] at hkind hbelow h
      obtain ⟨ts, hts, hempty⟩ := exists_derivesAll (P := fun t => a.literal? t = some "")
        fun x hx => ih x (hbelow x hx) (List.all_eq_true.1 h x hx)
      exact ⟨ts, .sequence hkind hts, hempty⟩
    | generation | lexeme | nested =>
      rw [hk] at h
      cases h

theorem ExplainsNullable.mirror (ha : a.ExplainsNullable) : a.mirror.ExplainsNullable := by
  intro id h
  rw [isNullable_mirror] at h
  obtain ⟨ts, hts, hempty⟩ := ha id h
  exact ⟨ts.reverse, hts.mirror, hempty.mirror⟩

/-- **The nullable flag is always right.** However an arena has been built, the flag of a node is
set if and only if the node has a derivation that consists of empty literals, possibly of none. -/
theorem isNullable_iff_exists_derives (calls : List Call) (id : NodeId) :
    (ofCalls calls).isNullable id = true ↔
      ∃ ts, (ofCalls calls).Derives id ts ∧ (ofCalls calls).AllEmpty ts := by
  have ha := (consistent_ofCalls calls).toWellFormed
  constructor
  · exact ha.explainsNullable id
  · rintro ⟨ts, hts, hempty⟩
    exact ha.marksNullable id ts hts hempty

/-! ### What derivations start and end with -/

/-- Whether a derivation of a sequence can start with a terminal, up to empty literals. -/
def StartsDerivation (a : Arena) (xs : List NodeId) (t : NodeId) : Prop :=
  ∃ es ts, a.DerivesAll xs (es ++ t :: ts) ∧ a.AllEmpty es

/-- Whether a derivation of a sequence can end with a terminal, up to empty literals. -/
def EndsDerivation (a : Arena) (xs : List NodeId) (t : NodeId) : Prop :=
  ∃ ts es, a.DerivesAll xs (ts ++ t :: es) ∧ a.AllEmpty es

/-- Whether no choice below a sequence is without alternatives, its elements included. -/
def HasAlternatives (a : Arena) (xs : List NodeId) : Prop :=
  ∀ x, (a.graph Node.inlineChildren).ReachesFrom xs x → a.kind? x ≠ some (.choice [])

/-- To end is to start in the mirror image. -/
theorem startsDerivation_mirror_iff {xs : List NodeId} {t : NodeId} :
    a.mirror.StartsDerivation xs.reverse t ↔ a.EndsDerivation xs t := by
  constructor
  · rintro ⟨es, ts, hd, hes⟩
    have hd' := hd.mirror
    have hes' := hes.mirror
    rw [mirror_mirror, List.reverse_reverse, List.reverse_append, List.reverse_cons,
      List.append_assoc] at hd'
    rw [mirror_mirror] at hes'
    exact ⟨ts.reverse, es.reverse, hd', hes'⟩
  · rintro ⟨ts, es, hd, hes⟩
    have hd' := hd.mirror
    rw [List.reverse_append, List.reverse_cons, List.append_assoc] at hd'
    exact ⟨es.reverse, ts.reverse, hd', hes.mirror⟩

/-- The nodes that are looked at from the front of a sequence are those that only nullable ones
come before. -/
theorem mem_untilSolid_iff {xs : List NodeId} {y : NodeId} : y ∈ a.untilSolid xs ↔
    ∃ before after, xs = before ++ y :: after ∧ ∀ x ∈ before, a.isNullable x = true := by
  constructor
  · intro hy
    induction xs with
    | nil => exact absurd hy List.not_mem_nil
    | cons x xs ih =>
      -- a nullable head is passed, a solid one is the last element listed
      rw [untilSolid] at hy
      split at hy
      · rename_i hx
        rcases List.mem_cons.1 hy with rfl | hy
        · exact ⟨[], xs, rfl, fun z hz => absurd hz List.not_mem_nil⟩
        · obtain ⟨before, after, rfl, hbefore⟩ := ih hy
          exact ⟨x :: before, after, rfl, List.forall_mem_cons.2 ⟨hx, hbefore⟩⟩
      · obtain rfl := List.mem_singleton.1 hy
        exact ⟨[], xs, rfl, fun z hz => absurd hz List.not_mem_nil⟩
  · rintro ⟨before, after, rfl, hbefore⟩
    induction before with
    | nil => exact mem_untilSolid_head a y after
    | cons x before ih =>
      obtain ⟨hx, hbefore⟩ := List.forall_mem_cons.1 hbefore
      exact mem_untilSolid_tail hx (ih hbefore)

/-- A node without a choice that has no alternatives below it derives something. -/
theorem Ordered.exists_derives (ha : a.Ordered) {x : NodeId} (hx : x < a.nodes.size)
    (hchoices : a.HasAlternatives [x]) : ∃ ts, a.Derives x ts := by
  induction x using Nat.strongRecOn with
  | ind x ih =>
    obtain ⟨n, hn⟩ := exists_node?_of_lt hx
    have hkind : a.kind? x = some n.kind := kind?_eq_some.2 ⟨n, hn, rfl⟩
    have hterminal : a.isTerminal x = n.isTerminal := by rw [isTerminal, hn, Option.any_some]
    have hbelow : ∀ y ∈ n.inlineChildren, ∃ ts, a.Derives y ts := by
      intro y hy
      -- a choice below `y` is below `x`, too
      refine ih y (ha x n hn y hy) (ha.lt_size hn hy) fun z hz => hchoices z ?_
      rw [Digraph.reachesFrom_singleton] at hz ⊢
      exact hz.head (edge_graph_iff.2 ⟨n, hn, hy⟩)
    unfold Node.isTerminal at hterminal
    unfold Node.inlineChildren at hbelow
    cases hk : n.kind with
    | choice alternatives =>
      rw [hk] at hkind hbelow
      cases alternatives with
      | nil => exact absurd hkind (hchoices x (Digraph.reachesFrom_singleton.2 (.refl x)))
      | cons y alternatives =>
        obtain ⟨ts, hts⟩ := hbelow y (List.mem_cons_self ..)
        exact ⟨ts, .choice hkind (List.mem_cons_self ..) hts⟩
    | sequence elements =>
      rw [hk] at hkind hbelow
      obtain ⟨ts, hts, -⟩ := exists_derivesAll (P := fun _ => True) fun y hy =>
        (hbelow y hy).imp fun ts hts => ⟨hts, fun _ _ => trivial⟩
      exact ⟨ts, .sequence hkind hts⟩
    | literal | generation | lexeme | nested =>
      rw [hk] at hterminal
      exact ⟨[x], .terminal hterminal⟩

/-! ### What the walk finds -/

section Walk

variable {P : NodeId → Prop}

/-- What starts a derivation of a node that is looked at starts one of the sequence, if what comes
after the node derives anything. -/
theorem ExplainsNullable.startsDerivation_of_mem (ha : a.ExplainsNullable) {xs : List NodeId}
    (hderives : ∀ x ∈ xs, ∃ ts, a.Derives x ts) {y t : NodeId} (hy : y ∈ a.untilSolid xs)
    (ht : a.StartsDerivation [y] t) : a.StartsDerivation xs t := by
  obtain ⟨before, after, rfl, hbefore⟩ := mem_untilSolid_iff.1 hy
  obtain ⟨es, ts, hd, hes⟩ := ht
  -- what comes before the node derives empty literals, and what comes after it derives something
  obtain ⟨fs, hfs, hempty⟩ := exists_derivesAll (P := fun t => a.literal? t = some "")
    fun x hx => ha x (hbefore x hx)
  have hafter : ∀ x ∈ after, ∃ ts, a.Derives x ts ∧ ∀ t ∈ ts, True := fun x hx =>
    (hderives x (List.mem_append_right _ (List.mem_cons_of_mem _ hx))).imp
      fun ts hts => ⟨hts, fun _ _ => trivial⟩
  obtain ⟨us, hus, -⟩ := exists_derivesAll hafter
  refine ⟨fs ++ es, ts ++ us, ?_, AllEmpty.append hempty hes⟩
  simpa only [List.append_assoc, List.cons_append] using
    hfs.append (.cons (DerivesAll.singleton.1 hd) hus)

/-- One step of the walk: what starts a derivation of a node starts one of the node that leads to
it. -/
theorem ExplainsNullable.startsDerivation_of_edge (ha : a.ExplainsNullable)
    (hclosed : a.ClosedInline P) (hderives : ∀ x, P x → ∃ ts, a.Derives x ts) {x y t : NodeId}
    (hx : P x) (hxy : (a.graph a.leading).Edge x y) (ht : a.StartsDerivation [y] t) :
    a.StartsDerivation [x] t := by
  obtain ⟨n, hn, hy⟩ := edge_graph_iff.1 hxy
  have hkind : a.kind? x = some n.kind := kind?_eq_some.2 ⟨n, hn, rfl⟩
  have hbelow := hclosed x n hx hn
  unfold leading at hy
  unfold Node.inlineChildren at hbelow
  cases hk : n.kind with
  | choice alternatives =>
    rw [hk] at hkind hy
    obtain ⟨es, ts, hd, hes⟩ := ht
    exact ⟨es, ts, DerivesAll.singleton.2 (.choice hkind hy (DerivesAll.singleton.1 hd)), hes⟩
  | sequence elements =>
    rw [hk] at hkind hy hbelow
    obtain ⟨es, ts, hd, hes⟩ :=
      ha.startsDerivation_of_mem (fun z hz => hderives z (hbelow z hz)) hy ht
    exact ⟨es, ts, DerivesAll.singleton.2 (.sequence hkind hd), hes⟩
  | literal | generation | lexeme | nested =>
    rw [hk] at hy
    exact absurd hy List.not_mem_nil

/-- What the walk arrives at starts a derivation of where the walk began. -/
theorem ExplainsNullable.startsDerivation_of_reaches (ha : a.ExplainsNullable)
    (hclosed : a.ClosedInline P) (hderives : ∀ x, P x → ∃ ts, a.Derives x ts) {x t : NodeId}
    (hx : P x) (h : (a.graph a.leading).Reaches x t) (ht : a.isTerminal t = true) :
    a.StartsDerivation [x] t := by
  induction h using Relation.ReflTransGen.head_induction_on with
  | refl =>
    exact ⟨[], [], DerivesAll.singleton.2 (.terminal ht), fun e he => absurd he List.not_mem_nil⟩
  | head hxy _ ih =>
    obtain ⟨n, hn, hy⟩ := edge_graph_iff.1 hxy
    have hPy := hclosed _ n hx hn _ (mem_inlineChildren_of_leading hy)
    exact ha.startsDerivation_of_edge hclosed hderives hx hxy (ih hPy)

/-- The first frontier holds nothing but starts of derivations, if all nodes below the sequence
derive something. -/
theorem ExplainsNullable.startsDerivation_of_mem_firstFrontier (ha : a.ExplainsNullable)
    (hclosed : a.ClosedInline P) (hderives : ∀ x, P x → ∃ ts, a.Derives x ts) {xs : List NodeId}
    (hxs : ∀ x ∈ xs, P x) {t : NodeId} (ht : t ∈ a.firstFrontier xs) :
    a.StartsDerivation xs t := by
  obtain ⟨⟨y, hy, hreaches⟩, hterminal⟩ := mem_firstFrontier_iff.1 ht
  have hPy : P y := hxs y (mem_of_mem_untilSolid hy)
  exact ha.startsDerivation_of_mem (fun x hx => hderives x (hxs x hx)) hy
    (ha.startsDerivation_of_reaches hclosed hderives hPy hreaches hterminal)

/-- The last frontier holds nothing but ends of derivations, if all nodes below the sequence
derive something. -/
theorem ExplainsNullable.endsDerivation_of_mem_lastFrontier (ha : a.ExplainsNullable)
    (hclosed : a.ClosedInline P) (hderives : ∀ x, P x → ∃ ts, a.Derives x ts) {xs : List NodeId}
    (hxs : ∀ x ∈ xs, P x) {t : NodeId} (ht : t ∈ a.lastFrontier xs) : a.EndsDerivation xs t := by
  -- the mirror image has the same nodes below the sequence, and derives the reverse
  rw [lastFrontier_eq_mirror] at ht
  refine startsDerivation_mirror_iff.1 (ha.mirror.startsDerivation_of_mem_firstFrontier
    hclosed.mirror (fun x hx => ?_) (fun x hx => hxs x (List.mem_reverse.1 hx)) ht)
  obtain ⟨ts, hts⟩ := hderives x hx
  exact ⟨ts.reverse, hts.mirror⟩

end Walk

/-! ### Frontiers -/

theorem MarksNullable.mem_firstFrontier_of_startsDerivation (ha : a.MarksNullable)
    {xs : List NodeId} {t : NodeId} (h : a.StartsDerivation xs t) : t ∈ a.firstFrontier xs := by
  obtain ⟨es, ts, hd, hes⟩ := h
  exact ha.mem_firstFrontier hd hes

theorem MarksNullable.mem_lastFrontier_of_endsDerivation (ha : a.MarksNullable)
    {xs : List NodeId} {t : NodeId} (h : a.EndsDerivation xs t) : t ∈ a.lastFrontier xs := by
  rw [lastFrontier_eq_mirror]
  exact ha.mirror.mem_firstFrontier_of_startsDerivation (startsDerivation_mirror_iff.2 h)

theorem HasAlternatives.of_mem {xs : List NodeId} (h : a.HasAlternatives xs) {x : NodeId}
    (hx : (a.graph Node.inlineChildren).ReachesFrom xs x) : a.HasAlternatives [x] := by
  intro y hy
  obtain ⟨r, hr, hreaches⟩ := hx
  exact h y ⟨r, hr, hreaches.trans (Digraph.reachesFrom_singleton.1 hy)⟩

/-- What is below a sequence stays below it further down. -/
theorem closedInline_reachesFrom (a : Arena) (xs : List NodeId) :
    a.ClosedInline ((a.graph Node.inlineChildren).ReachesFrom xs) := by
  rintro x n ⟨r, hr, hreaches⟩ hn y hy
  exact ⟨r, hr, hreaches.tail (edge_graph_iff.2 ⟨n, hn, hy⟩)⟩

/-- What is below known nodes is known. -/
theorem Ordered.lt_size_of_reachesFrom (ha : a.Ordered) {xs : List NodeId}
    (hxs : ∀ x ∈ xs, x < a.nodes.size) {x : NodeId}
    (hx : (a.graph Node.inlineChildren).ReachesFrom xs x) : x < a.nodes.size := by
  obtain ⟨r, hr, hreaches⟩ := hx
  induction hreaches with
  | refl => exact hxs r hr
  | tail _ huv _ =>
    obtain ⟨n, hn, hv⟩ := edge_graph_iff.1 huv
    exact ha.lt_size hn hv

/-- **Frontiers are adequate for derivations.** The frontiers of a sequence of known nodes are
found. Every terminal that comes first in a derivation, up to empty literals, is in the first one,
and every terminal that comes last is in the last one. Unless some choice below the sequence has no
alternatives, every member of the first frontier comes first in some derivation, up to empty
literals, and every member of the last one comes last in some derivation. -/
theorem frontiers_adequate (calls : List Call) (xs : List NodeId)
    (hxs : ∀ x ∈ xs, x < (ofCalls calls).nodes.size) :
    ∃ first last, (ofCalls calls).firstFrontier? xs = some first ∧
      (ofCalls calls).lastFrontier? xs = some last ∧
      (∀ t, (ofCalls calls).StartsDerivation xs t → t ∈ first) ∧
      (∀ t, (ofCalls calls).EndsDerivation xs t → t ∈ last) ∧
      ((ofCalls calls).HasAlternatives xs →
        (∀ t ∈ first, (ofCalls calls).StartsDerivation xs t) ∧
        ∀ t ∈ last, (ofCalls calls).EndsDerivation xs t) := by
  have ha := (consistent_ofCalls calls).toWellFormed
  have hback : ∀ x ∈ xs.reverse, x < (ofCalls calls).nodes.size :=
    fun x hx => hxs x (List.mem_reverse.1 hx)
  refine ⟨_, _, by rw [firstFrontier?, knowsLeading_of_lt hxs, if_pos rfl],
    by rw [lastFrontier?, knowsLeading_of_lt hback, if_pos rfl], fun t ht => ?_, fun t ht => ?_,
    fun hchoices => ⟨fun t ht => ?_, fun t ht => ?_⟩⟩
  · exact ha.marksNullable.mem_firstFrontier_of_startsDerivation ht
  · exact ha.marksNullable.mem_lastFrontier_of_endsDerivation ht
  -- the converse needs a derivation of every node met, which is what the condition gives
  all_goals
    have hclosed := closedInline_reachesFrom (ofCalls calls) xs
    have hroots : ∀ x ∈ xs, ((ofCalls calls).graph Node.inlineChildren).ReachesFrom xs x :=
      fun x hx => ⟨x, hx, .refl x⟩
    have hderives : ∀ x, ((ofCalls calls).graph Node.inlineChildren).ReachesFrom xs x →
        ∃ ts, (ofCalls calls).Derives x ts := fun x hx =>
      ha.ordered.exists_derives (ha.ordered.lt_size_of_reachesFrom hxs hx) (hchoices.of_mem hx)
  · exact ha.explainsNullable.startsDerivation_of_mem_firstFrontier hclosed hderives hroots ht
  · exact ha.explainsNullable.endsDerivation_of_mem_lastFrontier hclosed hderives hroots ht

/-- A letter that may be left out, and the letter that may be left out before another one: both
letters and nothing can come first, and the other letter comes last. -/
theorem frontiers_adequate_optional :
    (ofCalls [.literal "", .literal "a", .choice [.node 0, .node 1], .literal "b",
        .sequence [.node 2, .node 3]]).firstFrontier? [2, 4] = some [0, 1, 3] ∧
      (ofCalls [.literal "", .literal "a", .choice [.node 0, .node 1], .literal "b",
        .sequence [.node 2, .node 3]]).lastFrontier? [2, 4] = some [3] ∧
      (∀ t ∈ [0, 1, 3], (ofCalls [.literal "", .literal "a", .choice [.node 0, .node 1],
        .literal "b", .sequence [.node 2, .node 3]]).StartsDerivation [2, 4] t) ∧
      (ofCalls [.literal "", .literal "a", .choice [.node 0, .node 1], .literal "b",
        .sequence [.node 2, .node 3]]).EndsDerivation [2, 4] 3 := by
  have hnodes : (ofCalls [.literal "", .literal "a", .choice [.node 0, .node 1], .literal "b",
      .sequence [.node 2, .node 3]]).nodes = #[⟨.literal "", {}, true⟩, ⟨.literal "a", {}, false⟩,
        ⟨.choice [0, 1], {}, true⟩, ⟨.literal "b", {}, false⟩, ⟨.sequence [2, 3], {}, false⟩] := by
    cbv
  have hfirst : (ofCalls [.literal "", .literal "a", .choice [.node 0, .node 1], .literal "b",
      .sequence [.node 2, .node 3]]).firstFrontier? [2, 4] = some [0, 1, 3] := by cbv
  have hlast : (ofCalls [.literal "", .literal "a", .choice [.node 0, .node 1], .literal "b",
      .sequence [.node 2, .node 3]]).lastFrontier? [2, 4] = some [3] := by cbv
  have hxs : ∀ x ∈ [2, 4], x < (ofCalls [.literal "", .literal "a", .choice [.node 0, .node 1],
      .literal "b", .sequence [.node 2, .node 3]]).nodes.size := by
    rw [hnodes]
    decide
  have hchoices : ∀ n ∈ (ofCalls [.literal "", .literal "a", .choice [.node 0, .node 1],
      .literal "b", .sequence [.node 2, .node 3]]).nodes, n.kind ≠ .choice [] := by
    rw [hnodes]
    decide
  obtain ⟨first, last, hfirst', hlast', -, -, hexact⟩ := frontiers_adequate [.literal "",
    .literal "a", .choice [.node 0, .node 1], .literal "b", .sequence [.node 2, .node 3]] [2, 4] hxs
  obtain rfl := Option.some.inj (hfirst.symm.trans hfirst')
  obtain rfl := Option.some.inj (hlast.symm.trans hlast')
  obtain ⟨hstarts, hends⟩ := hexact fun x _ hkind => by
    obtain ⟨n, hn, hempty⟩ := kind?_eq_some.1 hkind
    exact hchoices n (Array.mem_of_getElem? hn) hempty
  exact ⟨hfirst, hlast, hstarts, hends 3 (List.mem_singleton_self 3)⟩

end GuidedGrammar.Arena
