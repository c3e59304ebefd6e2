import GuidedGrammar.Proofs.Grammar.Construction
import GuidedGrammar.Proofs.Grammar.Outline
import GuidedGrammar.Proofs.Grammar.Sequence

/-!
# What building leaves alone

Regexes and nodes are only ever added, and what is there stays as it is (`Builder.Appends`), with
two exceptions: a nested grammar is given its start by a successful definition, and a successful
sequence gives stops to generations that can come last in one of its elements but the last
(`Call.Changes`). Both happen at most once to a node. There is one lemma for each operation
(`Call.frame` puts them together).
-/

namespace GuidedGrammar

/-- An arena that still has all regexes and nodes of another one. -/
structure Arena.Extends (a b : Arena) : Prop where
  regexes : a.regexes.Extends b.regexes
  nodes : ∀ (id : NodeId) (n : Node), a.node? id = some n → b.node? id = some n

namespace Arena.Extends

variable {a b c : Arena}

theorem refl (a : Arena) : a.Extends a :=
  ⟨RegexStore.Extends.refl _, fun _ _ h => h⟩

theorem trans (h : a.Extends b) (h' : b.Extends c) : a.Extends c :=
  ⟨h.regexes.trans h'.regexes, fun id n hn => h'.nodes id n (h.nodes id n hn)⟩

theorem withRegex (a : Arena) (r : Regex RegexId) : a.Extends (a.withRegex r) :=
  ⟨RegexStore.Extends.push a.regexes r, fun _ _ h => h⟩

theorem withNode (a : Arena) (n : Node) : a.Extends (a.withNode n) := by
  refine ⟨RegexStore.Extends.refl _, fun id n' hn' => ?_⟩
  rw [node?_withNode, if_neg (Nat.ne_of_lt (node?_eq_some_lt hn'))]
  exact hn'

end Arena.Extends

/-- A start that is set stays. -/
theorem Arena.Grows.kind?_of_start {a b : Arena} (h : a.Grows b) {id start : NodeId}
    {skip : Option RegexId} (hid : a.kind? id = some (.nested (some start) skip)) :
    b.kind? id = some (.nested (some start) skip) := by
  obtain ⟨n, hn, hkind⟩ := kind?_eq_some.1 hid
  obtain ⟨n', hn', hbecomes⟩ := h.nodes id n hn
  refine kind?_eq_some.2 ⟨n', hn', ?_⟩
  cases hbecomes with
  | same => exact hkind
  | start | stop => cases hkind

namespace Builder

open Arena

variable {α β : Type} {a : Arena}

/-! ### Computations that only add -/

/-- The arena after a computation, whether or not it succeeds. -/
def after (m : Builder α) (a : Arena) : Arena :=
  match m a with
  | .ok _ b => b
  | .error _ b => b

/-- **A computation that only adds** regexes and nodes. -/
def Appends (m : Builder α) : Prop :=
  ∀ a : Arena, a.Extends (after m a)

theorem appends_pure (r : α) : Appends (pure r) :=
  Extends.refl

theorem appends_throw (e : Error) : Appends (throw e : Builder α) :=
  Extends.refl

theorem appends_get : Appends (get : Builder Arena) :=
  Extends.refl

theorem after_of_ok {m : Builder α} {r : α} {b : Arena} (h : m a = .ok r b) : after m a = b := by
  rw [after, h]

theorem after_of_error {m : Builder α} {e : Error} {b : Arena} (h : m a = .error e b) :
    after m a = b := by
  rw [after, h]

/-- What holds after one computation and another: after the first one if it fails, and else
after the second one. -/
theorem after_bind {m : Builder α} {f : α → Builder β} {P : Arena → Prop}
    (herror : P (after m a)) (hok : ∀ r b, m a = .ok r b → P (after (f r) b)) :
    P (after (m >>= f) a) := by
  cases hrun : m a with
  | error e b =>
    rw [after_of_error (run_bind_of_error hrun)]
    rwa [after_of_error hrun] at herror
  | ok r b =>
    have hafter : after (m >>= f) a = after (f r) b := by rw [after, run_bind_of_ok hrun, after]
    rw [hafter]
    exact hok r b hrun

theorem appends_bind {m : Builder α} {f : α → Builder β} (hm : Appends m)
    (hf : ∀ r, Appends (f r)) : Appends (m >>= f) :=
  fun a => after_bind (hm a) fun r b hrun => (after_of_ok hrun ▸ hm a).trans (hf r b)

theorem appends_map {m : Builder α} (hm : Appends m) (f : α → β) : Appends (f <$> m) := by
  rw [map_eq_pure_bind]
  exact appends_bind hm fun r => appends_pure (f r)

theorem appends_mapM {f : α → Builder β} (hf : ∀ x, Appends (f x)) (xs : List α) :
    Appends (xs.mapM f) := by
  induction xs with
  | nil => exact appends_pure []
  | cons x xs ih =>
    rw [List.mapM_cons]
    exact appends_bind (hf x) fun y => appends_bind ih fun ys => appends_pure (y :: ys)

theorem appends_forM {f : α → Builder Unit} (hf : ∀ x, Appends (f x)) (xs : List α) :
    Appends (xs.forM f) := by
  induction xs with
  | nil => exact appends_pure ()
  | cons x xs ih => exact appends_bind (hf x) fun _ => ih

/-! ### Adding and checking -/

theorem appends_addRegex (r : Regex RegexId) : Appends (addRegex r) :=
  fun a => .withRegex a r

theorem appends_addNode (n : Node) : Appends (addNode n) :=
  fun a => .withNode a n

theorem appends_needNode (operation : Operation) (id : NodeId) :
    Appends (needNode operation id) := by
  refine appends_bind appends_get fun a => ?_
  split
  · exact appends_pure _
  · exact appends_throw _

theorem appends_needRegex (operation : Operation) (id : RegexId) :
    Appends (needRegex operation id) := by
  refine appends_bind appends_get fun a => ?_
  split
  · exact appends_throw _
  · exact appends_pure _

theorem appends_checkRegex (id : RegexId) : Appends (checkRegex id) := by
  refine appends_bind appends_get fun a => ?_
  split
  · exact appends_pure _
  · exact appends_throw _

/-- A regex that may be missing is checked before something else is done. -/
theorem appends_checkRegex? {regex : Option RegexId} {m : Builder α} (hm : Appends m) :
    Appends (match regex with
      | some regex => checkRegex regex >>= fun _ => m
      | none => m) := by
  cases regex with
  | none => exact hm
  | some regex => exact appends_bind (appends_checkRegex regex) fun _ => hm

theorem appends_combination (operation : Operation) (parts : List RegexId) (r : Regex RegexId) :
    Appends (do
      parts.forM (needRegex operation)
      addRegex r) :=
  appends_bind (appends_forM (appends_needRegex operation) parts) fun _ => appends_addRegex r

theorem appends_modification (operation : Operation) (part : RegexId) (r : Regex RegexId) :
    Appends (do
      needRegex operation part
      addRegex r) :=
  appends_bind (appends_needRegex operation part) fun _ => appends_addRegex r

theorem appends_repetition (part : RegexId) (min : UInt32) (max : Option UInt32) :
    Appends (repetition part min max) := by
  refine appends_bind (appends_needRegex .repetition part) fun _ => ?_
  split
  · exact appends_throw _
  · exact appends_addRegex _

theorem appends_regexItem (x : RegexItem) : Appends (regexItem x) := by
  cases x with
  | regex id => exact appends_pure id
  | source s => exact appends_addRegex _

/-! ### Nodes -/

theorem appends_literal (text : String) : Appends (literal text) :=
  appends_addNode _

theorem appends_item (x : Item) : Appends (item x) := by
  cases x with
  | node id => exact appends_bind (appends_needNode .grammar id) fun _ => appends_pure id
  | text s => exact appends_literal s

theorem appends_generationName (options : GenerationOptions) :
    Appends (generationName options) := by
  unfold generationName
  split
  · exact appends_pure _
  · exact appends_throw _
  · exact appends_pure _

theorem appends_generationStop (x : Option StopItem) : Appends (generationStop x) := by
  unfold generationStop
  split
  · exact appends_pure _
  · split
    · exact appends_pure _
    · exact appends_bind (appends_addRegex _) fun _ => appends_pure _
  · exact appends_bind (appends_regexItem _) fun _ => appends_pure _

theorem appends_generation (options : GenerationOptions) : Appends (generation options) := by
  refine appends_bind (appends_generationName options) fun name => ?_
  refine appends_bind (appends_regexItem _) fun body => ?_
  refine appends_bind (appends_checkRegex body) fun _ => ?_
  refine appends_bind (appends_generationStop options.stop) fun stop => ?_
  exact appends_checkRegex? (appends_addNode _)

theorem appends_lexeme (x : RegexItem) (contextual : Option Bool) (temperature : Option Binary32) :
    Appends (lexeme x contextual temperature) :=
  appends_bind (appends_regexItem x) fun regex =>
    appends_bind (appends_checkRegex regex) fun _ => appends_addNode _

theorem appends_choice (alternatives : List Item) : Appends (choice alternatives) :=
  appends_bind (appends_mapM appends_item alternatives) fun _ =>
    appends_bind appends_get fun _ => appends_addNode _

theorem appends_nested (start : Item) (skip : Option RegexId) : Appends (nested start skip) :=
  appends_bind (appends_item start) fun _ => appends_checkRegex? (appends_addNode _)

theorem appends_copyWith (id : NodeId) (change : Props → Props) : Appends (copyWith id change) :=
  appends_bind (appends_needNode .properties id) fun _ => appends_addNode _

theorem appends_capture (id : NodeId) (name : String) : Appends (capture id name) :=
  appends_copyWith id _

end Builder

/-! ### What a sequence changes -/

namespace Arena

variable {a b : Arena}

/-- Nothing is pending at the end of a nested grammar. -/
theorem pending_of_isNested {x : NodeId} (hx : a.isNested x = true) : a.pending x = [] := by
  obtain ⟨start, skip, hnested⟩ := isNested_iff.1 hx
  obtain ⟨n, hn, hkind⟩ := kind?_eq_some.1 hnested
  rw [List.eq_nil_iff_forall_not_mem]
  intro id hid
  obtain ⟨hlast, hopen⟩ := List.mem_filter.1 hid
  obtain ⟨r, hr, hreaches⟩ := Digraph.mem_depthFirst.1 (List.mem_filter.1 hlast).1
  obtain rfl := List.mem_singleton.1 (mem_of_mem_untilSolid hr)
  rcases hreaches.cases_head with rfl | ⟨y, hy, -⟩
  · rw [hasOpenStop, generation?, hn, Option.bind_some, Node.generation?, hkind] at hopen
    cases hopen
  · obtain ⟨n', hn', hmem⟩ := edge_graph_iff.1 hy
    obtain rfl := Option.some.inj (hn.symm.trans hn')
    rw [trailing, hkind] at hmem
    exact absurd hmem List.not_mem_nil

end Arena

namespace Builder

open Arena

variable {a : Arena}

theorem extends_items {elements : List Item} {ids : List NodeId} {b : Arena}
    (h : items elements a = .ok ids b) : a.Extends b := by
  have hadd := appends_mapM appends_item elements a
  have hafter : after (items elements) a = b := by rw [after, h]
  exact hafter ▸ hadd

/-- What a successful sequence changes. A node that is not kept is a generation that can come
last in an element other than the last one. -/
theorem sequence_frame (ha : a.Consistent) {elements : List Item} {j : NodeId} {b : Arena}
    (h : sequence elements a = .ok j b) {id : NodeId} {n : Node} (hn : a.node? id = some n) :
    b.node? id = some n ∨ ∃ before x rest, b.kind? j = some (.sequence (before ++ x :: rest)) ∧
      rest ≠ [] ∧ id ∈ b.lastFrontier [x] ∧ ∃ g, n.kind = .generation g := by
  rcases sequence_cases a elements with ⟨e, herror⟩ | ⟨ids, stops, c, hitems, hinfer, hrun⟩
  · rw [herror] at h
    cases h
  · rw [hrun] at h
    obtain ⟨rfl, rfl⟩ := EStateM.Result.ok.inj h
    obtain ⟨hsteps, hids⟩ := (builds_items elements).of_ok hitems
    have hkept : c.node? id = some n := (extends_items hitems).nodes id n hn
    -- a node changes only if a stop was chosen for it, and then it was pending
    by_cases hmem : id ∈ stops.map Prod.fst
    · obtain ⟨before, x, rest, rfl, hne, hpending⟩ := pending_of_mem_inferStops hinfer hmem
      obtain ⟨hlast, hopen⟩ := List.mem_filter.1 hpending
      have hx : x < c.nodes.size := hids x (List.mem_append_right _ (List.mem_cons_self ..))
      refine Or.inr ⟨before, x, rest, kind?_withSequence c _ stops, hne, ?_, ?_⟩
      · rw [(grows_withSequence c _ stops).lastFrontier_eq (hsteps.consistent ha).ordered
          (List.forall_mem_singleton.2 hx)]
        exact hlast
      · -- only generations have a stop
        obtain ⟨g, hg, -⟩ := (Option.any_eq_true _ _).1 hopen
        exact ⟨g, kind_of_kind? hkept (generation?_eq_some.1 hg)⟩
    · exact Or.inl (node?_withSequence_of_not_mem hkept hmem)

theorem extends_sequence (a : Arena) (elements : List Item) :
    a.regexes.Extends (after (sequence elements) a).regexes := by
  unfold after
  rcases sequence_cases a elements with ⟨e, herror⟩ | ⟨ids, stops, c, hitems, -, hrun⟩
  · rw [herror]
    exact RegexStore.Extends.refl _
  · rw [hrun]
    exact (extends_items hitems).regexes.trans (grows_withSequence c ids stops).regexes

/-- A sequence of a nested grammar and another node gives no stops. -/
theorem extends_sequence_of_isNested {x y : NodeId} (hx : a.isNested x = true) :
    a.Extends (after (sequence [.node x, .node y]) a) := by
  unfold after
  rcases sequence_cases a [.node x, .node y] with
    ⟨e, herror⟩ | ⟨ids, stops, c, hitems, hinfer, hrun⟩
  · rw [herror]
    exact .refl a
  · rw [hrun]
    have hnodes : items ([x, y].map .node) a = .ok ids c := hitems
    obtain ⟨rfl, rfl⟩ := items_of_nodes hnodes
    -- the nested grammar is the only element but the last, and nothing is pending there
    have hkeys : ∀ id, id ∉ stops.map Prod.fst := by
      intro id hid
      obtain ⟨before, z, rest, heq, hne, hpending⟩ := pending_of_mem_inferStops hinfer hid
      cases before with
      | nil =>
        obtain ⟨rfl, -⟩ := List.cons.inj heq
        rw [pending_of_isNested hx] at hpending
        exact absurd hpending List.not_mem_nil
      | cons w before =>
        obtain ⟨-, heq⟩ := List.cons.inj heq
        rcases List.singleton_eq_append_iff.1 heq with ⟨-, h⟩ | ⟨-, h⟩
        · exact hne (List.cons.inj h).2
        · cases h
    exact ⟨(grows_withSequence c _ stops).regexes,
      fun id n hn => node?_withSequence_of_not_mem hn (hkeys id)⟩

/-! ### What a definition changes -/

/-- Nested grammars were there before an item was added. -/
theorem kind?_of_item {x : Item} {start : NodeId} {b : Arena} (h : item x a = .ok start b)
    {id : NodeId} {skip : Option RegexId} (hid : b.kind? id = some (.nested none skip)) :
    a.kind? id = some (.nested none skip) := by
  rcases item_run x a with ⟨e, herror⟩ | ⟨_, -, -, hrun⟩ | ⟨s, -, hrun⟩
  · rw [herror] at h
    cases h
  · rw [hrun] at h
    obtain ⟨-, rfl⟩ := EStateM.Result.ok.inj h
    exact hid
  · rw [hrun] at h
    obtain ⟨-, rfl⟩ := EStateM.Result.ok.inj h
    rw [kind?, node?_withNode] at hid
    split at hid
    · cases hid
    · exact hid

/-- What a definition does: it fails after adding its item, or gives a nested grammar that has
none its start. -/
theorem define_cases (a : Arena) (id : NodeId) (x : Item) :
    (∃ e b, define id x a = .error e b ∧ a.Extends b) ∨
      ∃ start b skip, item x a = .ok start b ∧ a.Extends b ∧
        b.kind? id = some (.nested none skip) ∧
        define id x a = .ok () (b.change id (withStart start)) := by
  have hadd := appends_item x a
  unfold after at hadd
  unfold define
  cases hitem : item x a with
  | error e b =>
    rw [hitem] at hadd
    rw [run_bind_of_error hitem]
    exact Or.inl ⟨e, b, rfl, hadd⟩
  | ok start b =>
    rw [hitem] at hadd
    rw [run_bind_of_ok hitem]
    -- the checks in their order: the node exists, is nested, and has no start yet
    cases hn : b.node? id with
    | none =>
      rw [run_bind_of_error (needNode_of_none hn)]
      exact Or.inl ⟨_, b, rfl, hadd⟩
    | some n =>
      have hkind : b.kind? id = some n.kind := kind?_eq_some.2 ⟨n, hn, rfl⟩
      rw [run_bind_of_ok (needNode_of_some hn)]
      cases hcase : n.kind with
      | nested start' skip =>
        cases start' with
        | none => exact Or.inr ⟨start, b, skip, rfl, hadd, hkind.trans (congrArg some hcase), rfl⟩
        | some _ => exact Or.inl ⟨_, b, rfl, hadd⟩
      | literal | generation | lexeme | choice | sequence => exact Or.inl ⟨_, b, rfl, hadd⟩

/-- Only the node that is defined changes. -/
theorem node?_define_of_ne {id id' : NodeId} (hne : id ≠ id') {x : Item} {n : Node}
    (hn : a.node? id' = some n) : (after (define id x) a).node? id' = some n := by
  unfold after
  rcases define_cases a id x with ⟨e, b, hrun, hadd⟩ | ⟨start, b, skip, -, hadd, -, hrun⟩
  · rw [hrun]
    exact hadd.nodes id' n hn
  · rw [hrun]
    show (b.change id (withStart start)).node? id' = some n
    rw [node?_change, if_neg hne]
    exact hadd.nodes id' n hn

theorem extends_define (a : Arena) (id : NodeId) (x : Item) :
    a.regexes.Extends (after (define id x) a).regexes := by
  unfold after
  rcases define_cases a id x with ⟨e, b, hrun, hadd⟩ | ⟨start, b, skip, -, hadd, -, hrun⟩
  · rw [hrun]
    exact hadd.regexes
  · rw [hrun]
    exact hadd.regexes

/-! ### Repetitions -/

theorem placeholder_run (a : Arena) :
    placeholder a = .ok a.nodes.size (a.withNode ⟨.nested none none, {}, false⟩) :=
  rfl

/-- Closing a loop through a placeholder only adds: the nested grammar that is given its start
was added before. -/
theorem appends_loop (once : NodeId) (first : Item) :
    Appends (do
      let repeated ← placeholder
      let more ← sequence [.node repeated, .node once]
      let body ← choice [first, .node more]
      define repeated (.node body)
      return repeated) := by
  intro a
  have hplaceholder := Extends.withNode a ⟨.nested none none, {}, false⟩
  refine after_bind hplaceholder fun repeated b hb => ?_
  obtain ⟨rfl, rfl⟩ := EStateM.Result.ok.inj ((placeholder_run a).symm.trans hb)
  have hnested : (a.withNode ⟨.nested none none, {}, false⟩).isNested a.nodes.size = true := by
    rw [isNested, node?_withNode, if_pos rfl]
    rfl
  -- the placeholder is not a generation, so the inner sequence infers no stop
  have hsequence := extends_sequence_of_isNested (y := once) hnested
  refine after_bind (hplaceholder.trans hsequence) fun more c hc => ?_
  rw [after_of_ok hc] at hsequence
  have hchoice := appends_choice [first, .node more] c
  refine after_bind ((hplaceholder.trans hsequence).trans hchoice) fun body d hd => ?_
  rw [after_of_ok hd] at hchoice
  have hadd : a.Extends d := (hplaceholder.trans hsequence).trans hchoice
  -- the one node that is changed is the placeholder, which the arena did not have
  have hdefine : a.Extends (after (define a.nodes.size (.node body)) d) := by
    refine ⟨hadd.regexes.trans (extends_define d _ _), fun id n hn => ?_⟩
    have hne : a.nodes.size ≠ id := (Nat.ne_of_lt (node?_eq_some_lt hn)).symm
    exact node?_define_of_ne hne (hadd.nodes id n hn)
  exact after_bind hdefine fun _ _ he => after_of_ok he ▸ hdefine

theorem appends_oneOrMore (x : Item) : Appends (oneOrMore x) :=
  appends_bind (appends_item x) fun once => appends_loop once _

theorem appends_zeroOrMore (x : Item) : Appends (zeroOrMore x) :=
  appends_bind (appends_item x) fun once =>
    appends_bind (appends_literal "") fun _ => appends_loop once _

end Builder

/-! ### Calls -/

namespace Call

open Arena Builder

variable {a : Arena}

/-- A call that gives a nested grammar its start. -/
def Defines (call : Call) (a : Arena) (id : NodeId) : Prop :=
  (∃ x, call = .define id x) ∧ call.run a = .ok .done (call.after a) ∧
    ∃ start skip, a.kind? id = some (.nested none skip) ∧
      (call.after a).kind? id = some (.nested (some start) skip)

/-- A call that may give a generation a stop: it builds a sequence, and the generation can come
last in an element other than the last one. -/
def Infers (call : Call) (a : Arena) (id : NodeId) : Prop :=
  ((∃ elements, call = .sequence elements) ∨ ∃ first second, call = .pair first second) ∧
    ∃ j before x rest, call.run a = .ok (.node j) (call.after a) ∧
      (call.after a).kind? j = some (.sequence (before ++ x :: rest)) ∧ rest ≠ [] ∧
      id ∈ (call.after a).lastFrontier [x]

/-- **What a call may change of a node**: the start of a nested grammar and the stop of a generation
that have not been set, each by calls of one kind only. -/
inductive Changes (call : Call) (a : Arena) (id : NodeId) : Node → Node → Prop
  | kept (n : Node) : Changes call a id n n
  | start {props : Props} {nullable : Bool} {skip : Option RegexId} (start : NodeId)
    (hcall : call.Defines a id) :
    Changes call a id ⟨.nested none skip, props, nullable⟩
      ⟨.nested (some start) skip, props, nullable⟩
  | stop {props : Props} {nullable : Bool} {g : Generation} (hg : g.stop = .unset) (c : Char)
    (regex : RegexId) (source : NodeId) (hcall : call.Infers a id) :
    Changes call a id ⟨.generation g, props, nullable⟩
      ⟨.generation { g with stop := .inferred c regex source }, props, nullable⟩

theorem after_eq (call : Call) (a : Arena) : call.after a = Builder.after call.run a := by
  unfold Call.after Builder.after
  cases call.run a <;> rfl

theorem after_map {α : Type} (m : Builder α) (f : α → Result) :
    Builder.after (f <$> m) a = Builder.after m a := by
  rw [map_eq_pure_bind]
  exact after_bind (P := fun b => b = Builder.after m a) rfl fun r b hrun => (after_of_ok hrun).symm

theorem run_map_of_ok {α : Type} {m : Builder α} {r : α} {b : Arena} (h : m a = .ok r b)
    (f : α → Result) : (f <$> m) a = .ok (f r) b := by
  rw [map_eq_pure_bind]
  exact run_bind_of_ok h

theorem run_map_congr {α : Type} {m m' : Builder α} {b : Arena} (h : m a = m' b)
    (f : α → Result) : (f <$> m) a = (f <$> m') b := by
  show EStateM.map f m a = EStateM.map f m' b
  rw [EStateM.map, EStateM.map, h]

/-- Calls that only add: all but sequences and definitions. -/
theorem appends_run (call : Call) (hsequence : ∀ elements, call ≠ .sequence elements)
    (hpair : ∀ first second, call ≠ .pair first second) (hdefine : ∀ id x, call ≠ .define id x) :
    Appends call.run := by
  cases call with
  | regexLiteral text => exact appends_map (appends_addRegex _) _
  | pattern source => exact appends_map (appends_addRegex _) _
  | regexItem x => exact appends_map (appends_regexItem x) _
  | nothing => exact appends_map (appends_addRegex _) _
  | emptyText => exact appends_map (appends_addRegex _) _
  | byte b => exact appends_map (appends_addRegex _) _
  | byteLiteral bytes => exact appends_map (appends_addRegex _) _
  | byteSet bytes => exact appends_map (appends_addRegex _) _
  | union parts => exact appends_map (appends_combination .union parts _) _
  | intersection parts => exact appends_map (appends_combination .intersection parts _) _
  | concatenation parts => exact appends_map (appends_combination .concatenation parts _) _
  | complement part => exact appends_map (appends_modification .complement part _) _
  | lookahead part => exact appends_map (appends_modification .lookahead part _) _
  | repetition part min max => exact appends_map (appends_repetition part min max) _
  | literal text => exact appends_map (appends_literal text) _
  | item x => exact appends_map (appends_item x) _
  | generation options => exact appends_map (appends_generation options) _
  | lexeme x contextual temperature => exact appends_map (appends_lexeme x contextual temperature) _
  | keyword text =>
    exact appends_map (appends_bind (appends_addRegex _) fun _ => appends_lexeme _ _ _) _
  | choice alternatives => exact appends_map (appends_choice alternatives) _
  | sequence elements => exact absurd rfl (hsequence elements)
  | pair first second => exact absurd rfl (hpair first second)
  | nested start skip => exact appends_map (appends_nested start skip) _
  | placeholder => exact appends_map (appends_addNode _) _
  | define id x => exact absurd rfl (hdefine id x)
  | oneOrMore x => exact appends_map (appends_oneOrMore x) _
  | zeroOrMore x => exact appends_map (appends_zeroOrMore x) _
  | capture id name => exact appends_map (appends_capture id name) _
  | listCapture id name => exact appends_map (appends_capture id _) _
  | limitTokens id maxTokens => exact appends_map (appends_copyWith id _) _

/-- The frame of a call: what is not kept has been defined or inferred. -/
structure Frame (call : Call) (a : Arena) : Prop where
  regexes : a.regexes.Extends (call.after a).regexes
  nodes : ∀ (id : NodeId) (n : Node), a.node? id = some n → (call.after a).node? id = some n ∨
    call.Defines a id ∨ call.Infers a id ∧ ∃ g, n.kind = .generation g

theorem frame_of_extends {call : Call} (h : a.Extends (call.after a)) : call.Frame a :=
  ⟨h.regexes, fun id n hn => Or.inl (h.nodes id n hn)⟩

/-- Where a call ends like a sequence that is built after more has been added, it has the frame of
that sequence. -/
theorem frame_of_sequence {call : Call} {b : Arena} (hb : b.Consistent) {elements : List Item}
    (hcall : (∃ elements, call = .sequence elements) ∨ ∃ first second, call = .pair first second)
    (hadd : a.Extends b) (hrun : call.run a = (.node <$> Builder.sequence elements) b) :
    call.Frame a := by
  have hafter : call.after a = Builder.after (Builder.sequence elements) b := by
    rw [after_eq, Builder.after, hrun, ← Builder.after, after_map]
  refine ⟨?_, fun id n hn => ?_⟩
  · rw [hafter]
    exact hadd.regexes.trans (extends_sequence b elements)
  · -- a sequence that fails has changed no node at all
    cases hsequence : Builder.sequence elements b with
    | error e c =>
      rcases sequence_cases b elements with ⟨e', herror⟩ | ⟨_, _, _, -, -, hok⟩
      · rw [hafter, after_of_error herror]
        exact Or.inl (hadd.nodes id n hn)
      · rw [hok] at hsequence
        cases hsequence
    | ok j c =>
      have hc : call.after a = c := hafter.trans (after_of_ok hsequence)
      have hok : call.run a = .ok (.node j) (call.after a) := by
        rw [hc, hrun]
        exact run_map_of_ok hsequence _
      refine (sequence_frame hb hsequence (hadd.nodes id n hn)).imp (fun h => hc ▸ h) ?_
      rintro ⟨before, x, rest, hj, hne, hlast, hgen⟩
      exact Or.inr ⟨⟨hcall, j, before, x, rest, hok, hc ▸ hj, hne, hc ▸ hlast⟩, hgen⟩

theorem frame_pair (ha : a.Consistent) (first second : Item) :
    (Call.pair first second).Frame a := by
  have hafter : (Call.pair first second).after a = Builder.after (Builder.pair first second) a :=
    (after_eq _ a).trans (after_map _ _)
  have hfirst := appends_item first a
  cases hx : Builder.item first a with
  | error e b =>
    have herror : Builder.pair first second a = .error e b := run_bind_of_error hx
    rw [after_of_error hx, ← after_of_error herror, ← hafter] at hfirst
    exact frame_of_extends hfirst
  | ok x b =>
    rw [after_of_ok hx] at hfirst
    have hsecond := appends_item second b
    cases hy : Builder.item second b with
    | error e c =>
      have herror : Builder.pair first second a = .error e c :=
        (run_bind_of_ok hx).trans (run_bind_of_error hy)
      rw [after_of_error hy] at hsecond
      have hadd := hfirst.trans hsecond
      rw [← after_of_error herror, ← hafter] at hadd
      exact frame_of_extends hadd
    | ok y c =>
      rw [after_of_ok hy] at hsecond
      have hc : c.Consistent := ((builds_item second).of_ok hy).1.consistent
        (((builds_item first).of_ok hx).1.consistent ha)
      have hpair : Builder.pair first second a = Builder.sequence [.node x, .node y] c :=
        (run_bind_of_ok hx).trans (run_bind_of_ok hy)
      exact frame_of_sequence hc (Or.inr ⟨first, second, rfl⟩) (hfirst.trans hsecond)
        (run_map_congr hpair _)

/-- A definition that succeeds gives the nested grammar its start. -/
theorem defines_of_ok {id : NodeId} {x : Item} {r : Result} {b : Arena}
    (h : (Call.define id x).run a = .ok r b) : (Call.define id x).Defines a id := by
  rcases define_cases a id x with ⟨e, c, herror, -⟩ | ⟨start, c, skip, hitem, -, hkind, hrun⟩
  · -- the call cannot have failed, since its outcome is given
    have hfail : (Call.define id x).run a = .error e c := by
      show ((fun _ => Result.done) <$> Builder.define id x) a = _
      rw [map_eq_pure_bind]
      exact run_bind_of_error herror
    rw [hfail] at h
    cases h
  · have hok : (Call.define id x).run a = .ok .done (c.change id (withStart start)) :=
      run_map_of_ok hrun _
    have hafter : (Call.define id x).after a = c.change id (withStart start) := by
      rw [Call.after, hok]
    refine ⟨⟨x, rfl⟩, by rw [hafter, hok], start, skip, kind?_of_item hitem hkind, ?_⟩
    obtain ⟨n, hn, hcase⟩ := kind?_eq_some.1 hkind
    rw [hafter, kind?, node?_change, if_pos rfl, hn, Option.map_some, Option.map_some, withStart,
      hcase]

theorem frame_define (id : NodeId) (x : Item) : (Call.define id x).Frame a := by
  have hafter : (Call.define id x).after a = Builder.after (Builder.define id x) a :=
    (after_eq _ a).trans (after_map _ _)
  refine ⟨hafter ▸ extends_define a id x, fun id' n hn => ?_⟩
  by_cases hid : id = id'
  · subst hid
    rcases define_cases a id x with ⟨e, b, hrun, hadd⟩ | ⟨start, b, skip, -, -, -, hrun⟩
    · rw [hafter, after_of_error hrun]
      exact Or.inl (hadd.nodes id n hn)
    · exact Or.inr (Or.inl (defines_of_ok (run_map_of_ok hrun _)))
  · rw [hafter]
    exact Or.inl (node?_define_of_ne hid hn)

/-- **Every call has a frame.** -/
theorem frame (ha : a.Consistent) (call : Call) : call.Frame a := by
  by_cases hsequence : ∃ elements, call = .sequence elements
  · obtain ⟨elements, rfl⟩ := hsequence
    exact frame_of_sequence ha (Or.inl ⟨elements, rfl⟩) (.refl a) rfl
  by_cases hpair : ∃ first second, call = .pair first second
  · obtain ⟨first, second, rfl⟩ := hpair
    exact frame_pair ha first second
  by_cases hdefine : ∃ id x, call = .define id x
  · obtain ⟨id, x, rfl⟩ := hdefine
    exact frame_define id x
  · refine frame_of_extends ?_
    rw [after_eq]
    exact appends_run call (fun elements h => hsequence ⟨elements, h⟩)
      (fun first second h => hpair ⟨first, second, h⟩) (fun id x h => hdefine ⟨id, x, h⟩) a

/-- What becomes of a node is what the call may change of it. -/
theorem changes_of_frame {call : Call} (h : call.Frame a) {id : NodeId} {n n' : Node}
    (hn : a.node? id = some n) (hn' : (call.after a).node? id = some n')
    (hbecomes : n.Becomes n') : call.Changes a id n n' := by
  rcases h.nodes id n hn with hkept | hdefines | ⟨hinfers, g, hg⟩
  · obtain rfl := Option.some.inj (hkept.symm.trans hn')
    exact .kept n
  · cases hbecomes with
    | same => exact .kept n
    | start start => exact .start start hdefines
    | stop =>
      -- a generation is not defined
      obtain ⟨_, _, _, skip, hkind, _⟩ := hdefines
      cases kind_of_kind? hn hkind
  · cases hbecomes with
    | same => exact .kept n
    | start => cases hg
    | stop hunset c regex source => exact .stop hunset c regex source hinfers

/-- **Nodes are only ever added, and written once.** A call keeps all regexes and nodes, but for the
start of a nested grammar, which a definition sets, and the stops of generations, which a sequence
sets. However many calls follow, stops and starts that have been set stay. -/
theorem nodes_writeOnce (calls : List Call) (call : Call) (more : List Call) :
    (ofCalls calls).regexes.Extends (call.after (ofCalls calls)).regexes ∧
      (∀ id n, (ofCalls calls).node? id = some n →
        ∃ n', (call.after (ofCalls calls)).node? id = some n' ∧
          call.Changes (ofCalls calls) id n n') ∧
      (∀ id x r b, call = .define id x → call.run (ofCalls calls) = .ok r b →
        call.Defines (ofCalls calls) id) ∧
      (∀ id g, (ofCalls calls).generation? id = some g → g.stop ≠ .unset →
        (more.foldl Call.after (ofCalls calls)).generation? id = some g) ∧
      ∀ id start skip, (ofCalls calls).kind? id = some (.nested (some start) skip) →
        (more.foldl Call.after (ofCalls calls)).kind? id = some (.nested (some start) skip) := by
  have ha := consistent_ofCalls calls
  have hframe := frame ha call
  have hmore := (steps_foldl_after ha more).grows
  refine ⟨hframe.regexes, fun id n hn => ?_, ?_, ?_, ?_⟩
  · obtain ⟨n', hn', hbecomes⟩ := (steps_after ha call).grows.nodes id n hn
    exact ⟨n', hn', changes_of_frame hframe hn hn' hbecomes⟩
  · rintro id x r b rfl hrun
    exact defines_of_ok hrun
  · exact fun id g hg hstop => hmore.generation?_of_stop_ne hg hstop
  · exact fun id start skip hid => hmore.kind?_of_start hid

end Call

end GuidedGrammar
